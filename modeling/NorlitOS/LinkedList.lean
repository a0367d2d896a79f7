import NorlitOS.Lib.Loop
import NorlitOS.Lib.Rings

/-!
# The linked lists

The list operations write four pointers at most, and some of these may belong to one node: the list may
be empty, or of one node, and the nodes may be neighbours. Each of them is one link or two between nodes
in place before it, whatever nodes are the same, so what the operations do to the sequences follows from
what links do to rings.
-/

namespace NorlitOS.LinkedList

open Links

variable {P : Type} [DecidableEq P]

/-! ## The operations

As in `list.h`, with the heap of links passed on from store to store. -/

/-- `p->next = q`. -/
def setNext (p q : P) (h : Links P) : Links P := { h with next := Function.update h.next p q }

/-- `p->prev = q`. -/
def setPrev (p q : P) (h : Links P) : Links P := { h with prev := Function.update h.prev p q }

def list_empty (head : P) (h : Links P) : Bool := h.next head == head

def init_list (ptr : P) (h : Links P) : Links P :=
  let h := setNext ptr ptr h
  setPrev ptr ptr h

def list_insert (newl prev next : P) (h : Links P) : Links P :=
  let h := setNext prev newl h
  let h := setPrev newl prev h
  let h := setPrev next newl h
  setNext newl next h

def list_add_head (newl head : P) (h : Links P) : Links P := list_insert newl head (h.next head) h

def list_add_tail (newl head : P) (h : Links P) : Links P := list_insert newl (h.prev head) head h

def list_hide (entry : P) (h : Links P) : Links P :=
  let h := setNext (h.prev entry) (h.next entry) h
  setPrev (h.next entry) (h.prev entry) h

def list_del (entry : P) (h : Links P) : Links P := init_list entry (list_hide entry h)

def list_move_head (entry head : P) (h : Links P) : Links P :=
  list_add_head entry head (list_hide entry h)

def list_move_tail (entry head : P) (h : Links P) : Links P :=
  list_add_tail entry head (list_hide entry h)

def list_concat (dest src : P) (h : Links P) : Links P :=
  let h := setNext (h.prev dest) (h.next src) h
  let h := setPrev (h.next src) (h.prev dest) h
  let h := setPrev dest (h.prev src) h
  setNext (h.prev src) dest h

def list_slice (left right : P) (h : Links P) : Links P :=
  let h := setNext (h.prev left) (h.next right) h
  let h := setPrev (h.next right) (h.prev left) h
  let h := setPrev left right h
  setNext right left h

/-! ## The operations as links

`h.link a b` makes `b` the successor of `a` and `a` the predecessor of `b`. Every operation is one
such link or two, in terms of the links before it. -/

variable {h : Links P} {L : P → Option (List P)} {a b n x : P} {l m r xs ys : List P}

/-- A pointer that is read again after it has been copied, even when it has been copied to itself. -/
theorem update_read (f : P → P) (p e : P) : Function.update f p (f e) e = f e := by
  by_cases he : e = p
  · rw [he, Function.update_self]
  · rw [Function.update_of_ne he]

theorem init_list_eq (ptr : P) (h : Links P) : init_list ptr h = h.link ptr ptr := rfl

/-- Two links, one on each side of the new node. -/
theorem list_insert_eq (newl prev next : P) (h : Links P) :
    list_insert newl prev next h = (h.link prev newl).link newl next := rfl

/-- One link from the predecessor to the successor. -/
theorem list_hide_eq (entry : P) (h : Links P) :
    list_hide entry h = h.link (h.prev entry) (h.next entry) := by
  simp only [list_hide, setNext, setPrev, update_read]
  rfl

/-- One link that closes the gap, and one that closes the piece taken out. -/
theorem list_slice_eq (left right : P) (h : Links P) :
    list_slice left right h = (h.link (h.prev left) (h.next right)).link right left := by
  simp only [list_slice, setNext, setPrev, update_read]
  rfl

/-- The last pointer of the source is read after the first one has been written: they are the same when
the source is empty. -/
theorem list_concat_eq (dest src : P) (h : Links P) :
    list_concat dest src h =
      let h' := h.link (h.prev dest) (h.next src)
      h'.link (h'.prev src) dest := by
  simp only [list_concat, setNext, setPrev, update_read]
  rfl

/-! ## Single operations

What the links do to the sequences. A list that is not named is not touched, since its nodes are
not linked. -/

/-- A node that is no element of a list heads an empty one, whatever it headed. -/
theorem init_list_spec (hrep : h.Represents L) (hn : ∀ a xs, L a = some xs → n ∉ xs) :
    (init_list n h).Represents (Function.update L n (some [])) := by
  have hfree := free_of_notMem hn
  -- a node linked to itself is an empty ring
  have hring : (h.link n n).Ring n [] := Ring.close (List.isChain_singleton n) (List.nodup_singleton n)
  have hadd := ((hrep.drop n).link hfree hfree).add hring fun y hy => by
    rwa [List.mem_singleton.mp hy]
  rw [init_list_eq]
  rwa [Function.update_idem] at hadd

/-- Between any two neighbours. -/
theorem list_insert_spec (hrep : h.Represents L) (ha : L a = some (l ++ r)) (hn : Idle L n)
    (hne : n ≠ a) :
    (list_insert n (l.getLastD a) (r.headD a) h).Represents
      (Function.update (Function.update L n none) a (some (l ++ n :: r))) := by
  have hout : n ∉ a :: (l ++ r) := fun hmem => hne (hn _ _ ha hmem).1.symm
  have hfree : ∀ y ∈ a :: (l ++ r), Free (Function.update (Function.update L n none) a none) y :=
    fun y hy => (hrep.drop n).free_of_drop (update_none_eq_some.mpr ⟨hne.symm, ha⟩) hy
  have hfreen := (free_of_notMem hn.notMem).drop a
  -- two links: in front of the new node and behind it
  have hadd := ((((hrep.drop n).drop a).link (hfree _ (getLastD_mem l r a)) hfreen).link hfreen
    (hfree _ (headD_mem l r a))).add ((hrep.ring ha).insert hout) fun y hy => by
      obtain rfl | hy : y = n ∨ y ∈ a :: (l ++ r) := by
        simp only [List.mem_cons, List.mem_append] at hy ⊢
        tauto
      · exact hfreen
      · exact hfree y hy
  rw [list_insert_eq]
  rwa [Function.update_idem] at hadd

/-- In front of the first node. -/
theorem list_add_head_spec (hrep : h.Represents L) (ha : L a = some xs) (hn : Idle L n) (hne : n ≠ a) :
    (list_add_head n a h).Represents
      (Function.update (Function.update L n none) a (some (n :: xs))) := by
  have hspec := list_insert_spec (l := []) hrep ha hn hne
  rwa [List.getLastD_nil, ← (hrep.ring ha).head.1] at hspec

/-- Behind the last node. -/
theorem list_add_tail_spec (hrep : h.Represents L) (ha : L a = some xs) (hn : Idle L n) (hne : n ≠ a) :
    (list_add_tail n a h).Represents
      (Function.update (Function.update L n none) a (some (xs ++ [n]))) := by
  have hspec := list_insert_spec (r := []) hrep ((List.append_nil xs).symm ▸ ha) hn hne
  rwa [List.headD_nil, ← (hrep.ring ha).head.2] at hspec

/-- A segment is taken off its list, and its nodes are free. -/
theorem unlink_spec (hrep : h.Represents L) (ha : L a = some (l ++ x :: m ++ r)) :
    (h.link (h.prev x) (h.next (m.getLastD x))).Represents (Function.update L a (some (l ++ r))) ∧
      ∀ y ∈ x :: m, Free (Function.update L a (some (l ++ r))) y := by
  have hr := hrep.ring ha
  obtain ⟨hfirst, -, hlast, -⟩ := hr.cut
  rw [getLastD_append_cons] at hlast
  have hprev := (seg_join.mp hfirst).2.2.2
  have hfree : ∀ y ∈ x :: m ++ a :: (l ++ r), Free (Function.update L a none) y :=
    fun y hy => hrep.free_of_drop ha ((perm_cut a x l m r).mem_iff.mpr hy)
  have hkept : ∀ y ∈ a :: (l ++ r), Free (Function.update L a none) y :=
    fun y hy => hfree y (List.mem_append_right _ hy)
  -- what is cut out and what is kept have no node in common
  have hapart := (List.nodup_append.mp ((perm_cut a x l m r).nodup_iff.mp hr.nodup)).2.2
  constructor
  -- the two neighbours of the segment are linked
  · have hp : Free (Function.update L a none) (h.prev x) := hprev ▸ hkept _ (getLastD_mem l r a)
    have hq : Free (Function.update L a none) (h.next (m.getLastD x)) :=
      hlast ▸ hkept _ (headD_mem l r a)
    have hadd := ((hrep.drop a).link hp hq).add hr.cutOut.1 hkept
    rwa [Function.update_idem] at hadd
  · intro y hy
    have hadd := (hfree y (List.mem_append_left _ hy)).add fun hmem => hapart y hy y hmem rfl
    rwa [Function.update_idem] at hadd

/-- The node leaves its list. Its own two pointers still point into the list, so it is on none. -/
theorem list_hide_spec (hrep : h.Represents L) (ha : L a = some (l ++ x :: r)) :
    (list_hide x h).Represents (Function.update L a (some (l ++ r))) ∧
      Free (Function.update L a (some (l ++ r))) x := by
  have hspec := unlink_spec (m := []) hrep (r := r) (by rwa [List.append_assoc])
  rw [list_hide_eq]
  exact ⟨hspec.1, hspec.2 x List.mem_cons_self⟩

/-- The node leaves its list and becomes an empty one. -/
theorem list_del_spec (hrep : h.Represents L) (ha : L a = some (l ++ x :: r)) :
    (list_del x h).Represents
      (Function.update (Function.update L a (some (l ++ r))) x (some [])) := by
  obtain ⟨hrep', hfree⟩ := list_hide_spec hrep ha
  exact init_list_spec hrep' hfree.idle.notMem

/-- From one list, or from another place of the same one, to the head. -/
theorem list_move_head_spec (hrep : h.Represents L) (ha : L a = some (l ++ x :: r))
    (hb : Function.update L a (some (l ++ r)) b = some ys) :
    (list_move_head x b h).Represents
      (Function.update (Function.update L a (some (l ++ r))) b (some (x :: ys))) := by
  obtain ⟨hrep', hfree⟩ := list_hide_spec hrep ha
  have hne : x ≠ b := fun h => hfree b ys hb (h ▸ List.mem_cons_self)
  have hspec := list_add_head_spec hrep' hb hfree.idle hne
  rwa [hfree.update_none] at hspec

/-- The same for the tail. -/
theorem list_move_tail_spec (hrep : h.Represents L) (ha : L a = some (l ++ x :: r))
    (hb : Function.update L a (some (l ++ r)) b = some ys) :
    (list_move_tail x b h).Represents
      (Function.update (Function.update L a (some (l ++ r))) b (some (ys ++ [x]))) := by
  obtain ⟨hrep', hfree⟩ := list_hide_spec hrep ha
  have hne : x ≠ b := fun h => hfree b ys hb (h ▸ List.mem_cons_self)
  have hspec := list_add_tail_spec hrep' hb hfree.idle hne
  rwa [hfree.update_none] at hspec

/-- The segment that is cut out becomes a list of its own, headed by its first node. -/
theorem list_slice_spec (hrep : h.Represents L) (ha : L a = some (l ++ x :: m ++ r)) :
    (list_slice x (m.getLastD x) h).Represents
      (Function.update (Function.update L a (some (l ++ r))) x (some m)) := by
  have hr := hrep.ring ha
  obtain ⟨hrep', hfree⟩ := unlink_spec hrep ha
  have hnodup : (x :: m).Nodup :=
    (List.nodup_append.mp ((perm_cut a x l m r).nodup_iff.mp hr.nodup)).1
  rw [list_slice_eq]
  -- the segment is closed by linking its last node to its first
  exact (hrep'.link (hfree _ List.getLastD_mem_cons) (hfree x List.mem_cons_self)).add
    (Ring.close hr.cutOut.2 hnodup) hfree

/-- Of two different lists. The source is given up. -/
theorem list_concat_spec (hrep : h.Represents L) (hne : a ≠ b) (ha : L a = some xs)
    (hb : L b = some ys) :
    (list_concat a b h).Represents
      (Function.update (Function.update L b none) a (some (xs ++ ys))) := by
  have hra := hrep.ring ha
  have hrb := hrep.ring hb
  have hapart : ∀ y ∈ a :: xs, ∀ z ∈ b :: ys, y ≠ z :=
    fun y hy z hz h => hne (hrep.disjoint ha hb hy (h ▸ hz))
  have ha' : Function.update L b none a = some xs := update_none_eq_some.mpr ⟨hne, ha⟩
  have hfreea : ∀ y ∈ a :: xs, Free (Function.update (Function.update L b none) a none) y :=
    fun y hy => (hrep.drop b).free_of_drop ha' hy
  have hfreeb : ∀ y ∈ b :: ys, Free (Function.update (Function.update L b none) a none) y :=
    fun y hy => (hrep.free_of_drop hb hy).drop a
  have hlast : xs.getLastD a ∈ a :: xs := List.getLastD_mem_cons
  rw [list_concat_eq, hra.head.2, hrb.head.1]
  cases ys with
  | nil =>
    -- the head of the source stands for its first node, and its last pointer is the one just written
    have hseg : (h.link (xs.getLastD a) b).Seg (a :: xs) :=
      hra.opened.link_off (getLastD_notMem_dropLast hra.nodup) fun hmem =>
        hapart b (List.mem_cons_of_mem a hmem) b List.mem_cons_self rfl
    simp only [List.headD_nil, link_prev, List.append_nil]
    have hadd := ((((hrep.drop b).drop a).link (hfreea _ hlast)
      (hfreeb b List.mem_cons_self)).link (hfreea _ hlast) (hfreea a List.mem_cons_self)).add
      (Ring.close hseg hra.nodup) hfreea
    rwa [Function.update_idem] at hadd
  | cons y zs =>
    -- the head of the source is left out, and its nodes come behind those of the other list
    have hby : b ≠ y := fun h => (List.nodup_cons.mp hrb.nodup).1 (h ▸ List.mem_cons_self)
    have hring := hra.append hrb fun z hz w hw => hapart z hz w (List.mem_cons_of_mem b hw)
    have hfreey : ∀ z ∈ y :: zs, Free (Function.update (Function.update L b none) a none) z :=
      fun z hz => hfreeb z (List.mem_cons_of_mem b hz)
    simp only [List.headD_cons, link_prev_of_ne hby, hrb.head.2, List.getLastD_cons]
    have hadd := ((((hrep.drop b).drop a).link (hfreea _ hlast) (hfreey y List.mem_cons_self)).link
      (hfreey _ List.getLastD_mem_cons) (hfreea a List.mem_cons_self)).add hring
      fun z hz => (List.mem_append.mp (List.cons_append ▸ hz)).elim (hfreea z) (hfreey z)
    rwa [Function.update_idem] at hadd

/-! ## Runs through a list

`list_for_each` has the successor in hand before the body runs, so the body may take the current
node off. It may not take off the next one. -/

variable {σ : Type}

/-- The rounds of `list_for_each`. The heap is part of the state that the body changes. -/
def forEachFrom (heap : σ → Links P) (list : P) (body : P → σ → σ) : Nat → P → P → σ → Option σ
  | 0, _, _, _ => none
  | fuel + 1, entry, prefetch, s =>
    if entry = list then some s
    else
      let s := body entry s
      forEachFrom heap list body fuel prefetch ((heap s).next prefetch) s

def list_for_each (heap : σ → Links P) (list : P) (body : P → σ → σ) (fuel : Nat) (s : σ) : Option σ :=
  let entry := (heap s).next list
  forEachFrom heap list body fuel entry ((heap s).next entry) s

/-- The body may do anything that leaves the nodes behind the current one as they are: take the current
one off the list, or keep it. -/
def Steady (heap : σ → Links P) (list : P) (body : P → σ → σ) (I : σ → Prop) : Prop :=
  ∀ s pre e ys, I s → (heap s).Ring list (pre ++ e :: ys) →
    I (body e s) ∧ ∃ pre', (heap (body e s)).Ring list (pre' ++ ys)

variable {heap : σ → Links P} {body : P → σ → σ} {I : σ → Prop} {s : σ}

/-- By induction on the nodes left; what has been visited may have been taken off. -/
theorem forEachFrom_spec (hbody : Steady heap a body I) (hI : I s) (hr : (heap s).Ring a (l ++ r)) :
    Loop.Returns (fun fuel => forEachFrom heap a body fuel (r.headD a) ((heap s).next (r.headD a)) s)
      (r.foldl (fun s e => body e s) s) := by
  induction r generalizing l s with
  | nil =>
    refine Loop.Returns.round (.of_some s) fun fuel => ?_
    show (if a = a then some s else _) = some s
    exact if_pos rfl
  | cons e ys ih =>
    have hne : e ≠ a := fun h => (List.nodup_cons.mp hr.nodup).1 (h ▸ by simp)
    -- the successor that the source has in `prefetch`
    have hnext := (Ring.cut (l := l ++ [e]) (r := ys) (by rwa [List.append_assoc])).2.2.1
    rw [List.getLastD_concat] at hnext
    obtain ⟨hI', l', hr'⟩ := hbody s l e ys hI hr
    refine Loop.Returns.round (ih hI' hr') fun fuel => ?_
    rw [List.headD_cons, hnext]
    exact if_neg hne

/-- The loop is the fold of the body over the nodes as they were at the start. -/
theorem list_for_each_spec (hbody : Steady heap a body I) (hI : I s) (hr : (heap s).Ring a xs) :
    Loop.Returns (fun fuel => list_for_each heap a body fuel s) (xs.foldl (fun s e => body e s) s) := by
  simp only [list_for_each, hr.head.1]
  exact forEachFrom_spec (l := []) hbody hI hr

/-- The body takes the current node off its list, or leaves the heap alone. -/
def Removes (heap : σ → Links P) (body : P → σ → σ) (I : σ → Prop) : Prop :=
  ∀ s e, I s → I (body e s) ∧
    (heap (body e s) = heap s ∨ heap (body e s) = list_hide e (heap s) ∨
      heap (body e s) = list_del e (heap s))

/-- Taking off the current node, or nothing, is such a body. -/
theorem Removes.steady (hbody : Removes heap body I) (a : P) : Steady heap a body I := by
  intro s pre e ys hI hr
  obtain ⟨hI', hheap⟩ := hbody s e hI
  refine ⟨hI', ?_⟩
  have hrep := Represents.of_ring hr
  have ha := Function.update_self (f := fun _ : P => none) a (some (pre ++ e :: ys))
  obtain hsame | hhide | hdel := hheap
  -- a node that is kept counts as visited
  · exact ⟨pre ++ [e], by rwa [hsame, List.append_assoc]⟩
  · exact ⟨pre, hhide ▸ (list_hide_spec hrep ha).1.ring (Function.update_self ..)⟩
  · have hne : a ≠ e := fun h => (List.nodup_cons.mp hr.nodup).1 (h ▸ by simp)
    refine ⟨pre, hdel ▸ (list_del_spec hrep ha).ring ?_⟩
    rw [Function.update_of_ne hne, Function.update_self]

/-! ## The operations on sequences

All operations in one relation between sequences before and after, as one may use them without
looking at pointers. -/

inductive Op (P : Type) where
  | init_list (ptr : P)
  | list_insert (newl prev next : P)
  | list_add_head (newl head : P)
  | list_add_tail (newl head : P)
  | list_hide (entry : P)
  | list_del (entry : P)
  | list_move_head (entry head : P)
  | list_move_tail (entry head : P)
  | list_concat (dest src : P)
  | list_slice (left right : P)

def Op.run : Op P → Links P → Links P
  | .init_list ptr => LinkedList.init_list ptr
  | .list_insert newl prev next => LinkedList.list_insert newl prev next
  | .list_add_head newl head => LinkedList.list_add_head newl head
  | .list_add_tail newl head => LinkedList.list_add_tail newl head
  | .list_hide entry => LinkedList.list_hide entry
  | .list_del entry => LinkedList.list_del entry
  | .list_move_head entry head => LinkedList.list_move_head entry head
  | .list_move_tail entry head => LinkedList.list_move_tail entry head
  | .list_concat dest src => LinkedList.list_concat dest src
  | .list_slice left right => LinkedList.list_slice left right

/-- What the operations mean for the sequences `L` of a heap, and on what they may be called. Every list
that is not named stays as it is. -/
inductive Effect (L : P → Option (List P)) : Op P → (P → Option (List P)) → Prop where
  | init_list {ptr} : (∀ a xs, L a = some xs → ptr ∉ xs) →
      Effect L (.init_list ptr) (Function.update L ptr (some []))
  | list_insert {newl a l r} : L a = some (l ++ r) → Idle L newl → newl ≠ a →
      Effect L (.list_insert newl (l.getLastD a) (r.headD a))
        (Function.update (Function.update L newl none) a (some (l ++ newl :: r)))
  | list_add_head {newl head xs} : L head = some xs → Idle L newl → newl ≠ head →
      Effect L (.list_add_head newl head)
        (Function.update (Function.update L newl none) head (some (newl :: xs)))
  | list_add_tail {newl head xs} : L head = some xs → Idle L newl → newl ≠ head →
      Effect L (.list_add_tail newl head)
        (Function.update (Function.update L newl none) head (some (xs ++ [newl])))
  | list_hide {entry a l r} : L a = some (l ++ entry :: r) →
      Effect L (.list_hide entry) (Function.update L a (some (l ++ r)))
  | list_del {entry a l r} : L a = some (l ++ entry :: r) →
      Effect L (.list_del entry)
        (Function.update (Function.update L a (some (l ++ r))) entry (some []))
  | list_move_head {entry a l r head ys} : L a = some (l ++ entry :: r) →
      Function.update L a (some (l ++ r)) head = some ys →
      Effect L (.list_move_head entry head)
        (Function.update (Function.update L a (some (l ++ r))) head (some (entry :: ys)))
  | list_move_tail {entry a l r head ys} : L a = some (l ++ entry :: r) →
      Function.update L a (some (l ++ r)) head = some ys →
      Effect L (.list_move_tail entry head)
        (Function.update (Function.update L a (some (l ++ r))) head (some (ys ++ [entry])))
  | list_concat {dest src xs ys} : dest ≠ src → L dest = some xs → L src = some ys →
      Effect L (.list_concat dest src)
        (Function.update (Function.update L src none) dest (some (xs ++ ys)))
  | list_slice {left m a l r} : L a = some (l ++ left :: m ++ r) →
      Effect L (.list_slice left (m.getLastD left))
        (Function.update (Function.update L a (some (l ++ r))) left (some m))

/-- Each operation does to the heap what it means for the sequences. -/
theorem run_represents {op : Op P} {L' : P → Option (List P)} (hrep : h.Represents L)
    (heffect : Effect L op L') : (op.run h).Represents L' := by
  cases heffect with
  | init_list hn => exact init_list_spec hrep hn
  | list_insert ha hn hne => exact list_insert_spec hrep ha hn hne
  | list_add_head ha hn hne => exact list_add_head_spec hrep ha hn hne
  | list_add_tail ha hn hne => exact list_add_tail_spec hrep ha hn hne
  -- the node is on no list, which the sequences do not say
  | list_hide ha => exact (list_hide_spec hrep ha).1
  | list_del ha => exact list_del_spec hrep ha
  | list_move_head ha hb => exact list_move_head_spec hrep ha hb
  | list_move_tail ha hb => exact list_move_tail_spec hrep ha hb
  | list_concat hne ha hb => exact list_concat_spec hrep hne ha hb
  | list_slice ha => exact list_slice_spec hrep ha

/-- **The list operations refine operations on sequences.** Where every list is a ring and no two have a
node in common, an operation that is called on what it is for does to the lists what it means for their
sequences, and no pointer of another list changes. A run through a list passes each of its nodes once, in
their order, also when the body takes the current node off the list. -/
theorem list_operations (hrep : h.Represents L) :
    (∀ op L', Effect L op L' → (op.run h).Represents L' ∧
      ∀ b ys n, L b = some ys → L' b = some ys → n ∈ b :: ys →
        (op.run h).next n = h.next n ∧ (op.run h).prev n = h.prev n) ∧
    ∀ a xs, L a = some xs → list_empty a h = xs.isEmpty ∧
      ∀ (σ : Type) (heap : σ → Links P) (body : P → σ → σ) (I : σ → Prop),
        (Removes heap body I → Steady heap a body I) ∧
        (Steady heap a body I → ∀ s, I s → heap s = h →
          Loop.Returns (fun fuel => list_for_each heap a body fuel s)
            (xs.foldl (fun s e => body e s) s)) := by
  refine ⟨fun op L' heffect => ?_, fun a xs ha => ⟨?_, fun σ heap body I => ⟨fun hremoves => ?_, ?_⟩⟩⟩
  · have hrep' := run_represents hrep heffect
    exact ⟨hrep', fun b ys n hb hb' hn => (hrep.ring hb).agree (hrep'.ring hb') hn⟩
  · rw [list_empty, Bool.eq_iff_iff, beq_iff_eq, List.isEmpty_iff]
    exact (hrep.ring ha).next_eq_iff
  · exact hremoves.steady a
  · intro hsteady s hI hheap
    exact list_for_each_spec hsteady hI (hheap ▸ hrep.ring ha)

/-- The list `0` of `1` and `2`. -/
def pair : Links Nat := ((Links.mk id id).link 0 1 |>.link 1 2).link 2 0

/-- Two nodes behind a head. -/
theorem pair_ring : pair.Ring 0 [1, 2] where
  nodup := by decide
  seg := by
    refine List.isChain_cons_cons.mpr ⟨⟨rfl, rfl⟩, List.isChain_cons_cons.mpr ⟨⟨rfl, rfl⟩, ?_⟩⟩
    exact List.isChain_cons_cons.mpr ⟨⟨rfl, rfl⟩, List.isChain_singleton 0⟩

/-- The second node moves to the front, and a run takes every node off. -/
theorem list_operations_pair :
    ((Op.list_move_head 2 0).run pair).Represents (Function.update (Function.update
      (Function.update (fun _ => none) 0 (some [1, 2])) 0 (some [1])) 0 (some [2, 1])) ∧
    Loop.Returns (fun fuel => list_for_each id 0 list_del fuel pair) (list_del 2 (list_del 1 pair)) := by
  obtain ⟨hops, hruns⟩ := list_operations (Represents.of_ring pair_ring)
  obtain ⟨hremoves, hrun⟩ := (hruns 0 [1, 2] rfl).2 (Links Nat) id list_del fun _ => True
  refine ⟨(hops _ _ (.list_move_head (l := [1]) (r := []) rfl rfl)).1, ?_⟩
  exact hrun (hremoves fun s e _ => ⟨trivial, .inr (.inr rfl)⟩) pair trivial rfl

end NorlitOS.LinkedList
