import Mathlib.Data.List.Chain
import Mathlib.Data.List.Nodup
import Mathlib.Logic.Function.Basic

/-!
# Rings of nodes

Nodes point at a next and at a previous node. A ring goes from its head over a list of nodes back to
the head, and every pointer on it is answered by the one that leads back. It is cut into segments, whose
outer pointers do not matter, and segments are linked to form rings: every operation on rings is a few
links between the ends of segments.

Several rings lie in one heap, with no node in common. `Represents` tells which ones. A change is made
in three steps: rings are given up, so that their nodes are free; free nodes are linked; a ring of free
nodes is taken up.
-/

/-- The two pointers of every node. -/
structure Links (P : Type) where
  next : P → P
  prev : P → P

namespace Links

variable {P : Type} {h h' : Links P} {a b e p q x : P} {l r s xs ys : List P}

/-- From `p` to `q` and back. -/
def Link (h : Links P) (p q : P) : Prop := h.next p = q ∧ h.prev q = p

/-- Nodes that are linked one behind the other. -/
def Seg (h : Links P) (s : List P) : Prop := s.IsChain h.Link

/-- The ring of the head `a` and the nodes `xs`. -/
structure Ring (h : Links P) (a : P) (xs : List P) : Prop where
  nodup : (a :: xs).Nodup
  seg : h.Seg (a :: xs ++ [a])

/-! ## Segments

The last node of `a :: l` is `l.getLastD a`, and the first one of `r ++ [b]` is `r.headD b`. -/

/-- The two ways to name the last node agree. -/
theorem getLast?_cons_eq (l : List P) (a : P) : (a :: l).getLast? = some (l.getLastD a) := by
  rw [List.getLast?_cons, List.getLastD_eq_getLast?]

/-- The last node of two pieces is that of the second. -/
theorem getLastD_append_cons (l m : List P) (a x : P) :
    (l ++ x :: m).getLastD a = m.getLastD x := by
  have hlast := getLast?_cons_eq (l ++ x :: m) a
  rw [← List.cons_append, List.getLast?_append, getLast?_cons_eq, Option.some_or] at hlast
  exact (Option.some.inj hlast).symm

/-- The first node of a piece, and what follows it. -/
theorem concat_eq_cons (r : List P) (b : P) : r ++ [b] = r.headD b :: (r ++ [b]).tail := by
  cases r <;> rfl

/-- The last node of the first piece is a node of the ring. -/
theorem getLastD_mem (l r : List P) (a : P) : l.getLastD a ∈ a :: (l ++ r) :=
  List.mem_append_left r List.getLastD_mem_cons

theorem headD_mem (l r : List P) (a : P) : r.headD a ∈ a :: (l ++ r) := by
  cases r with
  | nil => exact List.mem_cons_self
  | cons y r => exact List.mem_cons_of_mem a (List.mem_append_right l List.mem_cons_self)

/-- Without repetition the last node of one piece is not in the other. -/
theorem getLastD_notMem (hnodup : (a :: (l ++ r)).Nodup) : l.getLastD a ∉ r := by
  rw [← List.cons_append, List.nodup_append] at hnodup
  exact fun hmem => hnodup.2.2 _ List.getLastD_mem_cons _ hmem rfl

theorem headD_notMem (hnodup : (a :: (l ++ r)).Nodup) : r.headD a ∉ l := by
  cases r with
  | nil => exact fun hmem => (List.nodup_cons.mp hnodup).1 (List.mem_append_left [] hmem)
  | cons y r =>
    have hsplit := (List.nodup_append.mp (List.nodup_cons.mp hnodup).2).2.2
    exact fun hmem => hsplit y hmem y List.mem_cons_self rfl

/-- The last node is not among those in front of it. -/
theorem getLastD_notMem_dropLast (hnodup : (a :: l).Nodup) : l.getLastD a ∉ (a :: l).dropLast := by
  intro hmem
  have hsplit := List.dropLast_append_getLast? (l.getLastD a) (getLast?_cons_eq l a)
  rw [← hsplit, List.nodup_append] at hnodup
  exact hnodup.2.2 _ hmem _ List.mem_cons_self rfl

/-- Cutting a piece out of a ring changes the order of the nodes only. -/
theorem perm_cut (a x : P) (l m r : List P) :
    (a :: (l ++ x :: m ++ r)).Perm (x :: m ++ a :: (l ++ r)) := by
  have hswap : (a :: l ++ x :: m).Perm (x :: m ++ a :: l) := List.perm_append_comm
  simpa using hswap.append_right r

/-- A segment depends on the pointers between its nodes. -/
theorem Seg.congr (hs : h.Seg s) (hnext : ∀ x ∈ s.dropLast, h'.next x = h.next x)
    (hprev : ∀ x ∈ s.tail, h'.prev x = h.prev x) : h'.Seg s := by
  induction s with
  | nil => exact List.isChain_nil
  | cons x s ih =>
    cases s with
    | nil => exact List.isChain_singleton x
    | cons y s =>
      obtain ⟨hlink, hrest⟩ := List.isChain_cons_cons.mp hs
      refine List.isChain_cons_cons.mpr ⟨⟨?_, ?_⟩, ih hrest (fun z hz => ?_) fun z hz => ?_⟩
      · rw [hnext x (by simp)]
        exact hlink.1
      · rw [hprev y (by simp)]
        exact hlink.2
      · exact hnext z (by simp [hz])
      · exact hprev z (List.mem_cons_of_mem _ hz)

/-- Two segments and the link between them. -/
theorem seg_join :
    h.Seg (a :: l ++ q :: t) ↔ h.Seg (a :: l) ∧ h.Seg (q :: t) ∧ h.Link (l.getLastD a) q := by
  unfold Seg
  rw [List.isChain_append, getLast?_cons_eq, List.head?_cons]
  simp only [Option.mem_some_iff, forall_eq']

/-- A ring cut in two places that may be one. -/
theorem Ring.cut (hr : h.Ring a (l ++ r)) :
    h.Seg (a :: l) ∧ h.Seg (r ++ [a]) ∧ h.Link (l.getLastD a) (r.headD a) := by
  have hseg := hr.seg
  rw [List.cons_append, List.append_assoc, concat_eq_cons r a] at hseg
  rw [concat_eq_cons r a]
  exact seg_join.mp hseg

/-- The pointers at the head. -/
theorem Ring.head (hr : h.Ring a xs) : h.next a = xs.headD a ∧ h.prev a = xs.getLastD a :=
  ⟨(Ring.cut (l := []) hr).2.2.1, (Ring.cut (r := []) ((List.append_nil xs).symm ▸ hr)).2.2.2⟩

/-- The ring without the way back. -/
theorem Ring.opened (hr : h.Ring a xs) : h.Seg (a :: xs) :=
  (Ring.cut (r := []) ((List.append_nil xs).symm ▸ hr)).1

/-- Two heaps with the same ring agree on its pointers. -/
theorem Ring.agree (hr : h.Ring a xs) (hr' : h'.Ring a xs) (hx : x ∈ a :: xs) :
    h'.next x = h.next x ∧ h'.prev x = h.prev x := by
  obtain rfl | hx := List.mem_cons.mp hx
  · exact ⟨hr'.head.1.trans hr.head.1.symm, hr'.head.2.trans hr.head.2.symm⟩
  · obtain ⟨l, r, rfl⟩ := List.append_of_mem hx
    have hprev := (Ring.cut hr').2.2.2.trans (Ring.cut hr).2.2.2.symm
    rw [List.append_cons] at hr hr'
    have hnext := (Ring.cut hr').2.2.1.trans (Ring.cut hr).2.2.1.symm
    rw [List.getLastD_concat] at hnext
    exact ⟨hnext, hprev⟩

/-- A ring is empty when its head points at itself. -/
theorem Ring.next_eq_iff (hr : h.Ring a xs) : h.next a = a ↔ xs = [] := by
  rw [hr.head.1]
  cases xs with
  | nil => exact ⟨fun _ => rfl, fun _ => rfl⟩
  | cons x xs =>
    have hne : x ≠ a := fun h => (List.nodup_cons.mp hr.nodup).1 (h ▸ List.mem_cons_self)
    exact ⟨fun h => absurd h hne, nofun⟩

/-! ## Heaps of rings

A heap of rings is a partial function from heads to lists of nodes. That rings have no node in
common is what makes a change of one leave the others alone. -/

/-- The rings of a heap, each by its head. They have no node in common. -/
structure Represents (h : Links P) (L : P → Option (List P)) : Prop where
  ring : ∀ {a xs}, L a = some xs → h.Ring a xs
  disjoint : ∀ {a b xs ys n}, L a = some xs → L b = some ys → n ∈ a :: xs → n ∈ b :: ys → a = b

/-- A node on no ring. -/
def Free (L : P → Option (List P)) (n : P) : Prop := ∀ a xs, L a = some xs → n ∉ a :: xs

/-- A node that is on no ring, or the head of an empty one. -/
def Idle (L : P → Option (List P)) (n : P) : Prop := ∀ a xs, L a = some xs → n ∈ a :: xs → a = n ∧ xs = []

variable {L : P → Option (List P)}

/-- A node on no ring is on no other one. -/
theorem Free.idle (hn : Free L n) : Idle L n := fun a xs ha hmem => absurd hmem (hn a xs ha)

/-- An idle node is in no list of nodes. -/
theorem Idle.notMem (hn : Idle L n) : ∀ a xs, L a = some xs → n ∉ xs := by
  intro a xs ha hmem
  rw [(hn a xs ha (List.mem_cons_of_mem a hmem)).2] at hmem
  exact List.not_mem_nil hmem

/-! ## Links

Linking two nodes writes one pointer of each. On a segment nothing is seen of it unless the first
is not the last node, or the second not the first one. -/

variable [DecidableEq P]

/-- `p` and `q` are linked. -/
def link (h : Links P) (p q : P) : Links P where
  next := Function.update h.next p q
  prev := Function.update h.prev q p

/-- The first node points to the second. -/
theorem link_next (h : Links P) (p q : P) : (h.link p q).next p = q := Function.update_self ..

theorem link_prev (h : Links P) (p q : P) : (h.link p q).prev q = p := Function.update_self ..

theorem link_next_of_ne (hx : x ≠ p) : (h.link p q).next x = h.next x := Function.update_of_ne hx ..

/-- Other nodes point back where they did. -/
theorem link_prev_of_ne (hx : x ≠ q) : (h.link p q).prev x = h.prev x := Function.update_of_ne hx ..

/-- A link leaves a segment as it is that it does not start from, its end apart, and does not lead to,
its start apart. -/
theorem Seg.link_off (hs : h.Seg s) (hp : p ∉ s.dropLast) (hq : q ∉ s.tail) : (h.link p q).Seg s :=
  hs.congr (fun _ hx => link_next_of_ne (ne_of_mem_of_not_mem hx hp))
    fun _ hx => link_prev_of_ne (ne_of_mem_of_not_mem hx hq)

/-- Two segments are linked at their ends. They may share the outer ones. -/
theorem Seg.link (hl : h.Seg (a :: l)) (hr : h.Seg (q :: t)) (hleft : (a :: l).Nodup)
    (hright : (q :: t).Nodup) (hp : l.getLastD a ∉ (q :: t).dropLast) (hq : q ∉ l) :
    (h.link (l.getLastD a) q).Seg (a :: l ++ q :: t) :=
  seg_join.mpr ⟨hl.link_off (getLastD_notMem_dropLast hleft) hq,
    hr.link_off hp (List.nodup_cons.mp hright).1, link_next .., link_prev ..⟩

/-- Two segments that make up a ring. -/
theorem Ring.link (hl : h.Seg (a :: l)) (hr : h.Seg (r ++ [a])) (hnodup : (a :: (l ++ r)).Nodup) :
    (h.link (l.getLastD a) (r.headD a)).Ring a (l ++ r) := by
  have hright : (l ++ (r ++ [a])).Nodup := by
    rw [← List.append_assoc]
    exact List.nodup_append_comm.mp hnodup
  have hndl := (List.nodup_append.mp (List.cons_append ▸ hnodup)).1
  have hndr := (List.nodup_append.mp hright).2.1
  have hp : l.getLastD a ∉ (r ++ [a]).dropLast := by
    rw [List.dropLast_concat]
    exact getLastD_notMem hnodup
  refine ⟨hnodup, ?_⟩
  rw [List.cons_append, List.append_assoc]
  rw [concat_eq_cons r a] at hr hndr hp ⊢
  exact hl.link hr hndl hndr hp (headD_notMem hnodup)

/-- A segment that is closed. -/
theorem Ring.close (hs : h.Seg (a :: xs)) (hnodup : (a :: xs).Nodup) :
    (h.link (xs.getLastD a) a).Ring a xs := by
  have hring := Ring.link (r := []) hs (List.isChain_singleton a) (by rwa [List.append_nil])
  rwa [List.append_nil] at hring

/-- A link between other nodes. -/
theorem Ring.link_off (hr : h.Ring a xs) (hp : p ∉ a :: xs) (hq : q ∉ a :: xs) :
    (h.link p q).Ring a xs := by
  refine ⟨hr.nodup, hr.seg.link_off ?_ ?_⟩
  · rwa [List.dropLast_concat]
  · intro hmem
    rw [List.cons_append, List.tail_cons, List.mem_append, List.mem_singleton] at hmem
    exact hq (hmem.elim (List.mem_cons_of_mem a) (· ▸ List.mem_cons_self))

/-- A node is put in between. -/
theorem Ring.insert (hr : h.Ring a (l ++ r)) (hn : n ∉ a :: (l ++ r)) :
    ((h.link (l.getLastD a) n).link n (r.headD a)).Ring a (l ++ n :: r) := by
  obtain ⟨hleft, hright, -⟩ := hr.cut
  have hnodup : (a :: (l ++ n :: r)).Nodup := by
    rw [← List.cons_append, List.nodup_middle]
    exact List.nodup_cons.mpr ⟨hn, hr.nodup⟩
  -- the node is linked behind the left segment, and the right segment behind the node
  have hfirst : (h.link (l.getLastD a) n).Seg (a :: (l ++ [n])) :=
    hleft.link (t := []) (List.isChain_singleton n) (hr.nodup.sublist (by simp))
      (List.nodup_singleton n) List.not_mem_nil fun hmem => hn (by simp [hmem])
  have hrest : (h.link (l.getLastD a) n).Seg (r ++ [a]) := by
    refine hright.link_off ?_ fun hmem => hn ?_
    · rw [List.dropLast_concat]
      exact getLastD_notMem hr.nodup
    · have hmem := List.mem_of_mem_tail hmem
      simp only [List.mem_cons, List.mem_append, List.not_mem_nil, or_false] at hmem ⊢
      tauto
  have hring := Ring.link hfirst hrest (by rwa [List.append_assoc])
  rwa [List.getLastD_concat, List.append_assoc] at hring

/-- A segment is cut out: the nodes around it are linked, and between its own nothing has changed. -/
theorem Ring.cutOut (hr : h.Ring a (l ++ x :: m ++ r)) :
    (h.link (h.prev x) (h.next (m.getLastD x))).Ring a (l ++ r) ∧
      (h.link (h.prev x) (h.next (m.getLastD x))).Seg (x :: m) := by
  obtain ⟨hfirst, hright, hlast, -⟩ := hr.cut
  rw [getLastD_append_cons] at hlast
  obtain ⟨hleft, hseg, hlink⟩ := seg_join.mp hfirst
  obtain ⟨-, hnodup, hapart⟩ := List.nodup_append.mp ((perm_cut a x l m r).nodup_iff.mp hr.nodup)
  rw [hlast, hlink.2]
  refine ⟨Ring.link hleft hright hnodup, hseg.link_off (fun hmem => ?_) fun hmem => ?_⟩
  · exact hapart _ ((List.dropLast_sublist _).mem hmem) _ (getLastD_mem l r a) rfl
  · exact hapart _ (List.mem_of_mem_tail hmem) _ (headD_mem l r a) rfl

/-- The nodes of another ring are put behind. -/
theorem Ring.append (hr : h.Ring a xs) (hr' : h.Ring b (x :: m))
    (hapart : ∀ y ∈ a :: xs, ∀ z ∈ x :: m, y ≠ z) :
    ((h.link (xs.getLastD a) x).link (m.getLastD x) a).Ring a (xs ++ x :: m) := by
  have hnodup : (x :: m).Nodup := (List.nodup_cons.mp hr'.nodup).2
  have hseg : (h.link (xs.getLastD a) x).Seg (a :: (xs ++ x :: m)) :=
    hr.opened.link (List.isChain_cons_cons.mp hr'.opened).2 hr.nodup hnodup
      (fun hmem => hapart _ List.getLastD_mem_cons _ ((List.dropLast_sublist _).mem hmem) rfl)
      fun hmem => hapart x (List.mem_cons_of_mem a hmem) x List.mem_cons_self rfl
  have hring := Ring.close hseg (List.nodup_append.mpr ⟨hr.nodup, hnodup, hapart⟩)
  rwa [getLastD_append_cons] at hring

/-! ## Changes of a heap

The three steps of a change: `drop` gives a ring up, `link` links free nodes, `add` takes a ring
of free nodes up. -/

/-- The rings without one. -/
theorem update_none_eq_some :
    Function.update L a none b = some ys ↔ b ≠ a ∧ L b = some ys := by
  by_cases hb : b = a
  · simp [hb]
  · simp [hb]

/-- The rings with one more. -/
theorem update_some_eq_some :
    Function.update L a (some xs) b = some ys ↔ b = a ∧ ys = xs ∨ b ≠ a ∧ L b = some ys := by
  by_cases hb : b = a
  · simp [hb, eq_comm]
  · simp [hb]

/-- A free node stays free when a ring is given up. -/
theorem Free.drop (hn : Free L n) (a : P) : Free (Function.update L a none) n :=
  fun b ys hb => hn b ys (update_none_eq_some.mp hb).2

theorem Free.update_none (hn : Free L n) : Function.update L n none = L :=
  Function.update_eq_self_iff.mpr
    (Option.eq_none_iff_forall_ne_some.mpr fun xs ha => hn n xs ha List.mem_cons_self).symm

/-- A node stays free unless the new ring has it. -/
theorem Free.add (hn : Free L n) (hxs : n ∉ a :: xs) : Free (Function.update L a (some xs)) n := by
  intro b ys hb hmem
  obtain ⟨rfl, rfl⟩ | ⟨-, hb⟩ := update_some_eq_some.mp hb
  · exact hxs hmem
  · exact hn b ys hb hmem

/-- The head of a ring is on no other one. -/
theorem free_of_notMem (hn : ∀ a xs, L a = some xs → n ∉ xs) : Free (Function.update L n none) n := by
  intro a xs ha hmem
  obtain ⟨hne, ha⟩ := update_none_eq_some.mp ha
  exact (List.mem_cons.mp hmem).elim (fun h => hne h.symm) (hn a xs ha)

namespace Represents

/-- A ring is given up. -/
theorem drop (hrep : Represents h L) (a : P) : Represents h (Function.update L a none) where
  ring hb := hrep.ring (update_none_eq_some.mp hb).2
  disjoint hb hc := hrep.disjoint (update_none_eq_some.mp hb).2 (update_none_eq_some.mp hc).2

/-- The nodes of a ring that is given up are free. -/
theorem free_of_drop (hrep : Represents h L) (ha : L a = some xs) (hn : n ∈ a :: xs) :
    Free (Function.update L a none) n := by
  intro b ys hb hmem
  obtain ⟨hne, hb⟩ := update_none_eq_some.mp hb
  exact hne (hrep.disjoint hb ha hmem hn)

/-- Free nodes are linked. -/
theorem link (hrep : Represents h L) (hp : Free L p) (hq : Free L q) :
    Represents (h.link p q) L where
  ring ha := (hrep.ring ha).link_off (hp _ _ ha) (hq _ _ ha)
  disjoint := hrep.disjoint

/-- A ring of free nodes is taken up. -/
theorem add (hrep : Represents h L) (hr : h.Ring a xs) (hfree : ∀ n ∈ a :: xs, Free L n) :
    Represents h (Function.update L a (some xs)) := by
  refine ⟨fun hb => ?_, fun hb hc hnb hnc => ?_⟩
  · obtain ⟨rfl, rfl⟩ | ⟨-, hb⟩ := update_some_eq_some.mp hb
    · exact hr
    · exact hrep.ring hb
  · obtain ⟨rfl, rfl⟩ | ⟨-, hLb⟩ := update_some_eq_some.mp hb <;>
      obtain ⟨rfl, rfl⟩ | ⟨-, hLc⟩ := update_some_eq_some.mp hc
    · rfl
    · exact absurd hnc (hfree _ hnb _ _ hLc)
    · exact absurd hnb (hfree _ hnc _ _ hLb)
    · exact hrep.disjoint hLb hLc hnb hnc

/-- A single ring. -/
theorem of_ring (hr : h.Ring a xs) : Represents h (Function.update (fun _ => none) a (some xs)) :=
  add ⟨nofun, nofun⟩ hr nofun

end Represents

end Links
