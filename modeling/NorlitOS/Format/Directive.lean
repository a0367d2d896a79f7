import NorlitOS.Format.Vsprintf

/-!
# The directives of `vsprintf`

A format is made of characters and directives. A directive says which arguments it takes and what
they become. `vsprintf` agrees with it as long as the width and the precision are written out.
-/

namespace NorlitOS

namespace Printf

/-! ## Formats -/

inductive Flag where
  | minus
  | plus
  | zero

def Flag.char : Flag → Char
  | .minus => '-'
  | .plus => '+'
  | .zero => '0'

def Flag.set (flags : Flags) : Flag → Flags
  | .minus => { flags with left := true }
  | .plus => { flags with plus := true }
  | .zero => { flags with zeropad := true }

/-- A width or a precision. -/
inductive Amount where
  | absent
  | digit (n : Nat)
  | star

namespace Amount

def chars : Amount → List Char
  | absent => []
  | digit n => [Char.ofNat (48 + n)]
  | star => ['*']

/-- Behind a point. -/
def pointChars : Amount → List Char
  | absent => []
  | a => '.' :: a.chars

/-- The arguments it takes. -/
def stars : Amount → Nat
  | star => 1
  | _ => 0

/-- Its value, if `word` is the argument. -/
def value (word : Nat) : Amount → Int
  | absent => -1
  | digit n => n
  | star => s32 word

end Amount

inductive Qualifier where
  | h
  | l
  | L

def Qualifier.char : Qualifier → Char
  | .h => 'h'
  | .l => 'l'
  | .L => 'L'

inductive Conversion where
  | d
  | i
  | u
  | x
  | X
  | o
  | p
  | c
  | s
  | percent

namespace Conversion

def char : Conversion → Char
  | d => 'd'
  | i => 'i'
  | u => 'u'
  | x => 'x'
  | X => 'X'
  | o => 'o'
  | p => 'p'
  | c => 'c'
  | s => 's'
  | percent => '%'

/-- The arguments it takes. -/
def arguments : Conversion → Nat
  | percent => 0
  | _ => 1

end Conversion

/-- A width does not begin with 0, which is a flag. -/
structure Directive where
  flags : List Flag
  width : Amount
  precision : Amount
  qualifier : Option Qualifier
  conversion : Conversion
  width_digit : ∀ n, width = .digit n → 1 ≤ n ∧ n ≤ 9
  precision_digit : ∀ n, precision = .digit n → n ≤ 9

namespace Directive

/-- What stands between the `%` and the conversion. -/
def middle (d : Directive) : List Char :=
  d.flags.map Flag.char ++ (d.width.chars ++ (d.precision.pointChars ++
    (d.qualifier.toList.map Qualifier.char)))

def chars (d : Directive) : List Char := '%' :: (d.middle ++ [d.conversion.char])

/-- The arguments for a `*`. -/
def stars (d : Directive) : Nat := d.width.stars + d.precision.stars

/-- The arguments that the directive names. -/
def named (d : Directive) : Nat := d.stars + d.conversion.arguments

end Directive

/-- A character of its own, or a directive. -/
inductive Piece where
  | literal (c : Char) (hc : c ≠ '%' ∧ c ≠ Char.ofNat 0)
  | directive (d : Directive)

namespace Piece

def chars : Piece → List Char
  | literal c _ => [c]
  | directive d => d.chars

def named : Piece → Nat
  | literal _ _ => 0
  | directive d => d.named

end Piece

/-- The characters of a format. -/
def formatChars (ps : List Piece) : List Char := ps.flatMap Piece.chars

/-- The arguments that a format names. -/
def formatNamed (ps : List Piece) : Nat := (ps.map Piece.named).sum

/-! ## What they stand for -/

/-- A text in its field. -/
def fieldText (left : Bool) (width : Int) (str : List Char) : List Char :=
  let room := List.replicate (width.toNat - str.length) ' '
  if left then str ++ room else room ++ str

namespace Directive

variable (args : Nat → UInt32) (text : Nat → List Char) (arg : Nat)

/-- The flags and the width. A negative argument for the width is a flag `-` and a width. -/
def layout (d : Directive) : Flags × Int :=
  let flags := d.flags.foldl Flag.set noFlags
  let width := d.width.value (args arg).toNat
  -- only an argument can be negative, not a digit
  if d.width.stars = 1 ∧ width < 0 then ({ flags with left := true }, -width) else (flags, width)

/-- The precision; a negative argument stands for 0. -/
def limit (d : Directive) : Int :=
  let precision := d.precision.value (args (arg + d.width.stars)).toNat
  if d.precision.stars = 1 ∧ precision < 0 then 0 else precision

/-- The conversion of the argument behind those for a `*`. -/
def render (d : Directive) : List Char :=
  let (flags, width) := d.layout args arg
  let word := (args (arg + d.stars)).toNat
  match d.conversion with
  | .d => numberText word 10 width { flags with sign := true }
  | .i => numberText word 10 width { flags with sign := true }
  | .u => numberText word 10 width flags
  | .x => numberText word 16 width { flags with small := true }
  | .X => numberText word 16 width flags
  | .o => numberText word 8 width flags
  | .p =>
    match d.width with
    -- a pointer has eight digits unless a width is given
    | .absent => numberText word 16 8 { flags with zeropad := true }
    | _ => numberText word 16 width flags
  | .c => fieldText flags.left width [Char.ofNat (word % 256)]
  | .s =>
    let limit := d.limit args arg
    fieldText flags.left width (if 0 ≤ limit then (text word).take limit.toNat else text word)
  | .percent => ['%']

end Directive

def Piece.render (args : Nat → UInt32) (text : Nat → List Char) (arg : Nat) : Piece → List Char
  | literal c _ => [c]
  | directive d => d.render args text arg

/-- Each directive takes its arguments from where the one before it has stopped. -/
def formatText (args : Nat → UInt32) (text : Nat → List Char) : List Piece → Nat → List Char
  | [], _ => []
  | p :: ps, arg => p.render args text arg ++ formatText args text ps (arg + p.named)

end Printf

end NorlitOS
