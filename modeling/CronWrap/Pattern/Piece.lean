/-! Patterns of characters, piece by piece. -/
namespace CronWrap.Pattern

/-- The characters from `first` to `last`; none when they are in the wrong order. -/
structure Interval where
  first : Char
  last : Char
  deriving DecidableEq, Repr

def Interval.single (c : Char) : Interval := ⟨c, c⟩

def Interval.has (i : Interval) (c : Char) : Bool := i.first ≤ c && c ≤ i.last

/-- A set of characters, or with `negated` all others. -/
structure CharSet where
  negated : Bool
  intervals : List Interval
  deriving DecidableEq, Repr

namespace CharSet

def has (s : CharSet) (c : Char) : Bool := s.intervals.any (·.has c) != s.negated

def only (c : Char) : CharSet := ⟨false, [.single c]⟩

def except (c : Char) : CharSet := ⟨true, [.single c]⟩

def all : CharSet := ⟨true, []⟩

@[simp] theorem has_only (c d : Char) : (only c).has d = (c == d) := by
  simp only [has, only, Interval.single, Interval.has, List.any_cons, List.any_nil, Bool.or_false,
    Bool.bne_false]
  by_cases h : c = d
  · subst h; simp
  · rw [beq_eq_false_iff_ne.2 h, Bool.and_eq_false_iff, decide_eq_false_iff_not,
      decide_eq_false_iff_not]
    by_cases hcd : c ≤ d
    · exact .inr fun hdc => h (Char.le_antisymm hcd hdc)
    · exact .inl hcd

@[simp] theorem has_all (c : Char) : all.has c = true := rfl

end CharSet

inductive Piece
  /-- One character of a set. -/
  | one (s : CharSet)
  /-- Any number of characters of a set. -/
  | run (s : CharSet)
  /-- Nothing, or any text up to a slash. -/
  | directories
  deriving DecidableEq, Repr

namespace Piece

/-- Whether `rest` accepts a text with some run of characters of `s` taken off its front. -/
def afterRun (s : CharSet) (rest : List Char → Bool) : List Char → Bool
  | [] => rest []
  | c :: cs => rest (c :: cs) || (s.has c && afterRun s rest cs)

def afterSlash (rest : List Char → Bool) : List Char → Bool
  | '/' :: cs => rest cs
  | _ => false

/-- Whether the piece fits the front of a text such that `rest` accepts what remains. -/
def fits (rest : List Char → Bool) : Piece → List Char → Bool
  | one _, [] => false
  | one s, c :: cs => s.has c && rest cs
  | run s, cs => afterRun s rest cs
  | directories, cs => rest cs || afterRun (.except '\n') (afterSlash rest) cs

end Piece

/-- Whether the pieces fit the front of a text, one after the other, such that `rest` accepts what
remains. -/
def fitsFront (rest : List Char → Bool) (pieces : List Piece) (cs : List Char) : Bool :=
  (pieces.foldr (fun piece rest => piece.fits rest) rest) cs

/-- Whether the pieces fit all of a text. -/
def fitsAll (pieces : List Piece) (cs : List Char) : Bool := fitsFront List.isEmpty pieces cs

/-- A set in brackets at the front of a text, after its opening bracket: what it holds, and the text
after it. A closing bracket counts as one only behind the first character. -/
def bracket? (cs : List Char) : Option (List Char × List Char) :=
  let (mark, cs) := match cs with
    | '!' :: cs => (['!'], cs)
    | _ => ([], cs)
  let (first, cs) := match cs with
    | ']' :: cs => ([']'], cs)
    | _ => ([], cs)
  match cs.span (· ≠ ']') with
  | (_, []) => none
  | (body, _ :: rest) => some (mark ++ first ++ body, rest)

end CronWrap.Pattern
