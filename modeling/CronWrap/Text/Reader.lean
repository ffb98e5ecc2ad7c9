/-! Readers: they take what they read off the front of a text, or refuse it. -/
namespace CronWrap.Text

abbrev Reader := StateT (List Char) Option

namespace Reader

/-- The next character, left where it is. -/
def peek? : Reader (Option Char) := fun cs => some (cs.head?, cs)

def one (p : Char → Bool) : Reader Char
  | c :: cs => if p c then some (c, cs) else none
  | [] => none

def char (c : Char) : Reader Unit := do discard (one (· = c))

/-- Exactly this text. -/
def exactly (word : List Char) : Reader Unit :=
  fun cs => (word.isPrefixOf? cs).map ((), ·)

def takeWhile (p : Char → Bool) : Reader (List Char) :=
  fun cs => some (cs.takeWhile p, cs.dropWhile p)

def takeWhile1 (p : Char → Bool) : Reader (List Char) := do
  let cs ← takeWhile p
  if cs = [] then failure else return cs

def skipWhile (p : Char → Bool) : Reader Unit := fun cs => some ((), cs.dropWhile p)

/-- Whether this text comes next; if so it is taken. -/
def accept (word : List Char) : Reader Bool := (exactly word *> pure true) <|> pure false

def atEnd : Reader Bool := fun cs => some (cs.isEmpty, cs)

/-- As many items as there are, but no more than `bound`. -/
def manyUpTo {α : Type} (item : Reader α) : Nat → Reader (List α)
  | 0 => pure []
  | bound + 1 => (do return (← item) :: (← manyUpTo item bound)) <|> pure []

/-- As many items as there are; an item that reads something is never cut off by the bound. -/
def many {α : Type} (item : Reader α) : Reader (List α) :=
  fun cs => manyUpTo item (cs.length + 1) cs

/-- Items with separators between them. -/
def sepBy {α : Type} (item : Reader α) (separator : Reader Unit) : Reader (List α) := do
  return (← item) :: (← many (separator *> item))

/-- The value of a text that is read to its end. -/
def all {α : Type} (r : Reader α) (cs : List Char) : Option α :=
  match r cs with
  | some (a, []) => some a
  | _ => none

end Reader

def digitValue (c : Char) : Nat :=
  if c.isDigit then c.toNat - '0'.toNat
  else if 'a' ≤ c && c ≤ 'f' then c.toNat - 'a'.toNat + 10
  else if 'A' ≤ c && c ≤ 'F' then c.toNat - 'A'.toNat + 10
  else 0

def isHexDigit (c : Char) : Bool := c.isDigit || 'a' ≤ c && c ≤ 'f' || 'A' ≤ c && c ≤ 'F'

/-- The number that digits of a base write. -/
def ofDigits (base : Nat) (cs : List Char) : Nat := cs.foldl (fun n c => n * base + digitValue c) 0

end CronWrap.Text
