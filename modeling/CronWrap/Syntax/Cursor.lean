import CronWrap.Syntax.Node

/-! Places in the text of a module, between one token and the next, and readers that move them. -/
namespace CronWrap.Syntax

/-- Characters that separate tokens. -/
def isSpace (c : Char) : Bool :=
  let n := c.toNat
  (0x09 ≤ n && n ≤ 0x0d) || n == 0x20 || n == 0x85 || n == 0xa0 || n == 0x1680
    || (0x2000 ≤ n && n ≤ 0x200b) || n == 0x2028 || n == 0x2029 || n == 0x202f || n == 0x205f
    || n == 0x2060 || n == 0x3000 || n == 0xfeff

/-- Characters that end a line of code. -/
def isLineBreak (c : Char) : Bool := c = '\n' || c = '\u2028' || c = '\u2029'

/-- Where a walk over spaces and comments is. -/
inductive Gap
  | spaces
  | lineComment
  | blockComment
  deriving DecidableEq, Repr

/-- What spaces and comments leave of a text, with the number of characters that they take and
whether they break the line. -/
def skipGap : Gap → Nat → Bool → List Char → Nat × Bool × List Char
  | _, n, broken, [] => (n, broken, [])
  | .spaces, n, broken, '/' :: '/' :: rest => skipGap .lineComment (n + 2) broken rest
  | .spaces, n, broken, '/' :: '*' :: rest => skipGap .blockComment (n + 2) broken rest
  | .spaces, n, broken, c :: rest =>
    if isSpace c then skipGap .spaces (n + 1) (broken || isLineBreak c) rest
    else (n, broken, c :: rest)
  | .lineComment, n, broken, c :: rest =>
    if isLineBreak c || c = '\r' then skipGap .spaces (n + 1) (broken || isLineBreak c) rest
    else skipGap .lineComment (n + 1) broken rest
  | .blockComment, n, broken, '*' :: '/' :: rest => skipGap .spaces (n + 2) broken rest
  | .blockComment, n, broken, c :: rest =>
    skipGap .blockComment (n + 1) (broken || isLineBreak c) rest

/-- A place after one token and before the next. -/
structure Cursor where
  /-- Where the token before ends. -/
  stop : Nat
  /-- The text from there on. -/
  gap : List Char
  /-- Where the token after starts. -/
  start : Nat
  /-- The text from there on. -/
  rest : List Char
  /-- Whether a line ends between the two. -/
  broken : Bool
  deriving Repr, Inhabited

namespace Cursor

/-- The place after a token that ends at `stop`, with `gap` following it. -/
def after (stop : Nat) (gap : List Char) : Cursor :=
  let (n, broken, rest) := skipGap .spaces 0 false gap
  ⟨stop, gap, stop + n, rest, broken⟩

/-- The first line if it names an interpreter. -/
def interpreterLine (source : List Char) : List Char :=
  match source with
  | '#' :: '!' :: _ => source.takeWhile fun c => !(isLineBreak c || c = '\r')
  | _ => []

/-- The place before the first token of a module. -/
def ofSource (source : List Char) : Cursor :=
  let mark := source.takeWhile (· = '\ufeff')
  let line := interpreterLine (source.drop mark.length)
  let n := mark.length + line.length
  after n (source.drop n)

/-- Past a token of `n` characters, or to the end of the text. -/
def advance (c : Cursor) (n : Nat) : Cursor :=
  after (c.start + (c.rest.take n).length) (c.rest.drop n)

/-- Past `n` characters that follow the token before directly, or to the end of the text. -/
def advanceRaw (c : Cursor) (n : Nat) : Cursor :=
  after (c.stop + (c.gap.take n).length) (c.gap.drop n)

end Cursor

/-- A reader takes a piece of a module, or refuses the text before it. -/
abbrev Reader := StateT Cursor Option

namespace Reader

def start : Reader Nat := fun c => some (c.start, c)

def stop : Reader Nat := fun c => some (c.stop, c)

def rest : Reader (List Char) := fun c => some (c.rest, c)

def gap : Reader (List Char) := fun c => some (c.gap, c)

/-- Whether a line ends before the next token. -/
def broken : Reader Bool := fun c => some (c.broken, c)

def next? : Reader (Option Char) := fun c => some (c.rest.head?, c)

def atEnd : Reader Bool := fun c => some (c.rest.isEmpty, c)

def advance (n : Nat) : Reader Unit := fun c => some ((), c.advance n)

def advanceRaw (n : Nat) : Reader Unit := fun c => some ((), c.advanceRaw n)

/-- What the reader would take, without taking it. -/
def ahead {α : Type} (r : Reader α) : Reader (Option α) := fun c => some ((r c).map (·.1), c)

def manyUpTo {α : Type} (item : Reader α) : Nat → Reader (List α)
  | 0 => pure []
  | bound + 1 => (do return (← item) :: (← manyUpTo item bound)) <|> pure []

/-- As many items as there are. -/
def many {α : Type} (item : Reader α) : Reader (List α) :=
  fun c => manyUpTo item (c.gap.length + 1) c

def extendUpTo {α : Type} (step : α → Reader α) : Nat → α → Reader α
  | 0, a => pure a
  | bound + 1, a => (do extendUpTo step bound (← step a)) <|> pure a

/-- Extends what was read as often as possible. -/
def extend {α : Type} (step : α → Reader α) (a : α) : Reader α :=
  fun c => extendUpTo step (c.gap.length + 1) a c

/-- A node over all that a reader takes. -/
def spanning (kind : Kind) (parts : Reader (List Node)) : Reader Node := do
  let a ← start
  let children ← parts
  return .mk kind ⟨a, ← stop⟩ children

end Reader

end CronWrap.Syntax
