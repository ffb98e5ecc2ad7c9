import CronWrap.Path.Extension
import CronWrap.Syntax.Token

/-! What the rules of the grammar share: the dialect, and how a rule reads what is nested in it. -/
namespace CronWrap.Syntax

/-- With markup, `<` before an operand opens an element; without, it opens a type assertion. -/
inductive Dialect
  | typescript
  | tsx
  deriving DecidableEq, Repr

namespace Dialect

def name : Dialect → String
  | typescript => "typescript"
  | tsx => "tsx"

/-- Plain scripts may hold markup; files that declare themselves free of it may not. -/
def ofFile (file : Path) : Dialect :=
  if [".ts", ".mts", ".cts"].contains file.lowerSuffix then typescript else tsx

end Dialect

/-- Constructs that may be nested in each other without end. -/
inductive Goal
  | statement
  | expression
  /-- One expression without commas. -/
  | assignment
  /-- The same in the middle of a conditional, where `:` after parentheses starts no result type. -/
  | branch
  /-- One expression without operators around it. -/
  | operand
  /-- What `new` is applied to: an operand up to its first call. -/
  | constructed
  | type
  | element
  deriving DecidableEq, Repr

/-- A grammar that is known down to the nested constructs. -/
structure Grammar where
  dialect : Dialect
  read : Goal → Reader Node

namespace Grammar

open Reader

def statement (g : Grammar) : Reader Node := g.read .statement

def expression (g : Grammar) : Reader Node := g.read .expression

def assignment (g : Grammar) : Reader Node := g.read .assignment

def operand (g : Grammar) : Reader Node := g.read .operand

def type (g : Grammar) : Reader Node := g.read .type

def element (g : Grammar) : Reader Node := g.read .element

end Grammar

namespace Reader

/-- Items with commas between them, the last of which may follow the last item. -/
def commaSeparated {α : Type} (item : Reader α) : Reader (List α) :=
  (do
    let first ← item
    let others ← many (mark ',' *> item)
    discard (acceptMark ',')
    return first :: others) <|> pure []

def phrase (parts : Reader (List Node)) : Reader Node := spanning .phrase parts

def semicolon : Reader Unit := discard (acceptMark ';')

/-- What stands before `stop`, piece by piece; a piece that makes no sense is passed over token by
token. -/
def pieces (piece : Reader Node) (isStop : Reader Bool) : Reader (List Node) := do
  let found ← many do
    guard (!(← isStop))
    guard (!(← atEnd))
    (some <$> piece) <|> (skipToken *> pure none)
  return found.filterMap id

def atMark (m : Char) : Reader Bool := do return (← next?) = some m

def atKeyword (w : String) : Reader Bool := do return (← peekWord) = w

end Reader

end CronWrap.Syntax
