import CronWrap.Syntax.Grammar.Types

/-! Lists of items, templates, and calls: the constructs that bracket expressions. -/
namespace CronWrap.Syntax

/-- The length of the text of a template up to a substitution or its end. -/
def templateTextLength : List Char → Nat
  | [] => 0
  | '\\' :: _ :: rest => templateTextLength rest + 2
  | '$' :: '{' :: _ => 0
  | c :: rest => if c = '\x60' then 0 else templateTextLength rest + 1

namespace Grammar

open Reader

/-- One substitution of a template, with the text before it. -/
def substitution (g : Grammar) : Reader Node := do
  let cs ← gap
  let n := templateTextLength cs
  match cs.drop n with
  | '$' :: _ =>
    advanceRaw (n + 2)
    let e ← g.expression
    discard (close '}')
    return e
  | _ => failure

def template (g : Grammar) : Reader Node := phrase do
  mark '\x60'
  let parts ← many (substitution g)
  let cs ← gap
  let n := templateTextLength cs
  advanceRaw (if n < cs.length then n + 1 else n)
  return parts

/-- An item of a list, which may be spread. -/
def item (g : Grammar) : Reader Node :=
  (phrase do operator "..."; return [← g.assignment]) <|> g.assignment

/-- Items with commas between them; any item may be missing. -/
def items (g : Grammar) : Reader (List Node) := do
  let first ← optional (item g)
  let others ← many (mark ',' *> optional (item g))
  return (first :: others).filterMap id

def array (g : Grammar) : Reader Node := spanning .array do
  mark '['
  let found ← items g
  discard (close ']')
  return found

/-- The arguments of a call, and whether they are closed. -/
def argumentList (g : Grammar) : Reader (Node × Bool) := do
  let a ← start
  mark '('
  let found ← items g
  let closed ← close ')'
  return (.mk .arguments ⟨a, ← stop⟩ found, closed)

/-- A call of `callee`; one that the end of the text cuts off is none. -/
def callOf (g : Grammar) (callee : Node) : Reader Node := do
  let (args, closed) ← argumentList g
  return .mk (if closed then .call else .phrase) ⟨callee.start, ← stop⟩ [callee, args]

end Grammar

namespace Reader

def identifier : Reader Node := spanning .identifier (word *> pure [])

end Reader

end CronWrap.Syntax
