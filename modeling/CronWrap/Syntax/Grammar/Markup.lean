import CronWrap.Syntax.Grammar.Literals

/-! Markup elements: their text is plain, and only what stands in braces is code. -/
namespace CronWrap.Syntax

/-- The length of the plain text that an element goes on with. -/
def markupTextLength (cs : List Char) : Nat := (cs.takeWhile fun c => c ≠ '{' && c ≠ '<').length

namespace Grammar

open Reader

def markupName : Reader Unit := do
  let n := ((← rest).takeWhile fun c => isWordPart c || c = '-' || c = ':' || c = '.').length
  guard (n ≠ 0)
  advance n

/-- Code in braces, which may be left out or spread. -/
def embedded (g : Grammar) : Reader (List Node) := do
  mark '{'
  discard (acceptOperator "...")
  let e ← optional g.expression
  discard (close '}')
  return e.toList

def attributeValue (g : Grammar) : Reader (List Node) := do
  match ← rest with
  | '{' :: _ => embedded g
  | '<' :: _ => return [← g.element]
  | q :: cs =>
    guard (q = '"' || q = '\'')
    advance ((cs.takeWhile (· ≠ q)).length + 2)
    return []
  | [] => failure

def markupAttribute (g : Grammar) : Reader (List Node) :=
  embedded g <|> do
    markupName
    if ← acceptOperator "=" then attributeValue g else return []

/-- One piece of code or element among the children, with the text before it. -/
def markupChild (g : Grammar) : Reader (List Node) := do
  let cs ← gap
  let n := markupTextLength cs
  match cs.drop n with
  | '{' :: _ => advanceRaw n; embedded g
  | '<' :: '/' :: _ | [] => failure
  | _ => advanceRaw n; return [← g.element]

/-- The children of an element and its closing tag. -/
def markupContent (g : Grammar) : Reader (List Node) := do
  let children ← many (markupChild g)
  advanceRaw (markupTextLength (← gap))
  if ← acceptMark '<' then
    mark '/'
    discard (optional markupName)
    discard (close '>')
  return children.flatten

def markup (g : Grammar) : Reader Node := phrase do
  mark '<'
  if ← acceptMark '>' then markupContent g
  else
    markupName
    discard <| optional (typeArguments g)
    let attributes ← many (markupAttribute g)
    let children ←
      if ← acceptMark '/' then mark '>' *> pure []
      else mark '>' *> markupContent g
    return attributes.flatten ++ children

end Grammar

end CronWrap.Syntax
