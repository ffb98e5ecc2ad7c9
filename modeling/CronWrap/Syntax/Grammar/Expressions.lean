import CronWrap.Syntax.Grammar.Functions
import CronWrap.Syntax.Grammar.Markup

/-! Expressions. Operators all bind alike here: a tree tells calls and literals apart, not sums. -/
namespace CronWrap.Syntax

/-- Words that stand for a value and are no names. -/
def valueWords : List String := ["this", "super", "null", "true", "false", "undefined", "import"]

/-- Words that no expression starts with. -/
def reservedWords : List String :=
  ["break", "case", "catch", "const", "continue", "debugger", "default", "do", "else", "extends",
   "finally", "for", "if", "in", "instanceof", "return", "switch", "throw", "try", "var", "while",
   "with"]

def prefixOperators : List String := ["!", "~", "+", "-", "++", "--"]

def prefixWords : List String := ["typeof", "void", "delete", "await"]

def binaryOperators : List String :=
  ["+", "-", "*", "/", "%", "**", "<<", ">>", ">>>", "<", "<=", ">", ">=", "==", "!=", "===", "!==",
   "&", "&&", "|", "||", "^", "??", "=", "+=", "-=", "*=", "/=", "%=", "**=", "<<=", ">>=", ">>>=",
   "&=", "&&=", "|=", "||=", "^=", "??="]

namespace Grammar

open Reader

def arrowBody (g : Grammar) : Reader Node := do
  operator "=>"
  block g <|> g.assignment

/-- An arrow with its body, behind the parameters and perhaps the type of the result. A type that
seems to be one of functions may end before its arrow. -/
def arrowTail (g : Grammar) (typed : Bool) : Reader Node :=
  arrowBody g
    <|> (guard typed *> mark ':' *> resultType g *> arrowBody g)
    <|> (guard typed *> mark ':' *> alternatives g false *> arrowBody g)

/-- An expression in parentheses, or what can be a parameter there; tells whether it can only be the
latter. -/
def coverItem (g : Grammar) : Reader (List Node × Bool) := do
  let spread ← acceptOperator "..."
  let e ← g.assignment
  let marked ← acceptOperator "?"
  let typed ← atMark ':'
  annotation g
  return (e :: (← initializer g), spread || marked || typed)

/-- What stands in parentheses, and whether it can only be parameters. -/
def coverList (g : Grammar) : Reader (List Node × Bool) := do
  mark '('
  let found ← commaSeparated (coverItem g)
  discard (close ')')
  return (found.flatMap (·.1), found.isEmpty || found.any (·.2))

/-- Parentheses, and the arrow function that they may begin. -/
def parenthesized (g : Grammar) (typed : Bool) : Reader Node := phrase do
  let (found, parameters) ← coverList g
  let body ← optional (arrowTail g (typed || parameters))
  return found ++ body.toList

def genericArrow (g : Grammar) : Reader Node := phrase do
  typeParameters g
  let (found, _) ← coverList g
  return found ++ [← arrowTail g true]

/-- In markup, only a constraint or a comma tells type parameters from the name of an element. -/
def opensGenericArrow : Reader Bool := do
  let found ← ahead do
    mark '<'
    discard (acceptKeyword "const")
    discard word
    guard ((← atKeyword "extends") || (← atMark ','))
  return found.isSome

def angled (g : Grammar) : Reader Node := do
  match g.dialect with
  | .typescript => genericArrow g
  | .tsx => if ← opensGenericArrow then genericArrow g else markup g

def asyncArrow (g : Grammar) : Reader Node := phrase do
  keyword "async"
  guard (!(← broken))
  (do
    discard <| optional (typeParameters g)
    let (found, _) ← coverList g
    return found ++ [← arrowTail g true])
  <|> (do
    let name ← identifier
    return [name, ← arrowBody g])

/-- A name, and the arrow function that it may begin. -/
def named (g : Grammar) : Reader Node := do
  let name ← identifier
  (do
    guard (!(← broken))
    let body ← arrowBody g
    return .mk .phrase ⟨name.start, body.stop⟩ [name, body]) <|> pure name

def construction (g : Grammar) : Reader Node := phrase do
  keyword "new"
  if ← acceptOperator "." then
    discard word
    return []
  let made ← g.read .constructed
  discard <| optional (typeArguments g)
  let args ← optional (argumentList g)
  return made :: (args.map (·.1)).toList

def worded (g : Grammar) : Reader Node := do
  match ← peekWord with
  | "function" => function g
  | "class" => classRule g
  | "new" => construction g
  | "async" => function g <|> asyncArrow g <|> named g
  | w =>
    if valueWords.contains w then phrase (word *> pure [])
    else if reservedWords.contains w then failure
    else named g

/-- An operand up to what is applied to it. -/
def head (g : Grammar) (typed : Bool) : Reader Node := do
  match ← next? with
  | none => failure
  | some '(' => parenthesized g typed
  | some '[' => array g
  | some '{' => object g
  | some '"' | some '\'' => string
  | some '/' => phrase (regex *> pure [])
  | some '<' => angled g
  | some '@' => phrase do return (← many (decorator g)) ++ [← classRule g]
  | some '#' => phrase (mark '#' *> word *> pure [])
  | some c =>
    if c = '\x60' then template g
    else phrase (number *> pure []) <|> worded g

/-- Whether type arguments that are applied to nothing may end here. -/
def endsTypeArguments : Reader Bool := do
  match ← next? with
  | none => return true
  | some c =>
    return ")],;:.\x7b\x7d".toList.contains c || (← broken) || (← atKeyword "implements")
      || (← peekOperator) = "?."

/-- A node that starts with `e` and ends here. -/
def applied (e : Node) (parts : List Node) : Reader Node := do
  return .mk .phrase ⟨e.start, ← stop⟩ (e :: parts)

def memberAccess (e : Node) : Reader Node := do
  discard (acceptMark '#')
  discard word
  applied e []

def indexed (g : Grammar) (e : Node) : Reader Node := do
  mark '['
  let index ← g.expression
  discard (close ']')
  applied e [index]

def tagged (g : Grammar) (e : Node) : Reader Node := do
  let t ← template g
  applied e [t]

/-- What follows type arguments. -/
def withTypeArguments (g : Grammar) (calls : Bool) (e : Node) : Reader Node := do
  typeArguments g
  match ← next? with
  | some '(' => guard calls; callOf g e
  | some '\x60' => tagged g e
  | _ => guard calls; guard (← endsTypeArguments); applied e []

/-- What follows a question mark and a dot. -/
def optionalAccess (g : Grammar) (e : Node) : Reader Node := do
  operator "?."
  match ← next? with
  | some '(' => callOf g e
  | some '[' => indexed g e
  | some '<' => typeArguments g; callOf g e
  | some '\x60' => tagged g e
  | _ => memberAccess e

/-- One access, call or other application to an operand; without `calls`, none that calls it. -/
def application (g : Grammar) (calls : Bool) (e : Node) : Reader Node := do
  match ← peekOperator with
  | "." => operator "."; memberAccess e
  | "?." => guard calls; optionalAccess g e
  | "(" => guard calls; callOf g e
  | "[" => indexed g e
  | "\x60" => tagged g e
  | "<" => withTypeArguments g calls e
  | "!" => guard (!(← broken)); advance 1; applied e []
  | "++" | "--" => guard (!(← broken)); guard calls; advance 2; applied e []
  | _ => failure

def operandRule (g : Grammar) (typed calls : Bool) : Reader Node := do
  extend (application g calls) (← head g typed)

def prefixed (g : Grammar) : Reader Unit :=
  (do
    let op ← peekOperator
    guard (prefixOperators.contains op)
    advance op.length)
  <|> (do guard (prefixWords.contains (← word)))
  <|> (do
    guard (g.dialect = .typescript)
    mark '<'
    discard g.type
    mark '>')

/-- A value handed out of a generator. -/
def yielded (g : Grammar) : Reader Node := phrase do
  keyword "yield"
  discard (acceptOperator "*")
  if ← broken then return []
  return (← optional g.assignment).toList

def unary (g : Grammar) (typed : Bool) : Reader Node := yielded g <|> do
  let a ← start
  let before ← many (prefixed g)
  let e ← operandRule g typed true
  if before.isEmpty then return e else return .mk .phrase ⟨a, ← stop⟩ [e]

/-- One operator and the operand after it. -/
def operation (g : Grammar) : Reader (List Node) :=
  (do
    let op ← peekOperator
    guard (binaryOperators.contains op)
    advance op.length
    return [← unary g true])
  <|> (do
    guard (["in", "instanceof"].contains (← word))
    return [← unary g true])
  <|> (do
    guard (!(← broken))
    guard (["as", "satisfies"].contains (← word))
    discard g.type
    return [])

/-- The two branches of a conditional. The mark of an optional parameter starts none. -/
def branches (g : Grammar) (typed : Bool) : Reader (List Node) := do
  operator "?"
  match ← next? with
  | some c => guard (!":,)=".toList.contains c)
  | none => failure
  let last := if typed then g.assignment else g.read .branch
  let short : Reader (List Node) := do return [← g.read .branch <* mark ':', ← last]
  let long : Reader (List Node) := do return [← g.assignment <* mark ':', ← last]
  -- One more colon means that the first one belonged to the type of a result.
  (do
    let found ← short
    guard (!(typed && (← atMark ':')))
    return found) <|> long <|> short

def assignmentRule (g : Grammar) (typed : Bool) : Reader Node := do
  let first ← unary g typed
  let others ← many (operation g)
  let choice ← optional (branches g typed)
  if others.isEmpty && choice.isNone then return first
  else return .mk .phrase ⟨first.start, ← stop⟩ (first :: others.flatten ++ choice.getD [])

def sequence (g : Grammar) : Reader Node := do
  let first ← g.assignment
  let others ← many (mark ',' *> g.assignment)
  if others.isEmpty then return first
  else return .mk .phrase ⟨first.start, ← stop⟩ (first :: others)

end Grammar

end CronWrap.Syntax
