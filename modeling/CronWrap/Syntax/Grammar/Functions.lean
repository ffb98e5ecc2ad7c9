import CronWrap.Syntax.Grammar.Literals

/-! Functions, objects and classes: what has parameters, members and bodies. -/
namespace CronWrap.Syntax

namespace Reader

/-- Whether the name of a member comes next. -/
def atMemberName : Reader Bool := do
  match ← next? with
  | some c => return isWordPart c || "\\\"'[#*".toList.contains c
  | none => return false

/-- Words before the name of a member that say more about it. -/
def modifiers (words : List String) : Reader Unit := discard <| many do
  guard (words.contains (← word))
  guard (← atMemberName)

def objectModifiers : List String := ["async", "get", "set"]

def classModifiers : List String :=
  ["public", "private", "protected", "static", "abstract", "override", "readonly", "declare",
   "async", "get", "set", "accessor"]

def parameterModifiers : List String := ["public", "private", "protected", "readonly", "override"]

end Reader

namespace Grammar

open Reader

/-- An annotation before a declaration: a name with dots, perhaps called, or a parenthesized one. -/
def decorator (g : Grammar) : Reader Node := phrase do
  mark '@'
  if ← acceptMark '(' then
    let e ← g.expression
    discard (close ')')
    return [e]
  let name ← identifier
  let chain ← extend (fun (e : Node) => do
    operator "."
    discard word
    return .mk .phrase ⟨e.start, ← stop⟩ [e]) name
  discard <| optional (typeArguments g)
  return [← callOf g chain <|> pure chain]

/-- A property or method name; the parts are those of a computed one. -/
def memberName (g : Grammar) : Reader (List Node) :=
  (do
    mark '['
    let e ← g.expression
    discard (close ']')
    return [e])
  <|> (discard word <|> discard string <|> number <|> (mark '#' *> discard word)) *> pure []

def block (g : Grammar) : Reader Node := do
  guard (← atMark '{')
  g.statement

/-- A parameter as the target of an assignment. -/
def binding (g : Grammar) : Reader Node := do
  match ← next? with
  | some '[' | some '{' => g.operand
  | _ => identifier

/-- A type after a colon. -/
def annotation (g : Grammar) : Reader Unit := do
  if ← acceptMark ':' then discard g.type

def initializer (g : Grammar) : Reader (List Node) := do
  if ← acceptOperator "=" then return [← g.assignment] else return []

def parameter (g : Grammar) : Reader (List Node) := do
  let decorators ← many (decorator g)
  discard <| many do
    guard (parameterModifiers.contains (← word))
    guard ((← atMemberName) || (← atMark '{'))
  discard (acceptOperator "...")
  let target ← binding g
  discard (acceptOperator "?")
  annotation g
  return decorators ++ target :: (← initializer g)

/-- Parameters, result and body; a declaration may go without a body. -/
def functionTail (g : Grammar) : Reader (List Node) := do
  discard <| optional (typeParameters g)
  mark '('
  let parameters ← commaSeparated (parameter g)
  discard (close ')')
  if ← acceptMark ':' then resultType g
  let body ← optional (block g)
  return parameters.flatten ++ body.toList

def function (g : Grammar) : Reader Node := phrase do
  if ← acceptKeyword "async" then guard (!(← broken))
  keyword "function"
  discard (acceptOperator "*")
  discard (optional word)
  functionTail g

/-- A member of an object literal. -/
def property (g : Grammar) : Reader (List Node) := do
  if ← acceptOperator "..." then return [← g.assignment]
  modifiers objectModifiers
  discard (acceptOperator "*")
  let name ← memberName g
  if ← acceptMark ':' then return name ++ [← g.assignment]
  if (← atMark '(') || (← atMark '<') then return name ++ (← functionTail g)
  return name ++ (← initializer g)

def object (g : Grammar) : Reader Node := spanning .object do
  mark '{'
  let found ← commaSeparated (property g)
  discard (close '}')
  return found.flatten

/-- The name of a member given by the type of its keys. -/
def indexSignature (g : Grammar) : Reader (List Node) := do
  mark '['
  discard word
  mark ':'
  discard g.type
  mark ']'
  return []

def member (g : Grammar) : Reader Node := phrase do
  if ← acceptMark ';' then return []
  if let some body ← optional (keyword "static" *> block g) then return [body]
  let decorators ← many (decorator g)
  modifiers classModifiers
  discard (acceptOperator "*")
  let name ← indexSignature g <|> memberName g
  discard <| acceptOperator "?" <||> acceptOperator "!"
  let parts ←
    if (← atMark '(') || (← atMark '<') then functionTail g
    else do
      annotation g
      initializer g
  semicolon
  return decorators ++ name ++ parts

/-- What a class extends, with the types that it implements passed over. -/
def heritage (g : Grammar) : Reader (List Node) := do
  let bases ←
    if ← acceptKeyword "extends" then
      commaSeparated (g.operand <* optional (typeArguments g))
    else pure []
  if ← acceptKeyword "implements" then discard (commaSeparated g.type)
  return bases

def classRule (g : Grammar) : Reader Node := phrase do
  keyword "class"
  discard <| optional do guard ((← word) ∉ ["extends", "implements"])
  discard <| optional (typeParameters g)
  let bases ← heritage g
  mark '{'
  let members ← pieces (member g) (atMark '}')
  discard (close '}')
  return bases ++ members

end Grammar

end CronWrap.Syntax
