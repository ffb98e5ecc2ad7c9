import CronWrap.Syntax.Grammar.Basic

/-! Types. They hold no calls, so only where they end matters. -/
namespace CronWrap.Syntax

namespace Reader

/-- Past a template without looking into it. -/
def templateTailLength : List Char → Nat
  | [] => 0
  | '\\' :: _ :: rest => templateTailLength rest + 2
  | c :: rest => if c = '\x60' then 1 else templateTailLength rest + 1

def plainTemplate : Reader Unit := do
  match ← rest with
  | '\x60' :: cs => advance (templateTailLength cs + 1)
  | _ => failure

/-- Past one token inside brackets; gives the depth after it. -/
def bracketToken (depth : Nat) : Reader Nat := do
  match ← next? with
  | some '(' | some '[' | some '{' => advance 1; return depth + 1
  | some ')' | some ']' | some '}' => advance 1; return depth - 1
  | some _ => plainTemplate <|> skipToken; return depth
  | none => failure

/-- From an opening bracket past the one that closes it. -/
def balanced : Reader Unit := do
  let c ← next?
  guard (c = some '(' || c = some '[' || c = some '{')
  let depth ← bracketToken 0
  discard <| extend (fun depth => do guard (depth ≠ 0); bracketToken depth) depth

/-- A name with dots in it. -/
def qualifiedName : Reader Unit := do
  discard word
  discard <| many (operator "." *> acceptMark '#' *> word)

end Reader

namespace Grammar

open Reader

def typeArguments (g : Grammar) : Reader Unit := do
  mark '<'
  discard g.type
  discard <| many (mark ',' *> g.type)
  discard (acceptMark ',')
  mark '>'

/-- One parameter of a generic declaration. -/
def typeParameter (g : Grammar) : Reader Unit := do
  discard <| many do
    let w ← word
    guard (["const", "in", "out"].contains w)
    guard ((← peekWord) ≠ "")
  discard word
  if ← acceptKeyword "extends" then discard g.type
  if ← acceptOperator "=" then discard g.type

def typeParameters (g : Grammar) : Reader Unit := do
  mark '<'
  typeParameter g
  discard <| many (mark ',' *> typeParameter g)
  discard (acceptMark ',')
  mark '>'

/-- The type of a result, which may be a statement about an argument. -/
def resultType (g : Grammar) : Reader Unit := do
  if ← atKeyword "asserts" then
    (do keyword "asserts"; guard (!(← broken)); discard word) <|> discard g.type
  else discard g.type
  if (← atKeyword "is") && !(← broken) then
    keyword "is"
    discard g.type

/-- Words of types that name no parameter. -/
def typeWords : List String :=
  ["void", "null", "undefined", "true", "false", "typeof", "new", "keyof"]

/-- A parameter in the type of a function. -/
def signatureParameter (g : Grammar) : Reader Unit := do
  discard (acceptOperator "...")
  balanced <|> do guard (!typeWords.contains (← word))
  discard (acceptOperator "?")
  if ← acceptMark ':' then discard g.type

/-- The type of a function: parameters, an arrow and a result. -/
def functionType (g : Grammar) : Reader Unit := do
  discard <| optional (typeParameters g)
  mark '('
  discard <| commaSeparated (signatureParameter g)
  mark ')'
  operator "=>"
  resultType g

def namedType (g : Grammar) : Reader Unit := do
  qualifiedName
  unless ← broken do discard <| optional (typeArguments g)

/-- The type of a module, `import("m")`. -/
def importType (g : Grammar) : Reader Unit := do
  keyword "import"
  balanced
  discard <| many (operator "." *> word)
  discard <| optional (typeArguments g)

/-- The type of a value, given by its name. -/
def typeQuery (g : Grammar) : Reader Unit := do
  keyword "typeof"
  importType g <|> namedType g

/-- A word that changes the type after it. -/
def typePrefix : Reader Unit := do
  let w ← word
  guard (["keyof", "unique", "readonly", "infer", "new", "abstract"].contains w)
  match ← next? with
  | some c => guard (isWordPart c || "([\x7b<\"'\x60".toList.contains c)
  | none => failure

/-- A type of one piece. Without `functions`, parentheses are no parameters of a function's type. -/
def primaryType (g : Grammar) (functions : Bool) : Reader Unit := do
  match ← next? with
  | some '(' => (guard functions *> functionType g) <|> balanced
  | some '<' => functionType g
  | some '[' | some '{' => balanced
  | some '"' | some '\'' => discard string
  | some '\x60' => plainTemplate
  | some '-' => advance 1; number
  | _ => number <|> typeQuery g <|> importType g <|> namedType g

/-- A type with the words before it and the brackets after it. -/
def postfixType (g : Grammar) (functions : Bool) : Reader Unit := do
  discard <| many typePrefix
  primaryType g functions
  discard <| many do
    guard (!(← broken))
    guard (← atMark '[')
    balanced

def alternatives (g : Grammar) (functions : Bool) : Reader Unit := do
  discard <| acceptOperator "|" <||> acceptOperator "&"
  postfixType g functions
  discard <| many do
    operator "|" <|> operator "&"
    postfixType g functions

/-- A type, conditional ones included. -/
def wholeType (g : Grammar) : Reader Node := phrase do
  alternatives g true
  if (← atKeyword "extends") && !(← broken) then
    discard <| optional do
      keyword "extends"
      discard g.type
      operator "?"
      discard g.type
      mark ':'
      discard g.type
  return []

end Grammar

end CronWrap.Syntax
