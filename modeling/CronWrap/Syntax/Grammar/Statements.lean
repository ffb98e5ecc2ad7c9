import CronWrap.Syntax.Grammar.Expressions
import CronWrap.Syntax.Grammar.Imports

/-! Statements and declarations. -/
namespace CronWrap.Syntax

namespace Grammar

open Reader

def blockRule (g : Grammar) : Reader Node := phrase do
  mark '{'
  let found ← pieces g.statement (atMark '}')
  discard (close '}')
  return found

/-- A condition or subject in parentheses. -/
def condition (g : Grammar) : Reader Node := do
  mark '('
  let e ← g.expression
  discard (close ')')
  return e

def declarator (g : Grammar) : Reader (List Node) := do
  let target ← binding g
  discard (acceptOperator "!")
  annotation g
  return target :: (← initializer g)

def declarationWords : List String := ["var", "let", "const"]

/-- Variables; `let` starts them only where a target follows. -/
def variableList (g : Grammar) : Reader (List Node) := do
  guard (declarationWords.contains (← word))
  match ← next? with
  | some c => guard (isWordPart c || c = '\\' || c = '[' || c = '{')
  | none => failure
  let first ← declarator g
  let others ← many (mark ',' *> declarator g)
  return first ++ others.flatten

def choice (g : Grammar) : Reader (List Node) := do
  keyword "if"
  let subject ← condition g
  let yes ← g.statement
  if ← acceptKeyword "else" then return [subject, yes, ← g.statement] else return [subject, yes]

/-- The head of a loop over the items or keys of a value. -/
def eachHead (g : Grammar) : Reader (List Node) := do
  discard <| optional do
    guard (declarationWords.contains (← word))
    match ← next? with
    | some c => guard (isWordPart c || c = '\\' || c = '[' || c = '{')
    | none => failure
  let target ← g.operand
  guard (["of", "in"].contains (← word))
  return [target, ← g.expression]

/-- The head of a loop with a counter. -/
def countingHead (g : Grammar) : Reader (List Node) := do
  let first ← optional (variableList g <|> do return [← g.expression])
  mark ';'
  let test ← optional g.expression
  mark ';'
  let step ← optional g.expression
  return first.getD [] ++ test.toList ++ step.toList

def forLoop (g : Grammar) : Reader (List Node) := do
  keyword "for"
  discard (acceptKeyword "await")
  mark '('
  let parts ← (eachHead g <* mark ')') <|> (countingHead g <* mark ')')
  return parts ++ [← g.statement]

/-- A loop or block with its subject in front. -/
def headed (g : Grammar) (w : String) : Reader (List Node) := do
  keyword w
  let subject ← condition g
  return [subject, ← g.statement]

def doLoop (g : Grammar) : Reader (List Node) := do
  keyword "do"
  let body ← g.statement
  keyword "while"
  let test ← condition g
  semicolon
  return [body, test]

def caseClause (g : Grammar) : Reader Node := phrase do
  let test ←
    if ← acceptKeyword "default" then pure []
    else keyword "case" *> do return [← g.expression]
  mark ':'
  let body ← pieces g.statement (do
    return (← atMark '}') || (← atKeyword "case") || (← atKeyword "default"))
  return test ++ body

def switch (g : Grammar) : Reader (List Node) := do
  keyword "switch"
  let subject ← condition g
  mark '{'
  let clauses ← pieces (caseClause g) (atMark '}')
  discard (close '}')
  return subject :: clauses

def catchClause (g : Grammar) : Reader (List Node) := do
  keyword "catch"
  let target ← optional do
    mark '('
    let target ← binding g
    annotation g
    mark ')'
    return target
  return target.toList ++ [← block g]

def attempt (g : Grammar) : Reader (List Node) := do
  keyword "try"
  let body ← block g
  let handler ← optional (catchClause g)
  let last ← optional (keyword "finally" *> block g)
  return body :: handler.getD [] ++ last.toList

/-- Leaving a function or raising an error, with a value on the same line. -/
def leaving (g : Grammar) : Reader (List Node) := do
  guard (["return", "throw"].contains (← word))
  let value ← if ← broken then pure none else optional g.expression
  semicolon
  return value.toList

/-- Leaving a loop, with a label on the same line. -/
def jump : Reader (List Node) := do
  guard (["break", "continue", "debugger"].contains (← word))
  unless ← broken do discard <| optional do guard (!reservedWords.contains (← word))
  semicolon
  return []

def labelled (g : Grammar) : Reader (List Node) := do
  discard word
  mark ':'
  return [← g.statement]

def typeAlias (g : Grammar) : Reader (List Node) := do
  keyword "type"
  discard word
  discard <| optional (typeParameters g)
  operator "="
  discard g.type
  semicolon
  return []

def interface (g : Grammar) : Reader (List Node) := do
  keyword "interface"
  discard word
  discard <| optional (typeParameters g)
  if ← acceptKeyword "extends" then discard (commaSeparated g.type)
  balanced
  return []

def enumeration (g : Grammar) : Reader (List Node) := do
  discard (acceptKeyword "const")
  keyword "enum"
  discard word
  mark '{'
  let members ← commaSeparated do return (← memberName g) ++ (← initializer g)
  discard (close '}')
  return members.flatten

/-- A namespace or the declaration of a module. -/
def moduleBody (g : Grammar) : Reader (List Node) := do
  guard (["namespace", "module"].contains (← word))
  discard string <|> qualifiedName
  return [← block g]

/-- A declaration with a word before it that says more about it. -/
def qualified (g : Grammar) : Reader (List Node) := do
  guard (["declare", "abstract", "global"].contains (← word))
  guard (!(← broken))
  guard ((← peekWord) ≠ "" || (← atMark '{'))
  return [← g.statement]

def annotated (g : Grammar) : Reader (List Node) := do
  let first ← decorator g
  let others ← many (decorator g)
  return first :: others ++ [← g.statement]

/-- What is exported under its own names, or from another module. -/
def exportList : Reader (List Node) := do
  typeOnly
  if ← acceptMark '*' then
    discard <| optional (keyword "as" *> exportName)
    let found ← fromModule
    semicolon
    return found
  guard (← atMark '{')
  balanced
  let found ← optional fromModule
  semicolon
  return found.getD []

def exportStatement (g : Grammar) : Reader (List Node) := do
  keyword "export"
  exportList
  <|> (do
    operator "="
    let e ← g.expression
    semicolon
    return [e])
  <|> (keyword "as" *> keyword "namespace" *> word *> semicolon *> pure [])
  <|> (do
    keyword "default"
    let e ← if ← atMark '{' then g.assignment else g.statement
    semicolon
    return [e])
  <|> (do return [← g.statement])

def expressionStatement (g : Grammar) : Reader (List Node) := do
  let e ← g.expression
  semicolon
  return [e]

/-- Statements that are known by their first word. -/
def wordedStatement (g : Grammar) : Reader (List Node) := do
  match ← peekWord with
  | "if" => choice g
  | "for" => forLoop g
  | "while" => headed g "while"
  | "with" => headed g "with"
  | "do" => doLoop g
  | "switch" => switch g
  | "try" => attempt g
  | "return" | "throw" => leaving g
  | "break" | "continue" | "debugger" => jump
  | "function" => do return [← function g]
  | "async" => do return [← function g]
  | "class" => do return [← classRule g]
  | "export" => exportStatement g
  | "const" => enumeration g <|> (variableList g <* semicolon)
  | "var" | "let" => variableList g <* semicolon
  | "type" => typeAlias g
  | "interface" => interface g
  | "enum" => enumeration g
  | "namespace" | "module" => moduleBody g
  | "declare" | "abstract" | "global" => qualified g
  | _ => failure

def statementRule (g : Grammar) : Reader Node := do
  match ← next? with
  | none => failure
  | some '{' => blockRule g
  | some ';' => phrase (semicolon *> pure [])
  | some '@' => phrase (annotated g)
  | some _ =>
    importStatement <|> importAlias
      <|> phrase (wordedStatement g <|> labelled g <|> expressionStatement g)

end Grammar

end CronWrap.Syntax
