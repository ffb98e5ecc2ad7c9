import CronWrap.Syntax.Grammar.Literals

/-! Import statements. -/
namespace CronWrap.Syntax

/-- The number of characters up to the end of the last comment that begins on the line; `n` counts
those read so far and `last` those up to the last end found. -/
def commentsOnLine : Gap → Nat → Nat → List Char → Nat
  | _, _, last, [] => last
  | .spaces, n, last, '/' :: '/' :: rest => commentsOnLine .lineComment (n + 2) last rest
  | .spaces, n, last, '/' :: '*' :: rest => commentsOnLine .blockComment (n + 2) last rest
  | .spaces, n, last, c :: rest =>
    if isSpace c && !isLineBreak c then commentsOnLine .spaces (n + 1) last rest else last
  | .lineComment, n, _, c :: rest =>
    if isLineBreak c then n
    else if c = '\r' then commentsOnLine .spaces (n + 1) n rest
    else commentsOnLine .lineComment (n + 1) (n + 1) rest
  | .blockComment, n, _, '*' :: '/' :: rest => commentsOnLine .spaces (n + 2) (n + 2) rest
  | .blockComment, n, last, _ :: rest => commentsOnLine .blockComment (n + 1) last rest

namespace Reader

/-- The end of a statement: its semicolon, which may follow on a later line, or else the last
comment that begins on the line. -/
def statementEnd : Reader Unit := do
  if ← acceptMark ';' then return
  advanceRaw (commentsOnLine .spaces 0 0 (← gap))

/-- The word `type` before what is imported, unless it is a name itself. -/
def typeOnly : Reader Unit := discard <| optional do
  guard (["type", "typeof"].contains (← word))
  match ← next? with
  | some '{' | some '*' => pure ()
  | _ =>
    let w ← peekWord
    guard (w ≠ "")
    if w = "from" then
      let after ← ahead (word *> peekWord)
      guard (after = some "from")

/-- The name of an export: a word or a string. -/
def exportName : Reader Node := string <|> identifier

/-- An export with the name that it gets here. -/
def renamed : Reader (List Node) := do
  let name ← exportName
  if ← acceptKeyword "as" then return [name, ← identifier] else return [name]

/-- A specifier; `type` before a name is no part of the name, unless `as` and a new name follow. -/
def importSpecifier : Reader Node := spanning .importSpecifier do
  (do
    guard (["type", "typeof"].contains (← word))
    let isName ← ahead (keyword "as" *> word *> do guard ((← peekWord) = ""))
    guard isName.isNone
    renamed) <|> renamed

def namedImports : Reader Node := spanning .namedImports do
  mark '{'
  let found ← commaSeparated importSpecifier
  mark '}'
  return found

def namespaceImport : Reader Node := phrase do
  mark '*'
  keyword "as"
  return [← identifier]

def importClause : Reader Node := spanning .importClause do
  let single ← optional identifier
  match single with
  | none => return [← namedImports <|> namespaceImport]
  | some name =>
    if ← acceptMark ',' then return [name, ← namedImports <|> namespaceImport]
    else return [name]

/-- What an import says about the module's kind. -/
def importAttributes : Reader (List Node) := do
  let found ← optional (phrase do
    guard (!(← broken))
    guard (["with", "assert"].contains (← word))
    guard (← atMark '{')
    balanced
    return [])
  return found.toList

/-- The module of a statement, after the word `from`. -/
def fromModule : Reader (List Node) := do
  keyword "from"
  let module ← string
  return module :: (← importAttributes)

def importRequire : Reader Node := phrase do
  let name ← identifier
  operator "="
  keyword "require"
  mark '('
  let module ← string
  mark ')'
  return [name, module]

def importStatement : Reader Node := spanning .importStatement do
  keyword "import"
  typeOnly
  let parts ←
    (do return [← importRequire])
    <|> (do return (← importClause) :: (← fromModule))
    <|> (do return (← string) :: (← importAttributes))
  statementEnd
  return parts

/-- A name given to a part of a namespace, which imports nothing. -/
def importAlias : Reader Node := phrase do
  keyword "import"
  let name ← identifier
  operator "="
  qualifiedName
  statementEnd
  return [name]

end Reader

end CronWrap.Syntax
