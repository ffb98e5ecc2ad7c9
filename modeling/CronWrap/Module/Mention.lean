import CronWrap.Text.Word

/-! A quick look at the text of a module for an import of a name, before it is parsed. -/
namespace CronWrap.Mention

open Text

/-- The word `from` and the quoted module, after the list of names. -/
def namesModule (module cs : List Char) : Bool :=
  match "from".toList.isPrefixOf? (dropBlanks cs) with
  | none => false
  | some rest =>
    match dropBlanks rest with
    | [] => false
    | q :: rest =>
      (q = '"' || q = '\'') &&
        match module.isPrefixOf? rest with
        | some (l :: _) => l = '"' || l = '\''
        | _ => false

/-- Whether the name stands in a list of names as a word of its own, and its module after the list;
`before` is the character before the text. -/
def inList (name module : List Char) (before : Option Char) : List Char → Bool
  | [] => here name module before []
  | c :: cs => here name module before (c :: cs) || (c ≠ '}' && inList name module (some c) cs)
where
  here (name module : List Char) (before : Option Char) (cs : List Char) : Bool :=
    match name.isPrefixOf? cs with
    | none => false
    | some rest =>
      isBoundary before cs.head? && isBoundary (name.getLast? <|> before) rest.head? &&
        match rest.dropWhile (· ≠ '}') with
        | [] => false
        | _ :: rest => namesModule module rest

def opensList (name module cs : List Char) : Bool :=
  match cs with
  | '{' :: rest => inList name module (some '{') rest
  | _ => false

def isNamePart (c : Char) : Bool := isWord c || c = '$'

/-- A list of names, perhaps after a default import and a comma. -/
def isClause (name module cs : List Char) : Bool :=
  opensList name module cs ||
    (cs.takeWhile isNamePart ≠ [] &&
      match dropBlanks (cs.dropWhile isNamePart) with
      | ',' :: rest => opensList name module (dropBlanks rest)
      | _ => false)

/-- What may follow the word `import`: a clause, perhaps after the word `type`. -/
def followsImport (name module cs : List Char) : Bool :=
  let cs := dropBlanks cs
  isClause name module cs ||
    match "type".toList.isPrefixOf? cs with
    | some (c :: rest) => isBlank c && isClause name module (dropBlanks rest)
    | _ => false

def mentionsFrom (name module : List Char) (before : Option Char) : List Char → Bool
  | [] => false
  | c :: cs =>
    (match "import".toList.isPrefixOf? (c :: cs) with
      | some rest => isBoundary before (some c) && followsImport name module rest
      | none => false) ||
    mentionsFrom name module (some c) cs

/-- Whether a text may import `name` from `module`; a module for which this fails is not parsed. -/
def mentionsImport (source : List Char) (name module : String) : Bool :=
  mentionsFrom name.toList module.toList none source

end CronWrap.Mention
