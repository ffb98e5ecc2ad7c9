import CronWrap.Toml.Value

/-! TOML documents: lines that fill tables, each of which may be opened only once. -/
namespace CronWrap.Toml

open Text Text.Reader

/-- What the lines so far have said. -/
structure Document where
  root : Fields := []
  /-- The table that keys go to. -/
  header : List String := []
  /-- Tables that no header may open again. -/
  opened : List (List String) := []
  /-- Tables made by dotted keys, which count as opened from the next header on. -/
  dotted : List (List String) := []
  /-- Inline values, to which nothing may be added at any depth. -/
  closed : List (List String) := []

namespace Document

def isClosed (d : Document) (path : List String) : Bool := d.closed.any (·.isPrefixOf path)

/-- The paths of the tables that a dotted key leads through. -/
def through (header key : List String) : List (List String) :=
  ((List.range key.length).drop 1).map fun n => header ++ key.take n

def addPair (d : Document) (key : List String) (value : Value) : Option Document := do
  let tables := through d.header key
  if tables.any d.opened.contains then none
  let parent := d.header ++ key.dropLast
  if d.isClosed parent then none
  let root ← inTable true (addField (key.getLastD "") value) parent d.root
  return { d with
    root := root
    dotted := tables ++ d.dotted
    closed := if isContainer value then (d.header ++ key) :: d.closed else d.closed }

/-- A header makes the tables of dotted keys opened ones. -/
def startHeader (d : Document) : Document := { d with opened := d.dotted ++ d.opened, dotted := [] }

def openTable (d : Document) (key : List String) : Option Document := do
  if d.opened.contains key || d.isClosed key then none
  return { d with root := ← inTable true some key d.root, header := key, opened := key :: d.opened }

/-- Adds an empty table to the list of tables of some name. -/
def appendTable (name : String) (fields : Fields) : Option Fields :=
  match fields.lookup name with
  | none => some (setField fields name (.list [.record []]))
  | some (.list items) => some (setField fields name (.list (items ++ [.record []])))
  | some _ => none

/-- A new table in a list starts anew: what was opened below the one before is forgotten. -/
def openListTable (d : Document) (key : List String) : Option Document := do
  if d.isClosed key then none
  let root ← inTable true (appendTable (key.getLastD "")) key.dropLast d.root
  return { d with
    root := root
    header := key
    opened := key :: d.opened.filter (!key.isPrefixOf ·)
    closed := d.closed.filter (!key.isPrefixOf ·) }

end Document

/-- A line without its end: a key with its value, or the header of a table or of a table in a
list. -/
def statement (limits : Limits) (d : Document) : Limited Document := do
  let next ←
    if ← accept ['[', '['] then
      skipGap
      let name ← key
      exactly [']', ']']
      pure (d.startHeader.openListTable name)
    else do
      -- A condition that reads would be read before both branches, were it joined to the `else`.
      if ← accept ['['] then
        skipGap
        let name ← key
        char ']'
        pure (d.startHeader.openTable name)
      else
        let (name, v) ← pair limits limits.calls
        pure (d.addPair name v)
  match next with
  | some d => return d
  | none => failure

def lineEnd : Reader Unit := do
  skipGap
  comment <|> pure ()

/-- One line, which may be blank or hold only a comment. -/
def line (limits : Limits) (d : Document) : Limited Document := do
  skipGap
  let bare := (← peek?).all fun c => c = '\n' || c = '#'
  let d ← if bare then pure d else statement limits d
  lineEnd
  return d

def linesUpTo (limits : Limits) : Nat → Document → Limited Document
  | 0, _ => failure
  | bound + 1, d => do
    let d ← line limits d
    if ← atEnd then return d
    char '\n'
    linesUpTo limits bound d

/-- Carriage returns before line feeds do not count. -/
def dropReturns : List Char → List Char
  | [] => []
  | '\r' :: '\n' :: cs => '\n' :: dropReturns cs
  | c :: cs => c :: dropReturns cs

/-- The table that a TOML document describes, unless the reading is stopped. -/
def parse? (limits : Limits) (text : List Char) : Except Limit (Option Value) := do
  let cs := dropReturns text
  match ← linesUpTo limits (cs.length + 1) {} cs with
  | some (d, []) => return some (.record d.root)
  | _ => return none

/-- What stops the reading of a document, if anything does. -/
def limit? (limits : Limits) (text : List Char) : Option Limit :=
  match parse? limits text with
  | .error l => some l
  | .ok _ => none

/-- The names in the table that a document describes. -/
def names (text : String) : Option (List String) :=
  match parse? {} text.toList with
  | .ok (some (.record fields)) => some (fields.map (·.1))
  | _ => none

example : names "a = 1 # one\r\n[b.c]\nd.e = [1,\n2,]\n[[f]]\n[[f]]" = some ["a", "b", "f"] := by
  decide +kernel

example : names "a = 1\na = 2" = none ∧ names "[a]\n[a]" = none ∧ names "a.b = 1\n[a]" = none ∧
    names "[[[a]]" = none := by
  decide +kernel

example : names "a = 2023-02-29" = none ∧ names "a = 2024-02-29 07:32:00.5Z" = some ["a"] := by
  decide +kernel

/-- The digits of an integer count, also before something that is wrong, and those of a float do not. -/
example : limit? { digits := 3 } "a = 1_234 = ".toList = some (.digits 4 3) ∧
    limit? { digits := 3 } "a = 1234.0 = ".toList = none := by
  decide +kernel

example : limit? { calls := 5 } "a = [[".toList = some .calls ∧
    limit? { calls := 5 } "a = [".toList = none := by
  decide +kernel

end CronWrap.Toml
