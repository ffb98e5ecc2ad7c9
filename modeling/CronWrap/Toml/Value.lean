import CronWrap.Toml.Literal

/-! The keys and values of TOML. -/
namespace CronWrap.Toml

open Text Text.Reader

abbrev Fields := List (String × Value)

/-- Changes the table that a path leads to, making the tables that are missing on the way. Of a
list of tables the last one counts, if lists may be entered at all. -/
def inTable (intoLists : Bool) (change : Fields → Option Fields) :
    List String → Fields → Option Fields
  | [], fields => change fields
  | key :: path, fields =>
    match fields.lookup key with
    | none => do return setField fields key (.record (← inTable intoLists change path []))
    | some (.record inner) => do
      return setField fields key (.record (← inTable intoLists change path inner))
    | some (.list items) =>
      match intoLists, items.getLast? with
      | true, some (.record inner) => do
        let last := .record (← inTable intoLists change path inner)
        return setField fields key (.list (items.dropLast ++ [last]))
      | _, _ => none
    | some _ => none

/-- Adds a field that must be new. -/
def addField (key : String) (value : Value) (fields : Fields) : Option Fields :=
  if (fields.lookup key).isSome then none else some (setField fields key value)

def isBareKeyChar (c : Char) : Bool := c.isAlphanum || c = '-' || c = '_'

def keyPart : Reader String := do
  match ← peek? with
  | some '"' => basicString
  | some '\'' => literalString
  | _ => String.ofList <$> takeWhile1 isBareKeyChar

/-- A key, of several parts when it has dots. -/
def key : Reader (List String) := sepBy (keyPart <* skipGap) (char '.' *> skipGap)

/-- Whether a value can be written to only where it stands. -/
def isContainer : Value → Bool
  | .record _ => true
  | .list _ => true
  | _ => false

/-- Spaces, line breaks and comments in an array. -/
def skipArrayGap : Reader Unit := do
  skipWhile isGapOrBreak
  discard <| many do
    comment
    skipWhile isGapOrBreak

/-- What has been read of a table in braces. -/
structure InlineTable where
  fields : Fields := []
  /-- The keys of fields that hold a container, to which nothing may be added. -/
  closed : List (List String) := []

def InlineTable.add (t : InlineTable) (key : List String) (value : Value) : Option InlineTable := do
  if t.closed.any (·.isPrefixOf key) then none
  let fields ← inTable false (addField (key.getLastD "") value) key.dropLast t.fields
  return ⟨fields, if isContainer value then key :: t.closed else t.closed⟩

/-- Items with commas between them, and the end of their array; a comma may stand before the end. -/
def itemsUpTo (item : Limited Value) : Nat → Limited (List Value)
  | 0 => failure
  | bound + 1 => do
    if ← accept [']'] then return []
    let v ← item
    skipArrayGap
    if ← accept [']'] then return [v]
    char ','
    skipArrayGap
    return v :: (← itemsUpTo item bound)

/-- Fields with commas between them, and the end of their table. -/
def fieldsUpTo (field : Limited (List String × Value)) : Nat → InlineTable → Limited Fields
  | 0, _ => failure
  | bound + 1, t => do
    let (key, v) ← field
    match t.add key v with
    | none => failure
    | some t =>
      skipGap
      if ← accept ['}'] then return t.fields
      char ','
      skipGap
      fieldsUpTo field bound t

/-- The items of an array; each takes at least one character, so that the bound cuts none off. -/
def items (item : Limited Value) : Limited (List Value) :=
  fun cs => itemsUpTo item (cs.length + 1) cs

def fields (field : Limited (List String × Value)) : Limited Fields :=
  fun cs => fieldsUpTo field (cs.length + 1) {} cs

mutual

/-- A value. It takes a call, and so does each array, each table and each field in it. -/
def value (limits : Limits) : Nat → Limited Value
  | 0 => throwThe Limit .calls
  | calls + 1 => do
    match ← peek? with
    | some '"' | some '\'' => return .text (← string)
    | some 't' =>
      exactly "true".toList
      return .bool true
    | some 'f' =>
      exactly "false".toList
      return .bool false
    | some '[' => return .list (← array limits calls)
    | some '{' => return .record (← table limits calls)
    | _ => scalar limits.digits

def array (limits : Limits) : Nat → Limited (List Value)
  | 0 => throwThe Limit .calls
  | calls + 1 => do
    char '['
    skipArrayGap
    items (value limits calls)

def table (limits : Limits) : Nat → Limited Fields
  | 0 => throwThe Limit .calls
  | calls + 1 => do
    char '{'
    skipGap
    if ← accept ['}'] then return []
    fields (pair limits calls)

/-- A key with its value. -/
def pair (limits : Limits) : Nat → Limited (List String × Value)
  | 0 => throwThe Limit .calls
  | calls + 1 => do
    let path ← key
    char '='
    skipGap
    return (path, ← value limits calls)

end

end CronWrap.Toml
