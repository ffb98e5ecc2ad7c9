import CronWrap.Text.Blank

/-! Comments and trailing commas, which compiler configurations add to JSON, taken out of a text. -/
namespace CronWrap.Json

/-- Where a comment stripper is in the text: outside of strings and comments, inside a string, right
after a backslash in a string, inside a line comment, inside a block comment. -/
inductive Place
  | code
  | string
  | escape
  | lineComment
  | blockComment
  deriving DecidableEq, Repr

/-- Takes comments out of a text read from the given place. A block comment leaves one space, a line
comment nothing; strings stay as they are. -/
def stripFrom : Place → List Char → List Char
  | _, [] => []
  | .escape, c :: rest => c :: stripFrom .string rest
  | .string, c :: rest =>
    c :: stripFrom (if c = '\\' then .escape else if c = '"' then .code else .string) rest
  | .lineComment, c :: rest =>
    if c = '\n' then c :: stripFrom .code rest else stripFrom .lineComment rest
  | .blockComment, '*' :: '/' :: rest => stripFrom .code rest
  | .blockComment, _ :: rest => stripFrom .blockComment rest
  | .code, '/' :: '/' :: rest => stripFrom .lineComment rest
  | .code, '/' :: '*' :: rest => ' ' :: stripFrom .blockComment rest
  | .code, c :: rest => c :: stripFrom (if c = '"' then .string else .code) rest

def stripComments (cs : List Char) : List Char := stripFrom .code cs

/-- Whether the next character that is not blank closes an object or an array. -/
def closesNext (cs : List Char) : Bool :=
  match Text.dropBlanks cs with
  | c :: _ => c = '}' || c = ']'
  | [] => false

/-- Takes trailing commas out of a text without comments, read from the given place. -/
def dropCommasFrom : Place → List Char → List Char
  | _, [] => []
  | .escape, c :: rest => c :: dropCommasFrom .string rest
  | .string, c :: rest =>
    c :: dropCommasFrom (if c = '\\' then .escape else if c = '"' then .code else .string) rest
  | place, c :: rest =>
    if c = ',' && closesNext rest then dropCommasFrom place rest
    else c :: dropCommasFrom (if c = '"' then .string else place) rest

/-- Takes out the commas that directly precede a closing `}` or `]`. -/
def stripTrailingCommas (cs : List Char) : List Char := dropCommasFrom .code cs

example : stripComments "[/* a */ \"//\", 1, // b\n]".toList = "[  \"//\", 1, \n]".toList := by
  decide

example : stripTrailingCommas "[1, \",]\", ]".toList = "[1, \",]\" ]".toList := by decide

end CronWrap.Json
