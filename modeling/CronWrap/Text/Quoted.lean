import CronWrap.Text.Blank

/-! Double-quoted literals, as JSON and script sources write them. -/
namespace CronWrap.Text

/-- How one character stands inside a literal: quotes, backslashes and controls are escaped. -/
def escapeChar (c : Char) : List Char :=
  match c with
  | '"' => ['\\', '"']
  | '\\' => ['\\', '\\']
  | '\x08' => ['\\', 'b']
  | '\t' => ['\\', 't']
  | '\n' => ['\\', 'n']
  | '\x0c' => ['\\', 'f']
  | '\r' => ['\\', 'r']
  | c =>
    if c.toNat < 0x20 then
      ['\\', 'u', '0', '0', Nat.digitChar (c.toNat / 16), Nat.digitChar (c.toNat % 16)]
    else [c]

def quote (s : String) : String :=
  String.ofList ('"' :: s.toList.flatMap escapeChar ++ ['"'])

@[simp] theorem toList_quote (s : String) :
    (quote s).toList = '"' :: s.toList.flatMap escapeChar ++ ['"'] := by
  simp [quote]

example : quote "a\"\\\x1f\u007f" = "\"a\\\"\\\\\\u001f\u007f\"" := by decide

/-- Characters that leave no mark: controls, spaces other than the plain one, format characters and
those for private use. -/
def unmarkedRanges : List (Nat × Nat) :=
  [(0x00, 0x1f), (0x7f, 0xa0), (0xad, 0xad), (0x600, 0x605), (0x61c, 0x61c), (0x6dd, 0x6dd),
   (0x70f, 0x70f), (0x890, 0x891), (0x8e2, 0x8e2), (0x1680, 0x1680), (0x180e, 0x180e),
   (0x2000, 0x200f), (0x2028, 0x202f), (0x205f, 0x206f), (0x3000, 0x3000), (0xe000, 0xf8ff),
   (0xfeff, 0xfeff), (0xfff9, 0xfffb), (0x110bd, 0x110bd), (0x110cd, 0x110cd),
   (0x13430, 0x13438), (0x1bca0, 0x1bca3), (0x1d173, 0x1d17a), (0xe0001, 0xe0001),
   (0xe0020, 0xe007f), (0xf0000, 0x10ffff)]

def padded (width : Nat) (digits : List Char) : List Char :=
  List.replicate (width - digits.length) '0' ++ digits

/-- The escape of a code point, with as few digits as one of its three forms has room for. -/
def codeEscape (n : Nat) : List Char :=
  let digits := Nat.toDigits 16 n
  if n < 0x100 then '\\' :: 'x' :: padded 2 digits
  else if n < 0x10000 then '\\' :: 'u' :: padded 4 digits
  else '\\' :: 'U' :: padded 8 digits

/-- How one character stands in a name shown in a message, between quotes of the given sort. -/
def showChar (q c : Char) : List Char :=
  match c with
  | '\\' => ['\\', '\\']
  | '\n' => ['\\', 'n']
  | '\r' => ['\\', 'r']
  | '\t' => ['\\', 't']
  | c =>
    if c = q then ['\\', c]
    else if inRanges unmarkedRanges c then codeEscape c.toNat
    else [c]

/-- A text shown in a message: in single quotes, unless it has some and no double ones. -/
def shown (s : String) : String :=
  let cs := s.toList
  let q := if cs.contains '\'' && !cs.contains '"' then '"' else '\''
  String.ofList (q :: cs.flatMap (showChar q) ++ [q])

example : shown "it's" = "\"it's\"" ∧ shown "a\n\u2028" = "'a\\n\\u2028'" := by decide

end CronWrap.Text
