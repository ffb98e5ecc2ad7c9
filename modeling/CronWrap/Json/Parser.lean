import CronWrap.Data.Value
import CronWrap.Json.Comments
import CronWrap.Text.Reader

/-! Strict JSON, and JSON with comments and trailing commas. -/
namespace CronWrap.Json

open Text Text.Reader

def isSpace (c : Char) : Bool := c = ' ' || c = '\t' || c = '\n' || c = '\r'

def skipSpace : Reader Unit := skipWhile isSpace

/-- A text between spaces of any kind. -/
def token {α : Type} (r : Reader α) : Reader α := skipSpace *> r <* skipSpace

/-- Four hexadecimal digits. -/
def codeUnit : Reader Nat := do
  let a ← one isHexDigit
  let b ← one isHexDigit
  let c ← one isHexDigit
  let d ← one isHexDigit
  return ofDigits 16 [a, b, c, d]

def isHighSurrogate (n : Nat) : Bool := 0xd800 ≤ n && n < 0xdc00

def isLowSurrogate (n : Nat) : Bool := 0xdc00 ≤ n && n < 0xe000

/-- The character of a `\u` escape; a high surrogate needs a low one after it, and a low one never
comes first. -/
def unicodeEscape : Reader Char := do
  let n ← codeUnit
  if isHighSurrogate n then
    exactly ['\\', 'u']
    let m ← codeUnit
    if isLowSurrogate m then return Char.ofNat (0x10000 + (n - 0xd800) * 0x400 + (m - 0xdc00))
    else failure
  else if isLowSurrogate n then failure
  else return Char.ofNat n

def escapeSequence : Reader Char := do
  match ← one fun _ => true with
  | '"' => return '"'
  | '\\' => return '\\'
  | '/' => return '/'
  | 'b' => return '\x08'
  | 'f' => return '\x0c'
  | 'n' => return '\n'
  | 'r' => return '\r'
  | 't' => return '\t'
  | 'u' => unicodeEscape
  | _ => failure

/-- One character of a string: no quote, no bare control character. -/
def stringChar : Reader Char := do
  let c ← one fun c => c ≠ '"' && 0x20 ≤ c.toNat
  if c = '\\' then escapeSequence else return c

def string : Reader String := do
  char '"'
  let cs ← many stringChar
  char '"'
  return String.ofList cs

/-- The digits of the integer part: no zero in front. -/
def integerDigits : Reader (List Char) := do
  let digits ← takeWhile1 Char.isDigit
  match digits with
  | '0' :: _ :: _ => failure
  | _ => return digits

def fractionDigits : Reader (Option (List Char)) :=
  (char '.' *> some <$> takeWhile1 Char.isDigit) <|> pure none

def exponentPart : Reader (Option Int) :=
  (do
    discard <| one fun c => c = 'e' || c = 'E'
    let negative ← accept ['-']
    unless negative do discard <| accept ['+']
    let n : Int := ofDigits 10 (← takeWhile1 Char.isDigit)
    return some (if negative then -n else n)) <|> pure none

/-- Integers that a signed or an unsigned word of 64 bits holds. -/
def isWordSized (n : Int) : Bool := -0x8000000000000000 ≤ n && n < 0x10000000000000000

/-- An integer literal that no word holds is read as a float, as are numbers with a fraction or an
exponent; a float too large for a double is refused. -/
def numberValue (negative : Bool) (digits : List Char) (fraction : Option (List Char))
    (exponent : Option Int) : Option Value :=
  let places := fraction.getD []
  let mantissa := ofDigits 10 (digits ++ places)
  let n : Int := if negative then -mantissa else mantissa
  if fraction.isNone && exponent.isNone && isWordSized n then some (.int n)
  else (Binary64.ofDecimal? negative mantissa (exponent.getD 0 - places.length)).map .float

def number : Reader Value := do
  let negative ← accept ['-']
  let digits ← integerDigits
  let fraction ← fractionDigits
  let exponent ← exponentPart
  match numberValue negative digits fraction exponent with
  | some v => return v
  | none => failure

/-- Items between two brackets, with commas between them. -/
def bracketed {α : Type} (first last : Char) (item : Reader α) : Reader (List α) := do
  char first
  skipSpace
  let items ← sepBy (token item) (char ',') <|> pure []
  char last
  return items

/-- A value with at most `depth` arrays and objects inside each other. -/
def value (depth : Nat) : Reader Value := do
  match ← peek? with
  | some '"' => .text <$> string
  | some 't' => exactly "true".toList *> pure (.bool true)
  | some 'f' => exactly "false".toList *> pure (.bool false)
  | some 'n' => exactly "null".toList *> pure .null
  | some '[' =>
    match depth with
    | 0 => failure
    | depth + 1 => .list <$> bracketed '[' ']' (value depth)
  | some '{' =>
    match depth with
    | 0 => failure
    | depth + 1 =>
      .record <$> collectFields <$> bracketed '{' '}' do
        let key ← string
        token (char ':')
        return (key, ← value depth)
  | _ => number

/-- The deepest nesting that is read. -/
def maxDepth : Nat := 1024

/-- Reads a text that is one JSON value and nothing more. -/
def parse? (cs : List Char) : Option Value := (token (value maxDepth)).all cs

/-- Reads JSON that may have comments and trailing commas. -/
def parseLenient? (cs : List Char) : Option Value := parse? (stripTrailingCommas (stripComments cs))

end CronWrap.Json
