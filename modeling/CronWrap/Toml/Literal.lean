import CronWrap.Data.Value
import CronWrap.Toml.Limit

/-! The literals of TOML: strings, numbers, dates and times. -/
namespace CronWrap.Toml

open Text Text.Reader

def isControl (c : Char) : Bool := c.toNat < 0x20 || c = '\x7f'

/-- Characters that may stand in a string or comment on one line. -/
def isLineChar (c : Char) : Bool := !isControl c || c = '\t'

def isTextChar (c : Char) : Bool := isLineChar c || c = '\n'

def isGap (c : Char) : Bool := c = ' ' || c = '\t'

def isGapOrBreak (c : Char) : Bool := isGap c || c = '\n'

def skipGap : Reader Unit := skipWhile isGap

/-- A comment up to the end of its line. -/
def comment : Reader Unit := do
  char '#'
  skipWhile fun c => isLineChar c
  guard ((← peek?).all (· = '\n'))

/-- The character with the code point that some hexadecimal digits write. -/
def codePoint (digits : Nat) : Reader Char := do
  let n := ofDigits 16 (← (List.replicate digits ()).mapM fun _ => one isHexDigit)
  guard n.isValidChar
  return Char.ofNat n

/-- What follows a backslash. -/
def escaped : Reader Char := do
  match ← one fun _ => true with
  | 'b' => return '\x08'
  | 't' => return '\t'
  | 'n' => return '\n'
  | 'f' => return '\x0c'
  | 'r' => return '\r'
  | '"' => return '"'
  | '\\' => return '\\'
  | 'u' => codePoint 4
  | 'U' => codePoint 8
  | _ => failure

/-- A backslash at the end of a line, which joins it to the next text that is not blank. -/
def lineJoin : Reader Unit := do
  char '\\'
  skipGap
  char '\n'
  skipWhile isGapOrBreak

def basicString : Reader String := do
  char '"'
  let cs ← many do
    let c ← one fun c => isLineChar c && c ≠ '"'
    if c = '\\' then escaped else return c
  char '"'
  return String.ofList cs

def literalString : Reader String := do
  char '\''
  let cs ← takeWhile fun c => isLineChar c && c ≠ '\''
  char '\''
  return String.ofList cs

def tripled (q : Char) : Reader Unit := exactly [q, q, q]

/-- Whether the reader would refuse the text; nothing is taken. -/
def not (r : Reader Unit) : Reader Unit := fun cs => if (r cs).isSome then none else some ((), cs)

/-- A string of several lines, whose characters `piece` reads. A line break behind the opening
quotes does not count, and up to two quotes may come before the closing ones. -/
def multilineString (q : Char) (piece : Reader (List Char)) : Reader String := do
  tripled q
  discard (accept ['\n'])
  let pieces ← many (not (tripled q) *> piece)
  tripled q
  let extra ← accept [q]
  let more ← if extra then accept [q] else pure false
  return String.ofList (pieces.flatten ++ List.replicate (extra.toNat + more.toNat) q)

def multilineBasicPiece : Reader (List Char) :=
  (lineJoin *> pure []) <|> do
    let c ← one isTextChar
    if c = '\\' then return [← escaped] else return [c]

def string : Reader String := do
  match ← peek? with
  | some '"' => multilineString '"' multilineBasicPiece <|> (not (tripled '"') *> basicString)
  | _ =>
    multilineString '\'' (List.singleton <$> one isTextChar) <|>
      (not (tripled '\'') *> literalString)

/-- Digits with single underscores between them. -/
def digits (p : Char → Bool) : Reader (List Char) := do
  let first ← one p
  let others ← many (accept ['_'] *> one p)
  return first :: others

/-- Integers of base sixteen, eight and two. -/
def basedInteger : Reader Value := do
  char '0'
  let (base, isDigit) ← (do
    match ← one fun _ => true with
    | 'x' => return (16, isHexDigit)
    | 'o' => return (8, fun c => '0' ≤ c && c ≤ '7')
    | 'b' => return (2, fun c => c = '0' || c = '1')
    | _ => failure : Reader (Nat × (Char → Bool)))
  return .int (ofDigits base (← digits isDigit))

def sign : Reader Bool := do
  if ← accept ['-'] then return true
  discard (accept ['+'])
  return false

/-- The digits behind the point, if there is one. -/
def fraction : Reader (Option (List Char)) :=
  (char '.' *> some <$> digits Char.isDigit) <|> pure none

def exponent : Reader (Option Int) :=
  (do
    discard <| one fun c => c = 'e' || c = 'E'
    let negative ← sign
    let n : Int := ofDigits 10 (← digits Char.isDigit)
    return some (if negative then -n else n)) <|> pure none

def wholePart : Reader (List Char) := (char '0' *> pure ['0']) <|> digits Char.isDigit

/-- Decimal integers, of so many digits at most, and floats; a float too large for a double is
infinite. -/
def decimalNumber (limit : Nat) : Limited Value := do
  let negative ← sign
  let whole ← wholePart
  let fraction ← fraction
  let exponent ← exponent
  let places := fraction.getD []
  let mantissa := ofDigits 10 (whole ++ places)
  if fraction.isNone && exponent.isNone then
    if limit < whole.length then throwThe Limit (.digits whole.length limit)
    return .int (if negative then -mantissa else mantissa)
  else
    let number := Binary64.ofDecimal? negative mantissa (exponent.getD 0 - places.length)
    return .float (number.getD (.infinity negative))

def specialFloat : Reader Value := do
  let negative ← sign
  if ← accept "inf".toList then return .float (.infinity negative)
  exactly "nan".toList
  return .float (.nan negative)

/-- A number of a fixed count of digits, from `low` to `high`. -/
def fixedNumber (count low high : Nat) : Reader Nat := do
  let n := ofDigits 10 (← (List.replicate count ()).mapM fun _ => one Char.isDigit)
  guard (low ≤ n && n ≤ high)
  return n

def timeOfDay : Reader Unit := do
  discard (fixedNumber 2 0 23)
  char ':'
  discard (fixedNumber 2 0 59)
  char ':'
  discard (fixedNumber 2 0 59)
  (char '.' *> discard (takeWhile1 Char.isDigit)) <|> pure ()

def timeOffset : Reader Unit :=
  (discard <| one fun c => c = 'Z' || c = 'z') <|> do
    discard <| one fun c => c = '+' || c = '-'
    discard (fixedNumber 2 0 23)
    char ':'
    discard (fixedNumber 2 0 59)

def isLeapYear (year : Nat) : Bool := year % 4 = 0 && (year % 100 ≠ 0 || year % 400 = 0)

def daysIn (year month : Nat) : Nat :=
  if month = 2 then if isLeapYear year then 29 else 28
  else if month ∈ [4, 6, 9, 11] then 30
  else 31

/-- A date that there is, perhaps with a time. -/
def date : Reader Unit := do
  let year ← fixedNumber 4 1 9999
  char '-'
  let month ← fixedNumber 2 1 12
  char '-'
  discard (fixedNumber 2 1 (daysIn year month))
  (do
    discard <| one fun c => c = 'T' || c = 't' || c = ' '
    timeOfDay
    timeOffset <|> pure ()) <|> pure ()

def moment : Reader Value := (date <|> timeOfDay) *> pure .moment

/-- A number, date or time. -/
def scalar (limit : Nat) : Limited Value :=
  liftM (moment <|> basedInteger) <|> decimalNumber limit <|> liftM specialFloat

end CronWrap.Toml
