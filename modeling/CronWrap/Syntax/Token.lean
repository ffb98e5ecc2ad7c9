import CronWrap.Syntax.Cursor
import CronWrap.Text.Reader

/-! Tokens: words, operators, and literals without parts of their own. -/
namespace CronWrap.Syntax

/-- Characters that no word holds. -/
def isPunctuation (c : Char) : Bool :=
  ":;`\"'@#.,|^&<=>+-*/\\%?!~()[]\x7b\x7d".toList.contains c

def isWordPart (c : Char) : Bool := 0x20 ≤ c.toNat && !isSpace c && !isPunctuation c

/-- The length of an escape by code point, from after its opening brace to past its closing one. -/
def escapeTailLength (cs : List Char) : Nat :=
  match cs.dropWhile fun c => c.isAlphanum with
  | '}' :: _ => (cs.takeWhile fun c => c.isAlphanum).length + 1
  | _ => 0

/-- The length of the run of word characters and escapes that a text starts with; escapes count as
they are written. -/
def wordLengthUpTo : Nat → List Char → Nat
  | 0, _ => 0
  | bound + 1, '\\' :: 'u' :: '{' :: rest =>
    let n := escapeTailLength rest
    if n = 0 then 0 else 3 + n + wordLengthUpTo bound (rest.drop n)
  | bound + 1, '\\' :: 'u' :: rest => 2 + wordLengthUpTo bound rest
  | bound + 1, c :: rest => if isWordPart c then 1 + wordLengthUpTo bound rest else 0
  | _ + 1, [] => 0

/-- The word that a text starts with, or nothing. -/
def wordOf (cs : List Char) : List Char :=
  match cs with
  | c :: _ => if c.isDigit then [] else cs.take (wordLengthUpTo cs.length cs)
  | [] => []

def operators : List (List Char) :=
  [">>>=", "...", "===", "!==", "**=", "<<=", ">>=", ">>>", "&&=", "||=", "??=", "=>", "==", "!=",
   "<=", ">=", "&&", "||", "??", "?.", "++", "--", "+=", "-=", "*=", "/=", "%=", "&=", "|=", "^=",
   "<<", ">>", "**"].map String.toList

/-- The longest operator or mark that a text starts with. -/
def operatorOf (cs : List Char) : List Char :=
  match cs with
  | '?' :: '.' :: d :: _ => if d.isDigit then ['?'] else ['?', '.']
  | _ => (operators.find? (·.isPrefixOf cs)).getD (cs.take 1)

/-- The length of a string literal after its opening quote; a line break ends none. -/
def stringTailLength (quote : Char) : List Char → Option Nat
  | [] => none
  | '\\' :: _ :: rest => (· + 2) <$> stringTailLength quote rest
  | c :: rest =>
    if c = quote then some 1
    else if c = '\n' || c = '\r' then none
    else (· + 1) <$> stringTailLength quote rest

/-- The length of a regular expression after its opening slash; `inSet` says whether the text starts
inside of square brackets. -/
def regexTailLength (inSet : Bool) : List Char → Option Nat
  | [] => none
  | '\\' :: c :: rest => if isLineBreak c then none else (· + 2) <$> regexTailLength inSet rest
  | c :: rest =>
    if isLineBreak c || c = '\r' then none
    else if c = '/' && !inSet then some 1
    else (· + 1) <$> regexTailLength (c = '[' || inSet && c ≠ ']') rest

/-- The length of a run of digits and of the marks between them. -/
def digitRun (cs : List Char) : Nat :=
  match cs with
  | c :: _ => if c.isDigit then (cs.takeWhile fun c => c.isDigit || c = '_').length else 0
  | [] => 0

def alphanumRun (cs : List Char) : Nat := (cs.takeWhile fun c => c.isAlphanum || c = '_').length

/-- The length of the exponent that may end a number. -/
def exponentLength : List Char → Nat
  | 'e' :: rest | 'E' :: rest =>
    match rest with
    | '+' :: rest | '-' :: rest => if digitRun rest = 0 then 0 else digitRun rest + 2
    | _ => if digitRun rest = 0 then 0 else digitRun rest + 1
  | _ => 0

/-- The length of a number that a text starts with, zero if it starts with none. -/
def numberLength (cs : List Char) : Nat :=
  match cs with
  | '0' :: m :: rest =>
    if "xXoObB".toList.contains m then alphanumRun rest + 2 else decimal cs
  | _ => decimal cs
where
  decimal (cs : List Char) : Nat :=
    let whole := digitRun cs
    let places := match cs.drop whole with
      | '.' :: rest => if whole = 0 && digitRun rest = 0 then 0 else digitRun rest + 1
      | _ => 0
    let n := whole + places
    if n = 0 then 0
    else
      let n := n + exponentLength (cs.drop n)
      if (cs.drop n).head? = some 'n' then n + 1 else n

namespace Reader

/-- The next word, left where it is; empty when the next token is none. -/
def peekWord : Reader String := fun c => some (String.ofList (wordOf c.rest), c)

def word : Reader String := fun c =>
  match wordOf c.rest with
  | [] => none
  | w => some (String.ofList w, c.advance w.length)

def keyword (w : String) : Reader Unit := do guard ((← word) = w)

def acceptKeyword (w : String) : Reader Bool := (keyword w *> pure true) <|> pure false

def peekOperator : Reader String := fun c => some (String.ofList (operatorOf c.rest), c)

def operator (op : String) : Reader Unit := do
  guard ((← peekOperator) = op)
  advance op.length

def acceptOperator (op : String) : Reader Bool := (operator op *> pure true) <|> pure false

/-- One character, whatever operator it may start. -/
def mark (m : Char) : Reader Unit := do
  guard ((← next?) = some m)
  advance 1

def acceptMark (m : Char) : Reader Bool := (mark m *> pure true) <|> pure false

/-- A closing bracket; the end of the text closes all that is open. Tells whether the bracket is
there. -/
def close (m : Char) : Reader Bool := (mark m *> pure true) <|> (do guard (← atEnd); return false)

def string : Reader Node := spanning .string do
  match ← rest with
  | q :: cs =>
    guard (q = '"' || q = '\'')
    match stringTailLength q cs with
    | some n => advance (n + 1)
    | none => failure
  | [] => failure
  return []

def number : Reader Unit := do
  let n := numberLength (← rest)
  guard (n ≠ 0)
  advance n

def regex : Reader Unit := do
  match ← rest with
  | '/' :: cs =>
    match regexTailLength false cs with
    | some n =>
      let flags := (cs.drop n).takeWhile isWordPart
      advance (n + 1 + flags.length)
    | none => failure
  | _ => failure

/-- Past one token of any sort, so that reading can go on behind a text that makes no sense. -/
def skipToken : Reader Unit := do
  let cs ← rest
  let w := wordOf cs
  if cs = [] then failure
  else if w ≠ [] then advance w.length
  else (discard string) <|> number <|> advance 1

end Reader

end CronWrap.Syntax
