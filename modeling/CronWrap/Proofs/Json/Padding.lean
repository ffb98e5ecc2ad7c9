import CronWrap.Json.Parser

/-! Texts that are JSON but for what stands between its tokens: a relation that says what may be
added to a text, token by token. -/
namespace CronWrap.Json

/-- Characters of numbers and of the words `true`, `false` and `null`. -/
def isWordChar (c : Char) : Bool := c.isAlphanum || c = '+' || c = '-' || c = '.'

/-- The characters that are tokens by themselves. -/
def marks : List Char := ['[', '{', ':', ',', ']', '}']

/-- What stands between the two quotes of a string: no bare quote, and every backslash has the
character that it escapes behind it. -/
inductive IsStringBody : List Char → Prop
  | nil : IsStringBody []
  | char {c : Char} {cs : List Char} : c ≠ '"' → c ≠ '\\' → IsStringBody cs → IsStringBody (c :: cs)
  | escape (c : Char) {cs : List Char} : IsStringBody cs → IsStringBody ('\\' :: c :: cs)

/-- No word goes on in this text. -/
def EndsWord (cs : List Char) : Prop := ∀ c ∈ cs.head?, isWordChar c = false

/-- The next token closes an array or an object. -/
def Closes (cs : List Char) : Prop :=
  ∃ gap c rest, cs = gap ++ c :: rest ∧ (∀ d ∈ gap, isSpace d) ∧ (c = '}' ∨ c = ']')

/-- One space of JSON. -/
inductive IsGap : List Char → Prop
  | space {c : Char} : isSpace c → IsGap [c]

/-- A space or a comment that ends. -/
inductive IsTrivia : List Char → Prop
  | space {c : Char} : isSpace c → IsTrivia [c]
  | line {b : List Char} : '\n' ∉ b → IsTrivia ('/' :: '/' :: b ++ ['\n'])
  | block {b : List Char} : ¬ ['*', '/'] <:+: b → IsTrivia ('/' :: '*' :: b ++ ['*', '/'])

/-- What may stand at the end of a commented text: nothing, or a line comment that the end of the
text cuts off. -/
inductive IsTail : List Char → Prop
  | nothing : IsTail []
  | line {body : List Char} : '\n' ∉ body → IsTail ('/' :: '/' :: body)

/-- The second text is the first with pieces of `gap` added between its tokens and at its two ends, a
piece of `tail` at the very end, and, where `commas` allows it, one comma behind the last element
of some of its arrays and objects. `after` says whether such a comma could come first of all: a
value has just ended, and no comma has been added behind it. -/
inductive Padded (gap tail : List Char → Prop) (commas : Bool) :
    (after : Bool) → List Char → List Char → Prop
  | nil {after : Bool} {piece : List Char} : tail piece → Padded gap tail commas after [] piece
  | space {after : Bool} {c : Char} {cs ds : List Char} : isSpace c →
      Padded gap tail commas after cs ds → Padded gap tail commas after (c :: cs) (c :: ds)
  | gap {after : Bool} {piece cs ds : List Char} : gap piece →
      Padded gap tail commas after cs ds → Padded gap tail commas after cs (piece ++ ds)
  | comma {cs ds : List Char} : Closes cs →
      Padded gap tail commas false cs ds → Padded gap tail commas true cs (',' :: ds)
  | mark {after : Bool} {c : Char} {cs ds : List Char} : c ∈ ['[', '{', ':', ','] →
      Padded gap tail commas false cs ds → Padded gap tail commas after (c :: cs) (c :: ds)
  | close {after : Bool} {c : Char} {cs ds : List Char} : c ∈ [']', '}'] →
      Padded gap tail commas commas cs ds → Padded gap tail commas after (c :: cs) (c :: ds)
  | string {after : Bool} {body cs ds : List Char} : IsStringBody body →
      Padded gap tail commas commas cs ds →
      Padded gap tail commas after ('"' :: body ++ '"' :: cs) ('"' :: body ++ '"' :: ds)
  | word {after : Bool} {w cs ds : List Char} : w ≠ [] → (∀ c ∈ w, isWordChar c) → EndsWord cs →
      Padded gap tail commas commas cs ds → Padded gap tail commas after (w ++ cs) (w ++ ds)

/-- The second text is the first with spaces, comments and trailing commas added. -/
def Decorated (t t' : List Char) : Prop := Padded IsTrivia IsTail true false t t'

/-- The second text is the first with spaces added. -/
def Respaced (t t' : List Char) : Prop := Padded IsGap (· = []) false false t t'

end CronWrap.Json
