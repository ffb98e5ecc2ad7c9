/-! Texts with one wildcard: the first `*` stands for any run of characters without a line feed. -/
namespace CronWrap.Text

/-- What precedes the first `*`, and what follows it if there is one. -/
def splitWildcard (pattern : List Char) : List Char × Option (List Char) :=
  match pattern.span (· ≠ '*') with
  | (head, []) => (head, none)
  | (head, _ :: tail) => (head, some tail)

/-- The text with its first `*` replaced; a text without one stays as it is. -/
def fillWildcard (pattern filling : List Char) : List Char :=
  match splitWildcard pattern with
  | (head, none) => head
  | (head, some tail) => head ++ filling ++ tail

/-- The run between the end of `head` and the start of `tail`, when it fits on one line. -/
def between? (head tail cs : List Char) : Option (List Char) := do
  let rest ← head.isPrefixOf? cs
  let run ← tail.isSuffixOf? rest
  if '\n' ∈ run then none else some run

/-- What the wildcard of `pattern` stands for in `cs`; one line feed at the end of `cs` counts for
nothing. A pattern without a wildcard matches itself alone. -/
def captureWildcard (pattern cs : List Char) : Option (List Char) :=
  match splitWildcard pattern with
  | (head, none) => if cs = head ∨ cs = head ++ ['\n'] then some [] else none
  | (head, some tail) => between? head tail cs <|> between? head (tail ++ ['\n']) cs

example : captureWildcard "@/*.ts".toList "@/a/b.ts\n".toList = some "a/b".toList := by decide

end CronWrap.Text
