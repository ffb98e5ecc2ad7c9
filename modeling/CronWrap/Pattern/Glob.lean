import CronWrap.Pattern.Piece

/-! Patterns of whole paths: `*` and `?` stand for any characters, slashes among them. -/
namespace CronWrap.Pattern.Glob

/-- The content of a set cut at the hyphens of its ranges: each cut lies between the first and the
last character of a range. A hyphen among the first `skip` characters is no cut, nor is one at the
end. -/
def cutRanges : Nat → List Char → List (List Char)
  | _, [] => [[]]
  | 0, '-' :: c :: cs =>
    -- The end of a range starts none.
    match cutRanges 1 cs with
    | chunk :: chunks => [] :: (c :: chunk) :: chunks
    | [] => [[], [c]]
  | skip, c :: cs =>
    match cutRanges skip.pred cs with
    | chunk :: chunks => (c :: chunk) :: chunks
    | [] => [[c]]

/-- Takes out the ranges that end before they start. -/
def dropReversed : List (List Char) → List (List Char)
  | [] => []
  | chunk :: chunks =>
    match chunk.getLast?, dropReversed chunks with
    | some a, (b :: next) :: rest =>
      if b < a then (chunk.dropLast ++ next) :: rest else chunk :: (b :: next) :: rest
    | _, rest => chunk :: rest

/-- The intervals of the chunks between the cuts; `last` is the character before the first cut. -/
def intervals (last : Option Char) : List (List Char) → List Interval
  | [] => []
  | chunk :: chunks =>
    let (range, chunk) : List Interval × List Char := match last, chunk with
      | some a, b :: more => ([⟨a, b⟩], more)
      | _, _ => ([], chunk)
    if chunks.isEmpty then range ++ chunk.map .single
    else range ++ chunk.dropLast.map .single ++ intervals chunk.getLast? chunks

def charSet (body : List Char) : CharSet :=
  let chunks := dropReversed (cutRanges (if body.head? = some '!' then 2 else 1) body)
  match chunks with
  | ('!' :: chunk) :: rest => ⟨true, intervals none (chunk :: rest)⟩
  | _ => ⟨false, intervals none chunks⟩

/-- A bracket that is never closed stands for itself. -/
def piecesUpTo : Nat → List Char → List Piece
  | 0, _ => []
  | _, [] => []
  | bound + 1, '*' :: cs => .run .all :: piecesUpTo bound cs
  | bound + 1, '?' :: cs => .one .all :: piecesUpTo bound cs
  | bound + 1, '[' :: cs =>
    match bracket? cs with
    | some (body, rest) => .one (charSet body) :: piecesUpTo bound rest
    | none => .one (.only '[') :: piecesUpTo bound cs
  | bound + 1, c :: cs => .one (.only c) :: piecesUpTo bound cs

def pieces (pattern : List Char) : List Piece := piecesUpTo pattern.length pattern

/-- Whether a pattern fits a text as a whole. -/
def fits (pattern text : String) : Bool := fitsAll (pieces pattern.toList) text.toList

example : fits "src/*.ts" "src/a/b.ts" ∧ ¬ fits "*.ts" "a.tsx" := by decide +kernel

example : fits "[!a-c]" "^" ∧ fits "[]-a]x" "^x" ∧ fits "[a" "[a" := by decide +kernel

example : ¬ fits "[c-a]" "b" ∧ fits "[!c-a]" "b" := by decide +kernel

example : fits "[a-]" "-" ∧ fits "[a-c-e]" "-" := by decide +kernel

end CronWrap.Pattern.Glob
