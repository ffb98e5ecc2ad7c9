import CronWrap.Path.Basic
import CronWrap.Pattern.Piece
import CronWrap.Text.Blank
import CronWrap.Text.LineEnding

/-! Ignore files: rules for the paths below a directory, of which the last one that fits decides. -/
namespace CronWrap.Pattern

/-- One line of an ignore file. -/
structure IgnoreRule where
  /-- Whether the rule takes paths back in. -/
  negated : Bool
  /-- Whether the rule starts at the directory of the file, rather than behind any slash. -/
  anchored : Bool
  directoriesOnly : Bool
  pieces : List Piece
  deriving DecidableEq, Repr

namespace IgnoreRule

/-- A run of stars between two characters, of which the text's ends count as slashes: of several,
one is left where the run touches anything but a slash, and two are left elsewhere. -/
def starRun (before after : Char) (count : Nat) : List Char :=
  if count < 2 then List.replicate count '*'
  else if before = '/' && after = '/' then ['*', '*']
  else ['*']

/-- Shortens the runs of stars in a text that follows `before` and `count` stars. -/
def shortenStars (before : Char) (count : Nat) : List Char → List Char
  | [] => starRun before '/' count
  | c :: cs =>
    if c = '*' then shortenStars before (count + 1) cs
    else starRun before c count ++ c :: shortenStars c 0 cs

/-- Spaces at the end go, up to one behind a backslash, which gives way to it. The text is given
from its end, and its first two characters stay. -/
def dropSpacesBack (drop : Bool) (kept : List Char) : List Char → List Char
  | ' ' :: '\\' :: b :: rest => dropSpacesBack false (' ' :: kept) (b :: rest)
  | ' ' :: a :: b :: rest =>
    dropSpacesBack drop (if drop then kept else ' ' :: kept) (a :: b :: rest)
  | cs => cs.reverse ++ kept

def dropSpaces (cs : List Char) : List Char := dropSpacesBack true [] cs.reverse

/-- The intervals that the content of a set writes. -/
def intervals : List Char → List Interval
  | a :: '-' :: b :: cs => ⟨a, b⟩ :: intervals cs
  | a :: cs => .single a :: intervals cs
  | [] => []

def charSet (body : List Char) : CharSet :=
  match body.filter (· ≠ '/') with
  | '!' :: cs => ⟨true, intervals cs⟩
  | cs => ⟨false, intervals cs⟩

def piecesUpTo : Nat → List Char → List Piece
  | 0, _ => []
  | _, [] => []
  | bound + 1, '*' :: '*' :: '/' :: cs => .directories :: piecesUpTo bound cs
  | bound + 1, '*' :: '*' :: cs => .run (.except '\n') :: piecesUpTo bound cs
  | bound + 1, '*' :: cs => .run (.except '/') :: piecesUpTo bound cs
  | bound + 1, '?' :: cs => .one (.except '/') :: piecesUpTo bound cs
  | bound + 1, '[' :: cs =>
    match bracket? cs with
    | some (body, rest) => .one (charSet body) :: piecesUpTo bound rest
    | none => .one (.only '[') :: piecesUpTo bound cs
  | bound + 1, c :: cs => .one (.only c) :: piecesUpTo bound cs

def dropSlash : List Char → List Char
  | '/' :: cs => cs
  | cs => cs

/-- A pattern without its marks: stars and slashes at its front that say only where it starts, a
slash at its end, and a backslash before a sign that would be taken for a mark. Tells also whether
there were stars in front. -/
def body (pattern : List Char) : Bool × List Char :=
  let cs := dropSlash pattern
  let floats := "**".toList.isPrefixOf cs
  let cs := dropSlash (if floats then cs.drop 2 else cs)
  let cs := if cs.getLast? = some '/' then cs.dropLast else cs
  let cs := match cs with
    | '\\' :: '#' :: rest => '#' :: rest
    | '\\' :: '!' :: rest => '!' :: rest
    | _ => cs
  (floats, dropSpaces cs)

/-- The rule of a line; blank lines, comments and patterns that name nothing have none. -/
def ofLine? (line : List Char) : Option IgnoreRule :=
  if Text.allBlank line || line.head? = some '#' then none
  else
    let negated := line.head? = some '!'
    let pattern := shortenStars '/' 0 (if negated then line.drop 1 else line)
    let (floats, rest) := body pattern
    if rest = [] || Text.dropBlanks pattern.reverse = ['/'] then none
    else some {
      negated := negated
      anchored := pattern.dropLast.contains '/' && !floats
      directoriesOnly := pattern.getLast? = some '/'
      pieces := piecesUpTo rest.length rest }

/-- A text and what follows each slash in it. -/
def starts : List Char → List (List Char)
  | [] => [[]]
  | c :: cs =>
    match starts cs with
    | here :: more => (c :: here) :: if c = '/' then here :: more else more
    | [] => []

def atEnd (cs : List Char) : Bool := cs = [] || cs = ['\n']

/-- What may follow the part of a path that a rule fits. -/
def closes (rule : IgnoreRule) (cs : List Char) : Bool :=
  if rule.directoriesOnly then
    -- A directory that is taken back in has to end with a slash itself.
    if rule.negated then cs.head? = some '/' && atEnd (cs.drop 1)
    else atEnd cs || cs.head? = some '/'
  else atEnd cs

def fits (rule : IgnoreRule) (path : List Char) : Bool :=
  (if rule.anchored then [path] else starts path).any (fitsFront rule.closes rule.pieces)

end IgnoreRule

/-- The rules for the paths below `base`. -/
structure IgnoreFile where
  base : Path
  rules : List IgnoreRule
  deriving DecidableEq, Repr

namespace IgnoreFile

def ofText (base : Path) (text : List Char) : IgnoreFile :=
  ⟨base.normalize, ((Text.unifyLineEnds text).splitOn '\n').filterMap IgnoreRule.ofLine?⟩

/-- The last rule that fits decides. -/
def decides (rules : List IgnoreRule) (path : List Char) : Bool :=
  match rules.reverse.find? (·.fits path) with
  | some rule => !rule.negated
  | none => false

/-- Whether a path is ignored; one that is not below the base never is. -/
def ignores (f : IgnoreFile) (path : Path) : Bool :=
  match path.normalize.relativeTo? f.base with
  | some segments => decides f.rules ("/".intercalate segments).toList
  | none => false

/-- Whether there are rules that cannot be asked about a path, as it is not below the base. -/
def misses (f : IgnoreFile) (path : Path) : Bool :=
  !f.rules.isEmpty && !path.normalize.isUnder f.base

end IgnoreFile

namespace IgnoreFile

/-- Whether a text of rules, read in `/p`, ignores a path below it. -/
def ignoresIn (text path : String) : Bool :=
  (ofText (.parse "/p") text.toList).ignores (.parse ("/p/" ++ path))

example : ignoresIn "drafts/\n" "src/drafts/a.ts" ∧ ¬ ignoresIn "drafts\n" "src/drafts/a.ts" := by
  decide +kernel

example : ignoresIn "/src/**/gen" "src/a/b/gen" ∧ ¬ ignoresIn "*.ts\n!keep.ts" "src/keep.ts" := by
  decide +kernel

end IgnoreFile

end CronWrap.Pattern
