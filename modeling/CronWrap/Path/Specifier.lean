import CronWrap.Path.Basic
import CronWrap.Text.Quoted

/-! Module specifiers: which of them are relative, and how one file names another. -/
namespace CronWrap

inductive PathError
  | noPath
  | emptyName (p : Path)
  | outside (p base : Path)
  deriving DecidableEq, Repr

def PathError.message : PathError → String
  | .noPath => "no path specified"
  | .emptyName p => s!"PosixPath('{p}') has an empty name"
  | .outside p base =>
    s!"{Text.shown p.toString} is not in the subpath of {Text.shown base.toString}" ++
      " OR one path is relative and the other is absolute."

namespace Path

/-- Specifiers are written with forward slashes only. -/
def forwardSlashes (s : String) : String :=
  String.ofList (s.toList.map fun c => if c = '\\' then '/' else c)

/-- The text of a path as a specifier or an alias target. -/
def posix (p : Path) : String := forwardSlashes p.toString

def isRelativeSpecifier (s : String) : Bool :=
  s = "." || s = ".." || "./".toList.isPrefixOf s.toList || "../".toList.isPrefixOf s.toList

/-- The segments that lead from one list of segments to another: up from where they part, then
down. -/
def steps : List String → List String → List String
  | t :: target, d :: base =>
    if t = d then steps target base else ".." :: base.map (fun _ => "..") ++ t :: target
  | target, base => base.map (fun _ => "..") ++ target

/-- The way from the directory `base` to `target`; relative paths start at the root. -/
def relative (target base : Path) : Path :=
  let fromRoot (p : Path) := (join ⟨.root, []⟩ p).normalize.segments
  ⟨.here, steps (fromRoot target) (fromRoot base)⟩

/-- The specifier by which a module in `base` imports `target`: always relative, so that it is never
taken for the name of a package. -/
def relativeSpecifier (target base : Path) : String :=
  let s := (relative target base).posix
  if isRelativeSpecifier s then s else "./" ++ s

/-- A path that has to be named by some text. -/
def parse? (s : String) : Except PathError Path :=
  if s = "" then .error .noPath else .ok (parse s)

/-- The path with its last segment replaced. -/
def withName (p : Path) (name : String) : Except PathError Path :=
  if p.name = "" then .error (.emptyName p) else .ok ⟨p.anchor, p.segments.dropLast ++ [name]⟩

end Path

example : Path.relativeSpecifier (.parse "/app/src/lib/jobs") (.parse "/app/src/app/cron") =
    "../../lib/jobs" := by decide

example : Path.relativeSpecifier (.parse "/app/..foo") (.parse "/app") = "./..foo" := by decide

end CronWrap
