/-! Paths as lists of segments: reading, writing, joining, and the collapse of `..` by text alone.
-/
namespace CronWrap

/-- Where a path starts: the working directory, the root, or the root written with two slashes. -/
inductive Anchor
  | here
  | root
  | twinRoot
  deriving DecidableEq, Repr, Inhabited

structure Path where
  anchor : Anchor
  segments : List String
  deriving DecidableEq, Repr, Inhabited

namespace Path

def isAbsolute (p : Path) : Bool := p.anchor ≠ .here

/-- Exactly two leading slashes mean a root of its own; any other number but none means `/`. -/
def anchorOf : List Char → Anchor
  | '/' :: '/' :: '/' :: _ => .root
  | '/' :: '/' :: _ => .twinRoot
  | '/' :: _ => .root
  | _ => .here

/-- The segments of a text that say something: neither empty nor a single dot. -/
def segmentsOf (cs : List Char) : List String :=
  ((cs.splitOn '/').filter fun s => s ≠ [] && s ≠ ['.']).map String.ofList

def ofChars (cs : List Char) : Path := ⟨anchorOf cs, segmentsOf cs⟩

def parse (s : String) : Path := ofChars s.toList

def Anchor.text : Anchor → String
  | .here => ""
  | .root => "/"
  | .twinRoot => "//"

def toString (p : Path) : String :=
  if p.anchor = .here ∧ p.segments = [] then "."
  else Anchor.text p.anchor ++ String.intercalate "/" p.segments

instance : ToString Path := ⟨toString⟩

/-- A path seen from another: an absolute one stands for itself. -/
def join (base p : Path) : Path :=
  if p.isAbsolute then p else ⟨base.anchor, base.segments ++ p.segments⟩

instance : HDiv Path String Path := ⟨fun base s => base.join (parse s)⟩

def parent (p : Path) : Path := ⟨p.anchor, p.segments.dropLast⟩

/-- The beginnings of a list of segments, the shortest first. -/
def beginnings : List String → List (List String)
  | [] => [[]]
  | s :: rest => [] :: (beginnings rest).map (s :: ·)

/-- The directories that lead to a path, from the top down to the path itself. -/
def lineage (p : Path) : List Path := (beginnings p.segments).map (Path.mk p.anchor)

/-- The last segment, or nothing for a root. -/
def name (p : Path) : String := p.segments.getLast?.getD ""

/-- One step of the collapse, on the segments kept so far in reverse: `..` takes one back, except
that at the start it stays in a relative path and is lost in an absolute one. -/
def push (absolute : Bool) (kept : List String) (segment : String) : List String :=
  if segment = ".." then
    match kept with
    | [] => if absolute then [] else [".."]
    | last :: rest => if last = ".." then ".." :: kept else rest
  else segment :: kept

/-- The path with every `..` that has something to take back carried out on the text. -/
def normalize (p : Path) : Path :=
  ⟨p.anchor, (p.segments.foldl (push p.isAbsolute) []).reverse⟩

/-- What follows `base` in `p`, when `p` is written as `base` and more. -/
def relativeTo? (p base : Path) : Option (List String) :=
  if p.anchor = base.anchor then base.segments.isPrefixOf? p.segments else none

def isUnder (p base : Path) : Bool := (p.relativeTo? base).isSome

@[simp] theorem join_of_absolute {base p : Path} (h : p.isAbsolute) : base.join p = p := by
  simp [join, h]

@[simp] theorem anchor_normalize (p : Path) : p.normalize.anchor = p.anchor := rfl

@[simp] theorem isAbsolute_normalize (p : Path) : p.normalize.isAbsolute = p.isAbsolute := rfl

example : toString (parse "/a//b/./../c/").normalize = "/a/c" := by decide

example : toString (parse "../a/../../b").normalize = "../../b" := by decide

example : toString (parse "//x").normalize = "//x" := by decide

end CronWrap.Path
