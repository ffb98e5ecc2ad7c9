import CronWrap.Data.Value
import CronWrap.Files.Error
import CronWrap.Text.Utf8

/-! Trees of files, and the places in them to which paths lead. -/
namespace CronWrap

open Text (Bytes)

inductive FileTree
  | file (content : Bytes)
  /-- A symbolic link, with the path that it stands for. -/
  | link (target : String)
  | dir (entries : List (String × FileTree))
  deriving Repr, Inhabited

/-- A place in a tree: the names on the way to it, none of them a link's. -/
abbrev Place := List String

namespace FileTree

def empty : FileTree := .dir []

def entries : FileTree → List (String × FileTree)
  | dir entries => entries
  | _ => []

def isDir : FileTree → Bool
  | dir _ => true
  | _ => false

def isFile : FileTree → Bool
  | file _ => true
  | _ => false

def isLink : FileTree → Bool
  | link _ => true
  | _ => false

@[simp] theorem entries_dir (es : List (String × FileTree)) : (dir es).entries = es := rfl

/-- What is at a place. -/
def get? (t : FileTree) : Place → Option FileTree
  | [] => some t
  | name :: place => t.entries.lookup name >>= (get? · place)

/-- Puts a tree at a place, with directories on the way to it. -/
def set (t : FileTree) (new : FileTree) : Place → FileTree
  | [] => new
  | name :: place =>
    .dir (setField t.entries name (set ((t.entries.lookup name).getD empty) new place))

/-- Takes away what is at a place other than the top. -/
def erase (t : FileTree) : Place → FileTree
  | [] => t
  | [name] =>
    match t with
    | dir es => .dir (es.filter (·.1 ≠ name))
    | t => t
  | name :: place =>
    match t.entries.lookup name with
    | some inner => .dir (setField t.entries name (erase inner place))
    | none => t

@[simp] theorem get?_nil (t : FileTree) : t.get? [] = some t := rfl

@[simp] theorem get?_cons (t : FileTree) (name : String) (place : Place) :
    t.get? (name :: place) = t.entries.lookup name >>= (get? · place) := rfl

theorem get?_append (t : FileTree) (p q : Place) : t.get? (p ++ q) = t.get? p >>= (get? · q) := by
  induction p generalizing t with
  | nil => simp
  | cons name p ih =>
    simp only [List.cons_append, get?_cons]
    cases t.entries.lookup name with
    | none => rfl
    | some inner => exact ih inner

@[simp] theorem get?_set_self (t new : FileTree) (p : Place) : (t.set new p).get? p = some new := by
  induction p generalizing t with
  | nil => rfl
  | cons name p ih => simp [set, ih]

mutual

/-- Everything below the top of a tree, links not followed. -/
def listing : FileTree → List (Place × FileTree)
  | dir es => listingAll es
  | _ => []

def listingAll : List (String × FileTree) → List (Place × FileTree)
  | [] => []
  | (name, t) :: rest =>
    ([name], t) :: (listing t).map (fun e => (name :: e.1, e.2)) ++ listingAll rest

end

/-- Where a path has led, with the first thing that stood in its way. -/
structure Walk where
  place : Place
  trouble : Option FileCause
  deriving DecidableEq, Repr

/-- The bytes that a name may take. -/
def maxName : Nat := 255

/-- What keeps a path from going on by a name from a place. -/
def obstacle (t : FileTree) (here : Place) (name : String) : Option FileCause :=
  match t.get? here with
  | some (dir _) => if name.utf8ByteSize ≤ maxName then none else some .nameTooLong
  | some _ => some .notADirectory
  | none => some .notFound

def linkAt? (t : FileTree) (here : Place) (name : String) : Option Path :=
  match t.get? (here ++ [name]) with
  | some (link target) => some (.parse target)
  | _ => none

/-- Goes on from a place by the segments of a path, and at a link as `follow` says, if it may be
followed; with `last` one at the end is too. Behind an obstacle the segments are only counted off. -/
def walkBy (t : FileTree) (last : Bool)
    (follow : Option (Option FileCause → Place → List String → Walk)) (trouble : Option FileCause)
    (here : Place) : List String → Walk
  | [] => ⟨here, trouble⟩
  | name :: rest =>
    let trouble := trouble <|> t.obstacle here name
    if name = ".." then walkBy t last follow trouble here.dropLast rest
    else
      match t.linkAt? here name with
      | none => walkBy t last follow trouble (here ++ [name]) rest
      | some target =>
        if rest = [] ∧ !last then ⟨here ++ [name], trouble⟩
        else
          match follow with
          | none => ⟨here ++ name :: rest, trouble <|> some .tooManyLinks⟩
          | some follow =>
            let start := if target.isAbsolute then [] else here
            follow trouble start (target.segments ++ rest)

/-- A walk that follows so many links at most. -/
def walk (t : FileTree) (last : Bool) : Nat → Option FileCause → Place → List String → Walk
  | 0 => walkBy t last none
  | links + 1 => walkBy t last (some (walk t last links))

@[simp] theorem walk_nil (t : FileTree) (last : Bool) (links : Nat) (trouble : Option FileCause)
    (here : Place) : t.walk last links trouble here [] = ⟨here, trouble⟩ := by
  cases links <;> rfl

/-- The links that a path may lead through. -/
def maxLinks : Nat := 40

def walkTo (t : FileTree) (last : Bool) (p : Path) : Walk := t.walk last maxLinks none [] p.segments

/-- The path without links, as far as it leads anywhere. -/
def resolve (t : FileTree) (p : Path) : Path := ⟨.root, (t.walkTo true p).place⟩

/-- The bytes that a path may take. -/
def maxPath : Nat := 4095

/-- The place that a path leads to, and what is there. -/
def find (t : FileTree) (last : Bool) (p : Path) : Except FileCause (Place × Option FileTree) :=
  if maxPath < p.toString.utf8ByteSize then .error .nameTooLong
  else
    let w := t.walkTo last p
    match w.trouble with
    | some cause => .error cause
    | none => .ok (w.place, t.get? w.place)

/-- What a path leads to, if it leads anywhere; not to know that is an error. -/
def find? (t : FileTree) (last : Bool) (p : Path) : Except FileCause (Option FileTree) :=
  match t.find last p with
  | .ok (_, found) => .ok found
  | .error cause => if cause.meansAbsent then .ok none else .error cause

end FileTree

end CronWrap
