import CronWrap.Alias.Load
import CronWrap.Files.Tree

/-! Work on a file tree in memory, in which operations can be made to fail. -/
namespace CronWrap

open Text (Bytes)

/-- What an operation is about to do to the tree. -/
inductive Change
  | write (p : Path)
  | makeDir (p : Path)
  | rename (source target : Path)
  | remove (p : Path)
  deriving DecidableEq, Repr

structure SessionState where
  tree : FileTree := .empty
  log : Log := []
  aliases : AliasCache := none
  /-- The changes so far, attempted ones included, the last one first. -/
  attempted : List Change := []
  /-- The changes that failed, for whatever cause, the last one first. -/
  failed : List Change := []
  /-- Whether a change fails that follows the given ones. -/
  fails : List Change → Change → Bool := fun _ _ => false

abbrev Session := EStateM Failure SessionState

namespace Session

def fail {α : Type} (cause : FileCause) (p : Path) : Session α := throw (.file ⟨cause, p⟩)

/-- Registers a change, which may be made to fail here before it has done anything. -/
def attempt (c : Change) (p : Path) : Session Unit := do
  let s ← get
  set { s with attempted := c :: s.attempted }
  if s.fails s.attempted c then fail .refused p

/-- Carries a change out, and remembers it if it fails. -/
def change (c : Change) (p : Path) (action : Session Unit) : Session Unit :=
  tryCatch (do attempt c p; action) fun e => do
    modify fun s => { s with failed := c :: s.failed }
    throw e

/-- The place that a path leads to, and what is there. -/
def find (last : Bool) (p : Path) : Session (Place × Option FileTree) := do
  match (← get).tree.find last p with
  | .ok found => return found
  | .error cause => fail cause p

/-- What a path leads to, if it leads anywhere. -/
def find? (last : Bool) (p : Path) : Session (Option FileTree) := do
  match (← get).tree.find? last p with
  | .ok found => return found
  | .error cause => fail cause p

def setTree (t : FileTree) : Session Unit := modify fun s => { s with tree := t }

def read (p : Path) : Session Bytes := do
  match (← find true p).2 with
  | some (.file content) => return content
  | some _ => fail .isADirectory p
  | none => fail .notFound p

def write (p : Path) (content : Bytes) : Session Unit := change (.write p) p do
  let (place, found) ← find true p
  if found.any (·.isDir) then fail .isADirectory p
  setTree ((← get).tree.set (.file content) place)

def makeDir (p : Path) : Session Unit := change (.makeDir p) p do
  let (place, found) ← find false p
  if found.isSome then fail .exists p
  setTree ((← get).tree.set .empty place)

/-- Whether `source` may take the place of `target`: an empty directory gives way to a directory,
and anything else only to what is no directory. -/
def yields (source target : FileTree) : Except FileCause Unit :=
  match source, target with
  | .dir _, .dir es => if es.isEmpty then .ok () else .error .notEmpty
  | .dir _, _ => .error .notADirectory
  | _, .dir _ => .error .isADirectory
  | _, _ => .ok ()

def rename (p q : Path) : Session Unit := change (.rename p q) p do
  let (place, found) ← find false p
  let (newPlace, there) ← find false q
  match found with
  | none => fail .notFound p
  | some source =>
    match there.elim (.ok ()) (yields source) with
    | .ok () => setTree (((← get).tree.erase place).set source newPlace)
    | .error cause => fail cause p

def removeTree (p : Path) : Session Unit := change (.remove p) p do
  match ← find false p with
  | (place, some (.dir _)) => setTree ((← get).tree.erase place)
  | (_, some _) => fail .notADirectory p
  | (_, none) => fail .notFound p

def names (p : Path) : Session (List String) := do
  match (← find true p).2 with
  | some (.dir es) => return es.map (·.1)
  | some _ => fail .notADirectory p
  | none => fail .notFound p

/-- Eight hexadecimal digits. -/
def serial (n : Nat) : String :=
  let digits := Nat.toDigits 16 n
  String.ofList (List.replicate (8 - digits.length) '0' ++ digits)

/-- A name that is not among the given ones: `head` with a number. -/
def freshName (head : String) (taken : List String) : String :=
  let free := (List.range taken.length).find? fun n => !taken.contains (head ++ serial n)
  head ++ serial (free.getD taken.length)

instance : Workspace Session where
  kind? p := do
    return match ← find? true p with
      | some (.dir _) => some .dir
      | some (.file _) => some .file
      | _ => none
  isLink p := do return (← find? false p).any (·.isLink)
  resolve p := do return (← get).tree.resolve p
  names := names
  below p := do
    return match ← find? true p with
      | some t => t.listing.map fun e => ⟨p.anchor, p.segments ++ e.1⟩
      | none => []
  read := read
  write := write
  makeDir := makeDir
  rename := rename
  removeTree := removeTree
  unused directory head := do return directory / freshName head (← names directory)
  note e := modify fun s => { s with log := s.log ++ [e] }

instance : MonadStateOf AliasCache Session where
  get := do return (← getThe SessionState).aliases
  set c := modify fun s => { s with aliases := c }
  modifyGet f := modifyGet fun s => let (a, c) := f s.aliases; (a, { s with aliases := c })

end Session

end CronWrap
