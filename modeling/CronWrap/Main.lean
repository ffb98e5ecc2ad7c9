import CronWrap.Command.Run

/-! The program: tasks are carried out on the files of the machine. -/
namespace CronWrap

/-- Work on real files; the flag tells whether notes for debugging are shown. -/
abbrev Live := ReaderT Bool (EIO Failure)

namespace Live

def causeOf : IO.Error → FileCause
  | .noFileOrDirectory .. => .notFound
  | .alreadyExists .. => .exists
  | .inappropriateType .. => .notADirectory
  | .unsatisfiedConstraints .. => .notEmpty
  | _ => .refused

def attempt {α : Type} (p : Path) (action : IO α) : Live α :=
  fun _ => action.toEIO fun e => .file ⟨causeOf e, p⟩

/-- What an action finds out about a path, or nothing if there is nothing. -/
def glance {α : Type} (p : Path) (action : IO α) : Live (Option α) :=
  tryCatch (some <$> attempt p action) fun
    | .file e => if e.cause.meansAbsent then return none else throw (.file e)
    | e => throw e

/-- The entry of a directory listing that has this path. -/
def entry (p : Path) : IO.FS.DirEntry := ⟨"", p.toString⟩

def kind? (p : Path) : Live (Option FileKind) := do
  match ← glance p (entry p).path.metadata with
  | some found =>
    match found.type with
    | .dir => return some .dir
    | .file => return some .file
    | _ => return none
  | none => return none

/-- What is at a path, a link itself if it is one. -/
def type? (p : Path) : Live (Option IO.FS.FileType) := do
  return (← glance p (entry p).path.symlinkMetadata).map (·.type)

def resolve (p : Path) : Live Path :=
  p.segments.foldlM (fun (here : Path) name => do
    if name = ".." then return here.parent
    let next := Path.mk here.anchor (here.segments ++ [name])
    let real ← glance next (IO.FS.realPath (entry next).path)
    return (real.map fun found => Path.parse found.toString).getD next)
    ⟨.root, []⟩

def names (p : Path) : Live (List String) := do
  return (← attempt p (entry p).path.readDir).toList.map (·.fileName)

partial def below (p : Path) : Live (List Path) := do
  let found ← (← names p).mapM fun name => do
    let child := Path.mk p.anchor (p.segments ++ [name])
    let inside ← if (← type? child) == some .dir then below child else pure []
    return child :: inside
  return found.flatten

def read (p : Path) : Live Text.Bytes := do
  if (← kind? p) = some .dir then throw (.file ⟨.isADirectory, p⟩)
  return (← attempt p (IO.FS.readBinFile (entry p).path)).toList

def removeTree (p : Path) : Live Unit := do
  if (← type? p).any (· != .dir) then throw (.file ⟨.notADirectory, p⟩)
  attempt p (IO.FS.removeDirAll (entry p).path)

/-- A name with eight digits at random, tried again while there is something of that name. -/
partial def unused (directory : Path) (head : String) : Live Path := do
  let digits := Nat.toDigits 16 (← IO.rand 0 (16 ^ 8 - 1))
  let p := directory / (head ++ String.ofList (List.replicate (8 - digits.length) '0' ++ digits))
  if (← type? p).isSome then unused directory head else return p

instance : Workspace Live where
  kind? := kind?
  isLink p := do return (← type? p) == some .symlink
  resolve := resolve
  names := names
  below := below
  read := read
  write p content := attempt p (IO.FS.writeBinFile (entry p).path content.toByteArray)
  makeDir p := attempt p (IO.FS.createDir (entry p).path)
  rename p q := attempt p (IO.FS.rename (entry p).path (entry q).path)
  removeTree := removeTree
  unused := unused
  note e := fun verbose =>
    (Log.shown verbose [e]).forM fun line => (IO.eprintln line).catchExceptions fun _ => pure ()

end Live

def usageText : String := "usage: cronstart [-h] [-v] \x7bgenerate,transform\x7d ..."

/-- Carries an invocation out and tells the exit code. -/
def perform (call : Command.Invocation) : IO UInt32 := do
  let directory := Path.parse (← IO.currentDir).toString
  let home := ((← IO.getEnv "HOME").map Path.parse).getD directory
  let action : Live Command.Outcome := Command.run { directory, home } call.task
  match ← (action call.verbose).toBaseIO with
  | .ok outcome =>
    IO.print outcome.text
    if let some e := outcome.failure then IO.eprintln s!"error: {e.message}"
    return outcome.exitCode.toUInt32
  | .error e =>
    IO.eprintln s!"error: {e.message}"
    return 1

end CronWrap

open CronWrap in
def main (arguments : List String) : IO UInt32 := do
  match Command.Invocation.parse arguments with
  | .error usage =>
    IO.eprintln usageText
    return usage.exitCode.toUInt32
  | .ok call => perform call
