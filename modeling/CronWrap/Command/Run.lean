import CronWrap.Command.Arguments
import CronWrap.Conversion.File
import CronWrap.Settings.Load

/-! Carrying out a task, and what there is to say about it. -/
namespace CronWrap.Command

open Workspace

/-- What a run leaves: an exit code, a text for the reader, and what it failed from, if it did. -/
structure Outcome where
  exitCode : Nat
  text : String := ""
  failure : Option Failure := none
  deriving DecidableEq, Repr

/-- The working directory, the one that `~` stands for, and how far a settings file is read. -/
structure Station where
  directory : Path
  home : Path
  limits : Toml.Limits := {}
  deriving DecidableEq, Repr

namespace Station

/-- The path that an argument names. -/
def path (s : Station) (argument : String) : Path :=
  let p := Path.parse argument
  match p.anchor, p.segments with
  | .here, "~" :: rest => ⟨s.home.anchor, s.home.segments ++ rest⟩
  | _, _ => s.directory.join p

end Station

variable {m : Type → Type} [Monad m] [MonadExceptOf Failure m] [Workspace m]

def wrapperLine (e : String × String) : String := s!"{e.1} -> {e.2}\n"

def wrapperText (g : Generation) : String :=
  String.join ((g.wrapperNames.mergeSort fun a b => !(b.1 < a.1 : Bool)).map wrapperLine)

def generate (limits : Toml.Limits) (root : Path) : m Outcome := do
  let settings ← Settings.load root limits
  tryCatch
    (do
      let done ← Generation.ofProject settings root (AliasTable.load root)
      return { exitCode := 0, text := (done.map wrapperText).getD "" })
    fun
      | .collision c => return { exitCode := 1, failure := some (.collision c) }
      | e => throw e

def unchangedNote (settings : Settings) (file : Path) : LogEntry :=
  ⟨.warning, .program, s!"No rewritable {settings.callName}() calls in {file}"⟩

def transform (limits : Toml.Limits) (root file : Path) (write : Bool) : m Outcome := do
  let settings ← Settings.load root limits
  let result ← tryCatch (Except.ok <$> Converted.ofFile settings root file write) fun
    | .file e => return .error (Failure.file e)
    | .encoding e => return .error (Failure.encoding e)
    | e => throw e
  match result with
  | .error e => return { exitCode := 1, failure := some e }
  | .ok r =>
    if r.changed then return { exitCode := 0, text := if write then "" else String.ofList r.code }
    else
      note (unchangedNote settings file)
      return { exitCode := 1 }

def runTask (station : Station) : Task → m Outcome
  | .generate root => do generate station.limits (← resolve (station.path root))
  | .transform file root write => do
    let file ← resolve (station.path file)
    transform station.limits (← resolve (station.path root)) file write

/-- Carries out a task. Settings that cannot be used end it with an exit code of their own. -/
def run (station : Station) (task : Task) : m Outcome :=
  tryCatch (runTask station task) fun
    | .settings file defect => return { exitCode := 2, failure := some (.settings file defect) }
    | e => throw e

end CronWrap.Command
