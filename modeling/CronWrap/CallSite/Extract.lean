import CronWrap.CallSite.Basic
import CronWrap.Log
import CronWrap.Module.Calls
import CronWrap.Module.Mention
import CronWrap.Settings.Basic

/-! The call sites of one file. -/
namespace CronWrap

/-- The module of a file, if it imports the scheduling call. -/
def Module.importing? (settings : Settings) (file : Path) (source : List Char) : Option Module :=
  let m := parse file source
  if m.importsName settings.callName settings.callModule then some m else none

/-- The same, but a text that mentions no such import is not parsed. -/
def Module.ofScheduling? (settings : Settings) (file : Path) (source : List Char) : Option Module :=
  if Mention.mentionsImport source settings.callName settings.callModule then
    importing? settings file source
  else none

namespace CallSite

/-- The site of a call, from the import that binds its function; without one the function is taken
to be defined in the file. -/
def ofCall (file : Path) (bindings : List (String × Binding)) (call : ScheduleCall) : CallSite :=
  match bindings.lookup call.functionName with
  | some b =>
    ⟨call.functionName, b.source, file,
      if b.importedName = call.functionName then none else some b.importedName⟩
  | none => ⟨call.functionName, "./" ++ stripSourceExtension file.name, file, none⟩

def localNote (file : Path) (functionName : String) : LogEntry :=
  ⟨.debug, .callSites,
    s!"{file}: {functionName} is not imported; assuming it is defined in this file"⟩

/-- The call sites of a module in order, repetitions included, with a note for each function that is
not imported; without a module there are none. -/
def ofModule? (settings : Settings) (file : Path) : Option Module → List CallSite × Log
  | none => ([], [])
  | some m =>
    let bindings := m.importMap
    let calls := m.scheduleCalls settings.callName
    (calls.map (ofCall file bindings),
      (calls.filter fun c => (bindings.lookup c.functionName).isNone).map fun c =>
        localNote file c.functionName)

/-- The call sites of a file. -/
def extract (settings : Settings) (file : Path) (source : List Char) : List CallSite × Log :=
  ofModule? settings file (Module.ofScheduling? settings file source)

end CallSite

end CronWrap
