import CronWrap.CallSite.Extract
import CronWrap.Conversion.Imports

/-! Converting a module: scheduling calls become starts of wrappers. -/
namespace CronWrap

open Syntax

/-- The text of a converted module, and whether it differs from what it was. -/
structure Converted where
  code : List Char
  changed : Bool
  deriving DecidableEq, Repr

namespace Module

/-- Where the new imports go: behind the last import that stays, or in place of the first that
goes. -/
def insertion (surviving removed : List (Node × Edit)) (block : List Char) : List Edit :=
  match surviving.getLast?, removed with
  | some (last, _), _ => ⟨last.stop, last.stop, '\n' :: block⟩ :: removed.map (·.2)
  | none, (_, first) :: rest => ⟨first.start, first.stop, block ++ ['\n']⟩ :: rest.map (·.2)
  | none, [] => []

/-- The removals of the scheduling call from the imports, when every call of it is converted. -/
def removals (m : Module) (settings : Settings) (dropImport : Bool) : List (Node × Removal) :=
  m.imports.map fun n =>
    (n, if dropImport then m.removal settings.callName settings.callModule n else .nothing)

/-- The edits that convert the given calls. -/
def edits (m : Module) (settings : Settings) (container file : Path) (calls : List ScheduleCall)
    (dropImport : Bool) : List Edit :=
  let rs := m.removals settings dropImport
  let block := "\n".intercalate (m.newImports settings container file (calls.map (·.functionName)))
  let removed := rs.filterMap fun (n, r) => match r with
    | .statement e => some (n, e)
    | _ => none
  let surviving := rs.filterMap fun (n, r) => match r with
    | .statement _ => none
    | _ => some (n, ⟨n.stop, n.stop, []⟩)
  let specifiers := rs.filterMap fun (_, r) => match r with
    | .specifiers e => some e
    | _ => none
  calls.map (ScheduleCall.edit settings m.source) ++ specifiers ++
    insertion surviving removed block.toList

end Module

namespace Converted

def unchanged (source : List Char) : Converted := ⟨source, false⟩

def keepingNote (settings : Settings) (file : Path) (left : Nat) : LogEntry :=
  ⟨.debug, .conversion,
    s!"{file}: keeping {settings.callName} import for {left} call(s) of another shape"⟩

def doneNote (settings : Settings) (file : Path) (count : Nat) : LogEntry :=
  ⟨.debug, .conversion, s!"Rewrote {count} {settings.callName}() call(s) in {file}"⟩

/-- Converts the scheduling calls of a module, whose wrappers are in `container`. Without a module, or
a call that can be converted, the text stays as it is. -/
def ofModule? (settings : Settings) (container file : Path) (source : List Char) :
    Option Module → Converted × Log
  | none => (unchanged source, [])
  | some m =>
    let found := m.scheduleCalls settings.callName
    let calls := m.convertedCalls settings.callName
    if calls.isEmpty then (unchanged source, [])
    else
      let dropImport := calls.length = found.length
      let code := Edit.applyAll source (m.edits settings container file calls dropImport)
      (⟨code, code ≠ source⟩,
        (if dropImport then [] else [keepingNote settings file (found.length - calls.length)]) ++
          [doneNote settings file calls.length])

/-- Converts a text, if it imports the scheduling call. -/
def ofSource (settings : Settings) (container file : Path) (source : List Char) :
    Converted × Log :=
  ofModule? settings container file source (Module.ofScheduling? settings file source)

end Converted

end CronWrap
