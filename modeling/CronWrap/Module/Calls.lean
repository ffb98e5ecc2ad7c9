import CronWrap.Module.Imports

/-! The scheduling calls of a module. -/
namespace CronWrap

open Syntax

/-- A call that schedules a named function; the function is the first of the arguments. -/
structure ScheduleCall where
  node : Node
  functionName : String
  arguments : List Node
  deriving Repr

namespace Module

def argumentNodes (call : Node) : List Node := ((childOf? .arguments call).map (·.children)).getD []

/-- A call counts when it is one of the bare name, and has two arguments or more of which the
first is a name. -/
def scheduleCall? (m : Module) (callName : String) (n : Node) : Option ScheduleCall :=
  match n.kind, n.children with
  | .call, callee :: _ =>
    match argumentNodes n with
    | scheduled :: next :: more =>
      if callee.kind = .identifier && callee.text m.source = callName
          && scheduled.kind = .identifier then
        some ⟨n, scheduled.text m.source, scheduled :: next :: more⟩
      else none
    | _ => none
  | _, _ => none

/-- The scheduling calls in document order, whatever they are nested in. -/
def scheduleCalls (m : Module) (callName : String) : List ScheduleCall :=
  m.root.nodes.filterMap (m.scheduleCall? callName)

end Module

end CronWrap
