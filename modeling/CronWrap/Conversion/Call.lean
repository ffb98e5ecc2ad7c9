import CronWrap.Layout
import CronWrap.Module.Calls
import CronWrap.Conversion.Edit
import CronWrap.Settings.Basic
import CronWrap.Text.Blank

/-! Scheduling calls written as starts of their wrappers. -/
namespace CronWrap

open Syntax

namespace ScheduleCall

/-- Calls with exactly the function, a list or a name of arguments, and an object or a name of
options. -/
def isConvertible (c : ScheduleCall) : Bool :=
  match c.arguments with
  | [_, args, options] =>
    (args.kind = .array || args.kind = .identifier) &&
      (options.kind = .object || options.kind = .identifier)
  | _ => false

/-- The calls that start behind the last one kept, of calls in document order. -/
def outermostFrom (stop : Nat) : List ScheduleCall → List ScheduleCall
  | [] => []
  | c :: rest =>
    if c.node.start < stop then outermostFrom stop rest else c :: outermostFrom c.node.stop rest

/-- The calls that lie in no other one. -/
def outermost (cs : List ScheduleCall) : List ScheduleCall := outermostFrom 0 cs

/-- The options with the arguments among them, under the key `args`. -/
def mergedOptions (source : List Char) (args options : Node) : List Char :=
  let opening := "\x7b args: ".toList ++ args.chars source
  let text := options.chars source
  if options.kind = .identifier then opening ++ ", ...".toList ++ text ++ " \x7d".toList
  else
    let body := (text.drop 1).dropLast
    if Text.allBlank body then opening ++ " \x7d".toList
    else
      let gap := if body.head?.any Text.isBlank then [] else [' ']
      opening ++ [','] ++ gap ++ body ++ ['}']

/-- The start of the function's wrapper in place of the call. -/
def replacement (settings : Settings) (source : List Char) (c : ScheduleCall) : List Char :=
  match c.arguments with
  | [_, args, options] =>
    (settings.startName ++ "(" ++ Layout.wrapperName c.functionName ++ ", [").toList ++
      mergedOptions source args options ++ "])".toList
  | _ => c.node.chars source

def edit (settings : Settings) (source : List Char) (c : ScheduleCall) : Edit :=
  ⟨c.node.start, c.node.stop, c.replacement settings source⟩

end ScheduleCall

/-- The calls of a module that are converted. -/
def Module.convertedCalls (m : Module) (callName : String) : List ScheduleCall :=
  ScheduleCall.outermost ((m.scheduleCalls callName).filter (·.isConvertible))

end CronWrap
