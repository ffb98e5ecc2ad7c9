import CronWrap.Layout
import CronWrap.Wrapper.Import

/-! Planning the wrappers: one for each function name, as long as a name means one function. -/
namespace CronWrap

/-- A wrapper to be written. -/
structure Wrapper where
  functionName : String
  name : String
  directory : String
  modulePath : Path
  importPath : String
  importedName : Option String
  deriving DecidableEq, Repr, Inhabited

/-- Two functions of one name, from the modules given. -/
structure Collision where
  functionName : String
  first : String
  second : String
  deriving DecidableEq, Repr

def Collision.message (c : Collision) : String :=
  let wrapper := Layout.wrapperName c.functionName
  s!"Scheduled functions named '{c.functionName}' come from different modules " ++
    s!"('{c.first}' and '{c.second}'); wrapper '{wrapper}' can only wrap one of them"

namespace Wrapper

def ofSite (container : Path) (table : AliasTable) (c : CallSite) : Wrapper :=
  let directory := Layout.triggerDir c.functionName
  let path := container / directory / Layout.moduleFile Layout.schedulerModule
  { functionName := c.functionName
    name := Layout.wrapperName c.functionName
    directory := directory
    modulePath := path
    importPath := c.importPath path.parent table
    importedName := c.importedName }

/-- Plans wrappers for the sites, given the identities of the functions that have one. -/
def planFrom (container : Path) (table : AliasTable)
    (known : List (String × (String × Option String))) :
    List CallSite → Except Collision (List Wrapper)
  | [] => .ok []
  | c :: rest =>
    let identity := c.identity table
    match known.lookup c.functionName with
    | some existing =>
      if existing = identity then planFrom container table known rest
      else .error ⟨c.functionName, existing.1, identity.1⟩
    | none => do
      let others ← planFrom container table ((c.functionName, identity) :: known) rest
      return ofSite container table c :: others

/-- One wrapper for each function name, in the order in which the names occur. -/
def plan (sites : List CallSite) (container : Path) (table : AliasTable) :
    Except Collision (List Wrapper) :=
  planFrom container table [] (CallSite.dedup sites)

end Wrapper

end CronWrap
