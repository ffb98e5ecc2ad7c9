import CronWrap.Alias.Table
import CronWrap.CallSite.Basic
import CronWrap.Module.Imports
import CronWrap.Text.Quoted

/-! How a wrapper imports its function, and which module that is. -/
namespace CronWrap

namespace CallSite

/-- The place that a relative origin names, seen from the calling file. -/
def relativeTarget (c : CallSite) : Path := (c.sourceFile.parent / c.origin).normalize

/-- The specifier by which a module in `directory` imports the function: an alias is kept, and a
relative origin is written as an alias where one covers it, and otherwise from `directory`. -/
def importPath (c : CallSite) (directory : Path) (table : AliasTable) : String :=
  if table.isAlias c.origin then c.origin
  else if Path.isRelativeSpecifier c.origin then
    (table.nameOf c.relativeTarget).getD (Path.relativeSpecifier c.relativeTarget directory)
  else c.origin

/-- The module that the function comes from: relative origins and aliases give the path that they
reach, and a package stands for itself. -/
def importTarget (c : CallSite) (table : AliasTable) : String :=
  if Path.isRelativeSpecifier c.origin then c.relativeTarget.toString
  else if table.isAlias c.origin then ((table.resolve c.origin).map Path.toString).getD c.origin
  else c.origin

/-- The module and the export that the function is: sites that differ here need different
wrappers. -/
def identity (c : CallSite) (table : AliasTable) : String × Option String :=
  (c.importTarget table, c.importedName)

end CallSite

/-- The statement that imports a function under its name. -/
def importLine (functionName : String) (importedName : Option String) (path : String) : String :=
  let source := Text.quote path
  let same := s!"import \x7b {functionName} \x7d from {source}"
  match importedName with
  | none => same
  | some name =>
    if name = defaultExport then s!"import {functionName} from {source}"
    else if name = "" || name = functionName then same
    else s!"import \x7b {name} as {functionName} \x7d from {source}"

end CronWrap
