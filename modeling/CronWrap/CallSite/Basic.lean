import CronWrap.Path.Basic

/-! Call sites: requests, found in some file, to run a function on a schedule. -/
namespace CronWrap

structure CallSite where
  functionName : String
  /-- The specifier from which the file imports the function, as it is written there. -/
  origin : String
  sourceFile : Path
  /-- The name of the export, where it differs from the function's name. -/
  importedName : Option String
  deriving DecidableEq, Repr, Inhabited

namespace CallSite

/-- Sites with equal keys ask for the same wrapper. -/
def key (c : CallSite) : String × String := (c.functionName, c.origin)

/-- The first site of each key that is not among `seen`, in order. -/
def dedupFrom (seen : List (String × String)) : List CallSite → List CallSite
  | [] => []
  | c :: rest => if c.key ∈ seen then dedupFrom seen rest else c :: dedupFrom (c.key :: seen) rest

/-- The first site of each key, in order. -/
def dedup (sites : List CallSite) : List CallSite := dedupFrom [] sites

end CallSite

end CronWrap
