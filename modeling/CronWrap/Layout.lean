import CronWrap.Path.Basic
import CronWrap.Text.Quoted

/-! The names of what is generated, on which generation and conversion agree. -/
namespace CronWrap.Layout

/-- The directory of the generated tree. -/
def containerName : String := "cron-wrappers"

/-- Where routable sources may be; the first that exists gets the tree. -/
def routableRoots : List (List String) := [["src", "app"], ["app"]]

def gitignoreFile : String := ".gitignore"

def gitignoreContent : String := "*\n"

def manifestFile : String := "manifest.json"

def discoveryModule : String := "route"

def schedulerModule : String := "workflow"

def moduleExtension : String := ".ts"

def wrapperPrefix : String := "__cron__"

def triggerPrefix : String := "trigger-"

/-- What generated modules put before the messages that they print. -/
def messagePrefix : String := "[cronstart]"

/-- The exported name of the wrapper of a function. -/
def wrapperName (functionName : String) : String := wrapperPrefix ++ functionName

/-- The directory of the wrapper of a function. -/
def triggerDir (functionName : String) : String := triggerPrefix ++ functionName

def stepName (functionName : String) : String := "__start_" ++ functionName ++ "__"

/-- The module of a wrapper as seen from the generated tree. -/
def schedulerSpecifier (functionName : String) : String :=
  triggerDir functionName ++ "/" ++ schedulerModule

/-- The file of a module of the generated tree. -/
def moduleFile (module : String) : String := module ++ moduleExtension

/-- The directories of a project in which the generated tree may be. -/
def routableDirs (root : Path) : List Path :=
  routableRoots.map fun parts => ⟨root.anchor, root.segments ++ parts⟩

/-- The place of the generated tree, given the first routable directory that exists; without one
it is in the first that there might be. -/
def containerIn (root : Path) (found : Option Path) : Path :=
  (found.getD ((routableDirs root).headD root)) / containerName

/-- The constants that other tools may look up, by their public names. -/
def constants : List (String × String) :=
  [("CONTAINER_DIR_NAME", containerName), ("CONTAINER_PREFIX", triggerPrefix),
   ("DISCOVERY_MODULE", discoveryModule), ("GITIGNORE_CONTENT", gitignoreContent),
   ("GITIGNORE_FILE", gitignoreFile), ("MANIFEST_JSON", manifestFile),
   ("MODULE_EXTENSION", moduleExtension), ("SCHEDULER_MODULE", schedulerModule),
   ("WRAPPER_PREFIX", wrapperPrefix)]

/-- What is said of a name that is no constant. -/
def missingConstant (name : String) : String :=
  s!"module 'contract' has no attribute {Text.shown name}"

end CronWrap.Layout
