/-! What the program tells about its work. -/
namespace CronWrap

inductive Level
  | debug
  | info
  | warning
  deriving DecidableEq, Repr

/-- The part of the program that speaks. -/
inductive Topic
  | callSites
  | aliases
  | generation
  | staging
  | conversion
  | program
  deriving DecidableEq, Repr

structure LogEntry where
  level : Level
  topic : Topic
  message : String
  deriving DecidableEq, Repr

abbrev Log := List LogEntry

def Level.name : Level → String
  | debug => "DEBUG"
  | info => "INFO"
  | warning => "WARNING"

def Topic.name : Topic → String
  | callSites => "scan.call_sites"
  | aliases => "paths.aliases"
  | generation => "artifacts.write"
  | staging => "artifacts.utils"
  | conversion => "transform.rewrite"
  | program => "cronstart"

def LogEntry.line (e : LogEntry) : String := s!"{e.level.name} {e.topic.name}: {e.message}"

/-- The lines that are shown: those that matter for debugging only where more is asked for. -/
def Log.shown (verbose : Bool) (log : Log) : List String :=
  (log.filter fun e => verbose || e.level ≠ .debug).map LogEntry.line

end CronWrap
