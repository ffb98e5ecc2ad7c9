import CronWrap.Data.Value
import CronWrap.Settings.Basic

/-! Settings read from a data file: every field that does not fit is complained of. -/
namespace CronWrap

/-- A step into a value. -/
inductive Step
  | key (name : String)
  | index (i : Nat)
  deriving DecidableEq, Repr

def Step.text : Step → String
  | key name => name
  | index i => toString i

inductive Defect
  | notText
  | notList
  | notBool
  | notBoolText
  | notRecord
  | unknownField
  | badIdentifier (s : String)
  | badModule (s : String)
  deriving DecidableEq, Repr

namespace Defect

def label : Defect → String
  | notText => "string_type"
  | notList => "list_type"
  | notBool => "bool_type"
  | notBoolText => "bool_parsing"
  | notRecord => "model_type"
  | unknownField => "extra_forbidden"
  | badIdentifier _ => "value_error"
  | badModule _ => "value_error"

def message : Defect → String
  | notText => "Input should be a valid string"
  | notList => "Input should be a valid list"
  | notBool => "Input should be a valid boolean"
  | notBoolText => "Input should be a valid boolean, unable to interpret input"
  | notRecord => "Input should be a valid dictionary or instance of CronStartConfig"
  | unknownField => "Extra inputs are not permitted"
  | badIdentifier s => s!"Value error, '{s}' is not a valid JavaScript identifier"
  | badModule s => s!"Value error, '{s}' is not a valid module specifier"

end Defect

/-- A defect and the place where it is. -/
structure Complaint where
  place : List Step
  defect : Defect
  deriving DecidableEq, Repr

namespace Complaint

def stepBefore (a b : Step) : Bool :=
  a.text.length < b.text.length || (a.text.length = b.text.length && a.text < b.text)

/-- Complaints go by their places: step by step, the shorter text first. -/
def placeLE : List Step → List Step → Bool
  | [], _ => true
  | _ :: _, [] => false
  | a :: as, b :: bs => stepBefore a b || (a.text = b.text && placeLE as bs)

def sort (cs : List Complaint) : List Complaint := cs.mergeSort fun a b => placeLE a.place b.place

end Complaint

namespace Settings

/-- The outcome for one field: the complaints of its value, or the value itself. -/
abbrev Checked (α : Type) := Except (List Complaint) α

def complain {α : Type} (place : List Step) (defect : Defect) : Checked α :=
  .error [⟨place, defect⟩]

def readText (place : List Step) : Value → Checked String
  | .text s => .ok s
  | _ => complain place .notText

def readIdentifier (place : List Step) (v : Value) : Checked String := do
  let s ← readText place v
  if isIdentifier s.toList then return s else complain place (.badIdentifier s)

def readModule (place : List Step) (v : Value) : Checked String := do
  let s ← readText place v
  if isModuleSpecifier s.toList then return s else complain place (.badModule s)

/-- Items of which none may fail; the complaints of all are kept. -/
def readItems (place : List Step) : Nat → List Value → Checked (List String)
  | _, [] => .ok []
  | i, v :: rest =>
    match readText (place ++ [.index i]) v, readItems place (i + 1) rest with
    | .ok s, .ok ss => .ok (s :: ss)
    | .error a, .error b => .error (a ++ b)
    | .error a, .ok _ => .error a
    | .ok _, .error b => .error b

def readList (place : List Step) : Value → Checked (List String)
  | .list items => readItems place 0 items
  | _ => complain place .notList

def trueWords : List String := ["1", "on", "t", "true", "y", "yes"]

def falseWords : List String := ["0", "off", "f", "false", "n", "no"]

/-- Numbers stand for a truth value when they are zero or one; a number that is not whole is no
attempt at one. -/
def readBool (place : List Step) : Value → Checked Bool
  | .bool b => .ok b
  | .int n => if n = 0 then .ok false else if n = 1 then .ok true else complain place .notBoolText
  | .float x =>
    match x.toInt? with
    | some n => if n = 0 then .ok false else if n = 1 then .ok true else complain place .notBoolText
    | none => complain place .notBool
  | .text s =>
    let word := String.ofList (s.toList.map Char.toLower)
    if trueWords.contains word then .ok true
    else if falseWords.contains word then .ok false
    else complain place .notBoolText
  | _ => complain place .notBool

/-- What has been read so far, with all complaints. -/
structure Draft where
  settings : Settings := {}
  complaints : List Complaint := []

/-- Takes a field over if it can be read. -/
def Draft.take {α : Type} (d : Draft) (checked : Checked α) (set : Settings → α → Settings) :
    Draft :=
  match checked with
  | .ok a => { d with settings := set d.settings a }
  | .error cs => { d with complaints := d.complaints ++ cs }

def Draft.field (d : Draft) (name : String) (v : Value) : Draft :=
  let place := [Step.key name]
  match name with
  | "call_name" => d.take (readIdentifier place v) fun s x => { s with callName := x }
  | "call_module" => d.take (readModule place v) fun s x => { s with callModule := x }
  | "start_name" => d.take (readIdentifier place v) fun s x => { s with startName := x }
  | "start_module" => d.take (readModule place v) fun s x => { s with startModule := x }
  | "sleep_name" => d.take (readIdentifier place v) fun s x => { s with sleepName := x }
  | "sleep_module" => d.take (readModule place v) fun s x => { s with sleepModule := x }
  | "scan_dirs" => d.take (readList place v) fun s x => { s with scanDirs := x }
  | "exclude" => d.take (readList place v) fun s x => { s with exclude := x }
  | "nested_gitignore" => d.take (readBool place v) fun s x => { s with nestedGitignore := x }
  | _ => d.take (complain place .unknownField) fun s (_ : Unit) => s

/-- The settings that a value describes; fields that it leaves out have their defaults. -/
def ofValue : Value → Except (List Complaint) Settings
  | .record fields =>
    let draft : Draft := fields.foldl (fun (d : Draft) f => d.field f.1 f.2) {}
    if draft.complaints.isEmpty then .ok draft.settings
    else .error (Complaint.sort draft.complaints)
  | _ => complain [] .notRecord

end Settings

end CronWrap
