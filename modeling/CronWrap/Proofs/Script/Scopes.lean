import CronWrap.Wrapper.Render

/-! Scripts with their scopes: which names a module binds, and what is bound around each place where
a name is looked up. -/
namespace CronWrap

namespace Script

/-- Where a name is meant to be bound: in the function around it, or by the module. -/
inductive Home
  | function
  | module
  deriving DecidableEq, Repr

/-- A part of an expression: text in which no bound value is looked up, or the name of one. -/
inductive Part
  | plain (s : String)
  | name (home : Home) (x : String)
  deriving DecidableEq, Repr

abbrev Phrase := List Part

/-- What a constant is bound to: one name, or the fields of a record with their defaults. -/
inductive Binder
  | name (x : String)
  | fields (xs : List (String × String))
  deriving DecidableEq, Repr

/-- The statements that bind names or have inner scopes; any other is a line. -/
inductive Statement
  | blank
  | line (e : Phrase)
  | constant (b : Binder) (value : Phrase)
  | block (head : Phrase) (body : List Statement)
  | attempt (body : List Statement) (caught : String) (handler : List Statement)
  deriving Repr

structure Function where
  exported : Bool
  name : String
  /-- The parameters with their types. -/
  params : List (String × String)
  /-- What is written behind the parameters. -/
  result : String
  body : List Statement
  deriving Repr

/-- What stands at the level of the module. Comments and types bind no value. -/
inductive Item
  | verbatim (lines : List String)
  | importing (name : String) (imported : Option String) (path : String)
  | function (f : Function)
  deriving Repr

end Script

structure Script where
  items : List Script.Item
  deriving Repr

namespace Script

/-! ## Text -/

def Part.text : Part → String
  | .plain s => s
  | .name _ x => x

def Phrase.text (e : Phrase) : String := String.join (e.map Part.text)

def Binder.text : Binder → String
  | .name x => x
  | .fields xs => "\x7b " ++ ", ".intercalate (xs.map fun x => x.1 ++ x.2) ++ " \x7d"

def indent (depth : Nat) : String := String.join (List.replicate depth "    ")

mutual

def Statement.lines (depth : Nat) : Statement → List String
  | .blank => [""]
  | .line e => [indent depth ++ Phrase.text e]
  | .constant b value => [indent depth ++ "const " ++ b.text ++ " = " ++ Phrase.text value]
  | .block head body =>
    (indent depth ++ Phrase.text head ++ " \x7b") :: linesIn (depth + 1) body ++
      [indent depth ++ "\x7d"]
  | .attempt body caught handler =>
    (indent depth ++ "try \x7b") :: linesIn (depth + 1) body ++
      (indent depth ++ "\x7d catch (" ++ caught ++ ") \x7b") :: linesIn (depth + 1) handler ++
      [indent depth ++ "\x7d"]

def linesIn (depth : Nat) : List Statement → List String
  | [] => []
  | s :: rest => s.lines depth ++ linesIn depth rest

end

def Function.head (f : Function) : String :=
  (if f.exported then "export " else "") ++ "async function " ++ f.name ++ "(" ++
    ", ".intercalate (f.params.map fun p => p.1 ++ ": " ++ p.2) ++ ")" ++ f.result ++ " \x7b"

def Item.lines : Item → List String
  | .verbatim ls => ls
  | .importing name imported path => [importLine name imported path]
  | .function f => f.head :: linesIn 1 f.body ++ ["\x7d"]

def lines (script : Script) : List String := script.items.flatMap Item.lines

/-! ## Scopes -/

def Binder.names : Binder → List String
  | .name x => [x]
  | .fields xs => xs.map (·.1)

/-- The names that a statement binds in the block that it stands in. -/
def Statement.declared : Statement → List String
  | .constant b _ => b.names
  | _ => []

def declaredIn (body : List Statement) : List String := body.flatMap Statement.declared

/-- A name that is looked up, with what the scopes around it bind, up to the function's. -/
structure Reference where
  home : Home
  name : String
  locals : List String
  deriving DecidableEq, Repr

def Phrase.references (locals : List String) (e : Phrase) : List Reference :=
  e.filterMap fun
    | .plain _ => none
    | .name home x => some ⟨home, x, locals⟩

mutual

/-- The names that a statement looks up. A block is a scope of its own, in which its names are bound
from its start on; the name of what was caught is bound in the handler. -/
def Statement.references (locals : List String) : Statement → List Reference
  | .blank => []
  | .line e => Phrase.references locals e
  | .constant _ value => Phrase.references locals value
  | .block head body =>
    Phrase.references locals head ++ referencesIn (declaredIn body ++ locals) body
  | .attempt body caught handler =>
    referencesIn (declaredIn body ++ locals) body ++
      referencesIn (caught :: declaredIn handler ++ locals) handler

def referencesIn (locals : List String) : List Statement → List Reference
  | [] => []
  | s :: rest => s.references locals ++ referencesIn locals rest

end

def Item.bound : Item → List String
  | .verbatim _ => []
  | .importing name _ _ => [name]
  | .function f => [f.name]

def Item.references : Item → List Reference
  | .function f => referencesIn (f.params.map (·.1) ++ declaredIn f.body) f.body
  | _ => []

/-- The values that a module binds. -/
def bound (script : Script) : List String := script.items.flatMap Item.bound

def references (script : Script) : List Reference := script.items.flatMap Item.references

/-- A name is found where it is meant to be: nothing in the function hides what the module binds. -/
def Reference.Reaches (bound : List String) (r : Reference) : Prop :=
  match r.home with
  | .function => r.name ∈ r.locals
  | .module => r.name ∉ r.locals ∧ r.name ∈ bound

instance (bound : List String) : (r : Reference) → Decidable (r.Reaches bound)
  | ⟨.function, x, locals⟩ => inferInstanceAs (Decidable (x ∈ locals))
  | ⟨.module, x, locals⟩ => inferInstanceAs (Decidable (x ∉ locals ∧ x ∈ bound))

/-- Every name that is looked up is found where it is meant to be. -/
def ReachesAll (script : Script) : Prop := ∀ r ∈ script.references, r.Reaches script.bound

instance (script : Script) : Decidable script.ReachesAll :=
  inferInstanceAs (Decidable (∀ r ∈ script.references, r.Reaches script.bound))

end Script

end CronWrap
