import CronWrap.Data.Binary64

/-! Values that a data file can hold. -/
namespace CronWrap

/-- A value of a JSON or TOML file; of a date or time it is only known that it is one. -/
inductive Value
  | null
  | bool (b : Bool)
  | int (n : Int)
  | float (x : Binary64)
  | text (s : String)
  | list (items : List Value)
  | record (fields : List (String × Value))
  | moment
  deriving Repr, Inhabited

/-- Sets a field: a new one goes to the end, and one that is there keeps its place. -/
def setField {α : Type} (fields : List (String × α)) (key : String) (value : α) :
    List (String × α) :=
  match fields with
  | [] => [(key, value)]
  | (k, v) :: rest => if k = key then (k, value) :: rest else (k, v) :: setField rest key value

/-- The fields in the order in which their keys first occur, each with its last value. -/
def collectFields {α : Type} (fields : List (String × α)) : List (String × α) :=
  fields.foldl (fun kept f => setField kept f.1 f.2) []

@[simp] theorem lookup_setField {α : Type} (fields : List (String × α)) (key k : String)
    (value : α) :
    (setField fields key value).lookup k = if k = key then some value else fields.lookup k := by
  fun_induction setField fields key value with
  | case1 =>
    by_cases h : k = key
    · simp [h]
    · simp [List.lookup_cons, beq_eq_false_iff_ne.2 h, h]
  | case2 v rest =>
    by_cases h : k = key
    · simp [h]
    · simp [List.lookup_cons, beq_eq_false_iff_ne.2 h, h]
  | case3 l v rest hl ih =>
    by_cases h : k = l
    · simp [h, hl]
    · simp [List.lookup_cons, beq_eq_false_iff_ne.2 h, ih]

def Value.field? (v : Value) (key : String) : Option Value :=
  match v with
  | .record fields => fields.lookup key
  | _ => none

end CronWrap
