import CronWrap.Text.Reader

/-! What the reading of a TOML document stops at, whether or not the document follows the grammar. -/
namespace CronWrap.Toml

open Text

/-- How far the readers go. -/
structure Limits where
  /-- The digits that a decimal integer may have. -/
  digits : Nat := 4300
  /-- The calls, one inside the other, that the stack has room for where the reading starts. -/
  calls : Nat := 990
  deriving DecidableEq, Repr

/-- Why a document is given up. -/
inductive Limit
  | digits (found allowed : Nat)
  | calls
  deriving DecidableEq, Repr

def Limit.message : Limit → String
  | digits found allowed =>
    s!"Exceeds the limit ({allowed} digits) for integer string conversion: value has {found} " ++
      "digits; use sys.set_int_max_str_digits() to increase the limit"
  | calls => "maximum recursion depth exceeded"

/-- Readers that may also be stopped; then no other reading is tried. -/
abbrev Limited := StateT (List Char) (OptionT (Except Limit))

/-- A reader that is never stopped. -/
instance : MonadLift Reader Limited := ⟨fun r cs => OptionT.mk (.ok (r cs))⟩

end CronWrap.Toml
