/-! Edits of a text, given by the places of what they replace. -/
namespace CronWrap

/-- The characters from `start` up to `stop` give way to `text`. -/
structure Edit where
  start : Nat
  stop : Nat
  text : List Char
  deriving DecidableEq, Repr

namespace Edit

def apply (source : List Char) (e : Edit) : List Char :=
  source.take e.start ++ e.text ++ source.drop e.stop

/-- Whether `a` comes after `b`, or in the same place. -/
def after (a b : Edit) : Bool := b.start < a.start || (b.start = a.start && b.stop ≤ a.stop)

/-- Carries out edits that do not overlap, the last one first, so that no edit moves the place of
another. -/
def applyAll (source : List Char) (edits : List Edit) : List Char :=
  (edits.mergeSort after).foldl apply source

end Edit

end CronWrap
