import CronWrap.Proofs.Conversion.EditOrder
import CronWrap.Proofs.Conversion.Pieces

/-! What becomes of one import when the scheduling call is taken out of it: the text that is put in
its place, and the range that goes with a statement of which nothing is left. -/
namespace CronWrap.Module

open Syntax
open Edit (between)

variable (m : Module) (settings : Settings)

/-- The conversion takes the scheduling call out of an import: every call that was found is
converted, and the import lists the local name of the call. -/
def LosesCall (i : Node) : Prop :=
  (m.convertedCalls settings.callName).length = (m.scheduleCalls settings.callName).length ∧
    m.Lists settings.callName settings.callModule i

instance (i : Node) : Decidable (m.LosesCall settings i) :=
  inferInstanceAs (Decidable (_ ∧ _ ∧ ∃ s ∈ _, _))

/-- Nothing is left of an import without the scheduling call. -/
def Goes (i : Node) : Prop :=
  m.LosesCall settings i ∧ m.others settings.callName i = [] ∧ defaultImport? i = none

instance (i : Node) : Decidable (m.Goes settings i) :=
  inferInstanceAs (Decidable (_ ∧ _ = [] ∧ (_ : Option Node) = none))

/-- What is put in place of an import. -/
inductive Rewritten (i : Node) : Edit → Prop
  | kept (h : ¬ m.LosesCall settings i) : Rewritten i ⟨i.start, i.stop, i.chars m.source⟩
  | others {named : Node} (h : m.LosesCall settings i) (hnamed : named ∈ namedImports? i)
      (hothers : m.others settings.callName i ≠ []) :
      Rewritten i ⟨i.start, i.stop, between m.source i.start named.start ++
        m.listText (m.others settings.callName i) ++ between m.source named.stop i.stop⟩
  | default {single named : Node} (h : m.LosesCall settings i) (hnamed : named ∈ namedImports? i)
      (hothers : m.others settings.callName i = []) (hsingle : single ∈ defaultImport? i) :
      Rewritten i ⟨i.start, i.stop,
        between m.source i.start single.stop ++ between m.source named.stop i.stop⟩
  | gone {trail : List Char} (h : m.Goes settings i)
      (htrail : IsTrail (m.source.drop i.stop) trail) :
      Rewritten i ⟨i.start, i.stop + trail.length, []⟩

/-- How an import loses the scheduling call. -/
def loss (i : Node) : Removal :=
  if (m.convertedCalls settings.callName).length = (m.scheduleCalls settings.callName).length then
    m.removal settings.callName settings.callModule i
  else .nothing

/-- Imports, each with how it loses the scheduling call. -/
def losses (is : List Node) : List (Node × Removal) := is.map fun i => (i, m.loss settings i)

theorem removals_eq :
    m.removals settings ((m.convertedCalls settings.callName).length =
      (m.scheduleCalls settings.callName).length) = m.losses settings m.imports := by
  simp only [removals, losses, loss, decide_eq_true_eq]

theorem loss_cases (i : Node) :
    (¬ m.LosesCall settings i ∧ m.loss settings i = .nothing) ∨
      m.LosesCall settings i ∧ ∃ named ∈ namedImports? i,
        (m.others settings.callName i ≠ [] ∧ m.loss settings i =
          .specifiers ⟨named.start, named.stop, m.listText (m.others settings.callName i)⟩) ∨
        (m.others settings.callName i = [] ∧ ∃ single ∈ defaultImport? i,
          m.loss settings i = .specifiers ⟨single.stop, named.stop, []⟩) ∨
        (m.others settings.callName i = [] ∧ defaultImport? i = none ∧
          m.loss settings i = .statement ⟨i.start, removalEnd m.source i.stop, []⟩) := by
  unfold loss LosesCall
  by_cases hall : (m.convertedCalls settings.callName).length =
      (m.scheduleCalls settings.callName).length
  · simpa only [hall, if_true, true_and] using
      m.removal_cases settings.callName settings.callModule i
  · exact .inl ⟨fun h => hall h.1, if_neg hall⟩

theorem goes_iff_loss {i : Node} :
    m.Goes settings i ↔ ∃ e, m.loss settings i = .statement e := by
  rcases m.loss_cases settings i with
    ⟨hkept, h⟩ | ⟨hloses, named, -, ⟨hne, h⟩ | ⟨-, single, hsingle, h⟩ | ⟨hnil, hnone, h⟩⟩
  · simp [Goes, hkept, h]
  · simp [Goes, hne, h]
  · simp [Goes, Option.mem_def.mp hsingle, h]
  · simp [Goes, hloses, hnil, hnone, h]

/-- The range of an import, with the edit by which it loses a name. -/
def Removal.piece (source : List Char) (i : Node) : Removal → Edit.Piece
  | .nothing => .untouched source i.start i.stop
  | .specifiers e => .around source i.start i.stop e
  | .statement e => .single e

theorem Removal.parts_piece (source : List Char) (i : Node) (r : Removal) :
    (r.piece source i).parts = r.edit?.toList := by
  cases r <;> rfl

theorem rewritten_piece_loss (i : Node) :
    m.Rewritten settings i ((m.loss settings i).piece m.source i).whole := by
  rcases m.loss_cases settings i with
    ⟨hkept, h⟩ | ⟨hloses, named, hnamed, ⟨hne, h⟩ | ⟨hnil, single, hsingle, h⟩ | ⟨hnil, hnone, h⟩⟩
  · rw [h]
    exact .kept hkept
  · rw [h]
    exact .others hloses hnamed hne
  · have hrewritten := Rewritten.default hloses hnamed hnil hsingle
    rw [h]
    simpa [Removal.piece, Edit.Piece.around] using hrewritten
  · obtain ⟨trail, htrail, hend⟩ := exists_trail m.source i.stop
    rw [h, hend]
    exact .gone ⟨hloses, hnil, hnone⟩ htrail

namespace IsOrderly

variable {m settings} (hm : m.IsOrderly) (hname : settings.callName ≠ "") {i : Node}
  (hi : i ∈ m.imports)
include hm hname hi

theorem loss_bounds :
    (∀ e, m.loss settings i = .specifiers e →
      i.start ≤ e.start ∧ e.start < e.stop ∧ e.stop ≤ i.stop) ∧
    ∀ e, m.loss settings i = .statement e →
      e.start = i.start ∧ e.start < e.stop ∧ e.stop = removalEnd m.source i.stop := by
  have hmem : (i, m.loss settings i) ∈ m.removals settings
      ((m.convertedCalls settings.callName).length =
        (m.scheduleCalls settings.callName).length) := by
    rw [removals_eq]
    exact List.mem_map.mpr ⟨i, hi, rfl⟩
  exact (hm.removals_bounds hname hmem).2

theorem isMade_piece_loss : ((m.loss settings i).piece m.source i).IsMade m.source := by
  obtain ⟨hspecifiers, hstatement⟩ := hm.loss_bounds hname hi
  have hle := (hm.import_bounds hi i.self_mem_nodes).2.1
  cases h : m.loss settings i with
  | nothing => exact Edit.Piece.isMade_untouched hle
  | specifiers e =>
    obtain ⟨hlo, hlt, hhi⟩ := hspecifiers e h
    exact Edit.Piece.isMade_around hlo hlt.le hhi
  | statement e => exact Edit.Piece.isMade_single (hstatement e h).2.1.le

/-- A piece begins with its import, and reaches beyond it only if the import goes. -/
theorem piece_loss_bounds :
    let p := (m.loss settings i).piece m.source i
    p.whole.start = i.start ∧ p.whole.stop ≤ removalEnd m.source i.stop ∧
      (¬ m.Goes settings i → p.whole.stop = i.stop) := by
  have hend := le_removalEnd m.source i.stop
  simp only [goes_iff_loss]
  cases h : m.loss settings i with
  | nothing => exact ⟨rfl, hend, fun _ => rfl⟩
  | specifiers e => exact ⟨rfl, hend, fun _ => rfl⟩
  | statement e =>
    obtain ⟨hstart, -, hstop⟩ := (hm.loss_bounds hname hi).2 e h
    exact ⟨hstart, hstop.le, fun hstays => absurd ⟨e, rfl⟩ hstays⟩

end IsOrderly

end CronWrap.Module
