import Mathlib.Data.List.Pairwise
import CronWrap.Conversion.Edit
import CronWrap.Proofs.Text.Utf8

/-! What edits make of a text when their ranges do not meet: what they leave untouched and what they
put in, from left to right. -/
namespace CronWrap.Edit

open Text

/-- The rest of a text from `from_` on after edits that stand in order. -/
def weave (source : List Char) (from_ : Nat) : List Edit → List Char
  | [] => source.drop from_
  | e :: rest => (source.drop from_).take (e.start - from_) ++ e.text ++ weave source e.stop rest

/-- What an edit puts in is part of the text. -/
theorem text_infix_weave (source : List Char) {e : Edit} {es : List Edit} (he : e ∈ es)
    (from_ : Nat) : e.text <:+: weave source from_ es := by
  induction es generalizing from_ with
  | nil => cases he
  | cons first rest ih =>
    rw [weave]
    rcases List.mem_cons.mp he with rfl | he
    · exact ⟨_, _, rfl⟩
    · exact (ih he first.stop).trans (List.suffix_append _ _).isInfix

/-- The range of an edit is one of the text. -/
def Fits (source : List Char) (e : Edit) : Prop := e.start ≤ e.stop ∧ e.stop ≤ source.length

/-- The ranges do not meet, and one of them at least is not empty. -/
def Separate (a b : Edit) : Prop :=
  (a.stop ≤ b.start ∨ b.stop ≤ a.start) ∧ (a.start < a.stop ∨ b.start < b.stop)

theorem Separate.symm {a b : Edit} (h : Separate a b) : Separate b a := ⟨h.1.symm, h.2.symm⟩

instance : Std.Symm Separate := ⟨fun _ _ => Separate.symm⟩

theorem after_iff {a b : Edit} :
    after a b = true ↔ b.start < a.start ∨ b.start = a.start ∧ b.stop ≤ a.stop := by
  simp [after]

/-! ## Order -/

theorem pairwise_mergeSort_after {α : Type} (key : α → Edit) (l : List α) :
    (l.mergeSort fun a b => after (key a) (key b)).Pairwise
      fun a b => after (key a) (key b) = true := by
  apply List.pairwise_mergeSort
  · intro a b c hab hbc
    rw [after_iff] at *
    omega
  · intro a b
    rw [Bool.or_eq_true, after_iff, after_iff]
    omega

/-- Of two ranges that do not meet, in descending order, the second one ends before the first one
starts. -/
theorem stop_le_start {a b : Edit} (hmeet : a.stop ≤ b.start ∨ b.stop ≤ a.start)
    (ha : a.start ≤ a.stop) (hafter : after a b = true) : b.stop ≤ a.start := by
  rw [after_iff] at hafter
  omega

/-- The order of separate edits is told by their ranges. -/
theorem eq_of_after {source : List Char} {es : List Edit} (hfit : ∀ e ∈ es, e.Fits source)
    (hsep : es.Pairwise Separate) {a b : Edit} (ha : a ∈ es) (hb : b ∈ es)
    (hab : after a b = true) (hba : after b a = true) : a = b := by
  by_contra hne
  obtain ⟨hmeet, hsome⟩ := hsep.forall ha hb hne
  obtain ⟨hfa, -⟩ := hfit a ha
  obtain ⟨hfb, -⟩ := hfit b hb
  rw [after_iff] at hab hba
  omega

/-- What has ranges that do not meet can be listed from left to right. -/
theorem exists_ordered_by {α : Type} (key : α → Edit) {l : List α}
    (hle : ∀ a ∈ l, (key a).start ≤ (key a).stop)
    (hapart : l.Pairwise fun a b => (key a).stop ≤ (key b).start ∨ (key b).stop ≤ (key a).start) :
    ∃ ordered : List α, ordered.Perm l ∧
      ordered.Pairwise fun a b => (key a).stop ≤ (key b).start := by
  refine ⟨(l.mergeSort fun a b => after (key a) (key b)).reverse,
    (List.reverse_perm _).trans (List.mergeSort_perm l _), ?_⟩
  have hapart' := (List.mergeSort_perm l fun a b => after (key a) (key b)).symm.pairwise hapart
    fun h => h.symm
  rw [List.pairwise_reverse]
  refine (hapart'.and (pairwise_mergeSort_after key l)).imp_of_mem ?_
  intro a b ha _ hab
  exact stop_le_start hab.1 (hle a (List.mem_mergeSort.mp ha)) hab.2

/-- Separate edits can be listed from left to right. -/
theorem exists_ordered {source : List Char} {es : List Edit} (hfit : ∀ e ∈ es, e.Fits source)
    (hsep : es.Pairwise Separate) :
    ∃ ordered : List Edit, ordered.Perm es ∧ ordered.Pairwise fun a b => a.stop ≤ b.start :=
  exists_ordered_by (fun e => e) (fun e he => (hfit e he).1) (hsep.imp fun h => h.1)

/-- Sorting finds the one order of separate edits. -/
theorem mergeSort_eq_reverse {source : List Char} {es ordered : List Edit}
    (hfit : ∀ e ∈ es, e.Fits source) (hsep : es.Pairwise Separate) (hperm : ordered.Perm es)
    (hordered : ordered.Pairwise fun a b => a.stop ≤ b.start) :
    es.mergeSort after = ordered.reverse := by
  have hafter : ordered.reverse.Pairwise fun a b => after a b = true := by
    rw [List.pairwise_reverse]
    refine hordered.imp_of_mem ?_
    intro a b ha hb hab
    obtain ⟨hfa, -⟩ := hfit a (hperm.subset ha)
    obtain ⟨hfb, -⟩ := hfit b (hperm.subset hb)
    rw [after_iff]
    omega
  have hsame : (es.mergeSort after).Perm ordered.reverse :=
    (List.mergeSort_perm es after).trans (hperm.symm.trans (List.reverse_perm _).symm)
  refine hsame.eq_of_pairwise ?_ (pairwise_mergeSort_after (fun e => e) es) hafter
  intro a b ha hb
  exact eq_of_after hfit hsep (List.mem_mergeSort.mp ha) (hperm.subset (List.mem_reverse.mp hb))

/-! ## Application -/

/-- Edits from the last to the first leave the text before them as it is, and weave the rest. -/
theorem foldr_apply {source : List Char} {ordered : List Edit}
    (hfit : ∀ e ∈ ordered, e.Fits source)
    (hordered : ordered.Pairwise fun a b => a.stop ≤ b.start) {from_ : Nat}
    (hfrom : ∀ e ∈ ordered, from_ ≤ e.start) :
    ordered.foldr (fun e cs => apply cs e) source =
      source.take from_ ++ weave source from_ ordered := by
  induction ordered generalizing from_ with
  | nil => simp [weave]
  | cons e rest ih =>
    obtain ⟨hnext, hrest⟩ := List.pairwise_cons.mp hordered
    obtain ⟨hle, hlength⟩ := hfit e List.mem_cons_self
    have hstart : from_ ≤ e.start := hfrom e List.mem_cons_self
    have htail := ih (fun b hb => hfit b (List.mem_cons_of_mem e hb)) hrest hnext
    have hcut : (source.take e.stop).length = e.stop := List.length_take_of_le hlength
    have hbefore : source.take e.start =
        source.take from_ ++ (source.drop from_).take (e.start - from_) := by
      rw [← List.take_add, Nat.add_sub_cancel' hstart]
    rw [List.foldr_cons, htail, apply, List.take_append_of_le_length (by omega), List.take_take,
      Nat.min_eq_left hle, List.drop_left' hcut, hbefore, weave]
    simp only [List.append_assoc]

/-! ## Bytes -/

/-- The edit in the encoded text, where its range is told by the bytes before its ends. -/
def applyBytes (source : List Char) (buffer : Bytes) (e : Edit) : Bytes :=
  buffer.take (utf8Length (source.take e.start)) ++ encodeUtf8 e.text ++
    buffer.drop (utf8Length (source.take e.stop))

def applyAllBytes (source : List Char) (edits : List Edit) : Bytes :=
  (edits.mergeSort after).foldl (applyBytes source) (encodeUtf8 source)

theorem foldr_applyBytes {source : List Char} {ordered : List Edit}
    (hfit : ∀ e ∈ ordered, e.Fits source)
    (hordered : ordered.Pairwise fun a b => a.stop ≤ b.start) :
    ordered.foldr (fun e buffer => applyBytes source buffer e) (encodeUtf8 source) =
      encodeUtf8 (ordered.foldr (fun e cs => apply cs e) source) := by
  induction ordered with
  | nil => rfl
  | cons e rest ih =>
    obtain ⟨hnext, hrest⟩ := List.pairwise_cons.mp hordered
    obtain ⟨hle, hlength⟩ := hfit e List.mem_cons_self
    have hfit' : ∀ b ∈ rest, b.Fits source := fun b hb => hfit b (List.mem_cons_of_mem e hb)
    have htail := foldr_apply hfit' hrest hnext
    have hcut : (source.take e.stop).length = e.stop := List.length_take_of_le hlength
    -- The text up to the end of the edit is cut at its start.
    have hbefore : source.take e.stop =
        source.take e.start ++ (source.drop e.start).take (e.stop - e.start) := by
      rw [← List.take_add, Nat.add_sub_cancel' hle]
    rw [List.foldr_cons, List.foldr_cons, ih hfit' hrest, htail, apply, applyBytes,
      List.take_append_of_le_length (by omega), List.take_take, Nat.min_eq_left hle,
      List.drop_left' hcut]
    have hstart : (encodeUtf8 (source.take e.stop ++ weave source e.stop rest)).take
        (utf8Length (source.take e.start)) = encodeUtf8 (source.take e.start) := by
      rw [hbefore, List.append_assoc, encodeUtf8_append]
      exact List.take_left' rfl
    have hstop : (encodeUtf8 (source.take e.stop ++ weave source e.stop rest)).drop
        (utf8Length (source.take e.stop)) = encodeUtf8 (weave source e.stop rest) := by
      rw [encodeUtf8_append]
      exact List.drop_left' rfl
    rw [hstart, hstop, encodeUtf8_append, encodeUtf8_append]

/-! ## The result -/

/-- However separate edits are listed, the result is the text woven from left to right, for bytes as
for characters. -/
theorem applyAll_eq_weave {source : List Char} {es ordered : List Edit}
    (hfit : ∀ e ∈ es, e.Fits source) (hsep : es.Pairwise Separate) (hperm : ordered.Perm es)
    (hordered : ordered.Pairwise fun a b => a.stop ≤ b.start) :
    applyAll source es = weave source 0 ordered ∧
      decodeUtf8 (applyAllBytes source es) = .ok (weave source 0 ordered) := by
  have hfit' : ∀ e ∈ ordered, e.Fits source := fun e he => hfit e (hperm.subset he)
  have hweave : ordered.foldr (fun e cs => apply cs e) source = weave source 0 ordered := by
    rw [foldr_apply hfit' hordered fun e _ => Nat.zero_le e.start, List.take_zero,
      List.nil_append]
  constructor
  · rw [applyAll, mergeSort_eq_reverse hfit hsep hperm hordered, List.foldl_reverse, hweave]
  · rw [applyAllBytes, mergeSort_eq_reverse hfit hsep hperm hordered, List.foldl_reverse,
      foldr_applyBytes hfit' hordered, hweave, decodeUtf8_encodeUtf8]

end CronWrap.Edit
