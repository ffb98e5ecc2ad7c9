import CronWrap.Proofs.Conversion.Weave

/-! Edits that lie in ranges of a text, put together to one edit of each range. -/
namespace CronWrap.Edit

/-- The characters from one place up to another. -/
def between (source : List Char) (lo hi : Nat) : List Char := (source.drop lo).take (hi - lo)

variable {source : List Char} {lo mid hi : Nat} {es rest : List Edit}

theorem between_append (h : lo ≤ mid) (h' : mid ≤ hi) :
    between source lo mid ++ between source mid hi = between source lo hi := by
  have hsum : hi - lo = (mid - lo) + (hi - mid) := by omega
  rw [between, between, between, hsum, List.take_add, List.drop_drop, Nat.add_sub_cancel' h]

theorem drop_eq_between (h : lo ≤ hi) :
    source.drop lo = between source lo hi ++ source.drop hi := by
  have hdrop : source.drop hi = (source.drop lo).drop (hi - lo) := by
    rw [List.drop_drop, Nat.add_sub_cancel' h]
  rw [between, hdrop, List.take_append_drop]

theorem drop_take (source : List Char) (lo hi : Nat) :
    (source.take hi).drop lo = between source lo hi := List.drop_take

theorem between_take (h : mid ≤ hi) (lo : Nat) :
    between (source.take hi) lo mid = between source lo mid := by
  rw [between, List.drop_take, List.take_take, Nat.min_eq_left (by omega), between]

/-- Up to the first edit the text is as it was. -/
theorem weave_skip (h : lo ≤ hi) (hes : ∀ e ∈ es, hi ≤ e.start) :
    weave source lo es = between source lo hi ++ weave source hi es := by
  cases es with
  | nil => exact drop_eq_between h
  | cons e es =>
    have he := hes e List.mem_cons_self
    rw [weave, weave, ← between, ← between, ← between_append h he]
    simp only [List.append_assoc]

/-- What is woven from a place on is woven up to a place before the other edits, and from there on. -/
theorem weave_append (h : lo ≤ hi) (hwithin : ∀ e ∈ es, lo ≤ e.start ∧ e.start ≤ e.stop ∧ e.stop ≤ hi)
    (hordered : es.Pairwise fun a b => a.stop ≤ b.start) (hrest : ∀ e ∈ rest, hi ≤ e.start) :
    weave source lo (es ++ rest) = weave (source.take hi) lo es ++ weave source hi rest := by
  induction es generalizing lo with
  | nil =>
    rw [List.nil_append, weave_skip h hrest, weave, drop_take]
  | cons e es ih =>
    obtain ⟨hnext, hordered⟩ := List.pairwise_cons.mp hordered
    obtain ⟨hlo, hle, hhi⟩ := hwithin e List.mem_cons_self
    have htail := ih hhi (fun b hb => ⟨hnext b hb, (hwithin b (List.mem_cons_of_mem e hb)).2⟩) hordered
    rw [List.cons_append, weave, weave, htail, ← between, ← between, between_take (by omega)]
    simp only [List.append_assoc]

/-- A range of a text, as one edit of it and as the edits that lie in it. -/
structure Piece where
  whole : Edit
  parts : List Edit

/-- The one edit puts in what the edits in the range make of it. -/
structure Piece.IsMade (source : List Char) (p : Piece) : Prop where
  fits : p.whole.start ≤ p.whole.stop
  within : ∀ e ∈ p.parts, p.whole.start ≤ e.start ∧ e.start ≤ e.stop ∧ e.stop ≤ p.whole.stop
  ordered : p.parts.Pairwise fun a b => a.stop ≤ b.start
  text : p.whole.text = weave (source.take p.whole.stop) p.whole.start p.parts

/-- A range with one edit over all of it. -/
def Piece.single (e : Edit) : Piece := ⟨e, [e]⟩

theorem Piece.isMade_single {e : Edit} (h : e.start ≤ e.stop) : (single e).IsMade source where
  fits := h
  within := by simpa [single] using h
  ordered := List.pairwise_singleton _ _
  text := by simp [single, weave, List.drop_take]

/-- A range that is left alone. -/
def Piece.untouched (source : List Char) (lo hi : Nat) : Piece := ⟨⟨lo, hi, between source lo hi⟩, []⟩

theorem Piece.isMade_untouched (h : lo ≤ hi) : (untouched source lo hi).IsMade source where
  fits := h
  within := by simp [untouched]
  ordered := List.Pairwise.nil
  text := by rw [untouched, weave, drop_take]

/-- A range with an edit in it. -/
def Piece.around (source : List Char) (lo hi : Nat) (e : Edit) : Piece :=
  ⟨⟨lo, hi, between source lo e.start ++ e.text ++ between source e.stop hi⟩, [e]⟩

theorem Piece.isMade_around {e : Edit} (hlo : lo ≤ e.start) (hle : e.start ≤ e.stop)
    (hhi : e.stop ≤ hi) : (around source lo hi e).IsMade source where
  fits := by simp only [around]; omega
  within := by simpa [around] using ⟨hlo, hle, hhi⟩
  ordered := List.pairwise_singleton _ _
  text := by
    change between source lo e.start ++ e.text ++ between source e.stop hi =
      between (source.take hi) lo e.start ++ e.text ++ (source.take hi).drop e.stop
    rw [between_take (by omega), drop_take]

theorem weave_pieces {ps : List Piece} (hmade : ∀ p ∈ ps, p.IsMade source)
    (hordered : ps.Pairwise fun a b => a.whole.stop ≤ b.whole.start)
    (hlo : ∀ p ∈ ps, lo ≤ p.whole.start) :
    weave source lo (ps.flatMap (·.parts)) = weave source lo (ps.map (·.whole)) := by
  induction ps generalizing lo with
  | nil => rfl
  | cons p ps ih =>
    obtain ⟨hnext, hordered⟩ := List.pairwise_cons.mp hordered
    obtain ⟨hfits, hwithin, hparts, htext⟩ := hmade p List.mem_cons_self
    have hstart := hlo p List.mem_cons_self
    have hmade' : ∀ q ∈ ps, q.IsMade source := fun q hq => hmade q (List.mem_cons_of_mem p hq)
    have hrest : ∀ e ∈ ps.flatMap (·.parts), p.whole.stop ≤ e.start := by
      intro e he
      obtain ⟨q, hq, he⟩ := List.mem_flatMap.mp he
      exact Nat.le_trans (hnext q hq) ((hmade' q hq).within e he).1
    have hall : ∀ e ∈ p.parts ++ ps.flatMap (·.parts), p.whole.start ≤ e.start := by
      intro e he
      rcases List.mem_append.mp he with he | he
      · exact (hwithin e he).1
      · exact Nat.le_trans hfits (hrest e he)
    rw [List.flatMap_cons, List.map_cons, weave_skip hstart hall,
      weave_append hfits hwithin hparts hrest, ih hmade' hordered hnext, weave, ← htext, ← between,
      List.append_assoc]

/-- Separate edits of which each is in some range make the text that is put together from the ranges. -/
theorem exists_weave_pieces (hfit : ∀ e ∈ es, e.Fits source) (hsep : es.Pairwise Separate)
    {ps : List Piece} (hmade : ∀ p ∈ ps, p.IsMade source)
    (hapart : ps.Pairwise fun a b =>
      a.whole.stop ≤ b.whole.start ∨ b.whole.stop ≤ a.whole.start)
    (hperm : (ps.flatMap (·.parts)).Perm es) :
    ∃ ordered, ordered.Perm (ps.map (·.whole)) ∧ (ordered.Pairwise fun a b => a.stop ≤ b.start) ∧
      applyAll source es = weave source 0 ordered := by
  obtain ⟨qs, hqs, hordered⟩ := exists_ordered_by (·.whole) (fun p hp => (hmade p hp).fits) hapart
  have hmade' : ∀ p ∈ qs, p.IsMade source := fun p hp => hmade p (hqs.subset hp)
  have hparts : (qs.flatMap (·.parts)).Pairwise fun a b => a.stop ≤ b.start := by
    rw [List.pairwise_flatMap]
    refine ⟨fun p hp => (hmade' p hp).ordered, hordered.imp_of_mem ?_⟩
    intro p q hp hq hpq a ha b hb
    have hin := (hmade' p hp).within a ha
    have hin' := (hmade' q hq).within b hb
    omega
  have hweave := (applyAll_eq_weave hfit hsep ((hqs.flatMap_right _).trans hperm) hparts).1
  refine ⟨qs.map (·.whole), hqs.map _, List.pairwise_map.mpr hordered, ?_⟩
  rw [hweave, weave_pieces hmade' hordered fun _ _ => Nat.zero_le _]

end CronWrap.Edit
