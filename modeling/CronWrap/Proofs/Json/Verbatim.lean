import CronWrap.Proofs.Json.Parts

/-! Taking the comments out of any text: its strings are copied as they are, and no comment is left
or comes about by what was taken out, so that doing it again changes nothing. -/
namespace CronWrap.Json

/-- What is left of a part. -/
def Part.kept : Part → List Part
  | .plain c => [.plain c]
  | .literal cs => [.literal cs]
  | .line _ => []
  | .block _ => [.plain ' ']

def kept (ps : List Part) : List Part := ps.flatMap Part.kept

/-- The strings among the parts, with their quotes. -/
def literals (ps : List Part) : List (List Char) :=
  ps.filterMap fun
    | .literal cs => some cs
    | _ => none

@[simp] theorem kept_nil : kept [] = [] := rfl

@[simp] theorem kept_cons (p : Part) (ps : List Part) : kept (p :: ps) = p.kept ++ kept ps := rfl

variable {cs rest : List Char} {c : Char} {p : Part} {ps : List Part}

theorem literals_kept (ps : List Part) : literals (kept ps) = literals ps := by
  induction ps with
  | nil => rfl
  | cons p ps ih => cases p <;> simpa [literals, Part.kept] using ih

theorem kept_kept (ps : List Part) : kept (kept ps) = kept ps := by
  induction ps with
  | nil => rfl
  | cons p ps ih => cases p <;> simp [Part.kept, ih]

/-! ## What stripping makes of a part -/

@[simp] theorem stripFrom_nil (place : Place) : stripFrom place [] = [] := by cases place <;> rfl

theorem stripFrom_code_plain (hq : c ≠ '"') (h : ¬ OpensComment (c :: cs)) :
    stripFrom .code (c :: cs) = c :: stripFrom .code cs := by
  rw [stripFrom.eq_def]
  split <;> simp_all

theorem stripFrom_string_cut (h : IsCutBody cs) : stripFrom .string cs = cs := by
  induction h with
  | nil => rfl
  | backslash => rfl
  | char hq hslash _ ih => rw [stripFrom_string_cons, if_neg hslash, if_neg hq, ih]
  | escape c _ ih => rw [stripFrom_string_cons, if_pos rfl, stripFrom_escape_cons, ih]

theorem stripFrom_blockComment_eq_nil (h : ¬ ['*', '/'] <:+: cs) :
    stripFrom .blockComment cs = [] := by
  induction cs with
  | nil => rfl
  | cons c cs ih =>
    rw [stripFrom_blockComment_cons, ih (not_infix_of_cons h)]
    rintro ⟨rfl, hhead⟩
    obtain ⟨cs, rfl⟩ := List.head?_eq_some_iff.mp hhead
    exact h ⟨[], cs, rfl⟩

theorem Part.Fits.stripFrom_code (h : p.Fits rest) :
    stripFrom .code (p.text ++ rest) = joined p.kept ++ stripFrom .code rest := by
  cases h with
  | plain hq hopen => exact stripFrom_code_plain hq hopen
  | literal rest hbody => simpa [text, kept] using @stripFrom_code_string rest _ hbody
  | @cutLiteral body hcut =>
    have hstrip : stripFrom .code ('"' :: body) = '"' :: body :=
      congrArg ('"' :: ·) (stripFrom_string_cut hcut)
    simpa [text, kept] using hstrip
  | @line body _ hbody hrest =>
    cases rest with
    | nil =>
      have hstrip : stripFrom .code ('/' :: '/' :: body) = [] := stripFrom_lineComment_eq_nil hbody
      simpa [text, kept] using hstrip
    | cons c rest =>
      obtain rfl := hrest c rfl
      rw [stripFrom_code_cons (by decide) (by decide)]
      exact stripFrom_lineComment hbody
  | block rest hbody => simpa [text, kept] using @stripFrom_code_block rest _ hbody
  | @cutBlock body hbody =>
    have hstrip : stripFrom .code ('/' :: '*' :: body) = [' '] :=
      congrArg (' ' :: ·) (stripFrom_blockComment_eq_nil hbody)
    simpa [text, kept] using hstrip

/-- Stripping goes part by part. -/
theorem Reads.stripComments_eq (h : Reads cs ps) : stripComments cs = joined (kept ps) := by
  induction h with
  | nil => rfl
  | cons hfits _ ih =>
    rw [stripComments, hfits.stripFrom_code, kept_cons, joined_append, ← ih]
    rfl

/-! ## What is left has the same reading -/

/-- Where no slash or asterisk came next, none comes next without the comments. -/
theorem Reads.head_kept (h : Reads cs ps) (hhead : ∀ c ∈ cs.head?, ¬ (c = '/' ∨ c = '*')) :
    ∀ c ∈ (joined (kept ps)).head?, ¬ (c = '/' ∨ c = '*') := by
  cases h with
  | nil => exact hhead
  | cons hfits _ =>
    cases hfits with
    | plain => exact hhead
    | literal | cutLiteral => simp [Part.kept, Part.text]
    | line | block | cutBlock => exact absurd (.inl rfl) (hhead '/' rfl)

theorem Reads.kept (h : Reads cs ps) : Reads (joined (kept ps)) (kept ps) := by
  induction h with
  | nil => exact .nil
  | cons hfits h ih =>
    cases hfits with
    | plain hq hopen =>
      refine .cons (.plain hq fun hopen' => ?_) ih
      rw [opensComment_cons] at hopen hopen'
      obtain ⟨hslash, d, hd, hmark⟩ := hopen'
      have hhead : ∀ d ∈ List.head? _, ¬ (d = '/' ∨ d = '*') := fun d hd hmark =>
        hopen ⟨hslash, d, hd, hmark⟩
      exact h.head_kept hhead d hd hmark
    | literal _ hbody => exact .cons (.literal _ hbody) ih
    | cutLiteral hcut =>
      obtain rfl := h.unique .nil
      exact .cons (.cutLiteral hcut) .nil
    | line => exact ih
    | block | cutBlock => exact .cons (.plain (by decide) (by simp [opensComment_cons])) ih

/-! ## Where comments seem to open -/

def Part.isComment : Part → Bool
  | .plain _ => false
  | .literal _ => false
  | .line _ => true
  | .block _ => true

theorem isComment_of_mem_kept (h : p ∈ kept ps) : p.isComment = false := by
  obtain ⟨q, -, hp⟩ := List.mem_flatMap.mp h
  cases q <;> simp_all [Part.kept, Part.isComment]

/-- What looks like a comment from inside of a part that is none, or from its start, is text of a
string. The closing quote keeps the two characters of the mark together. -/
theorem Part.Fits.opens_in_literal (h : p.Fits rest) (hp : p.isComment = false)
    {before outer : List Char} (htext : p.text = before ++ outer) (hne : outer ≠ [])
    (hopen : OpensComment (outer ++ rest)) :
    p = .literal (before ++ outer) ∧ OpensComment outer := by
  obtain ⟨d, outer, rfl⟩ := List.exists_cons_of_ne_nil hne
  cases h with
  | plain _ hnot =>
    cases before with
    | nil =>
      obtain ⟨rfl, rfl⟩ : _ = d ∧ [] = outer := by simpa [text] using htext
      exact absurd hopen hnot
    | cons => simp [text] at htext
  | literal _ hbody =>
    refine ⟨congrArg Part.literal htext, ?_⟩
    cases outer with
    | nil =>
      obtain rfl : '"' = d := by simpa using (List.append_inj' htext rfl).2
      exact absurd (opensComment_cons.mp hopen).1 (by decide)
    | cons e outer => simpa using hopen
  | cutLiteral => exact ⟨congrArg Part.literal htext, by simpa using hopen⟩
  | line | block | cutBlock => simp [isComment] at hp

/-- Without comments among the parts, what looks like one stands in a string. -/
theorem Reads.exists_literal (h : Reads cs ps) (hps : ∀ p ∈ ps, p.isComment = false)
    {before after : List Char} (hcs : cs = before ++ after) (hopen : OpensComment after) :
    ∃ qs inner outer rs, ps = qs ++ .literal (inner ++ outer) :: rs ∧ OpensComment outer ∧
      before = joined qs ++ inner ∧ after = outer ++ joined rs := by
  induction h generalizing before with
  | nil =>
    rw [(List.append_eq_nil_iff.mp hcs.symm).2] at hopen
    exact absurd hopen not_opensComment_nil
  | @cons p cs ps hfits h ih =>
    have behind : ∀ as, before = p.text ++ as → cs = as ++ after →
        ∃ qs inner outer rs, p :: ps = qs ++ .literal (inner ++ outer) :: rs ∧
          OpensComment outer ∧ before = joined qs ++ inner ∧ after = outer ++ joined rs := by
      intro as hbefore hcs
      obtain ⟨qs, inner, outer, rs, rfl, hin, has, hafter⟩ :=
        ih (fun q hq => hps q (List.mem_cons_of_mem p hq)) hcs
      exact ⟨p :: qs, inner, outer, rs, rfl, hin, by simp [hbefore, has], hafter⟩
    rcases List.append_eq_append_iff.mp hcs with ⟨as, hbefore, hcs⟩ | ⟨outer, htext, hafter⟩
    · exact behind as hbefore hcs
    · by_cases hne : outer = []
      · subst hne
        exact behind [] (by simpa using htext.symm) (by simpa using hafter.symm)
      · obtain ⟨hp, hin⟩ := hfits.opens_in_literal (hps p List.mem_cons_self) htext hne (hafter ▸ hopen)
        exact ⟨[], before, outer, ps, by rw [hp]; rfl, hin, rfl, by rw [hafter, h.joined_eq]⟩

/-- Whatever the text, it has one reading. Without its comments it is read as the parts that are
left, so that its strings are the same, in the same order; a mark of a comment that is left stands in
one of them; and there is nothing more to take out. -/
theorem stripComments_keeps_literals (t : List Char) :
    ∃ ps, (∀ qs, Reads t qs ↔ qs = ps) ∧
      stripComments t = joined (kept ps) ∧
      (∀ qs, Reads (stripComments t) qs ↔ qs = kept ps) ∧
      literals (kept ps) = literals ps ∧
      (∀ before after, stripComments t = before ++ after → OpensComment after →
        ∃ qs inner outer rs, kept ps = qs ++ .literal (inner ++ outer) :: rs ∧
          OpensComment outer ∧ before = joined qs ++ inner ∧ after = outer ++ joined rs) ∧
      stripComments (stripComments t) = stripComments t := by
  obtain ⟨ps, hps⟩ := exists_reads t
  have hstrip := hps.stripComments_eq
  have hkept : Reads (stripComments t) (kept ps) := hstrip ▸ hps.kept
  refine ⟨ps, fun qs => ⟨fun h => h.unique hps, fun h => h ▸ hps⟩, hstrip,
    fun qs => ⟨fun h => h.unique hkept, fun h => h ▸ hkept⟩, literals_kept ps, ?_, ?_⟩
  · intro before after hcut hopen
    exact hkept.exists_literal (fun p => isComment_of_mem_kept) hcut hopen
  · rw [hkept.stripComments_eq, kept_kept, hstrip]

end CronWrap.Json
