import Mathlib.Tactic.Common
import CronWrap.Proofs.Json.Strip

/-! What a text with comments consists of: plain characters, strings and comments. Every text, JSON
or not, has exactly one reading, since each of its parts ends where the text says so or is cut off
by the end of the text. -/
namespace CronWrap.Json

/-- A part of a text: a character outside of strings and comments, a string with its quotes, or a
comment with its marks. -/
inductive Part
  | plain (c : Char)
  | literal (cs : List Char)
  | line (cs : List Char)
  | block (cs : List Char)
  deriving DecidableEq, Repr

def Part.text : Part → List Char
  | .plain c => [c]
  | .literal cs => cs
  | .line cs => cs
  | .block cs => cs

def joined (ps : List Part) : List Char := ps.flatMap Part.text

@[simp] theorem joined_nil : joined [] = [] := rfl

@[simp] theorem joined_cons (p : Part) (ps : List Part) :
    joined (p :: ps) = p.text ++ joined ps := rfl

@[simp] theorem joined_append (ps qs : List Part) : joined (ps ++ qs) = joined ps ++ joined qs := by
  simp [joined]

/-- What stands behind the opening quote of a string that has no closing one: no bare quote, and a
backslash with nothing behind it at the end only. -/
inductive IsCutBody : List Char → Prop
  | nil : IsCutBody []
  | backslash : IsCutBody ['\\']
  | char {c : Char} {cs : List Char} : c ≠ '"' → c ≠ '\\' → IsCutBody cs → IsCutBody (c :: cs)
  | escape (c : Char) {cs : List Char} : IsCutBody cs → IsCutBody ('\\' :: c :: cs)

/-- The text starts as a comment does. -/
def OpensComment (cs : List Char) : Prop := ['/', '/'] <+: cs ∨ ['/', '*'] <+: cs

/-- The part ends where it does when this text comes next. Only at the end of the text are there
strings and block comments that do not close. -/
inductive Part.Fits : Part → List Char → Prop
  | plain {c : Char} {rest : List Char} : c ≠ '"' → ¬ OpensComment (c :: rest) →
      Fits (.plain c) rest
  | literal {body : List Char} (rest : List Char) : IsStringBody body →
      Fits (.literal ('"' :: body ++ ['"'])) rest
  | cutLiteral {body : List Char} : IsCutBody body → Fits (.literal ('"' :: body)) []
  | line {body rest : List Char} : '\n' ∉ body → (∀ c ∈ rest.head?, c = '\n') →
      Fits (.line ('/' :: '/' :: body)) rest
  | block {body : List Char} (rest : List Char) : ¬ ['*', '/'] <:+: body →
      Fits (.block ('/' :: '*' :: body ++ ['*', '/'])) rest
  | cutBlock {body : List Char} : ¬ ['*', '/'] <:+: body → Fits (.block ('/' :: '*' :: body)) []

/-- The text consists of these parts, in order. -/
inductive Reads : List Char → List Part → Prop
  | nil : Reads [] []
  | cons {p : Part} {cs : List Char} {ps : List Part} : p.Fits cs → Reads cs ps →
      Reads (p.text ++ cs) (p :: ps)

variable {cs ds rest body : List Char} {c : Char} {ps qs : List Part}

/-- The parts are all of the text. -/
theorem Reads.joined_eq (h : Reads cs ps) : joined ps = cs := by
  induction h with
  | nil => rfl
  | cons _ _ ih => rw [joined_cons, ih]

@[simp] theorem opensComment_cons_cons {d : Char} :
    OpensComment (c :: d :: cs) ↔ c = '/' ∧ (d = '/' ∨ d = '*') := by
  simp only [OpensComment, List.cons_prefix_cons, List.nil_prefix, and_true, eq_comm (a := '/'),
    eq_comm (a := '*')]
  tauto

@[simp] theorem not_opensComment_nil : ¬ OpensComment [] := by simp [OpensComment]

@[simp] theorem not_opensComment_single : ¬ OpensComment [c] := by
  simp [OpensComment, List.cons_prefix_cons]

/-- Whether a character opens a comment is a matter of the next one. -/
theorem opensComment_cons : OpensComment (c :: cs) ↔ c = '/' ∧ ∃ d ∈ cs.head?, d = '/' ∨ d = '*' := by
  cases cs with
  | nil => simp
  | cons d cs => simp

/-! ## Each part has one end -/

theorem IsStringBody.unique {body' rest' : List Char} (h : IsStringBody body)
    (h' : IsStringBody body') (heq : body ++ '"' :: rest = body' ++ '"' :: rest') :
    body = body' ∧ rest = rest' := by
  induction h generalizing body' with
  | nil =>
    cases h' with
    | nil => simpa using heq
    | char hq => exact absurd (List.cons.inj heq).1.symm hq
    | escape => exact absurd (List.cons.inj heq).1 (by decide)
  | char hq hslash _ ih =>
    cases h' with
    | nil => exact absurd (List.cons.inj heq).1 hq
    | char _ _ h' =>
      obtain ⟨rfl, htail⟩ := List.cons.inj heq
      simpa using ih h' htail
    | escape => exact absurd (List.cons.inj heq).1 hslash
  | escape c _ ih =>
    cases h' with
    | nil => exact absurd (List.cons.inj heq).1 (by decide)
    | char _ hslash => exact absurd (List.cons.inj heq).1.symm hslash
    | escape d h' =>
      obtain ⟨rfl, htail⟩ := List.cons.inj (List.cons.inj heq).2
      simpa using ih h' htail

/-- What is cut off does not close. -/
theorem IsCutBody.ne_closed (h : IsCutBody cs) (hbody : IsStringBody body) :
    cs ≠ body ++ '"' :: rest := by
  induction hbody generalizing cs with
  | nil =>
    rintro rfl
    cases h with
    | char hq => exact hq rfl
  | char hq hslash _ ih =>
    intro heq
    cases h with
    | nil => cases heq
    | backslash => exact hslash (List.cons.inj heq).1.symm
    | char _ _ h => exact ih h (List.cons.inj heq).2
    | escape => exact hslash (List.cons.inj heq).1.symm
  | escape c _ ih =>
    intro heq
    cases h with
    | nil => cases heq
    | backslash => cases (List.cons.inj heq).2
    | char _ hslash => exact hslash (List.cons.inj heq).1
    | escape _ h => exact ih h (List.cons.inj (List.cons.inj heq).2).2

/-- A line comment is all up to the line's end. -/
theorem takeWhile_line (h : '\n' ∉ body) (hrest : ∀ c ∈ rest.head?, c = '\n') :
    (body ++ rest).takeWhile (· ≠ '\n') = body := by
  have hbody : ∀ c ∈ body, decide (c ≠ '\n') := fun c hc =>
    decide_eq_true fun heq => h (heq ▸ hc)
  rw [List.takeWhile_append_of_pos hbody]
  cases rest with
  | nil => simp
  | cons c rest => simp [hrest c rfl]

theorem line_unique {body' rest' : List Char} (h : '\n' ∉ body)
    (hrest : ∀ c ∈ rest.head?, c = '\n') (h' : '\n' ∉ body')
    (hrest' : ∀ c ∈ rest'.head?, c = '\n') (heq : body ++ rest = body' ++ rest') :
    body = body' ∧ rest = rest' := by
  have hbody : body = body' := by rw [← takeWhile_line h hrest, heq, takeWhile_line h' hrest']
  exact ⟨hbody, List.append_cancel_left (hbody ▸ heq)⟩

theorem block_unique {body' rest' : List Char} (h : ¬ ['*', '/'] <:+: body)
    (h' : ¬ ['*', '/'] <:+: body')
    (heq : body ++ '*' :: '/' :: rest = body' ++ '*' :: '/' :: rest') :
    body = body' ∧ rest = rest' := by
  induction body generalizing body' with
  | nil =>
    match body' with
    | [] => simpa using heq
    | [d] => simp at heq
    | d :: e :: body' =>
      obtain ⟨rfl, rfl, -⟩ : '*' = d ∧ '/' = e ∧ _ := by simpa using heq
      exact absurd ⟨[], body', rfl⟩ h'
  | cons c body ih =>
    match body' with
    | [] =>
      match body with
      | [] => simp at heq
      | e :: body =>
        obtain ⟨rfl, rfl, -⟩ : c = '*' ∧ e = '/' ∧ _ := by simpa using heq
        exact absurd ⟨[], body, rfl⟩ h
    | d :: body' =>
      obtain ⟨rfl, htail⟩ := List.cons.inj heq
      simpa using ih (not_infix_of_cons h) (not_infix_of_cons h') htail

/-- The first part of a text is one part only. -/
theorem Part.Fits.unique {p q : Part} {rest' : List Char} (h : p.Fits rest) (h' : q.Fits rest')
    (heq : p.text ++ rest = q.text ++ rest') : p = q ∧ rest = rest' := by
  cases h with
  | plain hq hopen =>
    cases h' with
    | plain => simpa [text] using heq
    | literal | cutLiteral => exact absurd (List.cons.inj heq).1 hq
    | line | block | cutBlock =>
      obtain ⟨rfl, rfl⟩ := List.cons.inj heq
      exact absurd (by simp) hopen
  | literal _ hbody =>
    cases h' with
    | plain hq => exact absurd (List.cons.inj heq).1.symm hq
    | literal _ hbody' =>
      obtain ⟨rfl, rfl⟩ := hbody.unique hbody' (by simpa [text] using heq)
      exact ⟨rfl, rfl⟩
    | cutLiteral hcut => exact absurd (by simpa [text] using heq.symm) (hcut.ne_closed hbody)
    | line | block | cutBlock => simp [text] at heq
  | cutLiteral hcut =>
    cases h' with
    | plain hq => exact absurd (List.cons.inj heq).1.symm hq
    | literal _ hbody => exact absurd (by simpa [text] using heq) (hcut.ne_closed hbody)
    | cutLiteral => simpa [text] using heq
    | line | block | cutBlock => simp [text] at heq
  | line hbody hrest =>
    cases h' with
    | plain _ hopen =>
      obtain ⟨rfl, rfl⟩ := List.cons.inj heq
      exact absurd (by simp) hopen
    | line hbody' hrest' =>
      obtain ⟨rfl, rfl⟩ := line_unique hbody hrest hbody' hrest' (by simpa [text] using heq)
      exact ⟨rfl, rfl⟩
    | literal | cutLiteral | block | cutBlock => simp [text] at heq
  | block _ hbody =>
    cases h' with
    | plain _ hopen =>
      obtain ⟨rfl, rfl⟩ := List.cons.inj heq
      exact absurd (by simp) hopen
    | block _ hbody' =>
      obtain ⟨rfl, rfl⟩ := block_unique hbody hbody' (by simpa [text] using heq)
      exact ⟨rfl, rfl⟩
    | cutBlock hbody' => exact absurd ⟨_, rest, by simpa [text] using heq⟩ hbody'
    | literal | cutLiteral | line => simp [text] at heq
  | cutBlock hbody =>
    cases h' with
    | plain _ hopen =>
      obtain ⟨rfl, rfl⟩ := List.cons.inj heq
      exact absurd (by simp) hopen
    | block _ hbody' => exact absurd ⟨_, rest', by simpa [text] using heq.symm⟩ hbody
    | cutBlock => simpa [text] using heq
    | literal | cutLiteral | line => simp [text] at heq

theorem Part.Fits.text_ne_nil {p : Part} (h : p.Fits rest) : p.text ≠ [] := by
  cases h <;> exact List.cons_ne_nil _ _

/-- A text has one reading only. -/
theorem Reads.unique (h : Reads cs ps) (h' : Reads cs qs) : ps = qs := by
  induction h generalizing qs with
  | nil =>
    generalize hcs : ([] : List Char) = ds at h'
    cases h' with
    | nil => rfl
    | cons hfits => exact absurd (List.append_eq_nil_iff.mp hcs.symm).1 hfits.text_ne_nil
  | cons hfits _ ih =>
    generalize hcs : Part.text _ ++ _ = ds at h'
    cases h' with
    | nil => exact absurd (List.append_eq_nil_iff.mp hcs).1 hfits.text_ne_nil
    | cons hfits' h' =>
      obtain ⟨rfl, rfl⟩ := hfits.unique hfits' hcs
      rw [ih h']

/-! ## Every text has a reading -/

/-- Behind an opening quote the string closes, or the text is cut off in it. -/
theorem closed_or_cut (cs : List Char) :
    (∃ body rest, IsStringBody body ∧ cs = body ++ '"' :: rest) ∨ IsCutBody cs := by
  match cs with
  | [] => exact .inr .nil
  | c :: cs =>
    by_cases hq : c = '"'
    · exact .inl ⟨[], cs, .nil, by rw [hq]; rfl⟩
    · by_cases hslash : c = '\\'
      · subst hslash
        match cs with
        | [] => exact .inr .backslash
        | c :: cs =>
          rcases closed_or_cut cs with ⟨body, rest, hbody, rfl⟩ | hcut
          · exact .inl ⟨_, rest, hbody.escape c, rfl⟩
          · exact .inr (hcut.escape c)
      · rcases closed_or_cut cs with ⟨body, rest, hbody, rfl⟩ | hcut
        · exact .inl ⟨_, rest, hbody.char hq hslash, rfl⟩
        · exact .inr (hcut.char hq hslash)

/-- Behind its mark a block comment closes at the first closing mark, if there is one. -/
theorem closes_or_not (cs : List Char) :
    (∃ body rest, ¬ ['*', '/'] <:+: body ∧ cs = body ++ '*' :: '/' :: rest) ∨
      ¬ ['*', '/'] <:+: cs := by
  induction cs with
  | nil => exact .inr (by simp)
  | cons c cs ih =>
    by_cases hhere : ['*', '/'] <+: c :: cs
    · obtain ⟨rest, hrest⟩ := hhere
      exact .inl ⟨[], rest, by simp, hrest.symm⟩
    · rcases ih with ⟨body, rest, hbody, rfl⟩ | hnone
      · refine .inl ⟨c :: body, rest, ?_, rfl⟩
        rw [List.infix_cons_iff, not_or]
        refine ⟨fun hends => hhere (hends.trans ?_), hbody⟩
        exact List.prefix_append (c :: body) ('*' :: '/' :: rest)
      · exact .inr (by rw [List.infix_cons_iff, not_or]; exact ⟨hhere, hnone⟩)

theorem exists_line (cs : List Char) :
    ∃ body rest, '\n' ∉ body ∧ (∀ c ∈ rest.head?, c = '\n') ∧ cs = body ++ rest := by
  refine ⟨cs.takeWhile (· ≠ '\n'), cs.dropWhile (· ≠ '\n'), ?_, ?_, ?_⟩
  · intro hin
    simpa using List.all_eq_true.mp List.all_takeWhile _ hin
  · intro c hc
    have hnot := List.head?_dropWhile_not (· ≠ '\n') cs
    rw [hc] at hnot
    simpa using hnot
  · exact List.takeWhile_append_dropWhile.symm

/-- A text that is not empty has a first part. -/
theorem exists_part (h : cs ≠ []) :
    ∃ (p : Part) (rest : List Char), p.Fits rest ∧ cs = p.text ++ rest := by
  obtain ⟨c, cs, rfl⟩ := List.exists_cons_of_ne_nil h
  by_cases hq : c = '"'
  · subst hq
    rcases closed_or_cut cs with ⟨body, rest, hbody, rfl⟩ | hcut
    · exact ⟨_, rest, .literal rest hbody, by simp [Part.text]⟩
    · exact ⟨_, [], .cutLiteral hcut, by simp [Part.text]⟩
  · by_cases hopen : OpensComment (c :: cs)
    · rcases hopen with ⟨cs, heq⟩ | ⟨cs, heq⟩
      · obtain ⟨rfl, rfl⟩ := List.cons.inj heq
        obtain ⟨body, rest, hbody, hrest, rfl⟩ := exists_line cs
        exact ⟨_, rest, .line hbody hrest, by simp [Part.text]⟩
      · obtain ⟨rfl, rfl⟩ := List.cons.inj heq
        rcases closes_or_not cs with ⟨body, rest, hbody, rfl⟩ | hnone
        · exact ⟨_, rest, .block rest hbody, by simp [Part.text]⟩
        · exact ⟨_, [], .cutBlock hnone, by simp [Part.text]⟩
    · exact ⟨.plain c, cs, .plain hq hopen, rfl⟩

theorem exists_reads (cs : List Char) : ∃ ps, Reads cs ps := by
  by_cases hcs : cs = []
  · exact ⟨[], hcs ▸ .nil⟩
  · obtain ⟨p, rest, hfits, heq⟩ := exists_part hcs
    have hshort : rest.length < cs.length := by
      have hpos := List.length_pos_iff.mpr hfits.text_ne_nil
      rw [heq, List.length_append]
      omega
    obtain ⟨ps, hps⟩ := exists_reads rest
    exact ⟨p :: ps, heq ▸ .cons hfits hps⟩
termination_by cs.length

end CronWrap.Json
