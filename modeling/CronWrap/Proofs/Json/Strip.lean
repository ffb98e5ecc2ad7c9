import CronWrap.Proofs.Json.Padding

/-! Taking comments and then trailing commas out of a text undoes what a decoration added, up to
spaces. -/
namespace CronWrap.Json

variable {cs ds : List Char} {c : Char}

theorem isBlank_of_isSpace (h : isSpace c) : Text.isBlank c := by
  simp only [isSpace, Bool.or_eq_true, decide_eq_true_eq] at h
  rcases h with ((rfl | rfl) | rfl) | rfl <;> decide

theorem ne_of_isSpace {d : Char} (hc : isSpace c) (hd : isSpace d = false) : c ≠ d := by
  rintro rfl
  simp [hc] at hd

theorem ne_of_isWordChar {d : Char} (hc : isWordChar c) (hd : isWordChar d = false) : c ≠ d := by
  rintro rfl
  simp [hc] at hd

section Marks

theorem mem_marks_of_open (h : c ∈ ['[', '{', ':', ',']) : c ∈ marks :=
  List.mem_append_left [']', '}'] h

theorem mem_marks_of_close (h : c ∈ [']', '}']) : c ∈ marks :=
  List.mem_append_right ['[', '{', ':', ','] h

/-- A mark is no part of what it stands beside. -/
theorem plain_of_mem_marks (h : c ∈ marks) :
    (isSpace c = false ∧ Text.isBlank c = false) ∧ isWordChar c = false ∧ c ≠ '"' ∧ c ≠ '/' := by
  simp only [marks, List.mem_cons, List.not_mem_nil, or_false] at h
  rcases h with rfl | rfl | rfl | rfl | rfl | rfl <;> decide

theorem isSpace_of_mem_marks (h : c ∈ marks) : isSpace c = false := (plain_of_mem_marks h).1.1

theorem isBlank_of_mem_marks (h : c ∈ marks) : Text.isBlank c = false := (plain_of_mem_marks h).1.2

theorem isWordChar_of_mem_marks (h : c ∈ marks) : isWordChar c = false := (plain_of_mem_marks h).2.1

theorem ne_quote_of_mem_marks (h : c ∈ marks) : c ≠ '"' := (plain_of_mem_marks h).2.2.1

theorem ne_slash_of_mem_marks (h : c ∈ marks) : c ≠ '/' := (plain_of_mem_marks h).2.2.2

end Marks

/-! ## Comments -/

theorem stripFrom_escape_cons (c : Char) (cs : List Char) :
    stripFrom .escape (c :: cs) = c :: stripFrom .string cs := rfl

theorem stripFrom_string_cons (c : Char) (cs : List Char) :
    stripFrom .string (c :: cs) =
      c :: stripFrom (if c = '\\' then .escape else if c = '"' then .code else .string) cs := rfl

theorem stripFrom_lineComment_cons (c : Char) (cs : List Char) :
    stripFrom .lineComment (c :: cs) =
      if c = '\n' then c :: stripFrom .code cs else stripFrom .lineComment cs := rfl

theorem stripFrom_closing (cs : List Char) :
    stripFrom .blockComment ('*' :: '/' :: cs) = stripFrom .code cs := rfl

theorem stripFrom_code_cons (h : c ≠ '/') (hq : c ≠ '"') :
    stripFrom .code (c :: cs) = c :: stripFrom .code cs := by
  rw [stripFrom.eq_def]
  split <;> simp_all

theorem stripFrom_code_word {w : List Char} (h : ∀ c ∈ w, isWordChar c) :
    stripFrom .code (w ++ cs) = w ++ stripFrom .code cs := by
  induction w with
  | nil => rfl
  | cons c w ih =>
    have hc := h c List.mem_cons_self
    rw [List.cons_append, stripFrom_code_cons (ne_of_isWordChar hc (by decide))
      (ne_of_isWordChar hc (by decide)), ih fun d hd => h d (List.mem_cons_of_mem c hd)]
    rfl

theorem stripFrom_string {body : List Char} (h : IsStringBody body) :
    stripFrom .string (body ++ '"' :: cs) = body ++ '"' :: stripFrom .code cs := by
  induction h with
  | nil => rfl
  | char hq hb _ ih =>
    rw [List.cons_append, stripFrom_string_cons, if_neg hb, if_neg hq, ih]
    rfl
  | escape c _ ih =>
    rw [List.cons_append, List.cons_append, stripFrom_string_cons, if_pos rfl,
      stripFrom_escape_cons, ih]
    rfl

theorem stripFrom_code_string {body : List Char} (h : IsStringBody body) :
    stripFrom .code ('"' :: body ++ '"' :: cs) = '"' :: body ++ '"' :: stripFrom .code cs :=
  congrArg ('"' :: ·) (stripFrom_string h)

theorem stripFrom_lineComment {body : List Char} (h : '\n' ∉ body) :
    stripFrom .lineComment (body ++ '\n' :: cs) = '\n' :: stripFrom .code cs := by
  induction body with
  | nil => rfl
  | cons c body ih =>
    rw [List.mem_cons, not_or] at h
    rw [List.cons_append, stripFrom_lineComment_cons, if_neg (Ne.symm h.1), ih h.2]

theorem stripFrom_lineComment_eq_nil {body : List Char} (h : '\n' ∉ body) :
    stripFrom .lineComment body = [] := by
  induction body with
  | nil => rfl
  | cons c body ih =>
    rw [List.mem_cons, not_or] at h
    rw [stripFrom_lineComment_cons, if_neg (Ne.symm h.1), ih h.2]

theorem stripFrom_blockComment_cons (h : ¬ (c = '*' ∧ cs.head? = some '/')) :
    stripFrom .blockComment (c :: cs) = stripFrom .blockComment cs := by
  rw [stripFrom.eq_def]
  split <;> simp_all

theorem not_infix_of_cons {word : List Char} (h : ¬ word <:+: c :: cs) : ¬ word <:+: cs :=
  fun hin => h (hin.trans (List.suffix_cons c cs).isInfix)

theorem stripFrom_blockComment {body : List Char} (h : ¬ ['*', '/'] <:+: body) :
    stripFrom .blockComment (body ++ '*' :: '/' :: cs) = stripFrom .code cs := by
  induction body with
  | nil => exact stripFrom_closing cs
  | cons c body ih =>
    rw [List.cons_append, stripFrom_blockComment_cons, ih (not_infix_of_cons h)]
    -- a comment that ended here would end inside of its body
    rintro ⟨rfl, hhead⟩
    match body with
    | [] => simp at hhead
    | d :: body =>
      obtain rfl : d = '/' := by simpa using hhead
      exact h ⟨[], body, rfl⟩

theorem stripFrom_code_line {body : List Char} (h : '\n' ∉ body) :
    stripFrom .code ('/' :: '/' :: body ++ ['\n'] ++ cs) = '\n' :: stripFrom .code cs := by
  rw [List.append_assoc]
  exact stripFrom_lineComment h

theorem stripFrom_code_block {body : List Char} (h : ¬ ['*', '/'] <:+: body) :
    stripFrom .code ('/' :: '*' :: body ++ ['*', '/'] ++ cs) = ' ' :: stripFrom .code cs := by
  rw [List.append_assoc]
  exact congrArg (' ' :: ·) (stripFrom_blockComment h)

/-- Without its comments a decorated text has spaces and commas more than the text below it. -/
theorem Padded.stripFrom_code {after : Bool} (h : Padded IsTrivia IsTail true after cs ds) :
    Padded IsGap (· = []) true after cs (stripFrom .code ds) := by
  induction h with
  | nil ht =>
    apply Padded.nil
    cases ht with
    | nothing => rfl
    | line hline => exact stripFrom_lineComment_eq_nil hline
  | space hc _ ih =>
    rw [stripFrom_code_cons (ne_of_isSpace hc (by decide)) (ne_of_isSpace hc (by decide))]
    exact .space hc ih
  | gap hgap _ ih =>
    cases hgap with
    | space hc =>
      rw [List.singleton_append,
        stripFrom_code_cons (ne_of_isSpace hc (by decide)) (ne_of_isSpace hc (by decide))]
      exact .gap (.space hc) ih
    | line hline =>
      rw [stripFrom_code_line hline]
      exact .gap (.space (c := '\n') (by decide)) ih
    | block hblock =>
      rw [stripFrom_code_block hblock]
      exact .gap (.space (c := ' ') (by decide)) ih
  | comma hcs _ ih =>
    rw [stripFrom_code_cons (by decide) (by decide)]
    exact .comma hcs ih
  | mark hc _ ih =>
    have hmark := mem_marks_of_open hc
    rw [stripFrom_code_cons (ne_slash_of_mem_marks hmark) (ne_quote_of_mem_marks hmark)]
    exact .mark hc ih
  | close hc _ ih =>
    have hmark := mem_marks_of_close hc
    rw [stripFrom_code_cons (ne_slash_of_mem_marks hmark) (ne_quote_of_mem_marks hmark)]
    exact .close hc ih
  | string hbody _ ih =>
    rw [stripFrom_code_string hbody]
    exact .string hbody ih
  | word hne hw hcs _ ih =>
    rw [stripFrom_code_word hw]
    exact .word hne hw hcs ih

/-! ## Trailing commas -/

theorem dropCommasFrom_escape_cons (c : Char) (cs : List Char) :
    dropCommasFrom .escape (c :: cs) = c :: dropCommasFrom .string cs := rfl

theorem dropCommasFrom_string_cons (c : Char) (cs : List Char) :
    dropCommasFrom .string (c :: cs) =
      c :: dropCommasFrom (if c = '\\' then .escape else if c = '"' then .code else .string) cs := rfl

theorem dropCommasFrom_code (c : Char) (cs : List Char) :
    dropCommasFrom .code (c :: cs) = if c = ',' && closesNext cs then dropCommasFrom .code cs
      else c :: dropCommasFrom (if c = '"' then .string else .code) cs := rfl

theorem dropCommasFrom_code_cons (h : c ≠ ',') (hq : c ≠ '"') :
    dropCommasFrom .code (c :: cs) = c :: dropCommasFrom .code cs := by
  rw [dropCommasFrom_code, if_neg (by simp [h]), if_neg hq]

theorem dropCommasFrom_code_word {w : List Char} (h : ∀ c ∈ w, isWordChar c) :
    dropCommasFrom .code (w ++ cs) = w ++ dropCommasFrom .code cs := by
  induction w with
  | nil => rfl
  | cons c w ih =>
    have hc := h c List.mem_cons_self
    rw [List.cons_append, dropCommasFrom_code_cons (ne_of_isWordChar hc (by decide))
      (ne_of_isWordChar hc (by decide)), ih fun d hd => h d (List.mem_cons_of_mem c hd)]
    rfl

theorem dropCommasFrom_string {body : List Char} (h : IsStringBody body) :
    dropCommasFrom .string (body ++ '"' :: cs) = body ++ '"' :: dropCommasFrom .code cs := by
  induction h with
  | nil => rfl
  | char hq hb _ ih =>
    rw [List.cons_append, dropCommasFrom_string_cons, if_neg hb, if_neg hq, ih]
    rfl
  | escape c _ ih =>
    rw [List.cons_append, List.cons_append, dropCommasFrom_string_cons, if_pos rfl,
      dropCommasFrom_escape_cons, ih]
    rfl

theorem dropCommasFrom_code_string {body : List Char} (h : IsStringBody body) :
    dropCommasFrom .code ('"' :: body ++ '"' :: cs) =
      '"' :: body ++ '"' :: dropCommasFrom .code cs :=
  congrArg ('"' :: ·) (dropCommasFrom_string h)

theorem closesNext_of_isBlank (h : Text.isBlank c) : closesNext (c :: cs) = closesNext cs := by
  simp [closesNext, Text.dropBlanks, h]

theorem closesNext_of_not_isBlank (h : Text.isBlank c = false) :
    closesNext (c :: cs) = (c = '}' || c = ']' : Bool) := by
  simp [closesNext, Text.dropBlanks, h]

theorem closesNext_of_closes (h : Closes cs) : closesNext cs := by
  obtain ⟨gap, c, rest, rfl, hgap, hc⟩ := h
  induction gap with
  | nil => rcases hc with rfl | rfl <;> rw [List.nil_append, closesNext_of_not_isBlank] <;> decide
  | cons d gap ih =>
    rw [List.cons_append, closesNext_of_isBlank (isBlank_of_isSpace (hgap d List.mem_cons_self))]
    exact ih fun e he => hgap e (List.mem_cons_of_mem d he)

theorem isBlank_of_isWordChar (h : isWordChar c) : Text.isBlank c = false := by
  change (((((65 ≤ c.val ∧ c.val ≤ 90 : Bool) || (97 ≤ c.val && c.val ≤ 122)) ||
    (48 ≤ c.val && c.val ≤ 57)) || c = '+') || c = '-') || c = '.' at h
  simp only [Bool.or_eq_true, decide_eq_true_eq, Bool.and_eq_true, UInt32.le_iff_toNat_le] at h
  change (((((65 ≤ c.toNat ∧ c.toNat ≤ 90) ∨ (97 ≤ c.toNat ∧ c.toNat ≤ 122)) ∨
    (48 ≤ c.toNat ∧ c.toNat ≤ 57)) ∨ c = '+') ∨ c = '-') ∨ c = '.' at h
  simp only [Text.isBlank, Text.inRanges, Text.blankRanges, List.any_cons, List.any_nil,
    Bool.or_eq_false_iff, Bool.and_eq_false_iff, decide_eq_false_iff_not, and_true]
  rcases h with (((h | h) | rfl) | rfl) | rfl
  · omega
  · omega
  all_goals decide

theorem dropCommasFrom_comma (h : closesNext cs) :
    dropCommasFrom .code (',' :: cs) = dropCommasFrom .code cs := by
  rw [dropCommasFrom_code, if_pos (by simp [h])]

theorem dropCommasFrom_kept_comma (h : closesNext cs = false) :
    dropCommasFrom .code (',' :: cs) = ',' :: dropCommasFrom .code cs := by
  rw [dropCommasFrom_code, if_neg (by simp [h]), if_neg (by decide)]

theorem length_dropCommasFrom_le (place : Place) (cs : List Char) :
    (dropCommasFrom place cs).length ≤ cs.length := by
  fun_induction dropCommasFrom place cs with grind

/-- Spaces do not hide which token comes next. -/
theorem Padded.closesNext_eq {commas : Bool} (h : Padded IsGap (· = []) commas false cs ds) :
    closesNext ds = closesNext cs := by
  generalize hafter : false = after at h
  induction h with
  | nil ht => rw [ht]
  | space hc _ ih =>
    rw [closesNext_of_isBlank (isBlank_of_isSpace hc), closesNext_of_isBlank (isBlank_of_isSpace hc)]
    exact ih hafter
  | gap hgap _ ih =>
    obtain ⟨hc⟩ := hgap
    rw [List.singleton_append, closesNext_of_isBlank (isBlank_of_isSpace hc)]
    exact ih hafter
  | comma => exact absurd hafter (by decide)
  | mark hc =>
    have hblank := isBlank_of_mem_marks (mem_marks_of_open hc)
    rw [closesNext_of_not_isBlank hblank, closesNext_of_not_isBlank hblank]
  | close hc =>
    have hblank := isBlank_of_mem_marks (mem_marks_of_close hc)
    rw [closesNext_of_not_isBlank hblank, closesNext_of_not_isBlank hblank]
  | string =>
    rw [List.cons_append, List.cons_append, closesNext_of_not_isBlank (by decide),
      closesNext_of_not_isBlank (by decide)]
  | @word after w cs ds hne hw =>
    obtain ⟨c, w, rfl⟩ := List.exists_cons_of_ne_nil hne
    have hc := isBlank_of_isWordChar (hw c List.mem_cons_self)
    rw [List.cons_append, List.cons_append, closesNext_of_not_isBlank hc,
      closesNext_of_not_isBlank hc]

/-- Where the text below has no trailing commas itself, taking trailing commas out leaves nothing but
spaces added. -/
theorem Padded.dropCommasFrom_code {after : Bool} (h : Padded IsGap (· = []) true after cs ds)
    (hcs : dropCommasFrom .code cs = cs) : Respaced cs (dropCommasFrom .code ds) := by
  induction h with
  | nil ht =>
    rw [ht]
    exact .nil rfl
  | space hc _ ih =>
    rw [dropCommasFrom_code_cons (ne_of_isSpace hc (by decide)) (ne_of_isSpace hc (by decide))]
      at hcs ⊢
    exact .space hc (ih (List.cons.inj hcs).2)
  | gap hgap _ ih =>
    obtain ⟨hc⟩ := hgap
    rw [List.singleton_append,
      dropCommasFrom_code_cons (ne_of_isSpace hc (by decide)) (ne_of_isSpace hc (by decide))]
    exact .gap (.space hc) (ih hcs)
  | comma hcloses h ih =>
    have hnext := h.closesNext_eq.trans (closesNext_of_closes hcloses)
    rw [dropCommasFrom_comma hnext]
    exact ih hcs
  | @mark _ c cs ds hc h ih =>
    by_cases hcomma : c = ','
    · subst hcomma
      have hkept : closesNext cs = false := by
        refine Bool.eq_false_iff.mpr fun hnext => ?_
        have hlen := length_dropCommasFrom_le .code cs
        rw [dropCommasFrom_comma hnext] at hcs
        rw [hcs, List.length_cons] at hlen
        omega
      rw [dropCommasFrom_kept_comma hkept] at hcs
      rw [dropCommasFrom_kept_comma (h.closesNext_eq.trans hkept)]
      exact .mark hc (ih (List.cons.inj hcs).2)
    · have hq := ne_quote_of_mem_marks (mem_marks_of_open hc)
      rw [dropCommasFrom_code_cons hcomma hq] at hcs ⊢
      exact .mark hc (ih (List.cons.inj hcs).2)
  | close hc _ ih =>
    have hq := ne_quote_of_mem_marks (mem_marks_of_close hc)
    rw [dropCommasFrom_code_cons (by rintro rfl; simp at hc) hq] at hcs ⊢
    exact .close hc (ih (List.cons.inj hcs).2)
  | string hbody _ ih =>
    rw [dropCommasFrom_code_string hbody] at hcs ⊢
    exact .string hbody (ih (List.cons.inj (List.append_cancel_left hcs)).2)
  | word hne hw hends _ ih =>
    rw [dropCommasFrom_code_word hw] at hcs ⊢
    exact .word hne hw hends (ih (List.append_cancel_left hcs))

end CronWrap.Json
