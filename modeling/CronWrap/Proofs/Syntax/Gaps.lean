import CronWrap.Proofs.Syntax.Words

/-! The blanks and comments that a text begins with, and what becomes of them when the text behind
them changes. -/
namespace CronWrap.Syntax

/-! ## The walk, by what comes next -/

section Walk

variable (n : Nat) (broken : Bool) {c : Char} {cs : List Char}

theorem skipGap_nil (g : Gap) : skipGap g n broken [] = (n, broken, []) := by cases g <;> rfl

theorem skipGap_line : skipGap .spaces n broken ('/' :: '/' :: cs) =
    skipGap .lineComment (n + 2) broken cs := rfl

theorem skipGap_block : skipGap .spaces n broken ('/' :: '*' :: cs) =
    skipGap .blockComment (n + 2) broken cs := rfl

theorem skipGap_spaces (hline : ∀ rest, c = '/' → cs = '/' :: rest → False)
    (hblock : ∀ rest, c = '/' → cs = '*' :: rest → False) :
    skipGap .spaces n broken (c :: cs) =
      if isSpace c then skipGap .spaces (n + 1) (broken || isLineBreak c) cs
      else (n, broken, c :: cs) := by
  rw [skipGap.eq_def]
  split <;> simp_all

theorem skipGap_lineComment : skipGap .lineComment n broken (c :: cs) =
    if isLineBreak c || c = '\r' then skipGap .spaces (n + 1) (broken || isLineBreak c) cs
    else skipGap .lineComment (n + 1) broken cs := by
  rw [skipGap.eq_def]
  split <;> simp_all

theorem skipGap_blockEnd : skipGap .blockComment n broken ('*' :: '/' :: cs) =
    skipGap .spaces (n + 2) broken cs := rfl

theorem skipGap_blockComment (hend : ∀ rest, c = '*' → cs = '/' :: rest → False) :
    skipGap .blockComment n broken (c :: cs) =
      skipGap .blockComment (n + 1) (broken || isLineBreak c) cs := by
  rw [skipGap.eq_def]
  split <;> simp_all

end Walk

/-- The count goes on from where it starts. -/
theorem skipGap_fst_add (g : Gap) (n m : Nat) (broken broken' : Bool) (cs : List Char) :
    (skipGap g n broken cs).1 + m = (skipGap g m broken' cs).1 + n := by
  induction g, n, broken, cs using skipGap.induct generalizing m broken' with
  | case1 g n broken =>
    rw [skipGap_nil, skipGap_nil]
    omega
  | case2 n broken rest ih =>
    rw [skipGap_line, skipGap_line]
    have := ih (m + 2) broken'
    omega
  | case3 n broken rest ih =>
    rw [skipGap_block, skipGap_block]
    have := ih (m + 2) broken'
    omega
  | case4 n broken c rest hline hblock hspace ih =>
    rw [skipGap_spaces _ _ hline hblock, skipGap_spaces _ _ hline hblock, if_pos hspace,
      if_pos hspace]
    have := ih (m + 1) (broken' || isLineBreak c)
    omega
  | case5 n broken c rest hline hblock hspace =>
    rw [skipGap_spaces _ _ hline hblock, skipGap_spaces _ _ hline hblock, if_neg hspace,
      if_neg hspace]
    omega
  | case6 n broken c rest hend ih =>
    rw [skipGap_lineComment, skipGap_lineComment, if_pos hend, if_pos hend]
    have := ih (m + 1) (broken' || isLineBreak c)
    omega
  | case7 n broken c rest hend ih =>
    rw [skipGap_lineComment, skipGap_lineComment, if_neg hend, if_neg hend]
    have := ih (m + 1) broken'
    omega
  | case8 n broken rest ih =>
    rw [skipGap_blockEnd, skipGap_blockEnd]
    have := ih (m + 2) broken'
    omega
  | case9 n broken c rest hend ih =>
    rw [skipGap_blockComment _ _ hend, skipGap_blockComment _ _ hend]
    have := ih (m + 1) (broken' || isLineBreak c)
    omega

/-- Inside of a comment the next character is taken. -/
theorem lt_skipGap_blockComment (n : Nat) (broken : Bool) (c : Char) (cs : List Char) :
    n < (skipGap .blockComment n broken (c :: cs)).1 := by
  by_cases hend : c = '*' ∧ ∃ rest, cs = '/' :: rest
  · obtain ⟨rfl, rest, rfl⟩ := hend
    obtain ⟨j, hj, -⟩ := skipGap_eq .spaces (n + 2) broken rest
    rw [skipGap_blockEnd]
    omega
  · obtain ⟨j, hj, -⟩ := skipGap_eq .blockComment (n + 1) (broken || isLineBreak c) cs
    rw [skipGap_blockComment _ _ fun rest hc hcs => hend ⟨hc, rest, hcs⟩]
    omega

/-! ## Other text behind a gap -/

/-- A walk that ends at a token has come back from all comments: with another text behind it, it goes
on into that text. -/
theorem skipGap_take_append (g : Gap) (n : Nat) (broken : Bool) (cs behind : List Char) {k : Nat}
    (hk : (skipGap g n broken cs).1 = n + k) (hrest : (skipGap g n broken cs).2.2 ≠ []) :
    (skipGap g n broken (cs.take k ++ behind)).1 =
      n + k + (skipGap .spaces 0 false behind).1 := by
  have hgap := skipGap_eq
  induction g, n, broken, cs using skipGap.induct generalizing k with
  | case1 g n broken =>
    rw [skipGap_nil] at hrest
    exact absurd rfl hrest
  | case2 n broken rest ih =>
    rw [skipGap_line] at hk hrest
    obtain ⟨j, hj, -⟩ := hgap .lineComment (n + 2) broken rest
    obtain rfl : k = j + 2 := by omega
    rw [List.take_succ_cons, List.take_succ_cons, List.cons_append, List.cons_append, skipGap_line,
      ih hj hrest]
    omega
  | case3 n broken rest ih =>
    rw [skipGap_block] at hk hrest
    obtain ⟨j, hj, -⟩ := hgap .blockComment (n + 2) broken rest
    obtain rfl : k = j + 2 := by omega
    rw [List.take_succ_cons, List.take_succ_cons, List.cons_append, List.cons_append, skipGap_block,
      ih hj hrest]
    omega
  | case4 n broken c rest hline hblock hspace ih =>
    rw [skipGap_spaces _ _ hline hblock, if_pos hspace] at hk hrest
    obtain ⟨j, hj, -⟩ := hgap .spaces (n + 1) (broken || isLineBreak c) rest
    obtain rfl : k = j + 1 := by omega
    have hne : c ≠ '/' := by
      rintro rfl
      exact absurd hspace (by decide)
    rw [List.take_succ_cons, List.cons_append, skipGap_spaces _ _ (fun _ h => absurd h hne)
      (fun _ h => absurd h hne), if_pos hspace, ih hj hrest]
    omega
  | case5 n broken c rest hline hblock hspace =>
    -- The walk ends here, and the other text comes next.
    rw [skipGap_spaces _ _ hline hblock, if_neg hspace] at hk
    obtain rfl : k = 0 := by omega
    have := skipGap_fst_add .spaces n 0 broken false behind
    rw [List.take_zero, List.nil_append]
    omega
  | case6 n broken c rest hend ih =>
    rw [skipGap_lineComment, if_pos hend] at hk hrest
    obtain ⟨j, hj, -⟩ := hgap .spaces (n + 1) (broken || isLineBreak c) rest
    obtain rfl : k = j + 1 := by omega
    rw [List.take_succ_cons, List.cons_append, skipGap_lineComment, if_pos hend, ih hj hrest]
    omega
  | case7 n broken c rest hend ih =>
    rw [skipGap_lineComment, if_neg hend] at hk hrest
    obtain ⟨j, hj, -⟩ := hgap .lineComment (n + 1) broken rest
    obtain rfl : k = j + 1 := by omega
    rw [List.take_succ_cons, List.cons_append, skipGap_lineComment, if_neg hend, ih hj hrest]
    omega
  | case8 n broken rest ih =>
    rw [skipGap_blockEnd] at hk hrest
    obtain ⟨j, hj, -⟩ := hgap .spaces (n + 2) broken rest
    obtain rfl : k = j + 2 := by omega
    rw [List.take_succ_cons, List.take_succ_cons, List.cons_append, List.cons_append,
      skipGap_blockEnd, ih hj hrest]
    omega
  | case9 n broken c rest hend ih =>
    rw [skipGap_blockComment _ _ hend] at hk hrest
    obtain ⟨j, hj, -⟩ := hgap .blockComment (n + 1) (broken || isLineBreak c) rest
    obtain rfl : k = j + 1 := by omega
    -- What follows an asterisk in the comment stays with it.
    have hend' : ∀ after, c = '*' → rest.take j ++ behind = '/' :: after → False := by
      intro after hc hafter
      cases rest with
      | nil =>
        rw [skipGap_nil] at hrest
        exact hrest rfl
      | cons d rest =>
        have hlt := lt_skipGap_blockComment (n + 1) (broken || isLineBreak c) d rest
        obtain ⟨i, rfl⟩ : ∃ i, j = i + 1 := ⟨j - 1, by omega⟩
        rw [List.take_succ_cons, List.cons_append, List.cons.injEq] at hafter
        exact hend rest hc (by rw [hafter.1])
    rw [List.take_succ_cons, List.cons_append, skipGap_blockComment _ _ hend', ih hj hrest]
    omega

/-! ## Where a line ends -/

/-- The blanks and comments that a text begins with. -/
def gapOf (cs : List Char) : List Char := cs.take (skipGap .spaces 0 false cs).1

/-- What ends a line of a script. -/
def endsLine (c : Char) : Bool := isLineBreak c || c = '\r'

/-- Nothing but blanks and comments come before a line end or the end of the text. -/
def LineEndsFirst (cs : List Char) : Prop := (gapOf cs).any endsLine ∨ gapOf cs = cs

instance (cs : List Char) : Decidable (LineEndsFirst cs) := inferInstanceAs (Decidable (_ ∨ _))

/-- A token comes first. -/
def IsSolid (cs : List Char) : Prop := cs ≠ [] ∧ gapOf cs = []

variable {cs : List Char}

theorem gapOf_append_drop (cs : List Char) : gapOf cs ++ cs.drop (gapOf cs).length = cs := by
  have hstart : gapOf cs = cs.take (gapOf cs).length :=
    List.prefix_iff_eq_take.mp (List.take_prefix _ _)
  nth_rewrite 1 [hstart]
  exact List.take_append_drop _ _

/-- Before a token, a gap is followed by what is left of the text. -/
theorem skipGap_of_gapOf_ne (h : gapOf cs ≠ cs) :
    (skipGap .spaces 0 false cs).1 = (gapOf cs).length ∧
      (skipGap .spaces 0 false cs).2.2 = cs.drop (gapOf cs).length ∧
      cs.drop (gapOf cs).length ≠ [] := by
  obtain ⟨k, hk, hrest, -⟩ := skipGap_eq .spaces 0 false cs
  rw [Nat.zero_add] at hk
  have hlt : k < cs.length := by
    by_contra hle
    exact h (by rw [gapOf, hk, List.take_of_length_le (by omega)])
  have hlength : (gapOf cs).length = k := by
    rw [gapOf, hk, List.length_take_of_le (by omega)]
  rw [hlength]
  refine ⟨hk, hrest, ?_⟩
  intro hnil
  rw [List.drop_eq_nil_iff] at hnil
  omega

/-- With another text behind it, a gap before a token goes on into that text. -/
theorem gapOf_append (h : gapOf cs ≠ cs) (behind : List Char) :
    gapOf (gapOf cs ++ behind) = gapOf cs ++ gapOf behind := by
  obtain ⟨hk, hrest, hne⟩ := skipGap_of_gapOf_ne h
  have htake : cs.take (gapOf cs).length = gapOf cs := by rw [← hk, gapOf]
  have hwalk := skipGap_take_append .spaces 0 false cs behind (k := (gapOf cs).length) (by omega)
    (by rw [hrest]; exact hne)
  rw [htake] at hwalk
  generalize gapOf cs = gap at hwalk ⊢
  rw [gapOf, hwalk, Nat.zero_add, List.take_length_add_append, gapOf]

/-- What is behind a gap, if there is anything, is a token. -/
theorem isSolid_drop (h : gapOf cs ≠ cs) : IsSolid (cs.drop (gapOf cs).length) := by
  refine ⟨(skipGap_of_gapOf_ne h).2.2, ?_⟩
  have hsplit := gapOf_append h (cs.drop (gapOf cs).length)
  rw [gapOf_append_drop] at hsplit
  exact List.append_right_eq_self.mp hsplit.symm

theorem isSolid_cons_iff {c : Char} : IsSolid (c :: cs) ↔
    isSpace c = false ∧ (c = '/' → cs.head? ≠ some '/' ∧ cs.head? ≠ some '*') := by
  have hnone : IsSolid (c :: cs) ↔ (skipGap .spaces 0 false (c :: cs)).1 = 0 := by
    simp [IsSolid, gapOf]
  rw [hnone]
  by_cases hline : c = '/' ∧ cs.head? = some '/'
  · obtain ⟨rfl, hhead⟩ := hline
    obtain ⟨rest, rfl⟩ := List.head?_eq_some_iff.mp hhead
    obtain ⟨k, hk, -⟩ := skipGap_eq .lineComment 2 false rest
    rw [skipGap_line]
    simp [hk]
  by_cases hblock : c = '/' ∧ cs.head? = some '*'
  · obtain ⟨rfl, hhead⟩ := hblock
    obtain ⟨rest, rfl⟩ := List.head?_eq_some_iff.mp hhead
    obtain ⟨k, hk, -⟩ := skipGap_eq .blockComment 2 false rest
    rw [skipGap_block]
    simp [hk]
  have hcomment : c = '/' → cs.head? ≠ some '/' ∧ cs.head? ≠ some '*' :=
    fun hc => ⟨fun h => hline ⟨hc, h⟩, fun h => hblock ⟨hc, h⟩⟩
  rw [skipGap_spaces _ _ (fun rest hc hcs => (hcomment hc).1 (by rw [hcs]; rfl))
    (fun rest hc hcs => (hcomment hc).2 (by rw [hcs]; rfl))]
  cases hspace : isSpace c with
  | false => simpa using hcomment
  | true =>
    obtain ⟨k, hk, -⟩ := skipGap_eq .spaces 1 (isLineBreak c) cs
    simp [hk]

theorem not_lineEndsFirst_of_isSolid (h : IsSolid cs) : ¬ LineEndsFirst cs := by
  rintro (hends | hall)
  · rw [h.2] at hends
    cases hends
  · exact h.1 (hall.symm.trans h.2)

/-- Where no line ends before the first token, it is what comes instead of the token that counts. -/
theorem lineEndsFirst_append_iff (h : ¬ LineEndsFirst cs) (behind : List Char) :
    LineEndsFirst (gapOf cs ++ behind) ↔ LineEndsFirst behind := by
  obtain ⟨hends, hall⟩ := not_or.mp h
  simp only [LineEndsFirst, gapOf_append hall, List.any_append, Bool.or_eq_true,
    List.append_cancel_left_eq]
  rw [or_iff_right hends]

/-- A line that ends before the first token does so whatever comes instead of the token. -/
theorem lineEndsFirst_append_of_lineEnd (hall : gapOf cs ≠ cs) (h : (gapOf cs).any endsLine)
    (behind : List Char) : LineEndsFirst (gapOf cs ++ behind) := by
  rw [LineEndsFirst, gapOf_append hall, List.any_append, h]
  exact .inl rfl

theorem lineEndsFirst_newline (cs : List Char) : LineEndsFirst ('\n' :: cs) := by
  obtain ⟨k, hk, -⟩ := skipGap_eq .spaces 1 true cs
  have hgap : gapOf ('\n' :: cs) = '\n' :: cs.take k := by
    rw [gapOf, skipGap_spaces _ _ (by simp) (by simp), if_pos (by decide)]
    simp only [Nat.zero_add, Bool.false_or, hk, Nat.add_comm 1 k, List.take_succ_cons,
      show isLineBreak '\n' = true from rfl]
  left
  rw [hgap]
  rfl

end CronWrap.Syntax
