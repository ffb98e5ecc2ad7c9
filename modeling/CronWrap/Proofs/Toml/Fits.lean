import CronWrap.Proofs.Toml.Rest

/-! Texts on which the reading of TOML is never stopped: their numbers have few digits, and their brackets
leave room on the stack. -/
namespace CronWrap.Toml

open Text Text.Reader

/-! ## Texts that fit -/

/-- Characters of which decimal integers consist. -/
def isDigitOrMark (c : Char) : Bool := c.isDigit || c = '_'

def isBracket (c : Char) : Bool := c = '[' || c = '{'

/-- In a row there are no more digits than allowed, underscores between them left aside, and for all
brackets there are calls enough, of which each takes three at most. -/
structure Fits (digits calls : Nat) (cs : List Char) : Prop where
  row : ∀ run, run <:+: cs → (∀ c ∈ run, isDigitOrMark c) → run.countP Char.isDigit ≤ digits
  room : 3 * cs.countP isBracket + 2 ≤ calls

namespace Fits

variable {d k k' : Nat} {cs rest : List Char}

theorem of_countP_le (hdigits : cs.countP Char.isDigit ≤ d)
    (hroom : 3 * cs.countP isBracket + 2 ≤ k) : Fits d k cs where
  row _ hrun _ := Nat.le_trans hrun.sublist.countP_le hdigits
  room := hroom

theorem of_rest (h : Fits d k cs) (hrest : rest <:+ cs) : Fits d k rest where
  row run hrun := h.row run (hrun.trans hrest.isInfix)
  room := by
    have hcount : rest.countP isBracket ≤ cs.countP isBracket := hrest.sublist.countP_le
    have := h.room
    omega

/-- A bracket takes up three calls. -/
theorem of_bracket {c : Char} (h : Fits d (k + 3) (c :: cs)) (hc : isBracket c) : Fits d k cs where
  row run hrun := h.row run (hrun.trans (List.suffix_cons c cs).isInfix)
  room := by
    have := h.room
    rw [List.countP_cons_of_pos hc] at this
    omega

theorem mono (h : Fits d k cs) (hk : k ≤ k') : Fits d k' cs := ⟨h.row, Nat.le_trans h.room hk⟩

theorem two_le (h : Fits d k cs) : 2 ≤ k := Nat.le_trans (Nat.le_add_left 2 _) h.room

theorem five_le {c : Char} (h : Fits d k cs) (hhead : cs.head? = some c) (hc : isBracket c) :
    5 ≤ k := by
  obtain ⟨rest, rfl⟩ := List.head?_eq_some_iff.mp hhead
  have := h.room
  rw [List.countP_cons_of_pos hc] at this
  omega

end Fits

/-! ## Digits in a row -/

/-- What was read off the front is a row of so many digits, perhaps with underscores. -/
def IsRow (n : Nat) (cs rest : List Char) : Prop :=
  ∃ run, cs = run ++ rest ∧ (∀ c ∈ run, isDigitOrMark c) ∧ run.countP Char.isDigit = n

section Rows

variable {m n : Nat} {cs ds rest : List Char}

theorem isRow_zero (cs : List Char) : IsRow 0 cs cs := ⟨[], rfl, by simp, rfl⟩

theorem IsRow.append (h : IsRow m cs ds) (h' : IsRow n ds rest) : IsRow (m + n) cs rest := by
  obtain ⟨run, rfl, hrun, rfl⟩ := h
  obtain ⟨run', rfl, hrun', rfl⟩ := h'
  refine ⟨run ++ run', (List.append_assoc _ _ _).symm, fun c hc => ?_, List.countP_append⟩
  exact (List.mem_append.mp hc).elim (hrun c) (hrun' c)

theorem isRow_singleton {c : Char} (hc : isDigitOrMark c) (rest : List Char) :
    IsRow (if c.isDigit then 1 else 0) (c :: rest) rest :=
  ⟨[c], rfl, by simpa using hc, List.countP_singleton⟩

theorem isRow_of_one {c : Char} (h : one Char.isDigit cs = some (c, rest)) : IsRow 1 cs rest := by
  obtain ⟨rfl, hc⟩ := one_eq_some_iff.mp h
  have hrow := isRow_singleton (by rw [isDigitOrMark, hc, Bool.true_or]) rest
  rwa [if_pos hc] at hrow

theorem isRow_of_accept {b : Bool} (h : accept ['_'] cs = some (b, rest)) : IsRow 0 cs rest := by
  rcases accept_eq_some h with rfl | rfl
  · exact isRow_singleton rfl rest
  · exact isRow_zero _

theorem isRow_of_manyUpTo {item : Reader Char}
    (hitem : ∀ cs c rest, item cs = some (c, rest) → IsRow 1 cs rest) {bound : Nat}
    {found : List Char} (h : manyUpTo item bound cs = some (found, rest)) :
    IsRow found.length cs rest := by
  induction bound generalizing cs found with
  | zero =>
    cases h
    exact isRow_zero _
  | succ bound ih =>
    rw [manyUpTo, orElse_apply] at h
    cases hcs : item cs with
    | none =>
      simp only [bind_apply, hcs] at h
      cases h
      exact isRow_zero _
    | some x =>
      obtain ⟨c, ds⟩ := x
      cases hds : manyUpTo item bound ds with
      | none =>
        simp only [bind_apply, hcs, Option.bind_some, hds] at h
        cases h
        exact isRow_zero _
      | some y =>
        simp only [bind_apply, hcs, Option.bind_some, hds] at h
        cases h
        rw [List.length_cons, Nat.add_comm]
        exact (hitem cs c ds hcs).append (ih hds)

theorem isRow_of_digits {found : List Char} (h : digits Char.isDigit cs = some (found, rest)) :
    IsRow found.length cs rest := by
  obtain ⟨c, ds, hc, h⟩ := bind_eq_some_iff.mp h
  obtain ⟨others, ds', hothers, h⟩ := bind_eq_some_iff.mp h
  cases h
  have hitem : ∀ cs c rest, (accept ['_'] *> one Char.isDigit : Reader Char) cs = some (c, rest) →
      IsRow 1 cs rest := by
    intro cs c rest hcs
    rw [seqRight_eq, bind_eq_some_iff] at hcs
    obtain ⟨b, ds, hb, hc⟩ := hcs
    have := (isRow_of_accept hb).append (isRow_of_one hc)
    rwa [Nat.zero_add] at this
  rw [List.length_cons, Nat.add_comm]
  exact (isRow_of_one hc).append (isRow_of_manyUpTo hitem hothers)

theorem isRow_of_wholePart {found : List Char} (h : wholePart cs = some (found, rest)) :
    IsRow found.length cs rest := by
  rw [wholePart, orElse_apply, seqRight_eq, bind_apply] at h
  cases hzero : char '0' cs with
  | none =>
    rw [hzero] at h
    exact isRow_of_digits h
  | some x =>
    rw [hzero] at h
    cases h
    rw [char_eq_some_iff.mp hzero]
    exact isRow_singleton rfl _

theorem Fits.length_le {d k : Nat} (h : Fits d k cs) (hrow : IsRow n cs rest) : n ≤ d := by
  obtain ⟨run, rfl, hrun, rfl⟩ := hrow
  exact h.row run (List.prefix_append _ _).isInfix hrun

end Rows

/-! ## Readers that are not stopped -/

/-- On these texts the reader is not stopped, and it takes what it reads off their front. -/
def Runs {α : Type} (P : List Char → Prop) (r : Limited α) : Prop :=
  ∀ cs, P cs → ∃ o : Option (α × List Char), (r cs).run = .ok o ∧ ∀ x ∈ o, x.2 <:+ cs

namespace Runs

variable {α β : Type} {P Q : List Char → Prop} {d k : Nat} {r : Limited α} {f : α → Limited β}

theorem mono (hr : Runs Q r) (h : ∀ cs, P cs → Q cs) : Runs P r := fun cs hcs => hr cs (h cs hcs)

theorem pure (a : α) : Runs P (pure a : Limited α) := by
  refine fun cs _ => ⟨some (a, cs), rfl, ?_⟩
  rintro _ ⟨⟩
  exact List.suffix_refl cs

theorem failure : Runs P (failure : Limited α) := fun _ _ => ⟨none, rfl, nofun⟩

theorem lift (r : Reader α) [hr : Takes r] : Runs P (liftM r : Limited α) :=
  fun cs _ => ⟨r cs, rfl, fun x hx => hr.leaves cs x.1 x.2 hx⟩

theorem orElse {s : Limited α} (hr : Runs P r) (hs : Runs P s) : Runs P (r <|> s) := by
  intro cs hcs
  obtain ⟨o, ho, hrest⟩ := hr cs hcs
  cases o with
  | none =>
    obtain ⟨o', ho', hrest'⟩ := hs cs hcs
    refine ⟨o', ?_, hrest'⟩
    change (r cs).run >>= _ = _
    rw [ho]
    exact ho'
  | some x =>
    refine ⟨some x, ?_, hrest⟩
    change (r cs).run >>= _ = _
    rw [ho]
    rfl

/-- What the first reader has read is known where the second one goes on. -/
theorem bind_of {Q : α → List Char → Prop} (hr : Runs P r)
    (hQ : ∀ cs a rest, P cs → (r cs).run = .ok (some (a, rest)) → rest <:+ cs → Q a rest)
    (hf : ∀ a, Runs (Q a) (f a)) : Runs P (r >>= f) := by
  intro cs hcs
  obtain ⟨o, ho, hrest⟩ := hr cs hcs
  have hrun : ((r >>= f) cs).run = (r cs >>= fun x => f x.1 x.2).run := rfl
  rw [OptionT.run_bind, ho] at hrun
  cases o with
  | none => exact ⟨none, hrun, nofun⟩
  | some x =>
    obtain ⟨a, ds⟩ := x
    have hds : ds <:+ cs := hrest _ rfl
    obtain ⟨o', ho', hrest'⟩ := hf a ds (hQ cs a ds hcs ho hds)
    exact ⟨o', hrun.trans ho', fun x hx => (hrest' x hx).trans hds⟩

theorem bind (hr : Runs (Fits d k) r) (hf : ∀ a, Runs (Fits d k) (f a)) :
    Runs (Fits d k) (r >>= f) :=
  bind_of hr (fun _ _ _ hcs _ hrest => hcs.of_rest hrest) hf

theorem read_of {s : Reader α} [Takes s] {Q : α → List Char → Prop}
    (hQ : ∀ cs a rest, P cs → s cs = some (a, rest) → rest <:+ cs → Q a rest)
    (hf : ∀ a, Runs (Q a) (f a)) : Runs P (liftM s >>= f) :=
  bind_of (lift s) (fun cs a rest hcs hs => hQ cs a rest hcs (Except.ok.inj hs)) hf

theorem read {s : Reader α} [Takes s] (hf : ∀ a, Runs (Fits d k) (f a)) :
    Runs (Fits d k) (liftM s >>= f) :=
  bind (lift s) hf

theorem ite {c : Prop} [Decidable c] {r s : Limited α} (hr : c → Runs P r) (hs : ¬c → Runs P s) :
    Runs P (if c then r else s) := by
  split
  · exact hr ‹_›
  · exact hs ‹_›

end Runs

variable {d k : Nat} {limits : Limits}

/-! ## The readers of values -/

theorem runs_decimalNumber : Runs (Fits d k) (decimalNumber d) := by
  refine .read fun negative => ?_
  refine .read_of (Q := fun whole rest => whole.length ≤ d ∧ Fits d k rest)
    (fun cs whole rest hcs hwhole hrest =>
      ⟨hcs.length_le (isRow_of_wholePart hwhole), hcs.of_rest hrest⟩) fun whole => ?_
  intro cs hcs
  refine Runs.read (fun fraction => .read fun exponent => .ite (fun _ => ?_) fun _ => .pure _)
    cs hcs.2
  exact .ite (fun hlt => absurd hcs.1 (Nat.not_le.mpr hlt)) fun _ => .bind (.pure _) fun _ => .pure _

theorem runs_scalar : Runs (Fits d k) (scalar d) :=
  .orElse (.lift _) (.orElse runs_decimalNumber (.lift _))

theorem runs_itemsUpTo {item : Limited Value} (hitem : Runs (Fits d k) item) :
    ∀ bound, Runs (Fits d k) (itemsUpTo item bound)
  | 0 => .failure
  | bound + 1 => .read fun _ => .ite (fun _ => .pure _) fun _ =>
      .bind hitem fun _ => .read fun _ => .read fun _ => .ite (fun _ => .pure _) fun _ =>
        .read fun _ => .read fun _ => .bind (runs_itemsUpTo hitem bound) fun _ => .pure _

theorem runs_fieldsUpTo {field : Limited (List String × Value)} (hfield : Runs (Fits d k) field) :
    ∀ bound t, Runs (Fits d k) (fieldsUpTo field bound t)
  | 0, _ => .failure
  | bound + 1, t => by
    refine .bind hfield fun (key, v) => ?_
    dsimp only
    split
    · exact .failure
    · exact .read fun _ => .read fun _ => .ite (fun _ => .pure _) fun _ =>
        .read fun _ => .read fun _ => runs_fieldsUpTo hfield bound _

/-- Where a reader takes a bracket first, what comes behind has three calls less. -/
theorem runs_behind {α : Type} {c : Char} (hc : isBracket c) {f : Unit → Limited α}
    (hf : ∀ u, Runs (Fits d k) (f u)) :
    Runs (fun cs => Fits d (k + 3) cs) (liftM (char c) >>= f) := by
  refine .read_of (fun cs _ rest hcs hchar _ => ?_) hf
  rw [char_eq_some_iff.mp hchar] at hcs
  exact hcs.of_bracket hc

/-- The calls that the readers of values have left are enough for the brackets that are left; an array or a
table is read only where its bracket stands. -/
theorem runs_values (limits : Limits) : ∀ k,
    Runs (Fits limits.digits (k + 1)) (value limits k) ∧
      Runs (fun cs => Fits limits.digits (k + 2) cs ∧ cs.head? = some '[') (array limits k) ∧
      Runs (fun cs => Fits limits.digits (k + 2) cs ∧ cs.head? = some '{') (table limits k) ∧
      Runs (Fits limits.digits k) (pair limits k)
  | 0 =>
    ⟨fun _ h => absurd h.two_le (by decide), fun _ h => absurd (h.1.five_le h.2 rfl) (by decide),
      fun _ h => absurd (h.1.five_le h.2 rfl) (by decide), fun _ h => absurd h.two_le (by decide)⟩
  | k + 1 => by
    obtain ⟨hvalue, harray, htable, hpair⟩ := runs_values limits k
    refine ⟨?_, ?_, ?_, ?_⟩
    · refine .read_of (Q := fun head cs => Fits limits.digits (k + 2) cs ∧ cs.head? = head)
        (fun cs head rest hcs hhead _ => ?_) fun head => ?_
      · cases hhead
        exact ⟨hcs, rfl⟩
      have hplain {r : Limited Value} (hr : Runs (Fits limits.digits (k + 2)) r) :
          Runs (fun cs => Fits limits.digits (k + 2) cs ∧ cs.head? = head) r :=
        hr.mono fun _ h => h.1
      split
      · exact hplain (.read fun _ => .pure _)
      · exact hplain (.read fun _ => .pure _)
      · exact hplain (.read fun _ => .pure _)
      · exact hplain (.read fun _ => .pure _)
      · exact .bind_of harray (fun _ _ _ hcs _ hrest => hcs.1.of_rest hrest) fun _ => .pure _
      · exact .bind_of htable (fun _ _ _ hcs _ hrest => hcs.1.of_rest hrest) fun _ => .pure _
      · exact hplain runs_scalar
    · refine (runs_behind (by decide) fun _ => .read fun _ => ?_).mono fun _ h => h.1
      exact fun cs hcs => (runs_itemsUpTo (hvalue.mono fun _ h => h.mono (Nat.le_succ k))) _ cs hcs
    · refine (runs_behind (by decide) fun _ => .read fun _ => .read fun _ => ?_).mono fun _ h => h.1
      exact .ite (fun _ => .pure _) fun _ cs hcs => runs_fieldsUpTo hpair _ _ cs hcs
    · exact .read fun _ => .read fun _ => .read fun _ => .bind hvalue fun _ => .pure _

/-! ## The readers of lines -/

theorem runs_statement (doc : Document) :
    Runs (Fits limits.digits limits.calls) (statement limits doc) := by
  have hpair := (runs_values limits limits.calls).2.2.2
  have hend {f : Option Document → Limited Document} (hnone : f none = failure)
      (hsome : ∀ d, f (some d) = pure d) (next : Option Document) :
      Runs (Fits limits.digits limits.calls) (f next) := by
    cases next with
    | some d => exact hsome d ▸ .pure d
    | none => exact hnone ▸ .failure
  refine .read fun _ => .ite (fun _ => ?_) fun _ => .read fun _ => .ite (fun _ => ?_) fun _ => ?_
  · exact .read fun _ => .read fun _ => .read fun _ => .bind (.pure _) (hend rfl fun _ => rfl)
  · exact .read fun _ => .read fun _ => .read fun _ => .bind (.pure _) (hend rfl fun _ => rfl)
  · exact .bind hpair fun _ => .bind (.pure _) (hend rfl fun _ => rfl)

theorem runs_line (doc : Document) : Runs (Fits limits.digits limits.calls) (line limits doc) := by
  have hend (d : Document) : Runs (Fits limits.digits limits.calls)
      (liftM lineEnd >>= fun _ => Pure.pure d) := .read fun _ => .pure d
  exact .read fun _ => .read fun _ =>
    .ite (fun _ => .bind (.pure doc) hend) fun _ => .bind (runs_statement doc) hend

theorem runs_linesUpTo : ∀ bound doc,
    Runs (Fits limits.digits limits.calls) (linesUpTo limits bound doc)
  | 0, _ => .failure
  | bound + 1, doc => .bind (runs_line doc) fun _ => .read fun _ => .ite (fun _ => .pure _) fun _ =>
      .read fun _ => runs_linesUpTo bound _

/-! ## Documents -/

section Returns

variable {run : List Char}

theorem sublist_dropReturns (cs : List Char) : (dropReturns cs).Sublist cs := by
  induction cs using dropReturns.induct with
  | case1 => exact List.Sublist.refl _
  | case2 cs ih => exact (ih.cons_cons '\n').cons '\r'
  | case3 c cs hbreak ih =>
    rw [dropReturns.eq_3 c cs hbreak]
    exact ih.cons_cons c

/-- Nothing is dropped within a line. -/
theorem isPrefix_of_dropReturns (cs : List Char) (hrun : '\n' ∉ run) (h : run <+: dropReturns cs) :
    run <+: cs := by
  induction cs using dropReturns.induct generalizing run with
  | case1 => exact h
  | case2 cs ih =>
    rcases List.prefix_cons_iff.mp h with rfl | ⟨run, rfl, -⟩
    · exact List.nil_prefix
    · exact absurd List.mem_cons_self hrun
  | case3 c cs hbreak ih =>
    rw [dropReturns.eq_3 c cs hbreak] at h
    rcases List.prefix_cons_iff.mp h with rfl | ⟨run, rfl, hrest⟩
    · exact List.nil_prefix
    · exact (List.prefix_cons_inj c).mpr (ih (fun hmem => hrun (List.mem_cons_of_mem c hmem)) hrest)

theorem isInfix_of_dropReturns (cs : List Char) (hrun : '\n' ∉ run)
    (h : run <:+: dropReturns cs) : run <:+: cs := by
  induction cs using dropReturns.induct with
  | case1 => exact h
  | case2 cs ih =>
    rcases List.infix_cons_iff.mp h with hprefix | hinfix
    · exact (isPrefix_of_dropReturns ('\r' :: '\n' :: cs) hrun hprefix).isInfix
    · exact ((ih hinfix).trans (List.suffix_cons _ _).isInfix).trans (List.suffix_cons _ _).isInfix
  | case3 c cs hbreak ih =>
    have hall := dropReturns.eq_3 c cs hbreak
    rcases List.infix_cons_iff.mp (hall ▸ h) with hprefix | hinfix
    · exact (isPrefix_of_dropReturns (c :: cs) hrun (hall ▸ hprefix)).isInfix
    · exact (ih hinfix).trans (List.suffix_cons _ _).isInfix

end Returns

theorem Fits.dropReturns {cs : List Char} (h : Fits d k cs) : Fits d k (dropReturns cs) where
  row run hrun hmarks := by
    have hbreak : '\n' ∉ run := fun hmem => absurd (hmarks _ hmem) (by decide)
    exact h.row run (isInfix_of_dropReturns cs hbreak hrun) hmarks
  room := by
    have hcount : (Toml.dropReturns cs).countP isBracket ≤ cs.countP isBracket :=
      (sublist_dropReturns cs).countP_le
    have := h.room
    omega

theorem limit?_eq_some_iff {text : List Char} {l : Limit} :
    limit? limits text = some l ↔ parse? limits text = .error l := by
  unfold limit?
  cases parse? limits text with
  | ok v => simp
  | error l' => simp

/-- Nothing stops the reading of a text that fits, whether or not it is a document. -/
theorem Fits.limit?_eq_none {text : List Char} (h : Fits limits.digits limits.calls text) :
    limit? limits text = none := by
  have hlines : Runs (Fits limits.digits limits.calls) (linesUpTo limits _ {}) :=
    runs_linesUpTo ((Toml.dropReturns text).length + 1) {}
  obtain ⟨o, ho, -⟩ := hlines (Toml.dropReturns text) h.dropReturns
  unfold OptionT.run at ho
  unfold limit? parse?
  dsimp only
  rw [ho]
  rcases o with _ | ⟨d, _ | ⟨c, cs⟩⟩
  · rfl
  · rfl
  · rfl

end CronWrap.Toml
