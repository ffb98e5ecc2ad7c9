import CronWrap.Proofs.Module.Spelling

/-! The quick look at a text finds an import exactly when the text spells one out. -/
namespace CronWrap.Mention

open Text

/-! ## The parts of an import -/

def IsQuote (c : Char) : Prop := c = '"' ∨ c = '\''

/-- The module between quotes. -/
def SpellsQuoted (module cs : List Char) : Prop :=
  ∃ q l rest, cs = q :: (module ++ l :: rest) ∧ IsQuote q ∧ IsQuote l

/-- The word `from` and the module. -/
def SpellsModule (module : List Char) : List Char → Prop :=
  Blanks (Spells "from".toList (Blanks (SpellsQuoted module)))

/-- The name as a word of its own, the rest of the list, and the module. -/
def SpellsName (name module : List Char) (before : Option Char) (cs : List Char) : Prop :=
  ∃ others rest, cs = name ++ (others ++ '}' :: rest) ∧ '}' ∉ others ∧
    isBoundary before cs.head? ∧
    isBoundary (name.getLast? <|> before) (others ++ '}' :: rest).head? ∧
    SpellsModule module rest

/-- A list of names behind its opening brace, with the name somewhere in it, and the module. -/
def SpellsRest (name module : List Char) : Option Char → List Char → Prop :=
  Behind (· ≠ '}') (SpellsName name module)

def SpellsList (name module : List Char) : List Char → Prop :=
  Spells ['{'] (SpellsRest name module (some '{'))

/-- A list of names, perhaps behind a default import and a comma. -/
def SpellsClause (name module cs : List Char) : Prop :=
  SpellsList name module cs ∨
    ∃ single rest, cs = single ++ rest ∧ single ≠ [] ∧ (∀ c ∈ single, isNamePart c) ∧
      Blanks (Spells [','] (Blanks (SpellsList name module))) rest

/-- A clause, perhaps behind the word `type` and at least one blank. -/
def SpellsImported (name module cs : List Char) : Prop :=
  SpellsClause name module cs ∨
    Spells "type".toList
      (fun cs => ∃ c rest, cs = c :: rest ∧ isBlank c ∧ Blanks (SpellsClause name module) rest) cs

/-- Somewhere in the text the word `import` stands with all that belongs to an import of `name` from
`module`, and with nothing but blanks in between. -/
def SpellsImport (name module : List Char) : Option Char → List Char → Prop :=
  Behind (fun _ => True) fun before cs => isBoundary before cs.head? ∧
    Spells "import".toList (Blanks (SpellsImported name module)) cs

/-! ## The parts are found -/

theorem not_spellsQuoted_nil (module : List Char) : ¬ SpellsQuoted module [] := by
  rintro ⟨q, l, rest, he, -⟩
  cases he

theorem spellsQuoted_cons (module : List Char) (q : Char) (rest : List Char) :
    SpellsQuoted module (q :: rest) ↔
      IsQuote q ∧ Spells module (fun cs => ∃ l after, cs = l :: after ∧ IsQuote l) rest := by
  constructor
  · rintro ⟨q, l, after, he, hq, hl⟩
    obtain ⟨rfl, rfl⟩ := List.cons.inj he
    exact ⟨hq, _, rfl, l, after, rfl, hl⟩
  · rintro ⟨hq, _, rfl, l, after, rfl, hl⟩
    exact ⟨q, l, after, rfl, hq, hl⟩

theorem not_spellsQuoted_of_blank (module : List Char) {c : Char} (rest : List Char)
    (h : isBlank c) : ¬ SpellsQuoted module (c :: rest) := by
  rintro ⟨q, l, after, he, hq, -⟩
  obtain ⟨rfl, -⟩ := List.cons.inj he
  rcases hq with rfl | rfl <;> revert h <;> decide

theorem namesModule_iff (module cs : List Char) :
    namesModule module cs = true ↔ SpellsModule module cs := by
  have hfrom : ∀ c rest, isBlank c →
      ¬ Spells "from".toList (Blanks (SpellsQuoted module)) (c :: rest) :=
    fun c rest hc => not_spells_cons_of_ne (ne_of_isBlank hc (by decide)) _ _ _
  rw [SpellsModule, blanks_iff hfrom, spells_iff]
  simp only [blanks_iff fun c rest => not_spellsQuoted_of_blank module rest]
  unfold namesModule
  cases "from".toList.isPrefixOf? (dropBlanks cs) with
  | none => simp
  | some rest =>
    simp only [Option.some.injEq, exists_eq_left']
    cases dropBlanks rest with
    | nil => simp [not_spellsQuoted_nil]
    | cons q rest =>
      rw [spellsQuoted_cons, spells_iff]
      cases hm : module.isPrefixOf? rest with
      | none => simp [hm]
      | some tail => cases tail <;> simp [hm, IsQuote]

theorem here_iff (name module : List Char) (before : Option Char) (cs : List Char) :
    inList.here name module before cs = true ↔ SpellsName name module before cs := by
  unfold inList.here
  constructor
  · intro h
    split at h
    · cases h
    · rename_i rest hname
      rw [List.isPrefixOf?_eq_some_iff_append_eq] at hname
      simp only [Bool.and_eq_true] at h
      obtain ⟨⟨hbefore, hafter⟩, hrest⟩ := h
      split at hrest
      · cases hrest
      · rename_i c tail hdrop
        obtain ⟨-, others, rfl, hothers⟩ := (dropWhile_ne_eq_cons_iff _ _ _ _).mp hdrop
        exact ⟨others, tail, hname.symm, hothers, hbefore, hafter, (namesModule_iff _ _).mp hrest⟩
  · rintro ⟨others, rest, rfl, hothers, hbefore, hafter, hmodule⟩
    have hname : name.isPrefixOf? (name ++ (others ++ '}' :: rest)) =
        some (others ++ '}' :: rest) :=
      List.isPrefixOf?_eq_some_iff_append_eq.mpr rfl
    have hdrop : (others ++ '}' :: rest).dropWhile (· ≠ '}') = '}' :: rest :=
      (dropWhile_ne_eq_cons_iff _ _ _ _).mpr ⟨rfl, others, rfl, hothers⟩
    simp only [hname, hdrop, hbefore, hafter, (namesModule_iff _ _).mpr hmodule, Bool.and_self]

theorem inList_iff (name module : List Char) (before : Option Char) (cs : List Char) :
    inList name module before cs = true ↔ SpellsRest name module before cs := by
  unfold SpellsRest
  induction cs generalizing before with
  | nil => rw [inList, here_iff, behind_nil]
  | cons c cs ih =>
    rw [inList, behind_cons, Bool.or_eq_true, Bool.and_eq_true, here_iff, ih]
    simp

theorem opensList_iff (name module cs : List Char) :
    opensList name module cs = true ↔ SpellsList name module cs := by
  unfold opensList SpellsList
  split
  · rw [inList_iff, spells_singleton]
    simp
  · rename_i hne
    simp only [spells_singleton, Bool.false_eq_true, false_iff]
    rintro ⟨rest, rfl, -⟩
    exact hne rest rfl

theorem not_spellsList_of_blank (name module : List Char) {c : Char} (rest : List Char)
    (h : isBlank c) : ¬ SpellsList name module (c :: rest) :=
  not_spells_cons_of_ne (ne_of_isBlank h (by decide)) _ _ _

theorem isClause_iff (name module cs : List Char) :
    isClause name module cs = true ↔ SpellsClause name module cs := by
  have hlist : ∀ c rest, isBlank c → ¬ SpellsList name module (c :: rest) :=
    fun c rest => not_spellsList_of_blank name module rest
  have hcomma : ∀ c rest, isBlank c →
      ¬ Spells [','] (Blanks (SpellsList name module)) (c :: rest) :=
    fun c rest hc => not_spells_cons_of_ne (ne_of_isBlank hc (by decide)) _ _ _
  have hname : ∀ c rest, isNamePart c →
      ¬ Blanks (Spells [','] (Blanks (SpellsList name module))) (c :: rest) := by
    intro c rest hc h
    have hblank : ¬ isBlank c := fun hb => by simp [not_isNamePart_of_isBlank hb] at hc
    rw [blanks_iff hcomma, dropBlanks_cons_of_not_blank hblank] at h
    have hne : c ≠ ',' := by
      rintro rfl
      revert hc
      decide
    exact not_spells_cons_of_ne hne _ _ _ h
  rw [SpellsClause, run_iff hname, blanks_iff hcomma, isClause, Bool.or_eq_true, opensList_iff,
    Bool.and_eq_true, decide_eq_true_iff]
  refine or_congr_right (and_congr_right fun _ => ?_)
  split
  · rename_i rest hdrop
    rw [hdrop, opensList_iff, spells_singleton]
    simp [blanks_iff hlist]
  · rename_i hne
    simp only [spells_singleton, Bool.false_eq_true, false_iff]
    rintro ⟨rest, he, -⟩
    exact hne rest he

theorem not_spellsClause_of_isBlank (name module : List Char) {c : Char} (rest : List Char)
    (h : isBlank c) : ¬ SpellsClause name module (c :: rest) := by
  rintro (hlist | ⟨single, after, he, hne, hsingle, -⟩)
  · exact not_spellsList_of_blank name module rest h hlist
  · cases single with
    | nil => exact hne rfl
    | cons d single =>
      obtain ⟨rfl, -⟩ := List.cons.inj he
      have hc := hsingle c (by simp)
      rw [not_isNamePart_of_isBlank h] at hc
      cases hc

theorem followsImport_iff (name module cs : List Char) :
    followsImport name module cs = true ↔ Blanks (SpellsImported name module) cs := by
  have hclause : ∀ c rest, isBlank c → ¬ SpellsClause name module (c :: rest) :=
    fun c rest => not_spellsClause_of_isBlank name module rest
  have himported : ∀ c rest, isBlank c → ¬ SpellsImported name module (c :: rest) := by
    rintro c rest hc (h | h)
    · exact hclause c rest hc h
    · exact not_spells_cons_of_ne (ne_of_isBlank hc (by decide)) _ _ _ h
  rw [blanks_iff himported, SpellsImported, followsImport, Bool.or_eq_true, isClause_iff,
    spells_iff]
  refine or_congr_right ?_
  split
  · rename_i c rest htype
    rw [htype, Bool.and_eq_true, isClause_iff]
    simp only [Option.some.injEq, exists_eq_left', blanks_iff hclause, List.cons.injEq]
    exact ⟨fun h => ⟨c, rest, ⟨rfl, rfl⟩, h⟩, fun ⟨_, _, ⟨hc, hrest⟩, h⟩ => hc ▸ hrest ▸ h⟩
  · rename_i hne
    simp only [Bool.false_eq_true, false_iff]
    rintro ⟨_, htype, c, rest, rfl, -⟩
    exact hne c rest htype

theorem mentionsFrom_iff (name module : List Char) (before : Option Char) (cs : List Char) :
    mentionsFrom name module before cs = true ↔ SpellsImport name module before cs := by
  unfold SpellsImport
  induction cs generalizing before with
  | nil =>
    rw [mentionsFrom, behind_nil, spells_iff]
    simp
  | cons c cs ih =>
    rw [mentionsFrom, behind_cons, Bool.or_eq_true, ih, true_and]
    refine or_congr_left ?_
    rw [spells_iff]
    split
    · rename_i rest himport
      rw [himport]
      simp [followsImport_iff]
    · rename_i himport
      rw [himport]
      simp

/-- The quick look finds exactly the imports that are spelled out. -/
theorem mentionsImport_iff (source : List Char) (name module : String) :
    mentionsImport source name module = true ↔
      SpellsImport name.toList module.toList none source :=
  mentionsFrom_iff _ _ _ _

end CronWrap.Mention
