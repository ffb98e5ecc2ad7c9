import CronWrap.Proofs.CallSite.Dedup

/-! The first call site of each function name. It does not matter whether later sites of its key
have been taken away before. -/
namespace CronWrap.CallSite

/-- The sites whose functions have none of these names. -/
def unnamed (names : List String) (sites : List CallSite) : List CallSite :=
  sites.filter fun c => c.functionName ∉ names

/-- The first site of each function name, in order. -/
def firstOfNames : List CallSite → List CallSite
  | [] => []
  | c :: rest => c :: unnamed [c.functionName] (firstOfNames rest)

@[simp] theorem unnamed_nil (names : List String) : unnamed names [] = [] := rfl

@[simp] theorem unnamed_no_names (sites : List CallSite) : unnamed [] sites = sites := by
  simp [unnamed]

theorem mem_unnamed {names : List String} {sites : List CallSite} {c : CallSite} :
    c ∈ unnamed names sites ↔ c ∈ sites ∧ c.functionName ∉ names := by simp [unnamed]

theorem unnamed_cons_of_mem {names : List String} {c : CallSite} (h : c.functionName ∈ names)
    (rest : List CallSite) : unnamed names (c :: rest) = unnamed names rest := by
  simp [unnamed, h]

theorem unnamed_cons_of_not_mem {names : List String} {c : CallSite}
    (h : c.functionName ∉ names) (rest : List CallSite) :
    unnamed names (c :: rest) = c :: unnamed names rest := by
  simp [unnamed, h]

theorem unnamed_append (names : List String) (as bs : List CallSite) :
    unnamed names (as ++ bs) = unnamed names as ++ unnamed names bs := by simp [unnamed]

theorem unnamed_unnamed (names more : List String) (sites : List CallSite) :
    unnamed names (unnamed more sites) = unnamed (more ++ names) sites := by
  simp only [unnamed, List.filter_filter]
  apply List.filter_congr
  intro c _
  simp [and_comm]

theorem unnamed_congr {names more : List String} (h : ∀ s, s ∈ names ↔ s ∈ more)
    (sites : List CallSite) : unnamed names sites = unnamed more sites := by
  apply List.filter_congr
  intro c _
  simp [h]

/-- Sites that go anyway may go before. -/
theorem unnamed_unnamed_of_mem {names : List String} {name : String} (h : name ∈ names)
    (sites : List CallSite) : unnamed names (unnamed [name] sites) = unnamed names sites := by
  rw [unnamed_unnamed]
  apply unnamed_congr
  intro s
  rw [List.singleton_append, List.mem_cons]
  exact or_iff_right_of_imp fun hs => hs ▸ h

/-! ## What is first -/

theorem firstOfNames_sublist (sites : List CallSite) : (firstOfNames sites).Sublist sites := by
  induction sites with
  | nil => exact List.Sublist.slnil
  | cons c rest ih => exact (List.filter_sublist.trans ih).cons_cons c

theorem mem_firstOfNames_iff {sites : List CallSite} {c : CallSite} :
    c ∈ firstOfNames sites ↔ sites.find? (·.functionName = c.functionName) = some c := by
  induction sites with
  | nil => simp [firstOfNames]
  | cons d rest ih =>
    rw [firstOfNames, List.mem_cons, mem_unnamed, ih]
    by_cases hname : d.functionName = c.functionName
    · simp [hname, eq_comm]
    · have hne : c ≠ d := fun he => hname (he ▸ rfl)
      simp [hname, hne, Ne.symm hname]

theorem pairwise_firstOfNames (sites : List CallSite) :
    (firstOfNames sites).Pairwise fun c d => c.functionName ≠ d.functionName := by
  induction sites with
  | nil => exact List.Pairwise.nil
  | cons c rest ih =>
    refine List.Pairwise.cons ?_ (ih.filter _)
    intro d hd he
    exact (mem_unnamed.mp hd).2 (by simp [he])

theorem firstOfNames_append (as bs : List CallSite) :
    firstOfNames (as ++ bs) =
      firstOfNames as ++ unnamed (as.map (·.functionName)) (firstOfNames bs) := by
  induction as with
  | nil => simp [firstOfNames]
  | cons a as ih =>
    have hnames : unnamed (as.map (·.functionName) ++ [a.functionName]) (firstOfNames bs) =
        unnamed ((a :: as).map (·.functionName)) (firstOfNames bs) := by
      apply unnamed_congr
      intro s
      simp [or_comm]
    rw [List.cons_append, firstOfNames, ih, unnamed_append, unnamed_unnamed, hnames]
    rfl

/-- A site behind another one of its name is not missed. -/
theorem firstOfNames_without {before after : List CallSite} {c : CallSite}
    (h : c.functionName ∈ before.map (·.functionName)) :
    firstOfNames (before ++ c :: after) = firstOfNames (before ++ after) := by
  rw [firstOfNames_append, firstOfNames_append, firstOfNames, unnamed_cons_of_mem h,
    unnamed_unnamed_of_mem h]

/-- The names that were seen apart, the sites that are first of their names are so among the sites
that are first of their keys. -/
theorem unnamed_firstOfNames_dedupFrom (seen : List (String × String)) (sites : List CallSite) :
    unnamed (seen.map (·.1)) (firstOfNames (dedupFrom seen sites)) =
      unnamed (seen.map (·.1)) (firstOfNames sites) := by
  induction sites generalizing seen with
  | nil => rfl
  | cons c rest ih =>
    by_cases hkey : c.key ∈ seen
    · have hname : c.functionName ∈ seen.map (·.1) := List.mem_map.mpr ⟨c.key, hkey, rfl⟩
      simp only [dedupFrom, hkey, if_true, firstOfNames]
      rw [ih, unnamed_cons_of_mem hname, unnamed_unnamed_of_mem hname]
    · have hrest : unnamed (c.functionName :: seen.map (·.1))
          (firstOfNames (dedupFrom (c.key :: seen) rest)) =
            unnamed (c.functionName :: seen.map (·.1)) (firstOfNames rest) := ih (c.key :: seen)
      have hboth : unnamed (seen.map (·.1)) (unnamed [c.functionName]
          (firstOfNames (dedupFrom (c.key :: seen) rest))) =
            unnamed (seen.map (·.1)) (unnamed [c.functionName] (firstOfNames rest)) := by
        rw [unnamed_unnamed, unnamed_unnamed]
        exact hrest
      simp only [dedupFrom, hkey, if_false, firstOfNames]
      by_cases hname : c.functionName ∈ seen.map (·.1)
      · rw [unnamed_cons_of_mem hname, unnamed_cons_of_mem hname, hboth]
      · rw [unnamed_cons_of_not_mem hname, unnamed_cons_of_not_mem hname, hboth]

theorem firstOfNames_dedup (sites : List CallSite) :
    firstOfNames (dedup sites) = firstOfNames sites := by
  simpa [dedup] using unnamed_firstOfNames_dedupFrom [] sites

end CronWrap.CallSite
