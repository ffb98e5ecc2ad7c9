import CronWrap.Proofs.Wrapper.PlanShape

/-! When a plan is refused. Planning compares the sites that are the first of their keys, so a clash
is seen exactly when two of those are in one; a site behind another of its key is not looked at. -/
namespace CronWrap.Wrapper

open CallSite

/-- Two sites that want one wrapper for two functions. -/
def Clash (table : AliasTable) (c d : CallSite) : Prop :=
  c.functionName = d.functionName ∧ c.identity table ≠ d.identity table

theorem Clash.symm {table : AliasTable} {c d : CallSite} (h : Clash table c d) :
    Clash table d c := ⟨h.1.symm, Ne.symm h.2⟩

/-- Planning goes through exactly when the sites agree with what is known of their names, and with
each other. -/
theorem planFrom_ok_iff (container : Path) (table : AliasTable) (sites : List CallSite)
    (known : List (String × (String × Option String))) :
    (∃ ws, planFrom container table known sites = .ok ws) ↔
      (∀ c ∈ sites, ∀ identity, known.lookup c.functionName = some identity →
        identity = c.identity table) ∧
      ∀ c ∈ sites, ∀ d ∈ sites, ¬ Clash table c d := by
  induction sites generalizing known with
  | nil => simp [planFrom]
  | cons c rest ih =>
    cases hk : known.lookup c.functionName with
    | some existing =>
      by_cases he : existing = c.identity table
      · have hstep : planFrom container table known (c :: rest) =
            planFrom container table known rest := by simp [planFrom, hk, he]
        rw [hstep, ih]
        constructor
        · rintro ⟨hknown, hrest⟩
          have hc : ∀ d ∈ rest, ¬ Clash table c d := by
            rintro d hd ⟨hname, hne⟩
            exact hne (he ▸ hknown d hd existing (hname ▸ hk))
          refine ⟨?_, ?_⟩
          · rintro d (_ | ⟨_, hd⟩) identity hi
            · rw [hk, Option.some.injEq] at hi
              exact hi ▸ he
            · exact hknown d hd identity hi
          · rintro d (_ | ⟨_, hd⟩) e (_ | ⟨_, he'⟩)
            · exact fun h => h.2 rfl
            · exact hc e he'
            · exact fun h => hc d hd h.symm
            · exact hrest d hd e he'
        · rintro ⟨hknown, hall⟩
          exact ⟨fun d hd => hknown d (List.mem_cons_of_mem _ hd),
            fun d hd e he' => hall d (List.mem_cons_of_mem _ hd) e (List.mem_cons_of_mem _ he')⟩
      · have hstep : planFrom container table known (c :: rest) =
            .error ⟨c.functionName, existing.1, (c.identity table).1⟩ := by
          simp [planFrom, hk, he]
        rw [hstep]
        constructor
        · rintro ⟨ws, hws⟩
          cases hws
        · rintro ⟨hknown, -⟩
          exact absurd (hknown c (by simp) existing hk) he
    | none =>
      have hstep : (∃ ws, planFrom container table known (c :: rest) = .ok ws) ↔
          ∃ ws, planFrom container table ((c.functionName, c.identity table) :: known) rest =
            .ok ws := by
        simp only [planFrom, hk]
        cases planFrom container table ((c.functionName, c.identity table) :: known) rest with
        | error e => simp [bind, Except.bind]
        | ok ws => simp [bind, Except.bind, pure, Except.pure]
      rw [hstep, ih]
      -- What is newly known of the name of `c` is what its clashes with later sites are about.
      have hnew : ∀ d : CallSite, (∀ identity,
          ((c.functionName, c.identity table) :: known).lookup d.functionName = some identity →
            identity = d.identity table) ↔
          ¬ Clash table c d ∧ (∀ identity, known.lookup d.functionName = some identity →
            identity = d.identity table) := by
        intro d
        by_cases hname : d.functionName = c.functionName
        · simp only [hname, List.lookup_cons_self, Option.some.injEq, hk, Clash]
          simp [eq_comm]
        · have hne : (d.functionName == c.functionName) = false := beq_eq_false_iff_ne.mpr hname
          simp only [List.lookup_cons, hne, Clash]
          simp [Ne.symm hname]
      simp only [hnew]
      constructor
      · rintro ⟨hknown, hrest⟩
        refine ⟨?_, ?_⟩
        · rintro d (_ | ⟨_, hd⟩) identity hi
          · rw [hk] at hi
            cases hi
          · exact (hknown d hd).2 identity hi
        · rintro d (_ | ⟨_, hd⟩) e (_ | ⟨_, he⟩)
          · exact fun h => h.2 rfl
          · exact (hknown e he).1
          · exact fun h => (hknown d hd).1 h.symm
          · exact hrest d hd e he
      · rintro ⟨hknown, hall⟩
        refine ⟨fun d hd => ⟨hall c (by simp) d (by simp [hd]), hknown d (by simp [hd])⟩, ?_⟩
        exact fun d hd e he => hall d (by simp [hd]) e (by simp [he])

theorem plan_error_iff_not_ok (sites : List CallSite) (container : Path) (table : AliasTable) :
    (∃ e, plan sites container table = .error e) ↔ ¬ ∃ ws, plan sites container table = .ok ws := by
  cases plan sites container table <;> simp

/-- A plan is refused exactly when two sites clash that are each the first of its key. -/
theorem plan_error_iff (sites : List CallSite) (container : Path) (table : AliasTable) :
    (∃ e, plan sites container table = .error e) ↔
      ∃ c d, IsFirst sites c ∧ IsFirst sites d ∧ Clash table c d := by
  rw [plan_error_iff_not_ok, plan, planFrom_ok_iff]
  simp only [mem_dedup_iff, List.lookup_nil, reduceCtorEq, false_implies, implies_true, true_and]
  simp only [not_forall, not_not, exists_prop]
  constructor
  · rintro ⟨c, hc, d, hd, h⟩
    exact ⟨c, d, hc, hd, h⟩
  · rintro ⟨c, d, hc, hd, h⟩
    exact ⟨c, hc, d, hd, h⟩

/-- The first sites of their keys meet no clash in a plan that goes through. -/
theorem identity_eq_of_plan {sites : List CallSite} {container : Path} {table : AliasTable}
    {ws : List Wrapper} (h : plan sites container table = .ok ws) {c d : CallSite}
    (hc : IsFirst sites c) (hd : IsFirst sites d) (hname : c.functionName = d.functionName) :
    c.identity table = d.identity table := by
  by_contra hne
  obtain ⟨e, he⟩ := (plan_error_iff sites container table).mpr ⟨c, d, hc, hd, hname, hne⟩
  rw [h] at he
  cases he

theorem exists_first_planned {sites : List CallSite} {container : Path} {table : AliasTable}
    {ws : List Wrapper} (h : plan sites container table = .ok ws) {c : CallSite} (hc : c ∈ sites) :
    ∃ d, IsFirst sites d ∧ ofSite container table d ∈ ws ∧ d.functionName = c.functionName := by
  obtain ⟨w, hw, hname⟩ := exists_mem_plan_of_site h hc
  obtain ⟨d, hd, rfl⟩ := exists_site_of_mem_planFrom h hw
  exact ⟨d, (mem_dedup_iff _ _).mp hd, hw, hname⟩

/-- A plan is refused exactly when two sites clash that are each the first of its key. So a clash in
the list is sure to be refused exactly when it makes such a pair; and of a plan that goes through, a
site gets the function that it asks for exactly when the first site of its key asks for the same. -/
theorem plan_refused_iff_first_clash (sites : List CallSite) (container : Path)
    (table : AliasTable) :
    ((∃ e, plan sites container table = .error e) ↔
      ∃ c d, IsFirst sites c ∧ IsFirst sites d ∧ Clash table c d) ∧
    (((∃ e, plan sites container table = .error e) ↔
        ∃ c ∈ sites, ∃ d ∈ sites, Clash table c d) ↔
      ((∃ c ∈ sites, ∃ d ∈ sites, Clash table c d) →
        ∃ c d, IsFirst sites c ∧ IsFirst sites d ∧ Clash table c d)) ∧
    ∀ ws, plan sites container table = .ok ws → ∀ c ∈ sites, ∃ first planned,
      IsFirst sites first ∧ first.key = c.key ∧
      planned ∈ sites ∧ ofSite container table planned ∈ ws ∧
      planned.functionName = c.functionName ∧
      (planned.identity table = c.identity table ↔ first.identity table = c.identity table) := by
  refine ⟨plan_error_iff sites container table, ?_, ?_⟩
  · rw [plan_error_iff]
    constructor
    · exact fun h => h.mpr
    · intro h
      refine ⟨?_, h⟩
      rintro ⟨c, d, hc, hd, hcd⟩
      exact ⟨c, hc.mem, d, hd.mem, hcd⟩
  · intro ws h c hc
    obtain ⟨first, hfirst, hkey⟩ := exists_isFirst hc
    obtain ⟨planned, hplanned, hw, hname⟩ := exists_first_planned h hc
    have hsame : first.functionName = c.functionName := congrArg Prod.fst hkey
    have he := identity_eq_of_plan h hplanned hfirst (hname.trans hsame.symm)
    exact ⟨first, planned, hfirst, hkey, hplanned.mem, hw, hname, by rw [he]⟩

/-- The same relative origin in two directories names two modules, and yet the plan goes through
with a wrapper for one of them. -/
theorem plan_of_same_origin_in_two_directories :
    let sites : List CallSite := [⟨"job", "./jobs", .parse "/p/a/page.ts", none⟩,
      ⟨"job", "./jobs", .parse "/p/b/page.ts", none⟩]
    let table : AliasTable := ⟨.parse "/p", []⟩
    (∃ c ∈ sites, ∃ d ∈ sites, Clash table c d) ∧
      ¬ ∃ e, plan sites (.parse "/p/src/app/cron-wrappers") table = .error e := by
  refine ⟨⟨_, List.mem_cons_self, _, List.mem_cons_of_mem _ List.mem_cons_self, rfl, ?_⟩, ?_⟩
  · decide
  · rintro ⟨e, he⟩
    cases he

end CronWrap.Wrapper
