import CronWrap.Conversion.Imports
import CronWrap.Proofs.CallSite.Dedup
import CronWrap.Wrapper.Plan
import Mathlib.Data.List.Nodup

/-! The wrappers of a plan that goes through: one for each name, in the order in which the names
occur, each made from a site of that name. -/
namespace CronWrap

namespace Module

theorem mem_distinctFrom_iff (seen names : List String) (s : String) :
    s ∈ distinctFrom seen names ↔ s ∉ seen ∧ s ∈ names := by
  induction names generalizing seen with
  | nil => simp [distinctFrom]
  | cons t rest ih =>
    by_cases ht : t ∈ seen
    · have hne : s ∉ seen → s ≠ t := fun hs he => hs (he ▸ ht)
      simp only [distinctFrom, ht, if_true, ih, List.mem_cons]
      tauto
    · simp only [distinctFrom, ht, if_false, List.mem_cons, ih, not_or]
      constructor
      · rintro (rfl | ⟨⟨-, hs⟩, hr⟩)
        · exact ⟨ht, Or.inl rfl⟩
        · exact ⟨hs, Or.inr hr⟩
      · rintro ⟨hs, he⟩
        by_cases hst : s = t
        · exact Or.inl hst
        · exact Or.inr ⟨⟨hst, hs⟩, he.resolve_left hst⟩

theorem nodup_distinctFrom (seen names : List String) : (distinctFrom seen names).Nodup := by
  induction names generalizing seen with
  | nil => exact List.nodup_nil
  | cons t rest ih =>
    by_cases ht : t ∈ seen
    · simpa only [distinctFrom, ht, if_true] using ih seen
    · simp only [distinctFrom, ht, if_false, List.nodup_cons]
      refine ⟨?_, ih (t :: seen)⟩
      intro hmem
      exact ((mem_distinctFrom_iff _ _ _).mp hmem).1 (by simp)

theorem pairwise_distinctFrom (seen names : List String) :
    (distinctFrom seen names).Pairwise fun a b => names.idxOf a < names.idxOf b := by
  induction names generalizing seen with
  | nil => exact List.Pairwise.nil
  | cons t rest ih =>
    -- What is left behind the first name stands one place further on.
    have hlater : ∀ seen, t ∈ seen → (distinctFrom seen rest).Pairwise
        fun a b => (t :: rest).idxOf a < (t :: rest).idxOf b := by
      intro seen ht
      refine (ih seen).imp_of_mem ?_
      intro a b ha hb hab
      have hne : ∀ c ∈ distinctFrom seen rest, t ≠ c := by
        rintro c hc rfl
        exact ((mem_distinctFrom_iff _ _ _).mp hc).1 ht
      rw [List.idxOf_cons_ne rest (hne a ha), List.idxOf_cons_ne rest (hne b hb)]
      omega
    by_cases ht : t ∈ seen
    · simpa only [distinctFrom, ht, if_true] using hlater seen ht
    · simp only [distinctFrom, ht, if_false, List.pairwise_cons]
      refine ⟨?_, hlater (t :: seen) List.mem_cons_self⟩
      intro b hb
      have hne : t ≠ b := by
        rintro rfl
        exact ((mem_distinctFrom_iff _ _ _).mp hb).1 List.mem_cons_self
      rw [List.idxOf_cons_self, List.idxOf_cons_ne rest hne]
      omega

end Module

namespace Wrapper

open CallSite

@[simp] theorem functionName_ofSite (container : Path) (table : AliasTable) (c : CallSite) :
    (ofSite container table c).functionName = c.functionName := rfl

@[simp] theorem name_ofSite (container : Path) (table : AliasTable) (c : CallSite) :
    (ofSite container table c).name = Layout.wrapperName c.functionName := rfl

@[simp] theorem directory_ofSite (container : Path) (table : AliasTable) (c : CallSite) :
    (ofSite container table c).directory = Layout.triggerDir c.functionName := rfl

/-- One step of planning that goes through: a known name adds nothing, and a new one its wrapper. -/
theorem planFrom_cons_ok {container : Path} {table : AliasTable} {c : CallSite}
    {rest : List CallSite} {known : List (String × (String × Option String))} {ws : List Wrapper}
    (h : planFrom container table known (c :: rest) = .ok ws) :
    (known.lookup c.functionName = some (c.identity table) ∧
      planFrom container table known rest = .ok ws) ∨
    (known.lookup c.functionName = none ∧ ∃ others,
      planFrom container table ((c.functionName, c.identity table) :: known) rest = .ok others ∧
      ws = ofSite container table c :: others) := by
  cases hk : known.lookup c.functionName with
  | some existing =>
    simp only [planFrom, hk] at h
    split at h
    case isTrue he => exact Or.inl ⟨he ▸ rfl, h⟩
    case isFalse => cases h
  | none =>
    simp only [planFrom, hk] at h
    cases ho : planFrom container table ((c.functionName, c.identity table) :: known) rest with
    | error e => simp [ho, bind, Except.bind] at h
    | ok others =>
      simp only [ho, bind, Except.bind, pure, Except.pure, Except.ok.injEq] at h
      exact Or.inr ⟨rfl, others, rfl, h.symm⟩

theorem lookup_eq_none_iff_keys {α : Type} (fields : List (String × α)) (key : String) :
    fields.lookup key = none ↔ key ∉ fields.map (·.1) := by
  rw [List.lookup_eq_none_iff]
  simp only [List.mem_map, not_exists, not_and, bne_iff_ne]
  constructor
  · intro h f hf he
    exact h f hf he.symm
  · intro h f hf he
    exact h f hf he.symm

/-- The names of a plan are those of the sites that are not known, each once and in order. -/
theorem names_planFrom {container : Path} {table : AliasTable} {sites : List CallSite}
    {known : List (String × (String × Option String))} {ws : List Wrapper}
    (h : planFrom container table known sites = .ok ws) :
    ws.map (·.functionName) =
      Module.distinctFrom (known.map (·.1)) (sites.map (·.functionName)) := by
  induction sites generalizing known ws with
  | nil =>
    simp only [planFrom, Except.ok.injEq] at h
    subst h
    rfl
  | cons c rest ih =>
    rcases planFrom_cons_ok h with ⟨hk, hrest⟩ | ⟨hk, others, hrest, rfl⟩
    · have hmem : c.functionName ∈ known.map (·.1) := by
        by_contra hn
        rw [(lookup_eq_none_iff_keys known c.functionName).mpr hn] at hk
        cases hk
      simp only [List.map_cons, Module.distinctFrom, hmem, if_true]
      exact ih hrest
    · have hmem : c.functionName ∉ known.map (·.1) :=
        (lookup_eq_none_iff_keys known c.functionName).mp hk
      simp only [List.map_cons, functionName_ofSite, Module.distinctFrom, hmem, if_false,
        List.cons.injEq, true_and]
      exact ih hrest

theorem exists_site_of_mem_planFrom {container : Path} {table : AliasTable}
    {sites : List CallSite} {known : List (String × (String × Option String))} {ws : List Wrapper}
    (h : planFrom container table known sites = .ok ws) {w : Wrapper} (hw : w ∈ ws) :
    ∃ c ∈ sites, w = ofSite container table c := by
  induction sites generalizing known ws with
  | nil =>
    simp only [planFrom, Except.ok.injEq] at h
    subst h
    cases hw
  | cons c rest ih =>
    rcases planFrom_cons_ok h with ⟨-, hrest⟩ | ⟨-, others, hrest, rfl⟩
    · obtain ⟨d, hd, he⟩ := ih hrest hw
      exact ⟨d, List.mem_cons_of_mem _ hd, he⟩
    · rcases List.mem_cons.mp hw with rfl | hw
      · exact ⟨c, by simp, rfl⟩
      · obtain ⟨d, hd, he⟩ := ih hrest hw
        exact ⟨d, List.mem_cons_of_mem _ hd, he⟩

section Plan

variable {sites : List CallSite} {container : Path} {table : AliasTable} {ws : List Wrapper}

theorem nodup_names_plan (h : plan sites container table = .ok ws) :
    (ws.map (·.functionName)).Nodup := by
  rw [names_planFrom h]
  exact Module.nodup_distinctFrom _ _

theorem exists_site_of_mem_plan (h : plan sites container table = .ok ws) {w : Wrapper}
    (hw : w ∈ ws) : ∃ c ∈ sites, w = ofSite container table c := by
  obtain ⟨c, hc, he⟩ := exists_site_of_mem_planFrom h hw
  exact ⟨c, ((mem_dedup_iff _ _).mp hc).mem, he⟩

/-- Every site has a wrapper of its name. -/
theorem exists_mem_plan_of_site (h : plan sites container table = .ok ws) {c : CallSite}
    (hc : c ∈ sites) : ∃ w ∈ ws, w.functionName = c.functionName := by
  obtain ⟨d, hd, hk⟩ := exists_isFirst hc
  have hname : d.functionName = c.functionName := congrArg Prod.fst hk
  have hmem : c.functionName ∈ ws.map (·.functionName) := by
    rw [names_planFrom h]
    refine (Module.mem_distinctFrom_iff _ _ _).mpr ⟨by simp, ?_⟩
    exact List.mem_map.mpr ⟨d, (mem_dedup_iff _ _).mpr hd, hname⟩
  obtain ⟨w, hw, he⟩ := List.mem_map.mp hmem
  exact ⟨w, hw, he⟩

/-- A plan has exactly one wrapper of the name of a site. -/
theorem filter_plan_of_site (h : plan sites container table = .ok ws) {c : CallSite}
    (hc : c ∈ sites) :
    ∃ d ∈ sites, d.functionName = c.functionName ∧
      ws.filter (·.functionName = c.functionName) = [ofSite container table d] := by
  obtain ⟨w, hw, hname⟩ := exists_mem_plan_of_site h hc
  obtain ⟨d, hd, rfl⟩ := exists_site_of_mem_plan h hw
  refine ⟨d, hd, hname, ?_⟩
  have hnodup := nodup_names_plan h
  obtain ⟨before, after, rfl⟩ := List.append_of_mem hw
  have hother : ∀ v ∈ before ++ after, v.functionName ≠ c.functionName := by
    intro v hv he
    rw [List.map_append, List.map_cons] at hnodup
    have hn := (List.nodup_middle.mp hnodup).notMem
    apply hn
    rw [hname, ← he, ← List.map_append]
    exact List.mem_map.mpr ⟨v, hv, rfl⟩
  have hb : before.filter (·.functionName = c.functionName) = [] := by
    simpa using fun v hv => hother v (List.mem_append_left _ hv)
  have ha : after.filter (·.functionName = c.functionName) = [] := by
    simpa using fun v hv => hother v (List.mem_append_right _ hv)
  have hd : d.functionName = c.functionName := hname
  simp [List.filter_append, hb, ha, hd]

end Plan

end Wrapper

end CronWrap
