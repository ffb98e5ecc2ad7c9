import CronWrap.CallSite.Basic
import Mathlib.Tactic.Common

/-! Which call sites are kept when each key is kept once: those whose key no earlier site has. -/
namespace CronWrap.CallSite

/-- The site stands in the list, and no site before it has its key. -/
def IsFirst (sites : List CallSite) (c : CallSite) : Prop :=
  ∃ before rest, sites = before ++ c :: rest ∧ ∀ d ∈ before, d.key ≠ c.key

theorem IsFirst.mem {sites : List CallSite} {c : CallSite} (h : IsFirst sites c) : c ∈ sites := by
  obtain ⟨before, rest, rfl, -⟩ := h
  simp

theorem isFirst_cons (c d : CallSite) (sites : List CallSite) :
    IsFirst (d :: sites) c ↔ c = d ∨ (d.key ≠ c.key ∧ IsFirst sites c) := by
  constructor
  · rintro ⟨before, rest, hs, hb⟩
    cases before with
    | nil =>
      simp only [List.nil_append, List.cons.injEq] at hs
      exact Or.inl hs.1.symm
    | cons e before =>
      simp only [List.cons_append, List.cons.injEq] at hs
      obtain ⟨rfl, rfl⟩ := hs
      exact Or.inr ⟨hb d (by simp), before, rest, rfl, fun e he => hb e (by simp [he])⟩
  · rintro (rfl | ⟨hd, before, rest, rfl, hb⟩)
    · exact ⟨[], sites, rfl, by simp⟩
    · refine ⟨d :: before, rest, rfl, ?_⟩
      intro e he
      rcases List.mem_cons.mp he with rfl | he
      · exact hd
      · exact hb e he

/-- The keys that were seen before only take sites away. -/
theorem mem_dedupFrom_iff (seen : List (String × String)) (sites : List CallSite) (c : CallSite) :
    c ∈ dedupFrom seen sites ↔ c.key ∉ seen ∧ IsFirst sites c := by
  induction sites generalizing seen with
  | nil => simp [dedupFrom, IsFirst]
  | cons d rest ih =>
    rw [isFirst_cons]
    by_cases hd : d.key ∈ seen
    · have hne : c.key ∉ seen → d.key ≠ c.key := fun hc he => hc (he ▸ hd)
      have hcd : c.key ∉ seen → c ≠ d := fun hc he => hc (he ▸ hd)
      simp only [dedupFrom, hd, if_true, ih]
      tauto
    · simp only [dedupFrom, hd, if_false, List.mem_cons, ih, not_or]
      constructor
      · rintro (rfl | ⟨⟨hk, hs⟩, hf⟩)
        · exact ⟨hd, Or.inl rfl⟩
        · exact ⟨hs, Or.inr ⟨fun he => hk he.symm, hf⟩⟩
      · rintro ⟨hs, rfl | ⟨hk, hf⟩⟩
        · exact Or.inl rfl
        · exact Or.inr ⟨⟨fun he => hk he.symm, hs⟩, hf⟩

theorem mem_dedup_iff (sites : List CallSite) (c : CallSite) :
    c ∈ dedup sites ↔ IsFirst sites c := by
  simp [dedup, mem_dedupFrom_iff]

/-- Every site has a first one of its key. -/
theorem exists_isFirst {sites : List CallSite} {c : CallSite} (hc : c ∈ sites) :
    ∃ d, IsFirst sites d ∧ d.key = c.key := by
  induction sites with
  | nil => cases hc
  | cons e rest ih =>
    by_cases he : e.key = c.key
    · exact ⟨e, (isFirst_cons _ _ _).mpr (Or.inl rfl), he⟩
    · have hrest : c ∈ rest := by
        rcases List.mem_cons.mp hc with rfl | h
        · exact absurd rfl he
        · exact h
      obtain ⟨d, hd, hk⟩ := ih hrest
      exact ⟨d, (isFirst_cons _ _ _).mpr (Or.inr ⟨hk ▸ he, hd⟩), hk⟩

/-! ## The list of what is kept -/

theorem dedupFrom_sublist (seen : List (String × String)) (sites : List CallSite) :
    (dedupFrom seen sites).Sublist sites := by
  induction sites generalizing seen with
  | nil => exact .slnil
  | cons c rest ih =>
    unfold dedupFrom
    split
    · exact (ih seen).cons c
    · exact (ih (c.key :: seen)).cons_cons c

theorem nodup_keys_dedupFrom (seen : List (String × String)) (sites : List CallSite) :
    ((dedupFrom seen sites).map key).Nodup := by
  induction sites generalizing seen with
  | nil => exact .nil
  | cons c rest ih =>
    unfold dedupFrom
    split
    · exact ih seen
    · refine List.nodup_cons.mpr ⟨fun hk => ?_, ih (c.key :: seen)⟩
      obtain ⟨d, hd, heq⟩ := List.mem_map.mp hk
      exact ((mem_dedupFrom_iff _ rest d).mp hd).1 (heq ▸ List.mem_cons_self)

theorem mem_keys_dedup_iff (sites : List CallSite) (k : String × String) :
    k ∈ (dedup sites).map key ↔ k ∈ sites.map key := by
  refine ⟨fun hk => ((dedupFrom_sublist [] sites).map key).mem hk, fun hk => ?_⟩
  obtain ⟨c, hc, rfl⟩ := List.mem_map.mp hk
  obtain ⟨d, hd, hkey⟩ := exists_isFirst hc
  exact List.mem_map.mpr ⟨d, (mem_dedup_iff sites d).mpr hd, hkey⟩

/-! ## Lists put together -/

/-- Only which keys were seen matters, not in which order. -/
theorem dedupFrom_congr {seen more : List (String × String)} (h : ∀ k, k ∈ seen ↔ k ∈ more)
    (sites : List CallSite) : dedupFrom seen sites = dedupFrom more sites := by
  induction sites generalizing seen more with
  | nil => rfl
  | cons c rest ih =>
    have hcons : ∀ k, k ∈ c.key :: seen ↔ k ∈ c.key :: more := by simp [h]
    simp only [dedupFrom, h, ih h, ih hcons]

theorem dedupFrom_append (seen : List (String × String)) (as bs : List CallSite) :
    dedupFrom seen (as ++ bs) = dedupFrom seen as ++ dedupFrom (as.map key ++ seen) bs := by
  induction as generalizing seen with
  | nil => rfl
  | cons a as ih =>
    by_cases ha : a.key ∈ seen
    · have hkeys : ∀ k, k ∈ as.map key ++ seen ↔ k ∈ (a :: as).map key ++ seen := by
        simp only [List.map_cons, List.cons_append, List.mem_cons, List.mem_append]
        exact fun k => ⟨.inr, fun hk => hk.elim (fun he => .inr (he ▸ ha)) id⟩
      simp only [List.cons_append, dedupFrom, ha, if_true, ih, dedupFrom_congr hkeys]
    · have hkeys : ∀ k, k ∈ as.map key ++ a.key :: seen ↔ k ∈ (a :: as).map key ++ seen := by
        simp only [List.map_cons, List.cons_append, List.mem_cons, List.mem_append]
        exact fun k => or_left_comm
      simp only [List.cons_append, dedupFrom, ha, if_false, ih, dedupFrom_congr hkeys]

/-- Sites that go anyway may go before. -/
theorem dedupFrom_dedupFrom {seen more : List (String × String)} (h : ∀ k ∈ seen, k ∈ more)
    (sites : List CallSite) : dedupFrom more (dedupFrom seen sites) = dedupFrom more sites := by
  induction sites generalizing seen more with
  | nil => rfl
  | cons c rest ih =>
    by_cases hseen : c.key ∈ seen
    · simp only [dedupFrom, hseen, h _ hseen, if_true, ih h]
    · by_cases hmore : c.key ∈ more
      · have hcons : ∀ k ∈ c.key :: seen, k ∈ more := List.forall_mem_cons.mpr ⟨hmore, h⟩
        simp only [dedupFrom, hseen, hmore, if_true, if_false, ih hcons]
      · have hcons : ∀ k ∈ c.key :: seen, k ∈ c.key :: more := fun k hk =>
          (List.mem_cons.mp hk).elim (fun he => he ▸ List.mem_cons_self)
            fun hk => List.mem_cons_of_mem _ (h k hk)
        simp only [dedupFrom, hseen, hmore, if_false, ih hcons]

/-- Parts of a list may be seen through on their own first. -/
theorem dedup_append (as bs : List CallSite) : dedup (dedup as ++ dedup bs) = dedup (as ++ bs) := by
  have hkeys : ∀ k, k ∈ (dedup as).map key ++ [] ↔ k ∈ as.map key ++ [] := by
    simpa using mem_keys_dedup_iff as
  calc dedup (dedup as ++ dedup bs)
    _ = dedupFrom [] (dedup as) ++ dedupFrom ((dedup as).map key ++ []) (dedup bs) :=
      dedupFrom_append [] _ _
    _ = dedup as ++ dedupFrom ((dedup as).map key ++ []) bs := by
      rw [dedup, dedup, dedupFrom_dedupFrom (by simp), dedupFrom_dedupFrom (by simp)]
    _ = dedup as ++ dedupFrom (as.map key ++ []) bs := by rw [dedupFrom_congr hkeys]
    _ = dedup (as ++ bs) := (dedupFrom_append [] as bs).symm

end CronWrap.CallSite
