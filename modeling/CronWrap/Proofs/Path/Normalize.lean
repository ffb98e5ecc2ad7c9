import CronWrap.Path.Specifier
import Mathlib.Tactic.Common

/-! The collapse of `..` in absolute paths, and the way from one such path to another. Main
statement: following the way from a directory to a target leads to the target. -/
namespace CronWrap.Path

/-! ## What the collapse keeps -/

@[simp] theorem push_of_ne {absolute : Bool} {kept : List String} {s : String} (h : s ≠ "..") :
    push absolute kept s = s :: kept := by simp [push, h]

theorem push_parent_nil : push true [] ".." = [] := rfl

theorem push_parent_cons {last : String} {rest : List String} (h : last ≠ "..") :
    push true (last :: rest) ".." = rest := by simp [push, h]

theorem foldl_push_of_no_parent (absolute : Bool) (kept segs : List String) (h : ".." ∉ segs) :
    segs.foldl (push absolute) kept = segs.reverse ++ kept := by
  induction segs generalizing kept with
  | nil => rfl
  | cons s rest ih =>
    have hs : s ≠ ".." := fun he => h (he ▸ List.mem_cons_self)
    have hrest : ".." ∉ rest := fun hr => h (List.mem_cons_of_mem _ hr)
    rw [List.foldl_cons, push_of_ne hs, ih _ hrest]
    simp

theorem normalize_of_no_parent {p : Path} (h : ".." ∉ p.segments) : p.normalize = p := by
  rw [normalize, foldl_push_of_no_parent _ _ _ h]
  simp

/-- Segments at the end of a path stay there if there is no `..` among them. -/
theorem normalize_append (p : Path) {segs : List String} (hs : ".." ∉ segs) :
    (Path.mk p.anchor (p.segments ++ segs)).normalize =
      ⟨p.anchor, p.normalize.segments ++ segs⟩ := by
  have hsame : (Path.mk p.anchor (p.segments ++ segs)).isAbsolute = p.isAbsolute := rfl
  rw [normalize, normalize, hsame, List.foldl_append, foldl_push_of_no_parent _ _ segs hs]
  simp only [List.reverse_append, List.reverse_reverse]

theorem foldl_push_parents (n : Nat) (kept : List String) (h : ".." ∉ kept) :
    (List.replicate n "..").foldl (push true) kept = kept.drop n := by
  induction n generalizing kept with
  | zero => rfl
  | succ n ih =>
    rw [List.replicate_succ, List.foldl_cons]
    cases kept with
    | nil => rw [push_parent_nil, ih [] (by simp)]; simp
    | cons last rest =>
      have hl : last ≠ ".." := fun he => h (he ▸ List.mem_cons_self)
      rw [push_parent_cons hl, ih rest fun hr => h (List.mem_cons_of_mem _ hr)]
      rfl

theorem mem_push_iff {kept : List String} {s t : String} (h : t ∈ push true kept s) :
    t = s ∧ s ≠ ".." ∨ t ∈ kept := by
  by_cases hs : s = ".."
  · subst hs
    cases kept with
    | nil => cases h
    | cons last rest =>
      right
      simp only [push, if_true] at h
      split at h
      · rename_i hl
        rcases List.mem_cons.mp h with rfl | h
        · exact hl ▸ List.mem_cons_self
        · exact h
      · exact List.mem_cons_of_mem _ h
  · rw [push_of_ne hs] at h
    rcases List.mem_cons.mp h with rfl | h
    · exact Or.inl ⟨rfl, hs⟩
    · exact Or.inr h

theorem mem_foldl_push {kept segs : List String} {t : String}
    (h : t ∈ segs.foldl (push true) kept) : t ∈ segs ∧ t ≠ ".." ∨ t ∈ kept := by
  induction segs generalizing kept with
  | nil => exact Or.inr h
  | cons s rest ih =>
    rcases ih h with ⟨hr, hp⟩ | hk
    · exact Or.inl ⟨List.mem_cons_of_mem _ hr, hp⟩
    · rcases mem_push_iff hk with ⟨rfl, hp⟩ | hk
      · exact Or.inl ⟨List.mem_cons_self, hp⟩
      · exact Or.inr hk

section Absolute

variable {p : Path}

theorem normalize_of_absolute (h : p.isAbsolute) :
    p.normalize = ⟨p.anchor, (p.segments.foldl (push true) []).reverse⟩ := by
  simp [normalize, h]

theorem mem_of_mem_normalize (h : p.isAbsolute) {s : String} (hs : s ∈ p.normalize.segments) :
    s ∈ p.segments ∧ s ≠ ".." := by
  rw [normalize_of_absolute h, List.mem_reverse] at hs
  rcases mem_foldl_push hs with hs | hs
  · exact hs
  · cases hs

theorem no_parent_normalize (h : p.isAbsolute) : ".." ∉ p.normalize.segments := fun hs =>
  (mem_of_mem_normalize h hs).2 rfl

end Absolute

/-! ## Following the way to a target -/

theorem drop_length_reverse_append (common base : List String) :
    (common ++ base).reverse.drop base.length = common.reverse := by
  rw [List.reverse_append]
  exact List.drop_left' (by simp)

/-- Up from the end of `base` and down to `target`, behind what both have in common. -/
theorem foldl_push_steps (common target base : List String) (hc : ".." ∉ common)
    (hb : ".." ∉ base) (ht : ".." ∉ target) :
    (steps target base).foldl (push true) (common ++ base).reverse = (common ++ target).reverse := by
  fun_induction steps target base generalizing common with
  | case1 target d base ih =>
    have hd : d ≠ ".." := fun he => hb (he ▸ List.mem_cons_self)
    have h := ih (common ++ [d]) (by simpa [hd.symm] using hc)
      (fun h => hb (List.mem_cons_of_mem _ h)) (fun h => ht (List.mem_cons_of_mem _ h))
    simpa using h
  | case2 t target d base hne =>
    have hups : ".." :: base.map (fun _ => "..") = List.replicate (d :: base).length ".." := by
      simp [List.replicate_succ, List.map_const']
    have hnone : ".." ∉ (common ++ d :: base).reverse := by
      rw [List.mem_reverse, List.mem_append, not_or]
      exact ⟨hc, hb⟩
    rw [hups, List.foldl_append, foldl_push_parents _ _ hnone, drop_length_reverse_append,
      foldl_push_of_no_parent true _ _ ht]
    simp
  | case3 target base hne =>
    have hups : base.map (fun _ => "..") = List.replicate base.length ".." := by
      simp [List.map_const']
    have hnone : ".." ∉ (common ++ base).reverse := by
      rw [List.mem_reverse, List.mem_append, not_or]
      exact ⟨hc, hb⟩
    rw [hups, List.foldl_append, foldl_push_parents _ _ hnone, drop_length_reverse_append,
      foldl_push_of_no_parent true _ _ ht]
    simp

theorem relative_of_root {target base : Path} (ht : target.anchor = .root)
    (hb : base.anchor = .root) :
    relative target base = ⟨.here, steps target.normalize.segments base.normalize.segments⟩ := by
  simp [relative, isAbsolute, ht, hb]

/-- The way from a directory to a target leads there, for paths that start at the root. -/
theorem normalize_join_relative {target base : Path} (ht : target.anchor = .root)
    (hb : base.anchor = .root) : (base.join (relative target base)).normalize = target.normalize := by
  have hta : target.isAbsolute := by simp [isAbsolute, ht]
  have hba : base.isAbsolute := by simp [isAbsolute, hb]
  have h := foldl_push_steps [] target.normalize.segments base.normalize.segments (by simp)
    (no_parent_normalize hba) (no_parent_normalize hta)
  have hbase : base.segments.foldl (push true) [] = base.normalize.segments.reverse := by
    rw [normalize_of_absolute hba, List.reverse_reverse]
  have hjoin : base.join (relative target base) = ⟨.root, base.segments ++
      steps target.normalize.segments base.normalize.segments⟩ := by
    rw [relative_of_root ht hb, join]
    simp [isAbsolute, hb]
  rw [hjoin, normalize_of_absolute rfl]
  simp only [List.foldl_append, hbase]
  rw [List.nil_append, List.nil_append] at h
  rw [h, List.reverse_reverse, ← ht]
  rfl

end CronWrap.Path
