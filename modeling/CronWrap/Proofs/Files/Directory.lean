import CronWrap.Proofs.Files.Beside

/-! Directories that are there, and those above them. -/
namespace CronWrap

open Workspace

namespace Path

theorem beginnings_append (above : List String) (s : String) (rest : List String) :
    beginnings (above ++ [s] ++ rest) =
      beginnings above ++ (beginnings rest).map (above ++ [s] ++ ·) := by
  induction above with
  | nil => simp [beginnings]
  | cons a above ih =>
    simp only [List.cons_append, beginnings, ih, List.map_append, List.map_map]
    rfl

theorem prefix_of_mem_beginnings {pre segs : List String} (h : pre ∈ beginnings segs) :
    pre <+: segs := by
  induction segs generalizing pre with
  | nil =>
    rw [beginnings, List.mem_singleton] at h
    exact h ▸ List.nil_prefix
  | cons s segs ih =>
    rcases List.mem_cons.mp h with rfl | h
    · exact List.nil_prefix
    · obtain ⟨r, hr, rfl⟩ := List.mem_map.mp h
      exact List.cons_prefix_cons.mpr ⟨rfl, ih hr⟩

/-- The text of a path is no shorter than that of one above it, a single dot apart. -/
theorem utf8ByteSize_toString_le (anchor : Anchor) (segs : List String) {rest : List String}
    (hne : rest ≠ []) :
    (Path.mk anchor segs).toString.utf8ByteSize ≤
      max 1 (Path.mk anchor (segs ++ rest)).toString.utf8ByteSize := by
  have hfull : (Path.mk anchor (segs ++ rest)).toString =
      Anchor.text anchor ++ String.intercalate "/" (segs ++ rest) := by
    simp [toString, hne]
  rw [hfull]
  by_cases hs : segs = []
  · subst hs
    have hhead : (Path.mk anchor []).toString.utf8ByteSize ≤
        max 1 (Anchor.text anchor).utf8ByteSize := by
      cases anchor <;> decide
    rw [String.utf8ByteSize_append]
    omega
  · have hpart : (Path.mk anchor segs).toString =
        Anchor.text anchor ++ String.intercalate "/" segs := by
      simp [toString, hs]
    rw [hpart, String.intercalate_append_of_ne_nil hs hne]
    simp only [String.utf8ByteSize_append]
    omega

end Path

namespace FileTree

/-- Whether a path leads to a directory. -/
def hasDir (t : FileTree) (p : Path) : Bool :=
  match t.find? true p with
  | .ok (some (.dir _)) => true
  | _ => false

theorem exists_find_of_hasDir {t : FileTree} {p : Path} (h : t.hasDir p) :
    ∃ place es, t.find true p = .ok (place, some (.dir es)) := by
  unfold hasDir at h
  split at h
  · rename_i es hes
    unfold find? at hes
    split at hes
    · rename_i place found hfind
      cases hes
      exact ⟨place, es, hfind⟩
    · split at hes <;> cases hes
  · cases h

/-- Above a directory there are directories. -/
theorem hasDir_of_append {t : FileTree} {anchor : Anchor} {segs rest : List String}
    (hne : rest ≠ []) (h : t.hasDir ⟨anchor, segs ++ rest⟩) : t.hasDir ⟨anchor, segs⟩ := by
  obtain ⟨place, es, hfind⟩ := exists_find_of_hasDir h
  obtain ⟨-, k, q, hleads, -, hwalk⟩ := exists_leads_of_find hfind hne
  obtain ⟨name, more, rfl⟩ := List.exists_cons_of_ne_nil hne
  obtain ⟨fs, hfs⟩ := dir_of_obstacle_eq_none
    (obstacle_eq_none_of_walk (congrArg Walk.trouble hwalk))
  have hplace : t.walkTo true ⟨anchor, segs⟩ = ⟨q, none⟩ := by
    have hto : t.walk true maxLinks none [] (segs ++ []) = t.walk true k none q [] :=
      hleads.walk_append (Or.inr rfl)
    rwa [List.append_nil, walk_nil] at hto
  have hlength : ¬ maxPath < (Path.mk anchor segs).toString.utf8ByteSize := by
    have hle := Path.utf8ByteSize_toString_le anchor segs hne
    have hfull : ¬ maxPath < (Path.mk anchor (segs ++ name :: more)).toString.utf8ByteSize := by
      intro hlong
      rw [find, if_pos hlong] at hfind
      cases hfind
    simp only [maxPath] at hfull ⊢
    omega
  simp [hasDir, find?, find, hlength, hplace, hfs]

end FileTree

namespace Session

open FileTree

theorem triple_isDir (p : Path) (s : SessionState) :
    Triple (· = s) (isDir p : Session Bool) (fun r s' => r = s.tree.hasDir p ∧ s' = s) (· = s) := by
  refine Triple.bind (Q := fun kind s' => decide (kind = some .dir) = s.tree.hasDir p ∧ s' = s) ?_
    fun kind => triple_pure _ fun _ h => h
  refine (triple_find? true p s).bind fun found => triple_of_forall fun hfind =>
    triple_pure _ fun s' hs => ⟨?_, hs⟩
  rw [hasDir, hfind]
  cases found with
  | none => rfl
  | some u => cases u <;> rfl

theorem triple_isDir_at (p : Path) (t : FileTree) (n : Nat) :
    Triple (Holds t n) (isDir p : Session Bool) (fun r s => r = t.hasDir p ∧ Holds t n s)
      (Holds t n) := by
  refine triple_of_eq fun s hs => (triple_isDir p s).weaken (fun _ h => h) ?_ fun _ h => h ▸ hs
  rintro _ _ ⟨rfl, rfl⟩
  exact ⟨congrArg (hasDir · p) hs.1, hs⟩

end Session

end CronWrap
