import CronWrap.Discovery
import CronWrap.Proofs.Files.Proper
import CronWrap.Proofs.Path.Normalize

/-! The ignore files that a project has, in a tree without links. -/
namespace CronWrap

open FileTree Session Workspace

theorem SourceFilter.mem_sorted {root p : Path} {ps : List Path} : p ∈ sorted root ps ↔ p ∈ ps := by
  rw [sorted, List.mem_mergeSort, List.mem_eraseDups]

theorem Pattern.IgnoreFile.isUnder_of_ignores {f : Pattern.IgnoreFile} {p : Path}
    (hup : ".." ∉ p.segments) (h : f.ignores p) : p.isUnder f.base := by
  rw [ignores, Path.normalize_of_no_parent hup] at h
  rw [Path.isUnder]
  cases hrel : p.relativeTo? f.base with
  | none => simp [hrel] at h
  | some segs => rfl

namespace IgnoreFile

theorem div_fileName (root : Path) :
    root / fileName = ⟨root.anchor, root.segments ++ [fileName]⟩ :=
  Path.div_of_isSegment _ (by decide)

/-- The paths at which a reachable ignore file might be. -/
def candidates (t : FileTree) (root : Path) : List Path :=
  (root / fileName) :: (pathsBelow t root).filter (isReachable root)

/-- The paths at which there is a reachable ignore file. -/
def own (t : FileTree) (root : Path) : List Path :=
  (candidates t root).filter fun p => t.isFileAt p.segments

variable {t : FileTree} {root : Path}

theorem sees_isOwn {p : Path} (ht : NoLinks t) (hup : ".." ∉ p.segments) (hknown : Known t p) :
    Sees t (do return (← isFile p) && !(← isLink p) : Session Bool)
      (if p.Fits then .ok (t.isFileAt p.segments) else .error (tooLong p)) := by
  have hfile := sees_isFile ht hup hknown
  have hlink := sees_isLink ht hup hknown
  split
  · rename_i hfits
    rw [if_pos hfits] at hfile hlink
    refine hfile.bind (hlink.bind ?_)
    rw [Bool.not_false, Bool.and_true]
    exact sees_pure t _
  · rename_i hfits
    rw [if_neg hfits] at hfile
    exact hfile.bind_error

/-- An ignore file at the path counts, if there is one. -/
def Counts (root p : Path) : Prop :=
  p = root / fileName ∨ p.anchor = root.anchor ∧
    (∃ r, r ≠ [] ∧ p.segments = root.segments ++ r) ∧ isReachable root p

theorem Counts.anchor_eq {p : Path} (h : Counts root p) : p.anchor = root.anchor := by
  rcases h with rfl | h
  · rw [div_fileName]
  · exact h.1

theorem Counts.name_eq {p : Path} (h : Counts root p) : p.name = fileName := by
  rcases h with rfl | ⟨-, -, h⟩
  · rw [div_fileName, Path.name, List.getLast?_concat, Option.getD_some]
  · rw [isReachable, Bool.and_eq_true, decide_eq_true_eq] at h
    exact h.1

theorem mem_candidates_iff (hproper : Proper t) {p : Path} :
    p ∈ candidates t root ↔
      Counts root p ∧ (p = root / fileName ∨ (t.get? p.segments).isSome) := by
  rw [candidates, List.mem_cons, List.mem_filter, mem_pathsBelow_iff hproper]
  constructor
  · rintro (hp | ⟨⟨hanchor, r, hne, hsegs, hsome⟩, hreach⟩)
    · exact ⟨.inl hp, .inl hp⟩
    · exact ⟨.inr ⟨hanchor, ⟨r, hne, hsegs⟩, hreach⟩, .inr hsome⟩
  · rintro ⟨hp | ⟨hanchor, ⟨r, hne, hsegs⟩, hreach⟩, hp' | hsome⟩
    · exact .inl hp
    · exact .inl hp
    · exact .inl hp'
    · exact .inr ⟨⟨hanchor, r, hne, hsegs, hsome⟩, hreach⟩

theorem mem_own_iff (hproper : Proper t) {p : Path} :
    p ∈ own t root ↔ Counts root p ∧ t.isFileAt p.segments := by
  rw [own, List.mem_filter, mem_candidates_iff hproper, and_assoc]
  refine and_congr_right fun _ => ⟨fun h => h.2, fun h => ⟨.inr ?_, h⟩⟩
  obtain ⟨content, hcontent⟩ := isFileAt_iff.mp h
  simp [hcontent]

theorem looks_load (p : Path) : Looks (load p : Session _) :=
  (looks_readText p).bind fun _ => looks_pure _

theorem looks_isOwn (p : Path) :
    Looks (do return (← isFile p) && !(← isLink p) : Session Bool) :=
  (looks_isFile p).bind fun _ => (looks_isLink p).bind fun _ => looks_pure _

theorem looks_everywhere (root : Path) : Looks (everywhere root : Session _) :=
  (looks_below root).bind fun _ => (looks_filterM looks_isOwn _).bind fun _ => looks_mapM looks_load _

theorem looks_atRoot (root : Path) : Looks (atRoot root : Session _) := by
  refine (looks_isFile _).bind fun found => ?_
  split
  · exact (looks_load _).bind fun _ => looks_pure _
  · exact looks_pure _

section Everywhere

theorem known_of_mem_candidates (hproper : Proper t) (hup : ".." ∉ root.segments)
    (hshort : root.Short) {p : Path} (hp : p ∈ candidates t root) :
    ".." ∉ p.segments ∧ Known t p := by
  rcases List.mem_cons.mp hp with rfl | hp
  · rw [div_fileName]
    exact ⟨by simpa [fileName] using hup, .inl (hshort.append (by decide))⟩
  · have hbelow := (List.mem_filter.mp hp).1
    obtain ⟨-, r, -, -, hsome⟩ := (mem_pathsBelow_iff hproper).mp hbelow
    exact ⟨no_parent_of_mem_pathsBelow hproper hbelow, known_of_isSome hsome⟩

variable (ht : NoLinks t) (hproper : Proper t) (hup : ".." ∉ root.segments) (hshort : root.Short)

include ht hproper hup hshort

theorem sees_own (hfits : ∀ p ∈ candidates t root, p.Fits) :
    Sees t ((candidates t root).filterM fun p => do return (← isFile p) && !(← isLink p))
      (.ok (own t root)) := by
  refine sees_filterM fun p hp => ?_
  have hknown := known_of_mem_candidates hproper hup hshort hp
  have h := sees_isOwn ht hknown.1 hknown.2
  rwa [if_pos (hfits p hp)] at h

theorem sees_everywhere (hroot : root.Fits) (hfits : ∀ p ∈ candidates t root, p.Fits)
    (hload : ∀ p ∈ own t root, ∃ f, Sees t (load p) (.ok f)) :
    ∃ fs, Sees t (everywhere root) (.ok fs) ∧
      ∀ f, f ∈ fs ↔ ∃ p ∈ own t root, Sees t (load p) (.ok f) := by
  have hbelow := sees_below ht hup (Or.inl hshort)
  rw [if_pos hroot] at hbelow
  have hown := sees_own ht hproper hup hshort hfits
  obtain ⟨fs, hfs, hmem⟩ := exists_sees_mapM (l := SourceFilter.sorted root (own t root)) fun p hp =>
    hload p (SourceFilter.mem_sorted.mp hp)
  refine ⟨fs, hbelow.bind (hown.bind hfs), fun f => ?_⟩
  simp only [hmem, SourceFilter.mem_sorted]

/-- What it takes to see all ignore files. -/
theorem of_sees_everywhere {fs : List Pattern.IgnoreFile} (h : Sees t (everywhere root) (.ok fs)) :
    root.Fits ∧ (∀ p ∈ candidates t root, p.Fits) ∧
      (∀ p ∈ own t root, ∃ f, Sees t (load p) (.ok f)) ∧
      ∀ f, f ∈ fs ↔ ∃ p ∈ own t root, Sees t (load p) (.ok f) := by
  obtain ⟨found, hfound, hrest⟩ := h.of_bind_looks (looks_below root) fun _ =>
    (looks_filterM looks_isOwn _).bind fun _ => looks_mapM looks_load _
  have hbelow := sees_below ht hup (Or.inl hshort)
  have hroot : root.Fits := by
    by_contra hfits
    rw [if_neg hfits] at hbelow
    cases hfound.unique hbelow
  rw [if_pos hroot] at hbelow
  cases hfound.unique hbelow
  obtain ⟨ps, hps, hload⟩ := hrest.of_bind_looks (looks_filterM looks_isOwn _) fun _ =>
    looks_mapM looks_load _
  have hfits : ∀ p ∈ candidates t root, p.Fits := by
    intro p hp
    obtain ⟨b, hb⟩ := hps.of_filterM (fun p _ => looks_isOwn p t) p hp
    by_contra hfits
    have hknown := known_of_mem_candidates hproper hup hshort hp
    have hown := sees_isOwn ht hknown.1 hknown.2
    rw [if_neg hfits] at hown
    cases hb.unique hown
  have hall : ∀ p ∈ own t root, ∃ f, Sees t (load p) (.ok f) := by
    cases hps.unique (sees_own ht hproper hup hshort hfits)
    exact fun p hp => hload.of_mapM (fun p _ => looks_load p t) p (SourceFilter.mem_sorted.mpr hp)
  obtain ⟨fs', hfs', hmem⟩ := sees_everywhere ht hproper hup hshort hroot hfits hall
  cases h.unique hfs'
  exact ⟨hroot, hfits, hall, hmem⟩

end Everywhere

end IgnoreFile

end CronWrap
