import CronWrap.Proofs.Files.Fresh
import CronWrap.Proofs.Files.Inside
import CronWrap.Wrapper.Staging

/-! The names of new and of old trees beside the one that is replaced. -/
namespace CronWrap.Staging

open FileTree Session Workspace

theorem toList_stagingHead (target : Path) :
    (stagingHead target).toList = '.' :: (target.name.toList ++ ['-']) := by
  simp [stagingHead, toString]

theorem toList_retiredHead (target : Path) :
    (retiredHead target).toList = (stagingHead target).toList ++ "retired-".toList := by
  simp [retiredHead, stagingHead, toString]

theorem length_retiredHead (target : Path) : target.name.toList.length + 10 = (retiredHead target).toList.length := by
  rw [toList_retiredHead, toList_stagingHead]
  simp

theorem isRetired_freshName (target : Path) (taken : List String) :
    isRetired target (freshName (retiredHead target) taken) := by
  rw [isRetired, List.isPrefixOf_iff_prefix]
  exact prefix_freshName _ _

/-- After the dash there is a digit in the name of a new tree, but the letter `r` in that of an old
one. -/
theorem not_isRetired_freshName (target : Path) (taken : List String) :
    isRetired target (freshName (stagingHead target) taken) = false := by
  obtain ⟨n, hn⟩ := exists_freshName (stagingHead target) taken
  rw [Bool.eq_false_iff, isRetired, Ne, List.isPrefixOf_iff_prefix, hn, String.toList_append,
    toList_retiredHead, List.prefix_append_right_inj]
  intro h
  obtain ⟨d, hd, he⟩ := mem_serial (h.subset (a := 'r') (by decide))
  have hall : ∀ d < 16, 'r' ≠ Nat.digitChar d := by decide
  exact hall d hd he

/-- Old trees are hidden. -/
theorem not_isRetired_of_visible (target : Path) {s : String} (h : s.toList.head? ≠ some '.') :
    isRetired target s = false := by
  rw [Bool.eq_false_iff, isRetired, Ne, List.isPrefixOf_iff_prefix, toList_retiredHead,
    toList_stagingHead, List.cons_append]
  rintro ⟨rest, hrest⟩
  rw [← hrest] at h
  exact h rfl

theorem ne_parent_of_isRetired {target : Path} {s : String} (h : isRetired target s) : s ≠ ".." := by
  rintro rfl
  rw [isRetired, List.isPrefixOf_iff_prefix] at h
  have hlength := h.length_le
  rw [← length_retiredHead] at hlength
  have hparent : "..".toList.length = 2 := rfl
  omega

theorem not_isRetired_name (target : Path) : isRetired target target.name = false := by
  rw [Bool.eq_false_iff, isRetired, Ne, List.isPrefixOf_iff_prefix]
  intro h
  have hlength := h.length_le
  rw [← length_retiredHead] at hlength
  omega

theorem freshName_stagingHead_ne (target : Path) (taken : List String) :
    freshName (stagingHead target) taken ≠ target.name := by
  refine freshName_ne_of_length ?_ taken
  rw [toList_stagingHead, List.length_cons, List.length_append]
  omega

theorem freshName_stagingHead_ne_parent (target : Path) (taken : List String) :
    freshName (stagingHead target) taken ≠ ".." := by
  refine freshName_ne_of_length ?_ taken
  rw [toList_stagingHead]
  simp

theorem isSegment_stagingName {target : Path} (h : '/' ∉ target.name.toList) (taken : List String) :
    Path.IsSegment (freshName (stagingHead target) taken) := by
  refine isSegment_freshName ?_ taken
  rw [toList_stagingHead]
  simp [h]

theorem isSegment_retiredName {target : Path} (h : '/' ∉ target.name.toList) (taken : List String) :
    Path.IsSegment (freshName (retiredHead target) taken) := by
  refine isSegment_freshName ?_ taken
  rw [toList_retiredHead, toList_stagingHead]
  simp [h]

theorem lookup_freshName {α : Type} (head : String) (es : List (String × α)) :
    es.lookup (freshName head (es.map (·.1))) = none := by
  rw [List.lookup_eq_none_iff]
  intro e he
  rw [bne_iff_ne]
  intro heq
  exact freshName_not_mem head (es.map (·.1)) (heq ▸ List.mem_map_of_mem he)

end CronWrap.Staging
