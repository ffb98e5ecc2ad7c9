import CronWrap.Proofs.Files.Fresh
import CronWrap.Proofs.Files.WithDir

/-! Work on the entries of one directory, in a tree without links: exactly when it succeeds, and what it
leaves. -/
namespace CronWrap

namespace FileTree

variable {t u : FileTree} {p : Place} {es : List (String × FileTree)} {x : String}

theorem NoLinks.get? (h : NoLinks t) (hu : t.get? p = some u) : NoLinks u := by
  intro q v hv
  refine h (p ++ q) v ?_
  rw [get?_append, hu]
  exact hv

theorem NoLinks.lookup (h : NoLinks (.dir es)) (hu : es.lookup x = some u) : NoLinks u :=
  h.get? (p := [x]) (by simp [hu])

theorem NoLinks.filter (h : NoLinks (.dir es)) (x : String) :
    NoLinks (.dir (es.filter (·.1 ≠ x))) := by
  intro q v hv
  cases q with
  | nil =>
    cases hv
    rfl
  | cons n q =>
    refine h (n :: q) v ?_
    rw [get?_cons, entries_dir, lookup_filter_ne] at hv
    split at hv
    · cases hv
    · exact hv

theorem NoLinks.append (h : NoLinks (.dir es)) (hu : NoLinks u) (x : String) :
    NoLinks (.dir (es ++ [(x, u)])) := by
  intro q w hw
  cases q with
  | nil =>
    cases hw
    rfl
  | cons n q =>
    rw [get?_cons, entries_dir, List.lookup_append] at hw
    cases hl : es.lookup n with
    | some v =>
      rw [hl] at hw
      exact h.lookup hl q w hw
    | none =>
      rw [hl] at hw
      by_cases hn : n = x
      · subst hn
        exact hu q w (by simpa using hw)
      · simp [List.lookup_cons, beq_eq_false_iff_ne.2 hn] at hw

theorem NoLinks.entriesAt (h : NoLinks t) (p : Place) : NoLinks (.dir (t.entriesAt p)) := by
  cases hp : t.get? p with
  | none =>
    rw [FileTree.entriesAt, hp]
    exact noLinks_empty
  | some u =>
    cases u with
    | dir es =>
      rw [entriesAt_eq hp]
      exact h.get? hp
    | file content =>
      rw [FileTree.entriesAt, hp]
      exact noLinks_empty
    | link target =>
      rw [FileTree.entriesAt, hp]
      exact noLinks_empty

theorem NoLinks.withEntries (h : NoLinks t) (hes : NoLinks (.dir es)) (p : Place) :
    NoLinks (t.withEntries p es) :=
  h.set hes p

theorem isDirAt_withEntries : (t.withEntries p es).isDirAt p :=
  isDirAt_iff.mpr ⟨es, get?_withEntries_self⟩

theorem lookup_append_last {α : Type} {fields : List (String × α)} {x : String}
    (hx : fields.lookup x = none) (a : α) : (fields ++ [(x, a)]).lookup x = some a := by
  simp [List.lookup_append, hx]

theorem lookup_append_of_ne {α : Type} {n x : String} (hn : n ≠ x) (fields : List (String × α)) (a : α) :
    (fields ++ [(x, a)]).lookup n = fields.lookup n := by
  rw [List.lookup_append, List.lookup_cons, beq_eq_false_iff_ne.2 hn]
  simp

theorem exists_lookup_of_mem {α : Type} {fields : List (String × α)} {n : String}
    (h : n ∈ fields.map (·.1)) : ∃ a, fields.lookup n = some a := by
  obtain ⟨f, hf, rfl⟩ := List.mem_map.mp h
  cases hl : fields.lookup f.1 with
  | some a => exact ⟨a, rfl⟩
  | none =>
    rw [List.lookup_eq_none_iff] at hl
    simpa using hl f hf

theorem filter_of_lookup_eq_none {α : Type} {fields : List (String × α)} {x : String}
    (h : fields.lookup x = none) : fields.filter (·.1 ≠ x) = fields := by
  rw [List.lookup_eq_none_iff] at h
  rw [List.filter_eq_self]
  exact fun f hf => decide_eq_true (Ne.symm (bne_iff_ne.mp (h f hf)))

theorem filter_append_last {α : Type} {fields : List (String × α)} {x : String}
    (h : fields.lookup x = none) (a : α) : (fields ++ [(x, a)]).filter (·.1 ≠ x) = fields := by
  rw [List.filter_append, filter_of_lookup_eq_none h]
  simp

theorem filter_append_of_ne {α : Type} {n x : String} (hn : x ≠ n) (fields : List (String × α))
    (a : α) : (fields ++ [(x, a)]).filter (·.1 ≠ n) = fields.filter (·.1 ≠ n) ++ [(x, a)] := by
  rw [List.filter_append]
  simp [hn]

theorem set_in_last (hx : es.lookup x = none) (u new : FileTree) (names : Place) :
    (t.withEntries p (es ++ [(x, u)])).set new (p ++ x :: names) =
      t.withEntries p (es ++ [(x, u.set new names)]) := by
  rw [← setField_of_lookup_eq_none hx, ← setField_of_lookup_eq_none hx]
  rw [withEntries_set_append (u := u) (by simp), setField_setField]

theorem get?_in_last (hx : es.lookup x = none) (u : FileTree) (names : Place) :
    (t.withEntries p (es ++ [(x, u)])).get? (p ++ x :: names) = u.get? names := by
  rw [get?_withEntries_cons, lookup_append_last hx]
  rfl

end FileTree

namespace Session

open FileTree Workspace

variable {t : FileTree} (anchor : Anchor) {dir : List String} {es : List (String × FileTree)}
  {x y : String} {u : FileTree}

section Entries

variable (ht : NoLinks t) (hes : NoLinks (.dir es)) (hup : ".." ∉ dir)

include ht hes hup

theorem exact_names_of_entries :
    Exact (t.withEntries dir es) (names (Path.mk anchor dir)) (Path.mk anchor dir).Fits
      (es.map (·.1)) (t.withEntries dir es) :=
  exact_names (ht.withEntries hes dir) hup get?_withEntries_self

theorem exact_unused (head : String) (hseg : Path.IsSegment (freshName head (es.map (·.1)))) :
    Exact (t.withEntries dir es) (unused (Path.mk anchor dir) head) (Path.mk anchor dir).Fits
      ⟨anchor, dir ++ [freshName head (es.map (·.1))]⟩ (t.withEntries dir es) := by
  refine ((exact_names_of_entries anchor ht hes hup).bind (d := True) fun _ => ?_).congr (by simp)
  rw [← Path.div_of_isSegment ⟨anchor, dir⟩ hseg]
  exact exact_pure _ _

theorem exact_makeDir_entry (hx : es.lookup x = none) (hne : x ≠ "..") :
    Exact (t.withEntries dir es) (makeDir (Path.mk anchor (dir ++ [x])))
      (Path.mk anchor (dir ++ [x])).Fits () (t.withEntries dir (es ++ [(x, .empty)])) := by
  have h := exact_makeDir (p := ⟨anchor, dir ++ [x]⟩) (ht.withEntries hes dir)
    (by simp [hup, Ne.symm hne]) (by simp [isDirAt_withEntries]) (by simp [get?_withEntries, hx])
  rw [withEntries_set, setField_of_lookup_eq_none hx] at h
  exact h

theorem exact_rename_entry (hx : es.lookup x = some u) (hxne : x ≠ "..") (hy : es.lookup y = none)
    (hyne : y ≠ "..") :
    Exact (t.withEntries dir es)
      (rename (Path.mk anchor (dir ++ [x])) (Path.mk anchor (dir ++ [y])))
      ((Path.mk anchor (dir ++ [x])).Fits ∧ (Path.mk anchor (dir ++ [y])).Fits) ()
      (t.withEntries dir (es.filter (·.1 ≠ x) ++ [(y, u)])) := by
  have h := exact_rename (p := ⟨anchor, dir ++ [x]⟩) (q := ⟨anchor, dir ++ [y]⟩) (u := u)
    (ht.withEntries hes dir) (by simp [hup, Ne.symm hxne]) (by simp [hup, Ne.symm hyne])
    (by simp [get?_withEntries, hx]) (by simp [isDirAt_withEntries])
    (by simp [get?_withEntries, hy])
  have hfree : (es.filter (·.1 ≠ x)).lookup y = none := by
    rw [lookup_filter_ne, hy, ite_self]
  rw [withEntries_erase, withEntries_set, setField_of_lookup_eq_none hfree] at h
  exact h

theorem exact_removeTree_entry {ds : List (String × FileTree)} (hx : es.lookup x = some (.dir ds))
    (hne : x ≠ "..") :
    Exact (t.withEntries dir es) (removeTree (Path.mk anchor (dir ++ [x])))
      (Path.mk anchor (dir ++ [x])).Fits () (t.withEntries dir (es.filter (·.1 ≠ x))) := by
  have h := exact_removeTree (p := ⟨anchor, dir ++ [x]⟩) (ht.withEntries hes dir)
    (by simp [hup, Ne.symm hne]) (by rw [get?_withEntries, hx])
  rw [withEntries_erase] at h
  exact h

theorem fails_removeTree_entry (hx : es.lookup x = some u) (hfile : u.isDir = false)
    (hne : x ≠ "..") :
    Fails (t.withEntries dir es) (removeTree (Path.mk anchor (dir ++ [x]))) :=
  fails_removeTree (p := ⟨anchor, dir ++ [x]⟩) (ht.withEntries hes dir)
    (by simp [hup, Ne.symm hne]) (by rw [get?_withEntries, hx]) hfile

variable (hx : es.lookup x = none) (hu : NoLinks u)

include hx hu

/-- Where the last entry is a directory, a file is written in it. -/
theorem exact_write_inside {names : List String} (hne : names ≠ []) (hnames : ".." ∉ x :: names)
    (hparent : u.isDirAt names.dropLast) (hfile : u.isDirAt names = false) (content : Text.Bytes) :
    Exact (t.withEntries dir (es ++ [(x, u)])) (write (Path.mk anchor (dir ++ x :: names)) content)
      (Path.mk anchor (dir ++ x :: names)).Fits ()
      (t.withEntries dir (es ++ [(x, u.set (.file content) names)])) := by
  have hlast : (dir ++ x :: names).dropLast = dir ++ x :: names.dropLast := by
    rw [List.dropLast_append_of_ne_nil (by simp), List.dropLast_cons_of_ne_nil hne]
  have h := exact_write (p := ⟨anchor, dir ++ x :: names⟩) (ht.withEntries (hes.append hu x) dir)
    (by simpa [hup] using hnames) (fun _ => by simpa [hlast, isDirAt, get?_in_last hx] using hparent)
    (by simpa [isDirAt, get?_in_last hx] using hfile) content
  rw [set_in_last hx] at h
  exact h

theorem exact_makeDir_inside {names : List String} (hne : names ≠ []) (hnames : ".." ∉ x :: names)
    (hparent : u.isDirAt names.dropLast) (habsent : u.get? names = none) :
    Exact (t.withEntries dir (es ++ [(x, u)])) (makeDir (Path.mk anchor (dir ++ x :: names)))
      (Path.mk anchor (dir ++ x :: names)).Fits ()
      (t.withEntries dir (es ++ [(x, u.set .empty names)])) := by
  have hlast : (dir ++ x :: names).dropLast = dir ++ x :: names.dropLast := by
    rw [List.dropLast_append_of_ne_nil (by simp), List.dropLast_cons_of_ne_nil hne]
  have h := exact_makeDir (p := ⟨anchor, dir ++ x :: names⟩) (ht.withEntries (hes.append hu x) dir)
    (by simpa [hup] using hnames) (by simpa [hlast, isDirAt, get?_in_last hx] using hparent)
    (by rw [get?_in_last hx, habsent])
  rw [set_in_last hx] at h
  exact h

end Entries

end Session

end CronWrap
