import CronWrap.Proofs.Files.Exact

/-! Making a directory with those above it in a tree without links: exactly when it succeeds, and what
it leaves. -/
namespace CronWrap

open Workspace

namespace FileTree

/-- The entries of the directory at a place; without one there are none. -/
def entriesAt (t : FileTree) (p : Place) : List (String × FileTree) := ((t.get? p).map entries).getD []

/-- The tree with a directory at a place. -/
def withDir (t : FileTree) (p : Place) : FileTree := t.withEntries p (t.entriesAt p)

/-- What there is on the way to a place, and at it, are directories. -/
def Clear (t : FileTree) (p : Place) : Prop := ∀ q, q <+: p → (t.get? q).all isDir

variable {t : FileTree} {p : Place}

theorem entriesAt_eq {es : List (String × FileTree)} (h : t.get? p = some (.dir es)) :
    t.entriesAt p = es := by
  simp [entriesAt, h]

theorem withDir_of_isDirAt (h : t.isDirAt p) : t.withDir p = t := by
  obtain ⟨es, hes⟩ := isDirAt_iff.mp h
  rw [withDir, entriesAt_eq hes, ← eq_withEntries hes]

theorem withDir_of_absent (h : t.get? p = none) : t.withDir p = t.set .empty p := by
  simp [withDir, entriesAt, h, withEntries, empty]

theorem isDirAt_withDir (t : FileTree) (p : Place) : (t.withDir p).isDirAt p :=
  isDirAt_iff.mpr ⟨_, get?_withEntries_self⟩

theorem lookup_entriesAt (t : FileTree) (p : Place) (n : String) :
    (t.entriesAt p).lookup n = t.get? (p ++ [n]) := by
  rw [get?_append, entriesAt]
  cases t.get? p with
  | none => rfl
  | some u =>
    change u.entries.lookup n = u.entries.lookup n >>= fun v => v.get? []
    cases u.entries.lookup n <;> rfl

theorem get?_withDir_entry (t : FileTree) (p : Place) (n : String) :
    (t.withDir p).get? (p ++ [n]) = t.get? (p ++ [n]) := by
  rw [withDir, get?_withEntries, lookup_entriesAt]

theorem set_empty_set (h : t.get? p = none) (new : FileTree) (r : Place) :
    (t.set .empty p).set new (p ++ r) = t.set new (p ++ r) := by
  have hself : (t.set .empty p).get? p = some .empty := get?_set_self _ _ _
  induction p generalizing t with
  | nil => cases h
  | cons n p ih =>
    rw [List.cons_append, set_cons, set_cons, set_cons, entries_dir, setField_setField,
      lookup_setField, if_pos rfl, Option.getD_some]
    suffices hinner : (((t.entries.lookup n).getD empty).set .empty p).set new (p ++ r) =
        ((t.entries.lookup n).getD empty).set new (p ++ r) by rw [hinner]
    cases hn : t.entries.lookup n with
    | some inner =>
      refine ih ?_ (get?_set_self _ _ _)
      rwa [get?_cons, hn] at h
    | none =>
      cases p with
      | nil => rfl
      | cons m p => exact ih rfl (get?_set_self _ _ _)

theorem withDir_withDir (hdir : (t.get? p).all isDir) (n : String) :
    (t.withDir p).withDir (p ++ [n]) = t.withDir (p ++ [n]) := by
  cases hp : t.get? p with
  | some u =>
    rw [hp] at hdir
    rw [withDir_of_isDirAt (p := p) (by simpa [isDirAt, hp] using hdir)]
  | none =>
    have habsent : t.get? (p ++ [n]) = none := get?_eq_none_below hp (List.prefix_append _ _)
    have hsame := get?_withDir_entry t p n
    rw [habsent] at hsame
    rw [withDir_of_absent hsame, withDir_of_absent hp, withDir_of_absent habsent]
    exact set_empty_set hp _ _

theorem NoLinks.withDir (h : NoLinks t) (hdir : (t.get? p).all isDir) : NoLinks (t.withDir p) := by
  cases hp : t.get? p with
  | none =>
    rw [withDir_of_absent hp]
    exact h.set noLinks_empty p
  | some u =>
    rw [hp] at hdir
    rwa [withDir_of_isDirAt (by simpa [isDirAt, hp] using hdir)]

theorem Clear.of_above {q : Place} (h : Clear t p) (hq : q <+: p) : Clear t q :=
  fun r hr => h r (hr.trans hq)

theorem clear_append_iff {n : String} :
    Clear t (p ++ [n]) ↔ Clear t p ∧ (t.get? (p ++ [n])).all isDir := by
  refine ⟨fun h => ⟨h.of_above (List.prefix_append _ _), h _ List.prefix_rfl⟩, ?_⟩
  rintro ⟨h, hn⟩ q hq
  rcases List.prefix_concat_iff.mp hq with rfl | hq
  · exact hn
  · exact h q hq

end FileTree

namespace Session

open FileTree

variable {t : FileTree} {anchor : Anchor}

/-- The directory is made unless it is there; anything else in its place stays. -/
theorem exact_makeDir_unless (ht : NoLinks t) {p : Path} (hup : ".." ∉ p.segments)
    (hparent : p.segments ≠ [] → t.isDirAt p.segments.dropLast) :
    Exact t (do unless ← isDir p do makeDir p) (p.Fits ∧ (t.get? p.segments).all FileTree.isDir) ()
      (t.withDir p.segments) := by
  have hknown : Known t p := by
    by_cases hp : p.segments = []
    · exact .inl (by simp [Path.Short, hp])
    · exact .inr (hparent hp)
  refine (exact_of_sees (sees_isDir ht hup hknown)).bind fun hfits => ?_
  cases hu : t.get? p.segments with
  | none =>
    have hne : p.segments ≠ [] := by
      intro hnil
      rw [hnil] at hu
      cases hu
    rw [if_neg (by simp [isDirAt, hu]), withDir_of_absent hu]
    exact (exact_makeDir ht hup (hparent hne) hu).congr (by simp [hfits])
  | some u =>
    by_cases hdir : u.isDir
    · have hat : t.isDirAt p.segments := by simpa [isDirAt, hu] using hdir
      rw [if_pos hat, withDir_of_isDirAt hat]
      exact (exact_pure t _).congr (by simpa using hdir)
    · rw [if_neg (by simpa [isDirAt, hu] using hdir)]
      exact (exact_makeDir_of_isSome ht hup (by simp [hu]) _).congr (by simpa using hdir)

/-- On the way down each directory is made in the one before it. -/
theorem exact_makeDirs_from {g : Path → Session PUnit}
    (hg : ∀ segs n, ".." ∉ segs ++ [n] → Clear t segs →
      Exact (t.withDir segs) (g ⟨anchor, segs ++ [n]⟩)
        ((Path.mk anchor (segs ++ [n])).Fits ∧ (t.get? (segs ++ [n])).all FileTree.isDir) ()
        (t.withDir (segs ++ [n])))
    {t₀ : FileTree} (segs rest : List String) (hup : ".." ∉ segs ++ rest)
    (hstart : Exact t₀ (g ⟨anchor, segs⟩) ((Path.mk anchor segs).Fits ∧ Clear t segs) ()
      (t.withDir segs)) :
    Exact t₀ (((Path.beginnings rest).map fun r => Path.mk anchor (segs ++ r)).forM g)
      ((Path.mk anchor (segs ++ rest)).Fits ∧ Clear t (segs ++ rest)) ()
      (t.withDir (segs ++ rest)) := by
  induction rest generalizing t₀ segs with
  | nil =>
    simp only [Path.beginnings, List.map_cons, List.map_nil, List.append_nil]
    exact (hstart.bind (f := fun _ => pure PUnit.unit) fun _ => exact_pure _ _).congr (by simp)
  | cons n rest ih =>
    have hmap : ((Path.beginnings rest).map (n :: ·)).map (fun r => Path.mk anchor (segs ++ r)) =
        (Path.beginnings rest).map fun r => Path.mk anchor (segs ++ [n] ++ r) := by
      simp [Function.comp_def]
    have happ : segs ++ n :: rest = segs ++ [n] ++ rest := by simp
    simp only [Path.beginnings, List.map_cons, List.append_nil, hmap]
    rw [happ] at hup ⊢
    refine (hstart.bind (f := fun _ => List.forM _ g) fun hc => ih (segs ++ [n]) hup ?_).congr ?_
    · have hnext : ".." ∉ segs ++ [n] := fun h => hup (List.mem_append_left _ h)
      refine (hg segs n hnext hc.2).congr ?_
      rw [clear_append_iff]
      simp [hc.2]
    · refine ⟨fun h => h.2, fun h => ⟨⟨?_, ?_⟩, h⟩⟩
      · have hfits := h.1
        rw [List.append_assoc] at hfits
        exact hfits.above
      · refine h.2.of_above ?_
        rw [List.append_assoc]
        exact List.prefix_append _ _

/-- The directories to a place are made exactly if its path fits and nothing else is on the way. -/
theorem exact_makeDirs (anchor : Anchor) (ht : NoLinks t) {dir : List String} (hup : ".." ∉ dir) :
    Exact t (makeDirs (Path.mk anchor dir)) ((Path.mk anchor dir).Fits ∧ Clear t dir) ()
      (t.withDir dir) := by
  refine exact_makeDirs_from ?_ [] dir hup ?_
  · intro segs n hup hclear
    have hlinks := ht.withDir (hclear segs List.prefix_rfl)
    have h := exact_makeDir_unless hlinks (p := ⟨anchor, segs ++ [n]⟩) hup fun _ => by
      rw [List.dropLast_concat]
      exact isDirAt_withDir t segs
    rw [get?_withDir_entry, withDir_withDir (hclear segs List.prefix_rfl)] at h
    exact h
  · refine (exact_makeDir_unless ht (p := ⟨anchor, []⟩) (by simp) (by simp)).congr ?_
    simp [Clear]

end Session

end CronWrap
