import CronWrap.Proofs.Files.Shows

/-! Paths that lead to a directory in some way, and from there straight down. -/
namespace CronWrap

open Workspace

namespace FileTree

variable {t : FileTree} {last : Bool} {k : Nat} {q : Place} {names segs : List String}
  {anchor : Anchor}

theorem Extends.isDirAt {u : FileTree} (h : Extends t u) (hdir : t.isDirAt q) : u.isDirAt q := by
  obtain ⟨es, hes⟩ := isDirAt_iff.mp hdir
  obtain ⟨v, hv, -, hkind⟩ := h q _ hes
  rw [FileTree.isDirAt, hv]
  exact hkind rfl

/-- Where something else is in another tree there are directories. -/
theorem Straight.congr {t' : FileTree} (h : Straight t last q names)
    (hsame : ∀ r, r <+: names → r ≠ [] →
      t'.get? (q ++ r) = t.get? (q ++ r) ∨ t.isDirAt (q ++ r) ∧ t'.isDirAt (q ++ r)) :
    Straight t' last q names := by
  intro r hr hne hcond u hu
  rcases hsame r hr hne with he | ⟨-, hdir⟩
  · exact h r hr hne hcond u (he ▸ hu)
  · rw [isDirAt, hu] at hdir
    exact target?_of_isDir hdir

/-- A walk straight down comes to the place that the names say, or else there is nothing at that
place. -/
theorem walk_straight (h : Straight t last q names) (hup : ".." ∉ names)
    (hshort : ∀ n ∈ names, n.utf8ByteSize ≤ maxName) :
    t.walk last k none q names = ⟨q ++ names, none⟩ ∨
      (∃ cause, (t.walk last k none q names).trouble = some cause ∧ cause.meansAbsent) ∧
        t.get? (q ++ names) = none := by
  have hplace := h.place_walk k none hup
  have hend := h.ending_walk k hup
  generalize t.walk last k none q names = w at hplace hend ⊢
  obtain ⟨place, trouble⟩ := w
  cases hplace
  cases hend with
  | arrived _ _ => exact .inl rfl
  | tooLong hn hlong => exact absurd (hshort _ hn) (by omega)
  | absent hcause hne hdir =>
    refine .inr ⟨⟨_, rfl, hcause⟩, get?_eq_none_of_parent (by simp [hne]) ?_⟩
    rwa [List.dropLast_append_of_ne_nil hne]

/-- A look straight down from a place that is reached tells what is there, unless the whole path is
too long. -/
theorem Reaches.find? (hreach : Reaches t segs q) (h : Straight t last q names)
    (hne : names ≠ [] ∨ last = true) (hup : ".." ∉ names)
    (hshort : ∀ n ∈ names, n.utf8ByteSize ≤ maxName)
    (hsize : (Path.mk anchor (segs ++ names)).toString.utf8ByteSize ≤ maxPath) :
    t.find? last ⟨anchor, segs ++ names⟩ = .ok (t.get? (q ++ names)) := by
  obtain ⟨k, hleads, -⟩ := hreach
  have hsize' : ¬ maxPath < (Path.mk anchor (segs ++ names)).toString.utf8ByteSize := by omega
  rw [FileTree.find?, FileTree.find, if_neg hsize', walkTo, hleads.walk_append hne]
  rcases walk_straight (k := k) h hup hshort with hwalk | ⟨⟨cause, hcause, habsent⟩, hnone⟩
  · rw [hwalk]
  · simp only [hcause, habsent, if_true, hnone]

/-- Below what is found at the end of a path is where the last step was taken. -/
theorem Reaches.above {p : Place} {name : String} (h : Reaches t (segs ++ [name]) p)
    (hname : name ≠ "..") : ∃ q, Reaches t segs q ∧ t.isDirAt q ∧ (t.get? (q ++ [name])).isSome := by
  obtain ⟨m, hleads, hsome⟩ := h
  have hwalk : t.walk true maxLinks none [] (segs ++ [name] ++ []) = ⟨p, none⟩ := by
    rw [hleads.walk_append (.inr rfl), walk_nil]
  rw [List.append_nil] at hwalk
  obtain ⟨k, q, hleads'⟩ := exists_leads_of_walk (.inl (by simp)) (congrArg Walk.trouble hwalk)
  rw [hleads'.walk_append (.inr rfl)] at hwalk
  have hfree := obstacle_eq_none_of_walk (congrArg Walk.trouble hwalk)
  refine ⟨q, ⟨k, hleads', isSome_of_obstacle_eq_none hfree⟩,
    isDirAt_iff.mpr (dir_of_obstacle_eq_none hfree), ?_⟩
  -- Where there is nothing, the step leads there.
  by_contra habsent
  rw [Bool.not_eq_true, Option.isSome_eq_false_iff, Option.isNone_iff_eq_none] at habsent
  have hlink : t.linkAt? q name = none := by
    rw [linkAt?_eq, habsent]
    rfl
  rw [walk_down hname hlink, walk_nil, Walk.mk.injEq] at hwalk
  rw [← hwalk.1, habsent] at hsome
  cases hsome

theorem Reaches.hasDir (hreach : Reaches t segs q) (hdir : t.isDirAt q)
    (hsize : (Path.mk anchor segs).toString.utf8ByteSize ≤ maxPath) : t.hasDir ⟨anchor, segs⟩ := by
  obtain ⟨es, hes⟩ := isDirAt_iff.mp hdir
  have hfind : t.find? true ⟨anchor, segs ++ []⟩ = .ok (t.get? (q ++ [])) :=
    hreach.find? (straight_nil t true q) (.inr rfl) (by simp) (by simp) (by simpa using hsize)
  rw [List.append_nil, List.append_nil, hes] at hfind
  rw [FileTree.hasDir, hfind]

theorem exists_find_of_find? {p : Path} {u : FileTree} (h : t.find? last p = .ok (some u)) :
    ∃ place, t.find last p = .ok (place, some u) := by
  unfold FileTree.find? at h
  split at h
  · rename_i place found hfind
    cases h
    exact ⟨place, hfind⟩
  · split at h <;> cases h

/-- Whether a path is that of a link. -/
def hasLink (t : FileTree) (p : Path) : Bool :=
  match t.find? false p with
  | .ok (some (.link _)) => true
  | _ => false

theorem Reaches.target?_eq_none (hreach : Reaches t segs q) (h : Straight t false q names)
    (hne : names ≠ []) (hup : ".." ∉ names)
    (hshort : ∀ n ∈ names, n.utf8ByteSize ≤ maxName)
    (hsize : (Path.mk anchor (segs ++ names)).toString.utf8ByteSize ≤ maxPath)
    (hlink : t.hasLink ⟨anchor, segs ++ names⟩ = false) :
    ∀ u, t.get? (q ++ names) = some u → u.target? = none := by
  intro u hu
  rw [hasLink, hreach.find? h (.inl hne) hup hshort hsize, hu] at hlink
  cases u with
  | link target => cases hlink
  | dir es => rfl
  | file content => rfl

end FileTree

namespace Session

open FileTree

theorem sees_isDir_of_find? {t : FileTree} {p : Path} {found : Option FileTree}
    (h : t.find? true p = .ok found) : Sees t (isDir p : Session _) (.ok (t.hasDir p)) := by
  have hfind := sees_find? t true p
  rw [h] at hfind
  have hkind : t.hasDir p = decide (kindOf found = some .dir) := by
    rw [hasDir, h]
    cases found with
    | none => rfl
    | some u => cases u <;> rfl
  rw [hkind]
  exact (hfind.bind (sees_pure t (kindOf found))).bind (sees_pure t _)

theorem sees_isDir_of_hasDir {t : FileTree} {p : Path} (h : t.hasDir p) :
    Sees t (isDir p : Session _) (.ok true) := by
  obtain ⟨place, es, hfind⟩ := exists_find_of_hasDir h
  rw [← h]
  have hfound : t.find? true p = .ok (some (.dir es)) := by rw [FileTree.find?, hfind]
  exact sees_isDir_of_find? hfound

theorem find?_of_sees_isDir {t : FileTree} {p : Path} {dir : Bool}
    (h : Sees t (isDir p : Session _) (.ok dir)) :
    dir = t.hasDir p ∧ ∃ found, t.find? true p = .ok found := by
  cases hfind : t.find? true p with
  | ok found => exact ⟨Except.ok.inj (h.unique (sees_isDir_of_find? hfind)), found, rfl⟩
  | error cause =>
    have hlook := sees_find? t true p
    rw [hfind] at hlook
    cases h.unique hlook.bind_error.bind_error

end Session

end CronWrap
