import CronWrap.Proofs.Files.Directory
import Mathlib.Data.List.Infix

/-! Paths that lead straight down to the places that they name, as long as their names fit. -/
namespace CronWrap

/-- The path and its names are short enough for the system. -/
def Path.Fits (p : Path) : Prop :=
  p.toString.utf8ByteSize ≤ FileTree.maxPath ∧
    ∀ n ∈ p.segments, n.utf8ByteSize ≤ FileTree.maxName

instance (p : Path) : Decidable p.Fits := by
  unfold Path.Fits
  infer_instance

/-- What lies above a path that fits does so too. -/
theorem Path.Fits.above {anchor : Anchor} {segs rest : List String}
    (h : (Path.mk anchor (segs ++ rest)).Fits) : (Path.mk anchor segs).Fits := by
  refine ⟨?_, fun n hn => h.2 n (List.mem_append_left _ hn)⟩
  by_cases hne : rest = []
  · subst hne
    simpa using h.1
  · have hle := utf8ByteSize_toString_le anchor segs hne
    have hfull := h.1
    simp only [FileTree.maxPath] at hfull ⊢
    omega

/-- No name in the path is longer than the system lets names be. -/
def Path.Short (p : Path) : Prop := ∀ n ∈ p.segments, n.utf8ByteSize ≤ FileTree.maxName

instance : DecidablePred Path.Short := fun p =>
  inferInstanceAs (Decidable (∀ n ∈ p.segments, n.utf8ByteSize ≤ FileTree.maxName))

theorem Path.Fits.short {p : Path} (h : p.Fits) : p.Short := h.2

theorem Path.Short.append {p : Path} (h : p.Short) {names : List String}
    (hnames : ∀ n ∈ names, n.utf8ByteSize ≤ FileTree.maxName) :
    (Path.mk p.anchor (p.segments ++ names)).Short :=
  fun n hn => (List.mem_append.mp hn).elim (h n) (hnames n)

namespace FileTree

variable {t : FileTree} {last : Bool} {k : Nat} {trouble : Option FileCause} {q : Place}
  {name : String} {names rest : List String} {p : Path}

/-! ## Directories -/

def isDirAt (t : FileTree) (q : Place) : Bool := (t.get? q).any isDir

def isFileAt (t : FileTree) (q : Place) : Bool := (t.get? q).any isFile

theorem isDirAt_iff {q : Place} : t.isDirAt q ↔ ∃ es, t.get? q = some (.dir es) := by
  unfold isDirAt
  cases t.get? q with
  | none => simp
  | some u => cases u <;> simp [isDir]

theorem isFileAt_iff {q : Place} :
    t.isFileAt q ↔ ∃ content, t.get? q = some (.file content) := by
  unfold isFileAt
  cases t.get? q with
  | none => simp
  | some u => cases u <;> simp [isFile]

theorem isDirAt_of_below {q r : Place} (h : (t.get? (q ++ r)).isSome) (hr : r ≠ []) :
    t.isDirAt q :=
  isDirAt_iff.mpr (exists_dir_above h (List.prefix_append q r) (by simpa using hr))

theorem isSome_of_isDirAt {q : Place} (h : t.isDirAt q) : (t.get? q).isSome := by
  obtain ⟨es, hes⟩ := isDirAt_iff.mp h
  simp [hes]

theorem isDirAt_above {q r : Place} (h : t.isDirAt (q ++ r)) : t.isDirAt q := by
  by_cases hr : r = []
  · simpa [hr] using h
  · exact isDirAt_of_below (isSome_of_isDirAt h) hr

theorem obstacle_of_isDirAt {q : Place} (h : t.isDirAt q) (name : String) :
    t.obstacle q name = if name.utf8ByteSize ≤ maxName then none else some .nameTooLong := by
  obtain ⟨es, hes⟩ := isDirAt_iff.mp h
  simp [obstacle, hes]

theorem obstacle_of_not_isDirAt {q : Place} (h : t.isDirAt q = false) (name : String) :
    ∃ cause, t.obstacle q name = some cause ∧ cause.meansAbsent := by
  unfold isDirAt at h
  unfold obstacle
  split
  · simp_all [isDir]
  · exact ⟨_, rfl, rfl⟩
  · exact ⟨_, rfl, rfl⟩

theorem isFileAt_of_isLink {q : Place} (h : (t.get? q).any isLink) : t.isFileAt q = false := by
  unfold isFileAt
  cases hu : t.get? q with
  | none => rfl
  | some u => cases u <;> simp_all [isLink, isFile]

theorem isDirAt_of_isLink {q : Place} (h : (t.get? q).any isLink) : t.isDirAt q = false := by
  unfold isDirAt
  cases hu : t.get? q with
  | none => rfl
  | some u => cases u <;> simp_all [isLink, isDir]

/-! ## Names that are no links -/

/-- By these names no link is followed from the place. -/
def Straight (t : FileTree) (last : Bool) (q : Place) (names : List String) : Prop :=
  ∀ r, r <+: names → r ≠ [] → (r ≠ names ∨ last = true) →
    ∀ u, t.get? (q ++ r) = some u → u.target? = none

instance (t : FileTree) (last : Bool) (q : Place) (names : List String) :
    Decidable (Straight t last q names) :=
  decidable_of_iff (∀ r ∈ names.inits, r ≠ [] → (r ≠ names ∨ last = true) →
      ∀ u ∈ t.get? (q ++ r), u.target? = none)
    (by simp only [Straight, List.mem_inits, Option.mem_def])

theorem Straight.tail (h : Straight t last q (name :: names)) :
    Straight t last (q ++ [name]) names := by
  intro r hr hne hcond u hu
  refine h (name :: r) (List.cons_prefix_cons.mpr ⟨rfl, hr⟩) (by simp) ?_ u ?_
  · exact hcond.imp_left fun hne he => hne (List.cons.inj he).2
  · rw [← hu, List.append_assoc]
    rfl

theorem straight_nil (t : FileTree) (last : Bool) (q : Place) : Straight t last q [] :=
  fun _ hr hne => absurd (List.prefix_nil.mp hr) hne

/-- Behind names that can be followed there may be a link that is not. -/
theorem Straight.concat (h : Straight t true q names) (name : String) :
    Straight t false q (names ++ [name]) := by
  intro r hr hne hcond u hu
  have hlast : r ≠ names ++ [name] := hcond.resolve_right (by simp)
  exact h r ((List.prefix_concat_iff.mp hr).resolve_left hlast) hne (.inr rfl) u hu

theorem Straight.followed (h : Straight t false q names)
    (hlast : ∀ u, t.get? (q ++ names) = some u → u.target? = none) : Straight t true q names := by
  intro r hr hne _ u hu
  by_cases he : r = names
  · exact hlast u (he ▸ hu)
  · exact h r hr hne (.inl he) u hu

theorem Straight.of_not_isLink (h : Straight t false q names)
    (hlast : (t.get? (q ++ names)).any isLink = false) : Straight t true q names := by
  refine h.followed fun u hu => ?_
  rw [hu] at hlast
  cases u with
  | link target => cases hlast
  | dir es => rfl
  | file content => rfl

/-- Above something that is there are directories. -/
theorem straight_of_isSome (h : (t.get? (q ++ names)).isSome) : Straight t false q names := by
  intro r hr hne hcond u hu
  obtain ⟨more, rfl⟩ := hr
  have hmore : more ≠ [] := by
    rintro rfl
    exact hcond.resolve_right (by simp) (List.append_nil r).symm
  rw [← List.append_assoc] at h
  have hdir := isDirAt_of_below h hmore
  rw [isDirAt, hu] at hdir
  exact target?_of_isDir hdir

theorem straight_of_isDirAt (h : t.isDirAt q) : Straight t true [] q := by
  refine (straight_of_isSome (isSome_of_isDirAt h)).of_not_isLink ?_
  rw [List.nil_append, Bool.eq_false_iff]
  intro hlink
  rw [isDirAt_of_isLink hlink] at h
  cases h

/-- One step of a walk that follows no link. -/
theorem Straight.walk_cons (h : Straight t last q (name :: rest)) (hname : name ≠ "..") :
    t.walk last k trouble q (name :: rest) =
      t.walk last k (trouble <|> t.obstacle q name) (q ++ [name]) rest := by
  cases hlink : t.linkAt? q name with
  | none => exact walk_down hname hlink
  | some target =>
    -- A link can only be the last thing, and then it is not followed.
    have hu := hlink
    rw [linkAt?_eq, Option.bind_eq_some_iff] at hu
    obtain ⟨u, hu, htarget⟩ := hu
    have hend : rest = [] ∧ last = false := by
      by_contra hgo
      have hcond : [name] ≠ name :: rest ∨ last = true := by
        rw [Classical.not_and_iff_not_or_not, Bool.not_eq_false] at hgo
        exact hgo.imp_left fun hne he => hne (List.cons.inj he).2.symm
      rw [h [name] (by simp) (by simp) hcond u hu] at htarget
      cases htarget
    obtain ⟨rfl, rfl⟩ := hend
    rw [walk_stop hname hlink, walk_nil]

/-- A walk along names that are no links goes on from their place, with the trouble on the way. -/
theorem Straight.walk_append (h : Straight t true q names) (hup : ".." ∉ names) :
    t.walk last k trouble q (names ++ rest) =
      t.walk last k (t.walk true k trouble q names).trouble (q ++ names) rest := by
  induction names generalizing q trouble with
  | nil => simp
  | cons n more ih =>
    rw [List.mem_cons, not_or] at hup
    have hlink : t.linkAt? q n = none := by
      rw [linkAt?_eq]
      cases hu : t.get? (q ++ [n]) with
      | none => rfl
      | some u => exact h [n] (by simp) (by simp) (.inr rfl) u hu
    rw [List.cons_append, walk_down (Ne.symm hup.1) hlink, walk_down (Ne.symm hup.1) hlink,
      ih h.tail hup.2, List.append_assoc]
    rfl

theorem Straight.place_walk (h : Straight t last q names) (k : Nat) (trouble : Option FileCause)
    (hup : ".." ∉ names) : (t.walk last k trouble q names).place = q ++ names := by
  induction names generalizing q trouble with
  | nil => simp
  | cons n rest ih =>
    rw [List.mem_cons, not_or] at hup
    rw [h.walk_cons (Ne.symm hup.1), ih h.tail _ hup.2, List.append_assoc]
    rfl

/-! ## Walks -/

/-- How a walk ends: all directories on the way are there and all names are short enough, or one is
too long, or what should be the last directory is none. -/
inductive Ending (t : FileTree) (q : Place) (names : List String) : Option FileCause → Prop
  | arrived (hshort : ∀ n ∈ names, n.utf8ByteSize ≤ maxName)
      (hdir : names ≠ [] → t.isDirAt (q ++ names.dropLast)) : Ending t q names none
  | tooLong {n : String} (hn : n ∈ names) (hlong : maxName < n.utf8ByteSize) :
      Ending t q names (some .nameTooLong)
  | absent {cause : FileCause} (hcause : cause.meansAbsent) (hne : names ≠ [])
      (hdir : t.isDirAt (q ++ names.dropLast) = false) : Ending t q names (some cause)

theorem Straight.ending_walk (h : Straight t last q names) (k : Nat) (hup : ".." ∉ names) :
    Ending t q names (t.walk last k none q names).trouble := by
  induction names generalizing q with
  | nil =>
    rw [walk_nil]
    exact .arrived (by simp) (by simp)
  | cons n rest ih =>
    rw [List.mem_cons, not_or] at hup
    rw [h.walk_cons (Ne.symm hup.1)]
    have hparent : q ++ (n :: rest).dropLast = if rest = [] then q else q ++ [n] ++ rest.dropLast := by
      cases rest <;> simp
    by_cases hdir : t.isDirAt q
    · rw [obstacle_of_isDirAt hdir]
      split
      · rename_i hshort
        -- The walk goes on in the directory, and ends as it does there.
        have hend := ih h.tail hup.2
        change Ending t q (n :: rest) (t.walk last k none (q ++ [n]) rest).trouble
        generalize (t.walk last k none (q ++ [n]) rest).trouble = trouble at hend ⊢
        cases hend with
        | arrived hrest hlast =>
          refine .arrived (List.forall_mem_cons.mpr ⟨hshort, hrest⟩) fun _ => ?_
          rw [hparent]
          split
          · exact hdir
          · exact hlast ‹_›
        | tooLong hm hlong => exact .tooLong (List.mem_cons_of_mem _ hm) hlong
        | absent hcause hne hlast =>
          refine .absent hcause (by simp) ?_
          rw [hparent, if_neg hne]
          exact hlast
      · rename_i hlong
        change Ending t q (n :: rest) (t.walk last k (some .nameTooLong) (q ++ [n]) rest).trouble
        rw [trouble_walk _ _ _ _ _ rfl]
        exact .tooLong List.mem_cons_self (by omega)
    · rw [Bool.not_eq_true] at hdir
      obtain ⟨cause, hcause, habsent⟩ := obstacle_of_not_isDirAt hdir n
      rw [hcause]
      change Ending t q (n :: rest) (t.walk last k (some cause) (q ++ [n]) rest).trouble
      rw [trouble_walk _ _ _ _ _ rfl]
      refine .absent habsent (by simp) ?_
      rw [hparent]
      split
      · exact hdir
      · rw [List.append_assoc, Bool.eq_false_iff]
        exact fun hbelow => absurd (isDirAt_above hbelow) (by simp [hdir])

/-- It is known whether there is something at the path: all names are short enough, or the directory
is there. -/
def Known (t : FileTree) (p : Path) : Prop := p.Short ∨ t.isDirAt p.segments.dropLast

theorem known_of_isSome (h : (t.get? p.segments).isSome) : Known t p := by
  rcases List.eq_nil_or_concat p.segments with hs | ⟨dir, n, hs⟩
  · exact .inl (by simp [Path.Short, hs])
  · rw [hs, List.concat_eq_append] at h
    refine .inr ?_
    rw [hs, List.concat_eq_append, List.dropLast_concat]
    exact isDirAt_of_below h (by simp)

theorem get?_eq_none_of_not_isDirAt {q r : Place} (h : t.isDirAt q = false) (hr : r ≠ []) :
    t.get? (q ++ r) = none := by
  by_contra hsome
  rw [← ne_eq, ← Option.isSome_iff_ne_none] at hsome
  exact absurd (isDirAt_of_below hsome hr) (by simp [h])

theorem get?_eq_none_of_parent {q : Place} (hne : q ≠ []) (h : t.isDirAt q.dropLast = false) :
    t.get? q = none := by
  rw [← List.dropLast_concat_getLast hne]
  exact get?_eq_none_of_not_isDirAt h (by simp)

/-- A look at a path tells what is at its place, unless the path does not fit. -/
theorem Straight.find? (h : Straight t last [] p.segments) (hup : ".." ∉ p.segments)
    (hknown : Known t p) :
    t.find? last p = if p.Fits then .ok (t.get? p.segments) else .error .nameTooLong := by
  have hplace := h.place_walk maxLinks none hup
  have hend := h.ending_walk maxLinks hup
  unfold FileTree.find? FileTree.find walkTo
  by_cases hlong : maxPath < p.toString.utf8ByteSize
  · have hfits : ¬ p.Fits := fun hf => absurd hf.1 (by omega)
    rw [if_pos hlong, if_neg hfits]
    rfl
  · rw [if_neg hlong]
    generalize t.walk last maxLinks none [] p.segments = w at hplace hend ⊢
    obtain ⟨place, trouble⟩ := w
    simp only [List.nil_append] at hplace hend ⊢
    subst hplace
    cases hend with
    | arrived hshort hdir =>
      rw [if_pos ⟨by omega, hshort⟩]
    | tooLong hn hlongName =>
      have hfits : ¬ p.Fits := fun hf => absurd (hf.2 _ hn) (by omega)
      rw [if_neg hfits]
      rfl
    | absent hcause hne hdir =>
      have hshort : ∀ n ∈ p.segments, n.utf8ByteSize ≤ maxName := by
        refine hknown.resolve_right fun hparent => ?_
        simp only [List.nil_append] at hdir
        rw [hdir] at hparent
        cases hparent
      rw [if_pos ⟨by omega, hshort⟩, get?_eq_none_of_parent hne hdir]
      simp [hcause]

/-- What is found is at the place that the path names, in a directory. -/
theorem Straight.of_find (h : Straight t last [] p.segments) (hup : ".." ∉ p.segments)
    {place : Place} {found : Option FileTree} (hfind : t.find last p = .ok (place, found)) :
    place = p.segments ∧ found = t.get? p.segments ∧ p.Fits ∧
      (p.segments ≠ [] → t.isDirAt p.segments.dropLast) := by
  have hplace := h.place_walk maxLinks none hup
  have hend := h.ending_walk maxLinks hup
  obtain ⟨hwalk, hfound⟩ := find_eq_ok hfind
  rw [walkTo] at hwalk
  rw [hwalk] at hplace hend
  simp only [List.nil_append] at hplace
  subst hplace
  cases hend with
  | arrived hshort hdir =>
    refine ⟨rfl, hfound, ⟨?_, hshort⟩, by simpa using hdir⟩
    by_contra hlong
    rw [FileTree.find, if_pos (by omega)] at hfind
    cases hfind

theorem Straight.find (h : Straight t last [] p.segments) (hup : ".." ∉ p.segments)
    (hfits : p.Fits) (hparent : p.segments ≠ [] → t.isDirAt p.segments.dropLast) :
    t.find last p = .ok (p.segments, t.get? p.segments) := by
  have hplace := h.place_walk maxLinks none hup
  have hend := h.ending_walk maxLinks hup
  have hsize : ¬ maxPath < p.toString.utf8ByteSize := by
    have := hfits.1
    omega
  rw [FileTree.find, if_neg hsize, walkTo]
  generalize t.walk last maxLinks none [] p.segments = w at hplace hend ⊢
  obtain ⟨place, trouble⟩ := w
  simp only [List.nil_append] at hplace hend ⊢
  subst hplace
  cases hend with
  | arrived hshort hdir => rfl
  | tooLong hn hlong => exact absurd (hfits.2 _ hn) (by omega)
  | absent hcause hne hdir =>
    rw [List.nil_append, hparent hne] at hdir
    cases hdir

theorem parent_of_isSome {q : Place} (h : (t.get? q).isSome) (hne : q ≠ []) :
    t.isDirAt q.dropLast := by
  rw [← List.dropLast_concat_getLast hne] at h
  exact isDirAt_of_below h (by simp)

/-- What is there is found, unless the path does not fit. -/
theorem Straight.find_of_isSome (h : Straight t last [] p.segments) (hup : ".." ∉ p.segments)
    (hsome : (t.get? p.segments).isSome) :
    t.find last p =
      if p.Fits then .ok (p.segments, t.get? p.segments) else .error .nameTooLong := by
  have hparent := parent_of_isSome hsome
  split
  · exact h.find hup ‹_› hparent
  · have hlook := h.find? hup (known_of_isSome hsome)
    rw [if_neg ‹_›, FileTree.find?] at hlook
    cases hfind : t.find last p with
    | ok found => simp [hfind] at hlook
    | error cause =>
      cases hcause : cause.meansAbsent <;> simp_all

theorem Straight.resolve (h : Straight t true [] p.segments) (hup : ".." ∉ p.segments) :
    t.resolve p = ⟨.root, p.segments⟩ := by
  rw [FileTree.resolve, walkTo, h.place_walk maxLinks none hup, List.nil_append]

end FileTree

end CronWrap
