import CronWrap.Proofs.Files.Look

/-! Paths that can be looked at, whatever links there are, and what is seen there. -/
namespace CronWrap

open FileTree Session Workspace
open Text (Bytes)

namespace FileTree

variable {t : FileTree} {p : Path}

/-- The content of the file to which a path leads, if it leads to one. -/
def contentAt (t : FileTree) (p : Path) : Except FileCause (Option Bytes) :=
  (t.find? true p).map fun found => match found with
    | some (.file content) => some content
    | _ => none

/-- To look at the path is no error. -/
def Shows (t : FileTree) (p : Path) : Prop := ∃ found, t.contentAt p = .ok found

theorem exists_find_of_contentAt {content : Bytes} (h : t.contentAt p = .ok (some content)) :
    ∃ place, t.find true p = .ok (place, some (.file content)) := by
  unfold contentAt find? at h
  cases hfind : t.find true p with
  | error cause =>
    rw [hfind] at h
    cases hcause : cause.meansAbsent <;> simp [hcause, Except.map] at h
  | ok r =>
    obtain ⟨place, found⟩ := r
    rw [hfind] at h
    simp only [Except.map, Except.ok.injEq] at h
    split at h
    · cases h
      exact ⟨place, rfl⟩
    · cases h

/-- What stops a walk that does not mean that nothing is there is that a name is too long. -/
theorem cause_of_walk {last : Bool} {k : Nat} {trouble : Option FileCause} {q : Place}
    {segs : List String} (h : ∀ cause ∈ trouble, cause.meansAbsent ∨ cause = .nameTooLong) :
    ∀ cause ∈ (t.walk last k trouble q segs).trouble, cause.meansAbsent ∨ cause = .nameTooLong := by
  have hnext : ∀ {trouble : Option FileCause} (q : Place) (name : String),
      (∀ cause ∈ trouble, cause.meansAbsent ∨ cause = .nameTooLong) →
      ∀ cause ∈ (trouble <|> t.obstacle q name), cause.meansAbsent ∨ cause = .nameTooLong := by
    intro trouble q name h cause hcause
    cases trouble with
    | some first => exact h cause hcause
    | none =>
      change t.obstacle q name = some cause at hcause
      unfold obstacle at hcause
      split at hcause
      · split at hcause
        · cases hcause
        · cases hcause
          exact .inr rfl
      · cases hcause
        exact .inl rfl
      · cases hcause
        exact .inl rfl
  induction k, trouble, q, segs using walk_induction t last with
  | nil k trouble q => rwa [walk_nil]
  | up k trouble q rest ih =>
    rw [walk_up]
    exact ih (hnext q _ h)
  | down k trouble q name rest hname hlink ih =>
    rw [walk_down hname hlink]
    exact ih (hnext q name h)
  | stop k trouble q name target hname hlink hlast =>
    subst hlast
    rw [walk_stop hname hlink]
    exact hnext q name h
  | lost trouble q name rest target hname hlink hgo =>
    rw [walk_lost hname hlink hgo]
    intro cause hcause
    have hor := hnext q name h
    cases hall : (trouble <|> t.obstacle q name) with
    | some first =>
      rw [hall] at hcause hor
      exact hor cause hcause
    | none =>
      rw [hall] at hcause
      cases hcause
      exact .inl rfl
  | link k trouble q name rest target hname hlink hgo ih =>
    rw [walk_link hname hlink hgo]
    exact ih (hnext q name h)

/-- A look at a path is an error only if the path or a name on the way is too long. -/
theorem find?_eq_error {last : Bool} {cause : FileCause} (h : t.find? last p = .error cause) :
    cause = .nameTooLong := by
  unfold find? at h
  split at h
  · cases h
  · rename_i other hfind
    split at h
    · cases h
    · rename_i hpresent
      cases h
      unfold find at hfind
      split at hfind
      · cases hfind
        rfl
      · have hwalk : ∀ cause ∈ (t.walk last maxLinks none [] p.segments).trouble,
            cause.meansAbsent ∨ cause = .nameTooLong := cause_of_walk (by simp)
        dsimp only at hfind
        split at hfind
        · rename_i htrouble
          cases hfind
          exact (hwalk _ htrouble).resolve_left hpresent
        · cases hfind

theorem contentAt_eq_error {cause : FileCause} (h : t.contentAt p = .error cause) :
    cause = .nameTooLong := by
  unfold contentAt at h
  cases hfind : t.find? true p with
  | ok found => simp [hfind, Except.map] at h
  | error other =>
    rw [hfind] at h
    cases h
    exact find?_eq_error hfind

/-! ## Links at the end -/

/-- Where a walk is stopped it would be so if it went on through a link at the end. -/
theorem trouble_walk_through (k : Nat) (trouble : Option FileCause) (q : Place)
    (segs : List String) (h : (t.walk false k trouble q segs).trouble.isSome) :
    (t.walk true k trouble q segs).trouble = (t.walk false k trouble q segs).trouble := by
  induction k, trouble, q, segs using walk_induction t false with
  | nil k trouble q => rw [walk_nil, walk_nil]
  | up k trouble q rest ih =>
    rw [walk_up] at h ⊢
    rw [walk_up, ih h]
  | down k trouble q name rest hname hlink ih =>
    rw [walk_down hname hlink] at h ⊢
    rw [walk_down hname hlink, ih h]
  | stop k trouble q name target hname hlink hlast =>
    rw [walk_stop hname hlink] at h ⊢
    cases k with
    | zero =>
      rw [walk_lost hname hlink (.inr rfl)]
      cases hfirst : (trouble <|> t.obstacle q name) with
      | none => simp [hfirst] at h
      | some cause => rfl
    | succ k => rw [walk_link hname hlink (.inr rfl), trouble_walk t true k _ _ h]
  | lost trouble q name rest target hname hlink hgo =>
    rw [walk_lost hname hlink (.inr rfl), walk_lost hname hlink hgo]
  | link k trouble q name rest target hname hlink hgo ih =>
    rw [walk_link hname hlink hgo] at h ⊢
    rw [walk_link hname hlink (.inr rfl), ih h]

/-- What a look at a path tells, by the walk along it. -/
theorem find?_of_size (last : Bool) (h : p.toString.utf8ByteSize ≤ maxPath) :
    t.find? last p = match (t.walkTo last p).trouble with
      | none => .ok (t.get? (t.walkTo last p).place)
      | some cause => if cause.meansAbsent then .ok none else .error cause := by
  have hlong : ¬ maxPath < p.toString.utf8ByteSize := by omega
  rw [FileTree.find?, FileTree.find, if_neg hlong]
  cases t.walkTo last p with
  | mk place trouble => cases trouble <;> rfl

theorem size_of_find? {last : Bool} {found : Option FileTree} (h : t.find? last p = .ok found) :
    p.toString.utf8ByteSize ≤ maxPath := by
  by_contra hlong
  rw [FileTree.find?, FileTree.find, if_pos (by omega)] at h
  cases h

/-- What can be looked at through links can be looked at for itself. -/
theorem exists_find?_of_through {found : Option FileTree} (h : t.find? true p = .ok found) :
    ∃ there, t.find? false p = .ok there := by
  have hsize := size_of_find? h
  have hthrough := trouble_walk_through (t := t) maxLinks none [] p.segments
  rw [find?_of_size true hsize, walkTo] at h
  rw [find?_of_size false hsize, walkTo]
  cases htrouble : (t.walk false maxLinks none [] p.segments).trouble with
  | none => exact ⟨_, rfl⟩
  | some cause =>
    rw [htrouble] at hthrough
    rw [hthrough rfl] at h
    cases hcause : cause.meansAbsent with
    | true => exact ⟨none, by simp [hcause]⟩
    | false => simp [hcause] at h

theorem shows_iff : t.Shows p ↔ ∃ found, t.find? true p = .ok found := by
  unfold Shows contentAt
  cases t.find? true p with
  | ok found => simp [Except.map]
  | error cause => simp [Except.map]

instance (t : FileTree) (p : Path) : Decidable (t.Shows p) :=
  match h : t.contentAt p with
  | .ok found => .isTrue ⟨found, h⟩
  | .error _ => .isFalse fun ⟨_, hfound⟩ => nomatch h.symm.trans hfound

/-- Straight down, what a look tells is what is at the place. -/
theorem Straight.eq_of_find? {last : Bool} {found : Option FileTree}
    (h : Straight t last [] p.segments) (hup : ".." ∉ p.segments)
    (hfind : t.find? last p = .ok found) : found = t.get? p.segments := by
  have hplace := h.place_walk maxLinks none hup
  have hend := h.ending_walk maxLinks hup
  rw [find?_of_size last (size_of_find? hfind), walkTo] at hfind
  generalize t.walk last maxLinks none [] p.segments = w at hplace hend hfind
  obtain ⟨place, trouble⟩ := w
  simp only [List.nil_append] at hplace hend
  subst hplace
  cases hend with
  | arrived hshort hdir =>
    cases hfind
    rfl
  | tooLong hn hlong => cases hfind
  | absent hcause hne hdir =>
    simp only [hcause, if_true, Except.ok.injEq] at hfind
    rw [← hfind, get?_eq_none_of_parent hne hdir]

/-- A path that leads straight down can be looked at if it and its names are not too long. -/
theorem Straight.shows_iff (h : Straight t true [] p.segments) (hup : ".." ∉ p.segments)
    (hknown : Known t p) : t.Shows p ↔ p.Fits := by
  rw [FileTree.shows_iff, h.find? hup hknown]
  split <;> simp_all

theorem NoLinks.shows_iff (ht : NoLinks t) (hup : ".." ∉ p.segments) (hknown : Known t p) :
    t.Shows p ↔ p.Fits := (ht.straight_top true _).shows_iff hup hknown

/-- On the way to a directory nothing goes wrong but that a name is too long. -/
theorem trouble_walk_of_isDirAt {dir : Place} (hdir : t.isDirAt dir) (hup : ".." ∉ dir) (k : Nat) :
    (t.walk true k none [] dir).trouble = none ∨
      (t.walk true k none [] dir).trouble = some .nameTooLong := by
  have hend := (straight_of_isDirAt hdir).ending_walk k hup
  generalize (t.walk true k none [] dir).trouble = trouble at hend ⊢
  cases hend with
  | arrived _ _ => exact .inl rfl
  | tooLong _ _ => exact .inr rfl
  | absent _ _ hnone =>
    obtain ⟨r, hr⟩ := List.dropLast_prefix dir
    have habove : t.isDirAt dir.dropLast := isDirAt_above (r := r) (hr.symm ▸ hdir)
    rw [List.nil_append, habove] at hnone
    cases hnone

/-- A link to a name that is too long cannot be looked at. -/
theorem not_shows_of_link {anchor : Anchor} {dir : Place} {name target : String}
    (hlink : t.get? (dir ++ [name]) = some (.link target)) (hup : ".." ∉ dir ++ [name])
    (htarget : Path.IsSegment target) (hlong : maxName < target.utf8ByteSize) :
    ¬ t.Shows ⟨anchor, dir ++ [name]⟩ := by
  have hsome : (t.get? (dir ++ [name])).isSome := by simp [hlink]
  have hdir : t.isDirAt dir := isDirAt_of_below hsome (List.cons_ne_nil _ _)
  rw [List.mem_append, not_or, List.mem_singleton] at hup
  have hlinkAt : t.linkAt? dir name = some ⟨.here, [target]⟩ := by
    rw [linkAt?_eq, hlink, ← Path.parse_of_isSegment htarget]
    rfl
  have hblocked : t.obstacle dir target = some .nameTooLong := by
    rw [obstacle_of_isDirAt hdir, if_neg (by omega)]
  have hwalk : t.walk true maxLinks none [] (dir ++ [name]) =
      t.walk true maxLinks (t.walk true maxLinks none [] dir).trouble dir [name] :=
    (straight_of_isDirAt hdir).walk_append hup.1
  have htrouble : (t.walk true maxLinks none [] (dir ++ [name])).trouble = some .nameTooLong := by
    rw [hwalk]
    rcases trouble_walk_of_isDirAt hdir hup.1 maxLinks with hway | hway
    · rw [hway]
      cases hfree : t.obstacle dir name with
      | some cause =>
        have hstop : (t.obstacle dir name).isSome := by simp [hfree]
        rw [trouble_walk_of_obstacle hstop, hfree]
        rw [obstacle_of_isDirAt hdir] at hfree
        split at hfree
        · cases hfree
        · exact hfree.symm
      | none =>
        -- The link is followed, and stops at its target.
        have hgo : maxLinks = 39 + 1 := rfl
        rw [hgo, walk_link (Ne.symm hup.2) hlinkAt (.inr rfl), hfree]
        have hstop : (t.obstacle dir target).isSome := by simp [hblocked]
        exact (trouble_walk_of_obstacle hstop).trans hblocked
    · rw [hway]
      exact trouble_walk t true maxLinks dir _ rfl
  intro hshows
  obtain ⟨found, hfound⟩ := FileTree.shows_iff.mp hshows
  rw [find?_of_size true (size_of_find? hfound), walkTo] at hfound
  simp only [htrouble] at hfound
  cases hfound

theorem shows_of_fits (ht : NoLinks t) (hup : ".." ∉ p.segments) (hfits : p.Fits) : t.Shows p :=
  (ht.shows_iff hup (.inl hfits.short)).mpr hfits

end FileTree

namespace Session

variable {t : FileTree} {p : Path}

theorem sees_isFile_of_contentAt {found : Option Bytes} (h : t.contentAt p = .ok found) :
    Sees t (isFile p : Session _) (.ok found.isSome) := by
  have hsees := sees_find? t true p
  unfold contentAt at h
  cases hfind : t.find? true p with
  | error cause => simp [hfind, Except.map] at h
  | ok there =>
    rw [hfind] at h hsees
    simp only [Except.map, Except.ok.injEq] at h
    have hkind : found.isSome = decide (kindOf there = some .file) := by
      subst h
      cases there with
      | none => rfl
      | some u => cases u <;> rfl
    rw [hkind]
    exact Sees.bind (a := kindOf there) (hsees.bind (sees_pure t _)) (sees_pure t _)

theorem sees_isFile_of_error {cause : FileCause} (h : t.contentAt p = .error cause) :
    Sees t (isFile p : Session _) (.error (.file ⟨cause, p⟩)) := by
  have hsees := sees_find? t true p
  unfold contentAt at h
  cases hfind : t.find? true p with
  | ok there => simp [hfind, Except.map] at h
  | error other =>
    rw [hfind] at h hsees
    cases h
    exact hsees.bind_error.bind_error

theorem sees_readText_of_contentAt {content : Bytes} (h : t.contentAt p = .ok (some content)) :
    Sees t (readText p : Session _) (textOf content) := by
  obtain ⟨place, hfind⟩ := exists_find_of_contentAt h
  exact sees_readText_of_read (sees_read_of_find hfind)

/-! ## Looks straight down -/

theorem sees_find?_of_shows (hstraight : Straight t true [] p.segments) (hup : ".." ∉ p.segments)
    (hshows : t.Shows p) : Sees t (find? true p) (.ok (t.get? p.segments)) := by
  obtain ⟨found, hfound⟩ := shows_iff.mp hshows
  have hsees := sees_find? t true p
  rw [hfound] at hsees
  rwa [hstraight.eq_of_find? hup hfound] at hsees

theorem sees_find?_of_not_shows (h : ¬ t.Shows p) : Sees t (find? true p) (.error (tooLong p)) := by
  have hsees := sees_find? t true p
  cases hfound : t.find? true p with
  | ok found => exact absurd (shows_iff.mpr ⟨found, hfound⟩) h
  | error cause =>
    obtain rfl := find?_eq_error hfound
    rwa [hfound] at hsees

theorem sees_kind?_of_shows (hstraight : Straight t true [] p.segments) (hup : ".." ∉ p.segments)
    (hshows : t.Shows p) : Sees t (kind? p : Session _) (.ok (kindOf (t.get? p.segments))) :=
  (sees_find?_of_shows hstraight hup hshows).bind (sees_pure t _)

theorem sees_isFile_of_shows (hstraight : Straight t true [] p.segments) (hup : ".." ∉ p.segments)
    (hshows : t.Shows p) : Sees t (isFile p : Session _) (.ok (t.isFileAt p.segments)) := by
  rw [isFileAt_eq_kindOf]
  exact (sees_kind?_of_shows hstraight hup hshows).bind (sees_pure t _)

theorem sees_isDir_of_shows (hstraight : Straight t true [] p.segments) (hup : ".." ∉ p.segments)
    (hshows : t.Shows p) : Sees t (isDir p : Session _) (.ok (t.isDirAt p.segments)) := by
  rw [isDirAt_eq_kindOf]
  exact (sees_kind?_of_shows hstraight hup hshows).bind (sees_pure t _)

theorem sees_isFile_of_not_shows (h : ¬ t.Shows p) :
    Sees t (isFile p : Session _) (.error (tooLong p)) :=
  (sees_find?_of_not_shows h).bind_error.bind_error

theorem sees_isDir_of_not_shows (h : ¬ t.Shows p) :
    Sees t (isDir p : Session _) (.error (tooLong p)) :=
  (sees_find?_of_not_shows h).bind_error.bind_error

/-- Whatever is at the end of links is of some kind. -/
theorem exists_sees_kind? (h : t.Shows p) : ∃ kind, Sees t (kind? p : Session _) (.ok kind) := by
  obtain ⟨found, hfound⟩ := shows_iff.mp h
  have hsees := sees_find? t true p
  rw [hfound] at hsees
  exact ⟨_, Sees.bind (a := found) hsees (sees_pure t (kindOf found))⟩

theorem exists_sees_isFile (h : t.Shows p) : ∃ b, Sees t (isFile p : Session _) (.ok b) := by
  obtain ⟨kind, hkind⟩ := exists_sees_kind? h
  exact ⟨_, hkind.bind (sees_pure t _)⟩

theorem exists_sees_isDir (h : t.Shows p) : ∃ b, Sees t (isDir p : Session _) (.ok b) := by
  obtain ⟨kind, hkind⟩ := exists_sees_kind? h
  exact ⟨_, hkind.bind (sees_pure t _)⟩

theorem sees_isLink_of_shows (hstraight : Straight t false [] p.segments) (hup : ".." ∉ p.segments)
    (hshows : t.Shows p) :
    Sees t (isLink p : Session _) (.ok ((t.get? p.segments).any (·.isLink))) := by
  obtain ⟨found, hfound⟩ := shows_iff.mp hshows
  obtain ⟨there, hthere⟩ := exists_find?_of_through hfound
  have hsees := sees_find? t false p
  rw [hthere] at hsees
  rw [← hstraight.eq_of_find? hup hthere]
  exact Sees.bind (a := there) hsees (sees_pure t _)

theorem sees_resolve_straight (hstraight : Straight t true [] p.segments) (hup : ".." ∉ p.segments) :
    Sees t (resolve p : Session _) (.ok ⟨.root, p.segments⟩) := by
  rw [← hstraight.resolve hup]
  exact sees_resolve t p

theorem sees_below_of_shows (hstraight : Straight t true [] p.segments) (hup : ".." ∉ p.segments)
    (hshows : t.Shows p) : Sees t (below p : Session _) (.ok (pathsBelow t p)) := by
  rw [below_eq]
  exact (sees_find?_of_shows hstraight hup hshows).bind (sees_pure t _)

/-! ## Actions that fail only for what is too long -/

/-- In every tree the action has an outcome or fails because a path cannot be looked at, and changes
nothing but the log. -/
def Glances {α : Type} (x : Session α) : Prop :=
  ∀ t, (∃ a, Sees t x (.ok a)) ∨ ∃ p, ¬ t.Shows p ∧ Sees t x (.error (tooLong p))

section Glances

variable {α β γ : Type} {x : Session α} {f : α → Session β}

theorem Glances.looks (h : Glances x) : Looks x := by
  intro t
  rcases h t with ⟨a, ha⟩ | ⟨p, -, hp⟩
  · exact ⟨_, ha, ha⟩
  · exact ⟨_, hp, hp⟩

theorem glances_pure (a : α) : Glances (pure a : Session α) := fun t => .inl ⟨a, sees_pure t a⟩

theorem Glances.bind (hx : Glances x) (hf : ∀ a, Glances (f a)) : Glances (x >>= f) := by
  intro t
  rcases hx t with ⟨a, ha⟩ | ⟨p, hlong, hp⟩
  · rcases hf a t with ⟨b, hb⟩ | ⟨p, hlong, hp⟩
    · exact .inl ⟨b, ha.bind hb⟩
    · exact .inr ⟨p, hlong, ha.bind hp⟩
  · exact .inr ⟨p, hlong, hp.bind_error⟩

theorem glances_find? (last : Bool) (p : Path) : Glances (find? last p) := by
  intro t
  have hsees := sees_find? t last p
  cases hfound : t.find? last p with
  | ok found =>
    rw [hfound] at hsees
    exact .inl ⟨found, hsees⟩
  | error cause =>
    obtain rfl := find?_eq_error hfound
    rw [hfound] at hsees
    refine .inr ⟨p, fun hshows => ?_, hsees⟩
    obtain ⟨found, hthrough⟩ := shows_iff.mp hshows
    obtain ⟨there, hself⟩ := exists_find?_of_through hthrough
    cases last with
    | true => cases hfound.symm.trans hthrough
    | false => cases hfound.symm.trans hself

theorem glances_kind? (p : Path) : Glances (kind? p : Session _) :=
  (glances_find? true p).bind fun found => glances_pure (kindOf found)

theorem glances_isDir (p : Path) : Glances (isDir p : Session _) :=
  (glances_kind? p).bind fun _ => glances_pure _

theorem glances_isFile (p : Path) : Glances (isFile p : Session _) :=
  (glances_kind? p).bind fun _ => glances_pure _

theorem glances_isLink (p : Path) : Glances (isLink p : Session _) :=
  (glances_find? false p).bind fun _ => glances_pure _

theorem glances_resolve (p : Path) : Glances (resolve p : Session _) := fun t =>
  .inl ⟨t.resolve p, sees_resolve t p⟩

theorem glances_below (p : Path) : Glances (below p : Session _) := by
  rw [below_eq]
  exact (glances_find? true p).bind fun _ => glances_pure _

theorem glances_mapM {g : γ → Session β} (hg : ∀ c, Glances (g c)) (l : List γ) :
    Glances (l.mapM g) := by
  induction l with
  | nil =>
    rw [List.mapM_nil]
    exact glances_pure []
  | cons c l ih =>
    rw [List.mapM_cons]
    exact (hg c).bind fun _ => ih.bind fun _ => glances_pure _

theorem glances_filterM {g : γ → Session Bool} (hg : ∀ c, Glances (g c)) (l : List γ) :
    Glances (l.filterM g) := by
  have haux : ∀ acc, Glances (List.filterAuxM g l acc) := by
    induction l with
    | nil => exact fun acc => glances_pure acc
    | cons c l ih =>
      intro acc
      rw [filterAuxM_cons]
      exact (hg c).bind fun _ => ih _
  rw [filterM_eq]
  exact (haux []).bind fun _ => glances_pure _

end Glances

end Session

end CronWrap
