import CronWrap.Proofs.Files.Beside
import CronWrap.Proofs.Files.Directory

/-! Making a directory with those above it. -/
namespace CronWrap

open Workspace

namespace FileTree

/-- The trees do not differ below a place. -/
def SameBelow (p : Place) (a b : FileTree) : Prop := ∀ r, r ≠ [] → b.get? (p ++ r) = a.get? (p ++ r)

theorem SameBelow.refl (p : Place) (a : FileTree) : SameBelow p a a := fun _ _ => rfl

theorem SameBelow.trans {p : Place} {a b c : FileTree} (h : SameBelow p a b)
    (h' : SameBelow p b c) : SameBelow p a c :=
  fun r hr => (h' r hr).trans (h r hr)

/-- The trees differ at most above a place, or at it, in directories that the second has and the first
may not have. -/
def SameButAbove (p : Place) (a b : FileTree) : Prop :=
  ∀ q, b.get? q = a.get? q ∨ q <+: p ∧ (b.get? q).any isDir ∧ (a.get? q).all isDir

theorem SameButAbove.refl (p : Place) (a : FileTree) : SameButAbove p a a := fun _ => .inl rfl

theorem SameButAbove.trans {p : Place} {a b c : FileTree} (h : SameButAbove p a b)
    (h' : SameButAbove p b c) : SameButAbove p a c := by
  intro q
  rcases h' q with hq' | ⟨hq, hc, hb⟩
  · rw [hq']
    exact h q
  · rcases h q with hq' | ⟨-, -, ha⟩
    · exact .inr ⟨hq, hc, hq' ▸ hb⟩
    · exact .inr ⟨hq, hc, ha⟩

theorem SameButAbove.sameBelow {p : Place} {a b : FileTree} (h : SameButAbove p a b) :
    SameBelow p a b := by
  intro r hr
  refine (h (p ++ r)).resolve_right fun habove => hr ?_
  have hlength := habove.1.length_le
  rw [List.length_append] at hlength
  exact List.eq_nil_of_length_eq_zero (by omega)

/-- Directories were made in the first tree until the segments led to one in the second. The place
to which a longer path leads is as before, and only on the way to it there is something new. -/
structure Made (a b : FileTree) (segs : List String) : Prop where
  dir : ∃ p es, Reaches b segs p ∧ b.get? p = some (.dir es)
  place_eq : ∀ rest, ".." ∉ rest →
    (b.walk true maxLinks none [] (segs ++ rest)).place =
      (a.walk true maxLinks none [] (segs ++ rest)).place
  outside : ∀ rest, ".." ∉ rest →
    SameButAbove (a.walk true maxLinks none [] (segs ++ rest)).place a b

theorem Made.same {a b : FileTree} {segs : List String} (h : Made a b segs) (rest : List String)
    (hrest : ".." ∉ rest) : SameBelow (a.walk true maxLinks none [] (segs ++ rest)).place a b :=
  (h.outside rest hrest).sameBelow

theorem Made.sameBelow {a b c : FileTree} {segs rest : List String} (h : Made a b segs)
    (hrest : ".." ∉ rest)
    (h' : SameBelow (b.walk true maxLinks none [] (segs ++ rest)).place b c) :
    SameBelow (a.walk true maxLinks none [] (segs ++ rest)).place a c := by
  rw [h.place_eq rest hrest] at h'
  exact (h.same rest hrest).trans h'

theorem Made.trans {a b c : FileTree} {segs more : List String} (h : Made a b segs)
    (hmore : ".." ∉ more) (h' : Made b c (segs ++ more)) : Made a c (segs ++ more) := by
  refine ⟨h'.dir, fun rest hrest => ?_, fun rest hrest => ?_⟩
  · rw [h'.place_eq rest hrest, List.append_assoc, h.place_eq _ (by simp [hmore, hrest])]
  · have hsame := h'.outside rest hrest
    have hall : ".." ∉ more ++ rest := by simp [hmore, hrest]
    rw [List.append_assoc] at hsame ⊢
    rw [h.place_eq _ hall] at hsame
    exact (h.outside _ hall).trans hsame

theorem made_of_hasDir {t : FileTree} {anchor : Anchor} {segs : List String}
    (h : t.hasDir ⟨anchor, segs⟩) : Made t t segs := by
  obtain ⟨place, es, hfind⟩ := exists_find_of_hasDir h
  obtain ⟨k, hleads⟩ := leads_of_find_dir hfind
  obtain ⟨-, hdir⟩ := find_eq_ok hfind
  refine ⟨⟨place, es, ⟨k, hleads, ?_⟩, hdir.symm⟩, fun _ _ => rfl, fun _ _ => .refl _ t⟩
  rw [← hdir]
  rfl

/-- Behind a directory in which there is nothing yet a path only goes on by its own names. -/
theorem place_walk_of_reaches {t : FileTree} {segs rest : List String} {p : Place}
    (h : Reaches t segs p) (hempty : ∀ name, t.get? (p ++ [name]) = none) (hrest : ".." ∉ rest) :
    (t.walk true maxLinks none [] (segs ++ rest)).place = p ++ rest := by
  obtain ⟨k, hleads, -⟩ := h
  rw [hleads.walk_append (Or.inr rfl)]
  exact place_walk_of_absent hempty true k none hrest

theorem place_walk_of_absent_next {t : FileTree} {segs rest : List String} {p : Place} {s : String}
    (h : Reaches t segs p) (habsent : t.get? (p ++ [s]) = none) (hrest : ".." ∉ s :: rest) :
    (t.walk true maxLinks none [] (segs ++ s :: rest)).place = p ++ s :: rest := by
  obtain ⟨k, hleads, -⟩ := h
  rw [List.mem_cons, not_or] at hrest
  have hlink : t.linkAt? p s = none := by
    rw [linkAt?_eq, habsent]
    rfl
  have hbelow : ∀ name, t.get? (p ++ [s] ++ [name]) = none :=
    fun name => get?_eq_none_below habsent (List.prefix_append _ _)
  rw [hleads.walk_append (Or.inr rfl), walk_down (Ne.symm hrest.1) hlink,
    place_walk_of_absent hbelow true k _ hrest.2, List.append_assoc]
  rfl

/-- A directory that is made in another is on the way to what will be below it. -/
theorem sameButAbove_set {t : FileTree} {p place : Place} {s : String}
    (hdir : (t.get? p).any isDir) (habsent : t.get? (p ++ [s]) = none) (hplace : p ++ [s] <+: place) :
    SameButAbove place t (t.set .empty (p ++ [s])) := by
  intro q
  rcases get?_set_cases t .empty (p ++ [s]) q with ⟨r, rfl, hr⟩ | ⟨hq, hne, es, hes⟩ | ⟨-, hsame⟩
  · rw [hr, get?_eq_none_below habsent (List.prefix_append _ r)]
    cases r with
    | nil =>
      rw [List.append_nil]
      exact .inr ⟨hplace, rfl, rfl⟩
    | cons name r => exact .inl rfl
  · have hqp : q <+: p := (List.prefix_concat_iff.mp hq).resolve_left hne
    refine .inr ⟨hq.trans hplace, by simp [hes, isDir], ?_⟩
    cases hu : t.get? q with
    | none => rfl
    | some u => exact isDir_above hdir hqp hu
  · exact .inl hsame

theorem made_of_find {t : FileTree} {anchor : Anchor} {segs : List String} {place : Place}
    (h : t.find false ⟨anchor, segs⟩ = .ok (place, none)) (hup : segs.getLast? ≠ some "..") :
    Made t (t.set .empty place) segs := by
  rcases List.eq_nil_or_concat segs with rfl | ⟨dir, s, rfl⟩
  · -- At the top there is always something.
    obtain ⟨hwalk, htop⟩ := find_eq_ok h
    rw [walkTo, walk_nil] at hwalk
    cases hwalk
    cases htop
  · rw [List.concat_eq_append] at h hup ⊢
    have hs : s ≠ ".." := fun he => hup (by simp [he])
    obtain ⟨hfound, k, p, hleads, hsome, hwalk⟩ := exists_leads_of_find h (by simp)
    have hfree := obstacle_eq_none_of_walk (congrArg Walk.trouble hwalk)
    obtain ⟨es, hes⟩ := dir_of_obstacle_eq_none hfree
    have hreach : Reaches t dir p := ⟨k, hleads, hsome⟩
    obtain ⟨rfl, habsent, -⟩ := hreach.find_entry (.refl t) h hs
    have hext : Extends t (t.set .empty (p ++ [s])) := extends_set (by simp [hes, isDir]) hfound.symm _
    obtain ⟨fs, hfs⟩ := get?_set_above t .empty (List.prefix_append p [s]) (by simp)
    have hnew := get?_set_self t .empty (p ++ [s])
    have hreach' : Reaches (t.set .empty (p ++ [s])) (dir ++ [s]) (p ++ [s]) := by
      refine ⟨k, (hleads.extend hext hsome).append (.down hs ?_ ?_ (.stay _ _)), by simp [hnew]⟩
      · rw [← obstacle_eq_of_dir hes hfs]
        exact hfree
      · rw [linkAt?_eq, hnew]
        rfl
    have hempty : ∀ name, (t.set .empty (p ++ [s])).get? (p ++ [s] ++ [name]) = none := by
      intro name
      rw [get?_set_append]
      rfl
    have hplace : ∀ rest, ".." ∉ rest →
        (t.walk true maxLinks none [] (dir ++ [s] ++ rest)).place = p ++ [s] ++ rest := by
      intro rest hrest
      rw [List.append_assoc, List.append_assoc]
      exact place_walk_of_absent_next hreach habsent.symm (by simp [Ne.symm hs, hrest])
    refine ⟨⟨_, _, hreach', hnew⟩, fun rest hrest => ?_, fun rest hrest => ?_⟩
    · rw [place_walk_of_reaches hreach' hempty hrest, hplace rest hrest]
    · rw [hplace rest hrest]
      exact sameButAbove_set (by simp [hes, isDir]) habsent.symm (List.prefix_append _ _)

end FileTree

namespace Session

open FileTree

variable {t : FileTree} {n : Nat}

theorem triple_makeDir_unless (n : Nat) (anchor : Anchor) (t : FileTree) (segs : List String)
    (hup : segs.getLast? ≠ some ".." ∨ t.hasDir ⟨anchor, segs⟩) :
    Triple (Holds t n) (do unless ← isDir (Path.mk anchor segs) do makeDir ⟨anchor, segs⟩)
      (fun _ s => ∃ t', Made t t' segs ∧ Holds t' n s) (Holds t n) := by
  refine (triple_isDir_at _ t n).bind fun found => triple_of_forall ?_
  rintro rfl
  by_cases hdir : t.hasDir ⟨anchor, segs⟩
  · rw [if_pos hdir]
    exact triple_pure _ fun s hs => ⟨t, made_of_hasDir hdir, hs⟩
  · rw [if_neg hdir]
    refine triple_of_at fun failed hn => (triple_makeDir _ _ failed).weaken (fun _ h => h) ?_
      fun _ => .of_failed hn
    rintro _ s ⟨place, hfind, hs⟩
    exact ⟨_, made_of_find hfind (hup.resolve_right hdir), .of_at hn hs⟩

/-- Making the directories on the way changes nothing below the place to which the whole path leads,
and in the end there is a directory. -/
theorem triple_makeDirs_from {anchor : Anchor} {g : Path → Session PUnit}
    (hg : ∀ (t : FileTree) (segs : List String),
      segs.getLast? ≠ some ".." ∨ t.hasDir ⟨anchor, segs⟩ →
      Triple (Holds t n) (g ⟨anchor, segs⟩) (fun _ s => ∃ t', Made t t' segs ∧ Holds t' n s)
        (Holds t n))
    (segs rest : List String) (hsegs : segs.getLast? ≠ some ".." ∨ t.hasDir ⟨anchor, segs⟩)
    (hrest : ".." ∉ rest) :
    Triple (Holds t n) (((Path.beginnings rest).map fun r => Path.mk anchor (segs ++ r)).forM g)
      (fun _ s => ∃ t', Made t t' (segs ++ rest) ∧ Holds t' n s)
      (fun s => ∃ t', SameBelow (t.walk true maxLinks none [] (segs ++ rest)).place t t' ∧
        Holds t' n s) := by
  induction rest generalizing segs t with
  | nil =>
    simp only [Path.beginnings, List.map_cons, List.map_nil, List.append_nil]
    refine Triple.bind ((hg t segs hsegs).weaken (fun _ h => h) (fun _ _ h => h) ?_)
      fun _ => triple_pure _ fun _ h => h
    exact fun s hs => ⟨t, .refl _ t, hs⟩
  | cons s rest ih =>
    have hnext : (segs ++ [s]).getLast? ≠ some ".." := by
      rw [List.getLast?_concat]
      exact fun he => hrest (Option.some.inj he ▸ List.mem_cons_self)
    have hmap : ((Path.beginnings rest).map (s :: ·)).map (fun r => Path.mk anchor (segs ++ r)) =
        (Path.beginnings rest).map fun r => Path.mk anchor (segs ++ [s] ++ r) := by
      simp [Function.comp_def]
    simp only [Path.beginnings, List.map_cons, List.append_nil, hmap]
    refine Triple.bind ((hg t segs hsegs).weaken (fun _ h => h) (fun _ _ h => h) ?_) fun _ => ?_
    · exact fun s hs => ⟨t, .refl _ t, hs⟩
    · refine triple_of_exists fun t₁ => triple_of_forall fun hmade => ?_
      refine (ih (segs ++ [s]) (Or.inl hnext) fun h => hrest (List.mem_cons_of_mem _ h)).weaken
        (fun _ h => h) ?_ ?_
      · rintro _ s' ⟨t₂, hmade', hs'⟩
        rw [List.append_assoc] at hmade'
        exact ⟨t₂, hmade.trans hrest hmade', hs'⟩
      · rintro s' ⟨t₂, hsame, hs'⟩
        rw [List.append_assoc] at hsame
        exact ⟨t₂, hmade.sameBelow hrest hsame, hs'⟩

/-- Where all directories are there already, none is made. -/
theorem triple_makeDirs_there {dirs : List Path} (h : ∀ d ∈ dirs, t.hasDir d) :
    Triple (Holds t n) (dirs.forM fun d => do unless ← isDir d do makeDir d)
      (fun _ => Holds t n) (Holds t n) := by
  refine triple_forM dirs fun d hd => ?_
  refine (triple_isDir_at d t n).bind fun found => triple_of_forall ?_
  rintro rfl
  rw [if_pos (h d hd)]
  exact triple_pure _ fun _ hs => hs

/-- From some directory on that is there, or from the start, the path only goes down. -/
def Makeable (t : FileTree) (p : Path) : Prop :=
  ∃ segs rest, p.segments = segs ++ rest ∧ ".." ∉ rest ∧
    (".." ∉ segs ∨ t.hasDir ⟨p.anchor, segs⟩)

theorem triple_makeDirs {anchor : Anchor} {dir : List String} (h : Makeable t ⟨anchor, dir⟩) :
    Triple (Holds t n) (makeDirs (Path.mk anchor dir))
      (fun _ s => ∃ t', Made t t' dir ∧ Holds t' n s)
      (fun s => ∃ t', SameBelow (t.walk true maxLinks none [] dir).place t t' ∧ Holds t' n s) := by
  obtain ⟨segs, rest, rfl, hrest, hsegs⟩ := h
  change ".." ∉ segs ∨ t.hasDir ⟨anchor, segs⟩ at hsegs
  have hg := triple_makeDir_unless n anchor
  rcases hsegs with hup | hdir
  · exact triple_makeDirs_from hg [] (segs ++ rest) (Or.inl (by simp)) (by simp [hup, hrest])
  · rcases List.eq_nil_or_concat segs with rfl | ⟨above, s, rfl⟩
    · exact triple_makeDirs_from hg [] rest (Or.inl (by simp)) hrest
    · rw [List.concat_eq_append] at hdir ⊢
      have hlineage : (Path.mk anchor (above ++ [s] ++ rest)).lineage =
          (Path.mk anchor above).lineage ++
            (Path.beginnings rest).map fun r => Path.mk anchor (above ++ [s] ++ r) := by
        rw [Path.lineage, Path.lineage, Path.beginnings_append, List.map_append, List.map_map]
        rfl
      have hthere : ∀ d ∈ (Path.mk anchor above).lineage, t.hasDir d := by
        intro d hd
        obtain ⟨pre, hpre, rfl⟩ := List.mem_map.mp hd
        obtain ⟨r, rfl⟩ := Path.prefix_of_mem_beginnings hpre
        rw [List.append_assoc] at hdir
        exact hasDir_of_append (by simp) hdir
      unfold makeDirs
      rw [hlineage]
      exact triple_forM_append ((triple_makeDirs_there hthere).weaken (fun _ h => h)
        (fun _ _ h => h) fun s hs => ⟨t, .refl _ t, hs⟩)
        (triple_makeDirs_from hg (above ++ [s]) rest (Or.inr hdir) hrest)

end Session

end CronWrap
