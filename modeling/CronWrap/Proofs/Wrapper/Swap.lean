import CronWrap.Proofs.Wrapper.StagingNames

/-! What a sweep and a swap leave beside a directory, done or failed. -/
namespace CronWrap.Staging

open FileTree Session Workspace

theorem parent_entry (anchor : Anchor) (dir : List String) (c : String) :
    (Path.mk anchor (dir ++ [c])).parent = ⟨anchor, dir⟩ := by
  simp [Path.parent]

theorem name_entry (anchor : Anchor) (dir : List String) (c : String) :
    (Path.mk anchor (dir ++ [c])).name = c := by
  simp [Path.name]

theorem quiet_exists? (p : Path) : Quiet (exists? p : Session Bool) :=
  ((quiet_find? true p).bind fun _ => quiet_pure _).bind fun _ => quiet_pure _

variable {b d : FileTree} {p : Place} {es fs : List (String × FileTree)} {anchor : Anchor}
  {dir : List String} {c st : String}

/-- Only old trees are missing among the second entries. -/
structure Swept (target : Path) (es fs : List (String × FileTree)) : Prop where
  of_some : ∀ n u, fs.lookup n = some u → es.lookup n = some u
  eq : ∀ n, isRetired target n = false → fs.lookup n = es.lookup n

theorem Swept.same {target : Path} (h : Swept target es fs) (n : String) (u v : FileTree)
    (hu : es.lookup n = some u) (hv : fs.lookup n = some v) : u = v := by
  rw [h.of_some n v hv] at hu
  exact (Option.some.inj hu).symm

theorem Swept.filter {target : Path} (h : Swept target es fs) {x : String}
    (hx : isRetired target x) : Swept target es (fs.filter (·.1 ≠ x)) := by
  refine ⟨fun n u hu => ?_, fun n hn => ?_⟩
  · rw [lookup_filter_ne] at hu
    split at hu
    · cases hu
    · exact h.of_some n u hu
  · have hne : n ≠ x := by
      rintro rfl
      rw [hn] at hx
      cases hx
    rw [lookup_filter_ne, if_neg hne, h.eq n hn]

theorem triple_sweep (hreach : Reaches (b.withEntries p es) dir p) :
    Triple (Holds (b.withEntries p es) 0) (sweep (Path.mk anchor (dir ++ [c])))
      (fun _ s => ∃ fs, Swept ⟨anchor, dir ++ [c]⟩ es fs ∧ Holds (b.withEntries p fs) 0 s)
      (Holds (b.withEntries p es) 0) := by
  unfold sweep
  simp only [parent_entry]
  refine (triple_names hreach fun _ _ _ hu hv => Option.some.inj (hu.symm.trans hv)).bind
    fun found => ?_
  refine Triple.weaken (triple_forM (found.filter (isRetired ⟨anchor, dir ++ [c]⟩)) ?_)
    (fun s hs => ⟨es, ⟨fun _ _ h => h, fun _ _ => rfl⟩, hs.2.2⟩) (fun _ _ h => h) fun _ h => h
  intro x hx
  have hretired := (List.mem_filter.mp hx).2
  refine triple_ignoring (triple_of_exists fun fs => triple_of_forall fun hswept => ?_)
  refine (triple_removeTree_beside hreach hswept.same (ne_parent_of_isRetired hretired)).weaken
    (fun _ h => h) ?_ ?_
  · exact fun _ s hs => ⟨_, hswept.filter hretired, hs.2⟩
  · exact fun s hs => ⟨fs, hswept, hs.1⟩

/-- The entries with one of them moved to another name. -/
def moved (es : List (String × FileTree)) (x y : String) (u : FileTree) :
    List (String × FileTree) :=
  setField (es.filter (·.1 ≠ x)) y u

theorem lookup_moved (es : List (String × FileTree)) (x y : String) (u : FileTree) (n : String) :
    (moved es x y u).lookup n =
      if n = y then some u else if n = x then none else es.lookup n := by
  rw [moved, lookup_setField, lookup_filter_ne]

theorem same_moved {x y : String} {w : FileTree} (hy : es.lookup y = none) (n : String)
    (u v : FileTree) (hu : es.lookup n = some u) (hv : (moved es x y w).lookup n = some v) :
    u = v := by
  have hne : n ≠ y := by
    rintro rfl
    rw [hy] at hu
    cases hu
  rw [lookup_moved, if_neg hne] at hv
  split at hv
  · cases hv
  · exact Option.some.inj (hu.symm.trans hv)

/-- What comes to stand where nothing was before it was moved there, and goes back. -/
theorem lookup_moved_back {x y : String} {u : FileTree} (hx : es.lookup x = some u)
    (hy : es.lookup y = none) (n : String) :
    (moved (moved es x y u) y x u).lookup n = es.lookup n := by
  rw [lookup_moved, lookup_moved]
  by_cases hnx : n = x
  · rw [if_pos hnx, hnx, hx]
  · by_cases hny : n = y
    · rw [if_neg hnx, if_pos hny, hny, hy]
    · simp [hnx, hny]

/-- All is as it was, unless two steps failed. -/
def Restored (b : FileTree) (p : Place) (es : List (String × FileTree)) (s : SessionState) : Prop :=
  (∃ fs, (∀ n, fs.lookup n = es.lookup n) ∧ Holds (b.withEntries p fs) 0 s) ∨ ∃ t, Holds t 2 s

theorem restored_of_holds {n : Nat} {s : SessionState} (h : Holds (b.withEntries p es) n s) :
    Restored b p es s :=
  Or.inl ⟨es, fun _ => rfl, h.1, Nat.zero_le _⟩

section Replacing

variable {x : String} {old : FileTree}

/-- The new tree takes the free place, or else the old one comes back. -/
theorem triple_put (hreach : Reaches (b.withEntries p es) dir p) (hst : es.lookup st = some d)
    (hold : es.lookup c = some old) (hx : es.lookup x = none) (hne : st ≠ c) (hup : st ≠ "..")
    (hc : c ≠ "..") (hxup : x ≠ "..") :
    Triple (Holds (b.withEntries p (moved es c x old)) 0)
      (tryCatch (Session.rename ⟨anchor, dir ++ [st]⟩ ⟨anchor, dir ++ [c]⟩) fun (e : Failure) => do
        Session.rename ⟨anchor, dir ++ [x]⟩ ⟨anchor, dir ++ [c]⟩
        throw e)
      (fun _ s => Reaches (b.withEntries p (moved es c x old)) dir p ∧
        Holds (b.withEntries p (moved (moved es c x old) st c d)) 0 s)
      (Restored b p es) := by
  have hlookup : (moved es c x old).lookup st = some d := by
    have hstx : st ≠ x := by
      rintro rfl
      rw [hst] at hx
      cases hx
    rw [lookup_moved, if_neg hstx, if_neg hne, hst]
  refine Triple.tryCatch ((triple_rename_beside hreach (same_moved hx) hup hc).weaken (fun _ h => h)
    ?_ fun _ h => h) fun e => ?_
  · rintro _ s ⟨hreach', u, hu, hs⟩
    rw [hlookup] at hu
    cases hu
    exact ⟨hreach', hs⟩
  · refine ((triple_rename_beside hreach (same_moved hx) hxup hc).weaken (fun _ h => h)
      (fun _ _ h => h) fun s hs => Or.inr ⟨_, hs⟩).bind fun _ => triple_throw e ?_
    rintro s ⟨-, u, hu, hs⟩
    rw [lookup_moved, if_pos rfl] at hu
    cases hu
    exact Or.inl ⟨_, lookup_moved_back hold hx, hs.1, Nat.zero_le _⟩

/-- The old tree may stay. -/
theorem triple_discard (hreach : Reaches (b.withEntries p es) dir p)
    (hsame : ∀ n u v, es.lookup n = some u → fs.lookup n = some v → u = v) (hxup : x ≠ "..")
    (note? : Failure → LogEntry) (E : SessionState → Prop) :
    Triple (Holds (b.withEntries p fs) 0)
      (tryCatch (Session.removeTree ⟨anchor, dir ++ [x]⟩) fun (e : Failure) => note (note? e))
      (fun _ s => ∃ gs, (∀ n, n ≠ x → gs.lookup n = fs.lookup n) ∧
        Holds (b.withEntries p gs) 0 s) E := by
  refine Triple.tryCatch ((triple_removeTree_beside hreach hsame hxup).weaken (fun _ h => h) ?_
    fun s hs => hs.1) fun e => ?_
  · refine fun _ s hs => ⟨_, fun n hn => ?_, hs.2⟩
    rw [lookup_filter_ne, if_neg hn]
  · exact fun s hs => ⟨fs, fun _ _ => rfl, hs⟩

end Replacing

/-- The segments lead to a directory by entries that it had before and has since, or by an empty one in
the place of the new tree. -/
def Stays (b : FileTree) (dir : List String) (p : Place) (c : String)
    (es fs : List (String × FileTree)) : Prop :=
  ∃ ks, Reaches (b.withEntries p ks) dir p ∧ ∀ n u, ks.lookup n = some u →
    es.lookup n = some u ∧ (n = c ∧ u = .empty ∨ n ≠ c ∧ fs.lookup n = some u)

/-- The new tree is in its place, and of what is beside it only old trees have come or gone. -/
def Swapped (target : Path) (b : FileTree) (p : Place) (es : List (String × FileTree))
    (new : FileTree) (s : SessionState) : Prop :=
  ∃ fs, fs.lookup target.name = some new ∧
    (∀ n, n ≠ target.name → isRetired target n = false → fs.lookup n = es.lookup n) ∧
    (new.isDir → Stays b target.parent.segments p target.name es fs) ∧
    Holds (b.withEntries p fs) 0 s

/-- An empty directory grows into the new tree, and all else stays. -/
theorem extends_of_kept {ks ds : List (String × FileTree)}
    (hks : ∀ n u, ks.lookup n = some u → n = c ∧ u = .empty ∨ n ≠ c ∧ fs.lookup n = some u)
    (hnew : fs.lookup c = some (.dir ds)) :
    Extends (b.withEntries p ks) (b.withEntries p fs) := by
  refine fun q u hu => extendsCommon_withEntries (fun n u _ hu _ => ?_) q u u hu hu
  rcases hks n u hu with ⟨rfl, rfl⟩ | ⟨-, hfs⟩
  · refine ⟨_, hnew, fun r v hv => ?_⟩
    cases r with
    | nil =>
      cases hv
      exact ⟨_, rfl, rfl, fun _ => rfl⟩
    | cons m r => cases hv
  · exact ⟨u, hfs, fun r v hv => ⟨v, hv, rfl, id⟩⟩

/-- What was moved from a new name is missing under that name, as before. -/
theorem lookup_moved_new (hst : es.lookup st = none) {n : String} (hn : n ≠ c) :
    (moved (setField es st d) st c d).lookup n = es.lookup n := by
  rw [lookup_moved, if_neg hn, lookup_setField]
  by_cases he : n = st
  · rw [if_pos he, he, hst]
  · rw [if_neg he, if_neg he]

theorem lookup_swapped {x : String} {old : FileTree} (hst : es.lookup st = none) {n : String}
    (hn : n ≠ c) (hx : n ≠ x) :
    (moved (moved (setField es st d) c x old) st c d).lookup n = es.lookup n := by
  rw [← lookup_moved_new (d := d) hst hn, lookup_moved, lookup_moved, lookup_moved, if_neg hn,
    if_neg hn, if_neg hx, if_neg hn]

/-- A directory that is reached before its entry is moved aside and after it is reached without that
entry. -/
theorem reaches_of_moved {x : String} {old : FileTree} (hreach : Reaches (b.withEntries p es) dir p)
    (hreach' : Reaches (b.withEntries p (moved (setField es st d) c x old)) dir p)
    (hst : es.lookup st = none) (hx : (setField es st d).lookup x = none) :
    Reaches (b.withEntries p (es.filter (·.1 ≠ c))) dir p := by
  have hboth : ∀ n u v, es.lookup n = some u →
      (moved (setField es st d) c x old).lookup n = some v → n ≠ c ∧ u = v := by
    intro n u v hu hv
    rw [lookup_setField] at hx
    rw [lookup_moved, lookup_setField] at hv
    grind
  refine hreach.common (agrees_withEntries fun n u v hu hv => (hboth n u v hu hv).2)
    (extendsCommon_withEntries fun n u v hu hv => ?_) hreach'
  refine ⟨u, ?_, fun r w hw => ⟨w, hw, rfl, id⟩⟩
  rw [lookup_filter_ne, if_neg (hboth n u v hu hv).1, hu]

/-- To a directory only an empty one gives way. -/
theorem eq_empty_of_yields {source target : FileTree} (hdir : source.isDir)
    (h : yields source target = .ok ()) : target = .empty := by
  cases source with
  | dir es =>
    cases target with
    | dir fs =>
      cases fs with
      | nil => rfl
      | cons f fs => cases h
    | file content => cases h
    | link target => cases h
  | file content => cases hdir
  | link target => cases hdir

section Swap

variable (hreach : Reaches (b.withEntries p es) dir p) (hst : es.lookup st = none) (hne : st ≠ c)
  (hup : st ≠ "..") (hc : c ≠ "..") (hslash : '/' ∉ c.toList)

include hreach hst hne hup hc hslash

/-- A swap with an old tree in the place of the new one. -/
theorem triple_swap_over :
    Triple (Holds (b.withEntries p (setField es st d)) 0)
      (do
        let retired ← Workspace.unused (Path.mk anchor dir) (retiredHead ⟨anchor, dir ++ [c]⟩)
        Session.rename ⟨anchor, dir ++ [c]⟩ retired
        tryCatch (Session.rename ⟨anchor, dir ++ [st]⟩ ⟨anchor, dir ++ [c]⟩) fun (e : Failure) => do
          Session.rename retired ⟨anchor, dir ++ [c]⟩
          throw e
        tryCatch (Session.removeTree retired) fun (e : Failure) => note (leftoverNote retired e))
      (fun _ => Swapped ⟨anchor, dir ++ [c]⟩ b p es d)
      (Restored b p (setField es st d)) := by
  have hsame := eq_of_lookup_setField hst d
  have hnew : (setField es st d).lookup st = some d := by simp
  have hname : '/' ∉ (Path.mk anchor (dir ++ [c])).name.toList := by rwa [name_entry]
  have hretired := isRetired_freshName ⟨anchor, dir ++ [c]⟩ ((setField es st d).map (·.1))
  have hxup := ne_parent_of_isRetired hretired
  have hx := lookup_freshName (retiredHead ⟨anchor, dir ++ [c]⟩) (setField es st d)
  refine ((triple_unused hreach hsame (isSegment_retiredName hname _)).weaken (fun _ h => h)
    (fun _ _ h => h) fun _ => restored_of_holds).bind fun retired => triple_of_forall ?_
  rintro rfl
  generalize freshName (retiredHead ⟨anchor, dir ++ [c]⟩) ((setField es st d).map (·.1)) = x at *
  refine triple_of_forall fun hreach₀ => ?_
  -- The old tree goes aside, where there was nothing.
  refine ((triple_rename_beside hreach hsame hc hxup).weaken (fun _ h => h)
    (fun _ _ h => h.2) fun _ => restored_of_holds).bind fun _ => ?_
  refine triple_of_exists fun old => triple_of_forall fun hold => ?_
  have hcx : c ≠ x := by
    rintro rfl
    rw [hold] at hx
    cases hx
  refine (triple_put hreach₀ hnew hold hx hne hup hc hxup).bind fun _ => ?_
  refine triple_of_forall fun hreach₁ => ?_
  have hfree : (moved (setField es st d) c x old).lookup c = none := by
    rw [lookup_moved, if_neg hcx, if_pos rfl]
  have hkept := reaches_of_moved hreach hreach₁ hst hx
  refine (triple_discard hreach₁ (same_moved hfree) hxup _ _).weaken (fun _ h => h) ?_ fun _ h => h
  rintro _ s ⟨fs, hfs, hs⟩
  rw [Swapped, name_entry, parent_entry]
  refine ⟨fs, ?_, fun n hn hold => ?_, fun _ => ⟨_, hkept, fun n u hu => ?_⟩, hs⟩
  · rw [hfs c hcx, lookup_moved, if_pos rfl]
  · have hnx : n ≠ x := by
      rintro rfl
      rw [hretired] at hold
      cases hold
    rw [hfs n hnx, lookup_swapped hst hn hnx]
  · rw [lookup_filter_ne] at hu
    split at hu
    · cases hu
    · rename_i hn
      have hnx : n ≠ x := by
        rintro rfl
        rw [lookup_setField] at hx
        split at hx
        · cases hx
        · rw [hu] at hx
          cases hx
      exact ⟨hu, .inr ⟨hn, by rw [hfs n hnx, lookup_swapped hst hn hnx, hu]⟩⟩

/-- A swap puts the new tree in its place, or leaves all as it was; for anything else to happen, two
steps must fail. -/
theorem triple_swap :
    Triple (Holds (b.withEntries p (setField es st d)) 0)
      (swap (Path.mk anchor (dir ++ [st])) ⟨anchor, dir ++ [c]⟩)
      (fun _ => Swapped ⟨anchor, dir ++ [c]⟩ b p es d)
      (Restored b p (setField es st d)) := by
  unfold swap
  rw [parent_entry]
  refine (((quiet_exists? _).holds _ 0).weaken (fun _ h => h) (fun _ _ h => h)
    fun _ => restored_of_holds).bind fun found => ?_
  split
  · exact triple_swap_over hreach hst hne hup hc hslash
  · refine (triple_rename_over hreach (eq_of_lookup_setField hst d) hup hc).weaken (fun _ h => h)
      ?_ fun _ => restored_of_holds
    rintro _ s ⟨-, u, hu, hyields, hs⟩
    rw [lookup_setField, if_pos rfl] at hu
    cases hu
    rw [Swapped, name_entry, parent_entry]
    refine ⟨moved (setField es st d) st c d, by rw [lookup_moved, if_pos rfl],
      fun n hn _ => lookup_moved_new hst hn, fun hdir => ⟨es, hreach, fun n u hu => ⟨hu, ?_⟩⟩, hs⟩
    by_cases hn : n = c
    · subst hn
      refine .inl ⟨rfl, eq_empty_of_yields hdir (hyields u ?_)⟩
      rw [lookup_setField, if_neg hne.symm, hu]
    · exact .inr ⟨hn, (lookup_moved_new hst hn).trans hu⟩

end Swap

end CronWrap.Staging
