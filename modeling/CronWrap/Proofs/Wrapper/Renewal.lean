import CronWrap.Proofs.Files.Proper
import CronWrap.Proofs.Wrapper.Rebuilt

/-! What a replacement of the generated tree leaves of everything else. -/
namespace CronWrap

open FileTree Session Workspace

/-- What does not lead to a place is below it or apart from it. -/
theorem FileTree.exists_append_or_apart {dir q : Place} (h : ¬ q <+: dir) :
    (∃ n r, q = dir ++ n :: r) ∨ Apart dir q := by
  by_cases hdir : dir <+: q
  · obtain ⟨r, rfl⟩ := hdir
    cases r with
    | nil => exact absurd (by simp) h
    | cons n r => exact .inl ⟨n, r, rfl⟩
  · exact .inr ⟨hdir, h⟩

namespace Staging

variable {es : List (String × FileTree)} {c x n : String} {new : FileTree}

theorem leftover_cases (old : Option FileTree) (x : String) :
    leftover old x = [] ∨ ∃ u, old = some u ∧ leftover old x = [(x, u)] := by
  cases old with
  | none => exact .inl rfl
  | some u =>
    cases hu : u.isDir with
    | true => exact .inl (by simp [leftover, hu])
    | false => exact .inr ⟨u, rfl, by simp [leftover, hu]⟩

theorem lookup_leftover_of_ne {old : Option FileTree} (h : n ≠ x) :
    (leftover old x).lookup n = none := by
  rw [List.lookup_eq_none_iff]
  intro e he
  rw [bne_iff_ne, (mem_leftover.mp he).1]
  exact h

theorem lookup_replaced_of_ne (hc : n ≠ c) (hx : n ≠ x) :
    (replaced es c x new).lookup n = es.lookup n := by
  rw [replaced, lookup_append_of_ne hc, List.lookup_append, lookup_leftover_of_ne hx,
    Option.or_none, lookup_filter_ne, if_neg hc]

/-- Under the name to which it was moved there is what could not be removed. -/
theorem lookup_replaced_moved (hc : x ≠ c) (hx : es.lookup x = none) :
    (replaced es c x new).lookup x = (es.lookup c).filter (!·.isDir) := by
  rw [replaced, lookup_append_of_ne hc, List.lookup_append, lookup_filter_ne, if_neg hc, hx,
    Option.none_or, leftover]
  cases (es.lookup c).filter (!·.isDir) with
  | none => rfl
  | some old => simp

theorem proper_replaced (h : Proper (.dir es)) (hnew : Proper new) (hc : IsName c) (hx : IsName x)
    (hxc : x ≠ c) (hfree : es.lookup x = none) : Proper (.dir (replaced es c x new)) := by
  have hkept : Proper (.dir (es.filter (·.1 ≠ c))) := by
    refine proper_dir ?_ fun e he => h.entry (List.mem_filter.mp he).1
    exact h.nodup.sublist (List.filter_sublist.map _)
  have hleft : Proper (.dir (es.filter (·.1 ≠ c) ++ leftover (es.lookup c) x)) := by
    rcases leftover_cases (es.lookup c) x with hl | ⟨old, hold, hl⟩
    · rwa [hl, List.append_nil]
    · rw [hl]
      refine hkept.append ?_ hx (h.entry ((mem_iff_lookup_of_nodup h.nodup).mpr hold)).2
      rw [lookup_filter_ne, if_neg hxc, hfree]
  refine hleft.append ?_ hc hnew
  rw [List.lookup_append, lookup_filter_ne, if_pos rfl, lookup_leftover_of_ne (Ne.symm hxc)]
  rfl

theorem noLinks_replaced (h : NoLinks (.dir es)) (hnew : NoLinks new) :
    NoLinks (.dir (replaced es c x new)) := by
  have hleft : NoLinks (.dir (es.filter (·.1 ≠ c) ++ leftover (es.lookup c) x)) := by
    rcases leftover_cases (es.lookup c) x with hl | ⟨old, hold, hl⟩
    · rw [hl, List.append_nil]
      exact h.filter c
    · rw [hl]
      exact (h.filter c).append (h.lookup hold) x
  exact hleft.append hnew c

end Staging

namespace Generation

variable {t t' : FileTree} {anchor : Anchor} {dir : List String} {settings : Settings}
  {ws : List Wrapper}

/-- The place of a generated tree in a directory. -/
def treePlace (dir : Place) : Place := dir ++ [Layout.containerName]

/-- The name is one to which a generated tree may be moved. -/
def IsLeftoverName (n : String) : Prop := ∃ k, n = ".cron-wrappers-retired-" ++ serial k

/-- The place is neither in the generated tree nor one to which such a tree may be moved. -/
structure Elsewhere (dir q : Place) : Prop where
  not_in_tree : ¬ treePlace dir <+: q
  not_leftover : ∀ n, IsLeftoverName n → q ≠ dir ++ [n]

/-- The files that are kept are the same, and but for the generated tree only directories have come
that lead to it. -/
structure Renewal (dir : Place) (t t' : FileTree) : Prop where
  file_iff : ∀ q, Elsewhere dir q → ∀ content, t'.get? q = some (.file content) ↔
    t.get? q = some (.file content)
  dir_iff : ∀ q, ¬ treePlace dir <+: q → (t'.isDirAt q ↔ t.isDirAt q ∨ q <+: dir)

theorem isLeftoverName_retiredName : IsLeftoverName (retiredName anchor dir t) := by
  obtain ⟨k, hk⟩ : ∃ k, retiredName anchor dir t =
      Staging.retiredHead (treePath anchor dir) ++ serial k := exists_freshName _ _
  rw [Staging.retiredHead, name_treePath] at hk
  exact ⟨k, hk⟩

theorem lookup_retiredName : (t.entriesAt dir).lookup (retiredName anchor dir t) = none := by
  have h : retiredName anchor dir t ∉ (t.entriesAt dir).map (·.1) ++ [stagingName anchor dir t] :=
    freshName_not_mem _ _
  by_contra hsome
  obtain ⟨u, hu⟩ := Option.ne_none_iff_exists'.mp hsome
  obtain ⟨before, after, hes, -⟩ := List.lookup_eq_some_iff.mp hu
  exact h (by simp [hes])

theorem get?_rebuilt_tree (r : Place) :
    (rebuilt settings ws anchor dir t).get? (treePlace dir ++ r) = (contents settings ws).get? r := by
  rw [treePlace, List.append_assoc, rebuilt]
  exact (get?_withEntries_cons _ r).trans (by
    rw [Staging.lookup_replaced_self (retiredName_ne anchor dir t)]
    rfl)

theorem get?_rebuilt_entry {n : String} (hn : n ≠ Layout.containerName)
    (hx : n ≠ retiredName anchor dir t) (r : Place) :
    (rebuilt settings ws anchor dir t).get? (dir ++ n :: r) = t.get? (dir ++ n :: r) := by
  have happ : dir ++ n :: r = dir ++ [n] ++ r := by simp
  rw [rebuilt, get?_withEntries_cons, Staging.lookup_replaced_of_ne hn hx, lookup_entriesAt, happ,
    get?_append t (dir ++ [n]) r]
  rfl

/-- What was moved and could not be removed is no directory. -/
theorem get?_rebuilt_moved (r : Place) :
    (rebuilt settings ws anchor dir t).get? (dir ++ retiredName anchor dir t :: r) =
      if r = [] then (t.get? (treePlace dir)).filter (!·.isDir) else none := by
  rw [rebuilt, get?_withEntries_cons, Staging.lookup_replaced_moved (retiredName_ne anchor dir t)
    lookup_retiredName, lookup_entriesAt]
  change ((t.get? (treePlace dir)).filter _).bind _ = _
  cases r with
  | nil => cases (t.get? (treePlace dir)).filter (!·.isDir) <;> rfl
  | cons m r =>
    rw [if_neg (by simp)]
    cases t.get? (treePlace dir) with
    | none => rfl
    | some u => cases u <;> rfl

theorem isName_retiredName : IsName (retiredName anchor dir t) := by
  have hslash : '/' ∉ (treePath anchor dir).name.toList := by
    rw [name_treePath]
    decide
  exact ⟨Staging.isSegment_retiredName hslash _,
    Staging.ne_parent_of_isRetired (isRetired_retiredName anchor dir t)⟩

theorem proper_ofText (s : String) : Proper (.ofText s) := proper_file _

theorem proper_entry (settings : Settings) (w : Wrapper) : Proper (w.entry settings).2 :=
  proper_empty.append (x := Layout.moduleFile Layout.schedulerModule) rfl (by decide)
    (proper_ofText (w.schedulerText settings))

theorem proper_contents (settings : Settings) (hws : ∀ w ∈ ws, w.IsPlaced)
    (hnodup : (ws.map (·.directory)).Nodup) : Proper (contents settings ws) := by
  have hentry : ∀ w ∈ ws, IsName (w.entry settings).1 ∧ Proper (w.entry settings).2 :=
    fun w hw => ⟨⟨(hws w hw).isSegment, (hws w hw).ne (by decide)⟩, proper_entry settings w⟩
  have hother : ∀ name, ¬ "trigger-".toList <+: name.toList → name ∉ ws.map (·.directory) := by
    intro name hname hmem
    obtain ⟨w, hw, hdir⟩ := List.mem_map.mp hmem
    exact (hws w hw).ne hname hdir
  refine proper_dir ?_ ?_
  · have hdirs : (ws.map (Wrapper.entry settings)).map (·.1) = ws.map (·.directory) := by
      rw [List.map_map]
      rfl
    rw [List.map_append, List.map_cons, hdirs, List.nodup_append]
    refine ⟨List.nodup_cons.mpr ⟨hother _ (by decide), hnodup⟩, by simp only [List.map]; decide, ?_⟩
    intro n hn m hm
    have hfixed : m = Layout.manifestFile ∨ m = Layout.moduleFile Layout.discoveryModule := by
      simpa using hm
    rcases List.mem_cons.mp hn with rfl | hn
    · rcases hfixed with rfl | rfl <;> decide
    · rintro rfl
      rcases hfixed with rfl | rfl
      · exact hother _ (by decide) hn
      · exact hother _ (by decide) hn
  · simp only [List.cons_append, List.forall_mem_cons, List.forall_mem_append, List.forall_mem_map]
    exact ⟨⟨by decide, proper_ofText _⟩, hentry, ⟨by decide, proper_ofText _⟩,
      ⟨by decide, proper_ofText _⟩, by simp⟩

/-- Each wrapper has its module. -/
theorem get?_contents_module (settings : Settings) (hws : ∀ w ∈ ws, w.IsPlaced)
    (hnodup : (ws.map (·.directory)).Nodup) {w : Wrapper} (hw : w ∈ ws) :
    (contents settings ws).get? [w.directory, Layout.moduleFile Layout.schedulerModule] =
      some (.ofText (w.schedulerText settings)) := by
  have hmem : w.entry settings ∈ (contents settings ws).entries := by
    simp only [contents, entries_dir, List.cons_append, List.mem_cons, List.mem_append]
    exact .inr (.inl (List.mem_map_of_mem hw))
  have hproper := proper_contents settings hws hnodup
  have hlookup := (mem_iff_lookup_of_nodup hproper.nodup).mp hmem
  have hmodule : (w.entry settings).2.get? [Layout.moduleFile Layout.schedulerModule] =
      some (.ofText (w.schedulerText settings)) := by
    simp [Wrapper.entry]
  rw [get?_cons, contents, entries_dir, hlookup]
  exact hmodule

theorem proper_rebuilt (h : Proper t) (hdir : ∀ n ∈ dir, IsName n) (hws : ∀ w ∈ ws, w.IsPlaced)
    (hnodup : (ws.map (·.directory)).Nodup) : Proper (rebuilt settings ws anchor dir t) :=
  h.set (Staging.proper_replaced (h.entriesAt dir) (proper_contents settings hws hnodup) (by decide)
    isName_retiredName (retiredName_ne anchor dir t) lookup_retiredName) hdir

theorem get?_rebuilt_apart {q : Place} (h : Apart dir q) :
    (rebuilt settings ws anchor dir t).get? q = t.get? q := get?_set_of_apart t _ h

theorem renewal_rebuilt (hclear : Clear t dir) :
    Renewal dir t (rebuilt settings ws anchor dir t) := by
  have hfree : ∀ r, t.get? (dir ++ retiredName anchor dir t :: r) = none := by
    intro r
    refine get?_eq_none_below (p := dir ++ [retiredName anchor dir t]) ?_ ⟨r, by simp⟩
    rw [← lookup_entriesAt, lookup_retiredName]
  have hname : ∀ {n r}, ¬ treePlace dir <+: dir ++ n :: r → n ≠ Layout.containerName := by
    rintro n r hq rfl
    exact hq ⟨r, by simp [treePlace]⟩
  have habove : ∀ {q}, q <+: dir → (rebuilt settings ws anchor dir t).isDirAt q := by
    rintro q ⟨r, rfl⟩
    exact isDirAt_above isDirAt_rebuilt
  constructor
  · rintro q ⟨hq, hleft⟩ content
    by_cases hqd : q <+: dir
    · -- On the way there are directories, before and after.
      obtain ⟨fs, hfs⟩ := isDirAt_iff.mp (habove hqd)
      have hdir := hclear q hqd
      rw [hfs]
      cases hu : t.get? q with
      | none => simp
      | some u =>
        rw [hu] at hdir
        cases u with
        | dir es => simp
        | file content => cases hdir
        | link target => cases hdir
    · rcases exists_append_or_apart hqd with ⟨n, r, rfl⟩ | hapart
      · by_cases hx : n = retiredName anchor dir t
        · subst hx
          have hr : r ≠ [] := by
            rintro rfl
            exact hleft _ isLeftoverName_retiredName rfl
          rw [get?_rebuilt_moved, if_neg hr, hfree]
        · rw [get?_rebuilt_entry (hname hq) hx]
      · rw [get?_rebuilt_apart hapart]
  · intro q hq
    by_cases hqd : q <+: dir
    · simp [habove hqd, hqd]
    · rcases exists_append_or_apart hqd with ⟨n, r, rfl⟩ | hapart
      · by_cases hx : n = retiredName anchor dir t
        · subst hx
          have hfile : ((t.get? (treePlace dir)).filter (!·.isDir)).any FileTree.isDir = false := by
            cases t.get? (treePlace dir) with
            | none => rfl
            | some u => cases u <;> rfl
          simp only [isDirAt, get?_rebuilt_moved, hfree, hqd, or_false]
          split
          · simp [hfile]
          · rfl
        · simp only [isDirAt, get?_rebuilt_entry (hname hq) hx, hqd, or_false]
      · simp only [isDirAt, get?_rebuilt_apart hapart, hqd, or_false]

/-! ## After a generation -/

/-- In the new tree the generated one can be read as a whole, and everything else is as in the one
before. -/
structure Regenerated (dir : Place) (t t' : FileTree) : Prop where
  renewal : Renewal dir t t'
  noLinks : NoLinks t
  proper : Proper t
  noLinks' : NoLinks t'
  proper' : Proper t'
  tree : t'.isDirAt (treePlace dir)
  fits : ∀ anchor r, (t'.get? (treePlace dir ++ r)).isSome →
    (Path.mk anchor (treePlace dir ++ r)).Fits
  text : ∀ r content, t'.get? (treePlace dir ++ r) = some (.file content) →
    ∃ cs, content = Text.encodeUtf8 cs

theorem get?_ofText {s : String} {r : Place} {u : FileTree}
    (h : (FileTree.ofText s).get? r = some u) : r = [] ∧ u = .ofText s := by
  cases r with
  | nil =>
    cases h
    exact ⟨rfl, rfl⟩
  | cons n r => simp [FileTree.ofText, entries] at h

/-- What is in the generated tree are its files and the directories that lead to them. -/
theorem cases_get?_contents {r : Place} {u : FileTree}
    (h : (contents settings ws).get? r = some u) :
    (∃ s, u = .ofText s ∧ r ∈ filePlaces ws) ∨ u.isDir ∧ ∃ p ∈ filePlaces ws, r <+: p := by
  cases r with
  | nil =>
    cases h
    exact .inr ⟨rfl, _, List.mem_cons_self, List.nil_prefix⟩
  | cons n r =>
    rw [get?_cons, Option.bind_eq_bind, Option.bind_eq_some_iff] at h
    obtain ⟨v, hv, h⟩ := h
    obtain ⟨before, after, hentries, -⟩ := List.lookup_eq_some_iff.mp hv
    have hmem : (n, v) ∈ (contents settings ws).entries := by simp [hentries]
    simp only [contents, entries_dir, List.cons_append, List.mem_cons, List.mem_append,
      List.mem_map, List.not_mem_nil, or_false] at hmem
    have hplace : ∀ s, [n] ∈ filePlaces ws → v = .ofText s →
        ∃ s, u = .ofText s ∧ n :: r ∈ filePlaces ws := by
      rintro s hn rfl
      obtain ⟨rfl, rfl⟩ := get?_ofText h
      exact ⟨s, rfl, hn⟩
    rcases hmem with hmem | ⟨w, hw, hmem⟩ | hmem | hmem
    · cases hmem
      exact .inl (hplace _ (by simp [filePlaces]) rfl)
    · cases hmem
      have hmodule : [w.directory, Layout.moduleFile Layout.schedulerModule] ∈ filePlaces ws := by
        simp only [filePlaces, List.cons_append, List.mem_cons, List.mem_append, List.mem_map]
        exact .inr (.inl ⟨w, hw, rfl⟩)
      cases r with
      | nil =>
        cases h
        exact .inr ⟨rfl, _, hmodule, ⟨[Layout.moduleFile Layout.schedulerModule], rfl⟩⟩
      | cons m r =>
        rw [get?_cons, Option.bind_eq_bind, Option.bind_eq_some_iff] at h
        obtain ⟨v, hv, h⟩ := h
        rw [entries_dir, List.lookup_cons] at hv
        split at hv
        · rename_i hm
          cases hv
          obtain ⟨rfl, rfl⟩ := get?_ofText h
          rw [beq_iff_eq] at hm
          exact .inl ⟨_, rfl, hm ▸ hmodule⟩
        · cases hv
    · cases hmem
      exact .inl (hplace _ (by simp [filePlaces]) rfl)
    · cases hmem
      exact .inl (hplace _ (by simp [filePlaces]) rfl)

/-- The generated tree fits under any root, since it was first written under a longer name. -/
theorem Room.fits_tree (h : Room ws anchor dir t) {r p : Place} (hp : p ∈ filePlaces ws)
    (hr : r <+: p) (anchor' : Anchor) : (Path.mk anchor' (treePlace dir ++ r)).Fits := by
  obtain ⟨rest, rfl⟩ := hr
  have hname : Layout.containerName.utf8ByteSize + 2 ≤ (stagingName anchor dir t).utf8ByteSize :=
    Nat.le_trans (by decide) (utf8ByteSize_stagingName anchor dir t)
  have hfile := (h.files _ hp).rename_anchor hname anchor'
  have hwhole : (Path.mk anchor' (treePlace dir ++ r ++ rest)).Fits := by
    rw [treePlace, List.append_assoc, List.append_assoc]
    exact hfile
  exact hwhole.above

theorem regenerated_rebuilt (ht : NoLinks t) (hproper : Proper t) (hdir : ∀ n ∈ dir, IsName n)
    (settings : Settings) (hws : ∀ w ∈ ws, w.IsPlaced) (hnodup : (ws.map (·.directory)).Nodup)
    (hroom : Room ws anchor dir t) : Regenerated dir t (rebuilt settings ws anchor dir t) where
  renewal := renewal_rebuilt hroom.clear
  noLinks := ht
  proper := hproper
  noLinks' := ht.withEntries (Staging.noLinks_replaced (ht.entriesAt dir)
    (noLinks_contents settings ws)) dir
  proper' := proper_rebuilt hproper hdir hws hnodup
  tree := by
    have h : (rebuilt settings ws anchor dir t).get? (treePlace dir ++ []) = _ :=
      get?_rebuilt_tree []
    rw [List.append_nil] at h
    exact isDirAt_iff.mpr ⟨_, h⟩
  fits anchor' r hsome := by
    obtain ⟨u, hu⟩ := Option.isSome_iff_exists.mp hsome
    rw [get?_rebuilt_tree] at hu
    rcases cases_get?_contents hu with ⟨s, -, hr⟩ | ⟨-, p, hp, hr⟩
    · exact hroom.fits_tree hr List.prefix_rfl anchor'
    · exact hroom.fits_tree hp hr anchor'
  text r content hfile := by
    rw [get?_rebuilt_tree] at hfile
    rcases cases_get?_contents hfile with ⟨s, hs, -⟩ | ⟨hdir, -⟩
    · cases hs
      exact ⟨s.toList, rfl⟩
    · cases hdir

end Generation

end CronWrap
