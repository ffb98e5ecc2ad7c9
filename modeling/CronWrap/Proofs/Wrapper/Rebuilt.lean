import CronWrap.Proofs.Wrapper.ExactWrite

/-! A generated tree that is replaced by the same one again. -/
namespace CronWrap

open FileTree Session Workspace

namespace Path

theorem utf8ByteSize_toString_last (anchor : Anchor) (segs : List String) (s : String) :
    (Path.mk anchor (segs ++ [s])).toString.utf8ByteSize =
      (Path.mk anchor (segs ++ [""])).toString.utf8ByteSize + s.utf8ByteSize := by
  have h := toString_append_last anchor segs "" s
  rw [String.empty_append] at h
  rw [← h, String.utf8ByteSize_append]

theorem toString_below (anchor : Anchor) (segs : List String) (s : String) {rest : List String}
    (h : rest ≠ []) :
    (Path.mk anchor (segs ++ s :: rest)).toString =
      (Path.mk anchor (segs ++ [s])).toString ++ "/" ++ String.intercalate "/" rest := by
  have happ : segs ++ s :: rest = segs ++ [s] ++ rest := by simp
  have htext : String.intercalate "/" (segs ++ s :: rest) =
      String.intercalate "/" (segs ++ [s]) ++ "/" ++ String.intercalate "/" rest := by
    rw [happ, String.intercalate_append_of_ne_nil (by simp) h]
  simp [toString, htext, String.append_assoc]

/-- Beside a path that fits, with an entry below, others do that are no longer. -/
theorem Fits.beside {anchor : Anchor} {dir : List String} {s f x : String}
    (h : (Path.mk anchor (dir ++ [s, f])).Fits)
    (hx : x.utf8ByteSize ≤ s.utf8ByteSize + 1 + f.utf8ByteSize) (hname : x.utf8ByteSize ≤ maxName) :
    (Path.mk anchor (dir ++ [x])).Fits := by
  have hsize := h.1
  have hslash : "/".utf8ByteSize = 1 := rfl
  rw [toString_below _ _ _ (by simp), String.utf8ByteSize_append, String.utf8ByteSize_append,
    utf8ByteSize_toString_last, String.intercalate_singleton] at hsize
  refine ⟨?_, fun n hn => ?_⟩
  · rw [utf8ByteSize_toString_last]
    omega
  · rcases List.mem_append.mp hn with hn | hn
    · exact h.2 n (List.mem_append_left _ hn)
    · rw [List.mem_singleton] at hn
      exact hn ▸ hname

/-- By as much as a name in a path is shorter than another, so is the path. -/
theorem utf8ByteSize_toString_shorten (anchor : Anchor) (dir rest : List String) {s x : String}
    {k : Nat} (h : x.utf8ByteSize + k ≤ s.utf8ByteSize) :
    (Path.mk anchor (dir ++ x :: rest)).toString.utf8ByteSize + k ≤
      (Path.mk anchor (dir ++ s :: rest)).toString.utf8ByteSize := by
  by_cases hrest : rest = []
  · subst hrest
    rw [utf8ByteSize_toString_last, utf8ByteSize_toString_last anchor dir s]
    omega
  · simp only [toString_below _ _ _ hrest, String.utf8ByteSize_append]
    rw [utf8ByteSize_toString_last, utf8ByteSize_toString_last anchor dir s]
    omega

/-- A shorter name in a path makes no longer path. -/
theorem utf8ByteSize_toString_rename (anchor : Anchor) (dir rest : List String) {s x : String}
    (h : x.utf8ByteSize ≤ s.utf8ByteSize) :
    (Path.mk anchor (dir ++ x :: rest)).toString.utf8ByteSize ≤
      (Path.mk anchor (dir ++ s :: rest)).toString.utf8ByteSize :=
  utf8ByteSize_toString_shorten (k := 0) anchor dir rest h

/-- A path that fits does so with a shorter name in place of one on its way. -/
theorem Fits.rename {anchor : Anchor} {dir rest : List String} {s x : String}
    (h : (Path.mk anchor (dir ++ s :: rest)).Fits) (hx : x.utf8ByteSize ≤ s.utf8ByteSize) :
    (Path.mk anchor (dir ++ x :: rest)).Fits := by
  have hname := h.2 s (by simp)
  refine ⟨(utf8ByteSize_toString_rename anchor dir rest hx).trans h.1, fun n hn => ?_⟩
  rcases List.mem_append.mp hn with hn | hn
  · exact h.2 n (List.mem_append_left _ hn)
  · rcases List.mem_cons.mp hn with rfl | hn
    · omega
    · exact h.2 n (by simp [hn])

/-- The roots differ by two characters at most. -/
theorem utf8ByteSize_toString_anchor (anchor anchor' : Anchor) {segs : List String} (h : segs ≠ []) :
    (Path.mk anchor' segs).toString.utf8ByteSize ≤
      (Path.mk anchor segs).toString.utf8ByteSize + 2 := by
  have hroot : (Anchor.text anchor').utf8ByteSize ≤ (Anchor.text anchor).utf8ByteSize + 2 := by
    cases anchor <;> cases anchor' <;> decide
  simp only [toString, h, and_false, if_false, String.utf8ByteSize_append]
  omega

/-- With a name that much shorter, a path that fits does so under another root. -/
theorem Fits.rename_anchor {anchor : Anchor} {dir rest : List String} {s x : String}
    (h : (Path.mk anchor (dir ++ s :: rest)).Fits) (hx : x.utf8ByteSize + 2 ≤ s.utf8ByteSize)
    (anchor' : Anchor) : (Path.mk anchor' (dir ++ x :: rest)).Fits := by
  have hrenamed := utf8ByteSize_toString_shorten anchor dir rest hx
  have hne : dir ++ x :: rest ≠ [] := by simp
  have hroot := utf8ByteSize_toString_anchor anchor anchor' hne
  have hshort : (Path.mk anchor (dir ++ x :: rest)).Short := (h.rename (by omega)).short
  exact ⟨hroot.trans (hrenamed.trans h.1), hshort⟩

end Path

namespace Staging

variable {target : Path} {es : List (String × FileTree)} {c x : String} {new : FileTree}

theorem not_isRetired_serial (target : Path) (n : Nat) :
    isRetired target (stagingHead target ++ serial n) = false := by
  rw [Bool.eq_false_iff, isRetired, Ne, List.isPrefixOf_iff_prefix, String.toList_append,
    toList_retiredHead, List.prefix_append_right_inj]
  intro h
  obtain ⟨d, hd, he⟩ := mem_serial (h.subset (a := 'r') (by decide))
  have hall : ∀ d < 16, 'r' ≠ Nat.digitChar d := by decide
  exact hall d hd he

theorem mem_leftover {old : Option FileTree} {e : String × FileTree} :
    e ∈ leftover old x ↔ e.1 = x ∧ old = some e.2 ∧ e.2.isDir = false := by
  obtain ⟨n, u⟩ := e
  cases old with
  | none => simp [leftover]
  | some old =>
    simp only [leftover, Option.filter_some, Bool.not_eq_eq_eq_not, Bool.not_true, Option.mem_toList,
      Option.map_eq_some_iff, Prod.mk.injEq, Option.some.injEq]
    constructor
    · rintro ⟨v, hv, rfl, rfl⟩
      split at hv
      · rename_i hfile
        cases hv
        exact ⟨rfl, rfl, by simpa using hfile⟩
      · cases hv
    · rintro ⟨rfl, rfl, hfile⟩
      exact ⟨old, by simp [hfile], rfl, rfl⟩

theorem filter_replaced (hx : x ≠ c) (new : FileTree) :
    (replaced es c x new).filter (·.1 ≠ c) = es.filter (·.1 ≠ c) ++ leftover (es.lookup c) x := by
  have hleft : (leftover (es.lookup c) x).filter (·.1 ≠ c) = leftover (es.lookup c) x := by
    rw [List.filter_eq_self]
    intro e he
    simpa [(mem_leftover.mp he).1] using hx
  simp only [replaced, List.filter_append, List.filter_filter, hleft]
  simp

theorem lookup_replaced_self (hx : x ≠ c) : (replaced es c x new).lookup c = some new := by
  refine lookup_append_last ?_ new
  rw [← filter_replaced hx new, lookup_filter_ne, if_pos rfl]

/-- Under the names of new trees nothing is other than before. -/
theorem stagingName_replaced (hc : c = target.name) (hx : isRetired target x) :
    stagingName target (replaced es c x new) = stagingName target es := by
  refine freshName_congr fun n => ?_
  have hnc : stagingHead target ++ serial n ≠ c := by
    intro he
    have hlength := length_serial n
    have htext := congrArg (fun s => s.toList.length) he
    simp only [hc, String.toList_append, List.length_append, toList_stagingHead,
      List.length_cons] at htext
    omega
  have hnx : stagingHead target ++ serial n ≠ x := by
    rintro rfl
    rw [not_isRetired_serial] at hx
    cases hx
  simp only [replaced, List.map_append, List.mem_append, List.mem_map, List.mem_filter, mem_leftover,
    List.mem_singleton, decide_eq_true_eq]
  constructor
  · rintro ((⟨e, ⟨he, -⟩, hn⟩ | ⟨e, ⟨he, -⟩, hn⟩) | ⟨e, rfl, hn⟩)
    · exact ⟨e, he, hn⟩
    · exact absurd (hn.symm.trans he) hnx
    · exact absurd hn.symm hnc
  · rintro ⟨e, he, hn⟩
    exact .inl (.inl ⟨e, ⟨he, fun hec => hnc (hn.symm.trans hec)⟩, hn⟩)

theorem noOldTrees_replaced (hc : c = target.name) (h : NoOldTrees target es)  :
    NoOldTrees target (replaced es c x new) := by
  intro n u hn hu
  have hnc : n ≠ c := by
    rintro rfl
    rw [hc, not_isRetired_name] at hn
    cases hn
  rw [replaced, lookup_append_of_ne hnc, List.lookup_append] at hu
  cases hl : (es.filter (·.1 ≠ c)).lookup n with
  | some v =>
    rw [hl] at hu
    cases hu
    rw [lookup_filter_ne, if_neg hnc] at hl
    exact h n u hn hl
  | none =>
    rw [hl, Option.none_or] at hu
    obtain ⟨before, after, hleft, -⟩ := List.lookup_eq_some_iff.mp hu
    have hmem : (n, u) ∈ leftover (es.lookup c) x := by simp [hleft]
    exact (mem_leftover.mp hmem).2.2

/-- A directory that was put in its place is put there again. -/
theorem replaced_replaced (hx : x ≠ c) (hnew : new.isDir) (y : String) :
    replaced (replaced es c x new) c y new = replaced es c x new := by
  have hleft : leftover (some new) y = [] := by simp [leftover, hnew]
  rw [replaced, lookup_replaced_self hx, filter_replaced hx new, hleft, List.append_nil, replaced]

end Staging

namespace Generation

variable {t : FileTree} {anchor : Anchor} {dir : List String} {settings : Settings}
  {ws : List Wrapper}

/-- The path of a generated tree in a directory. -/
def treePath (anchor : Anchor) (dir : List String) : Path := ⟨anchor, dir ++ [Layout.containerName]⟩

def stagingName (anchor : Anchor) (dir : List String) (t : FileTree) : String :=
  Staging.stagingName (treePath anchor dir) (t.entriesAt dir)

def retiredName (anchor : Anchor) (dir : List String) (t : FileTree) : String :=
  Staging.retiredName (treePath anchor dir) (t.entriesAt dir)

/-- The tree with the generated tree in a directory. -/
def rebuilt (settings : Settings) (ws : List Wrapper) (anchor : Anchor) (dir : List String)
    (t : FileTree) : FileTree :=
  t.withEntries dir (Staging.replaced (t.entriesAt dir) Layout.containerName
    (retiredName anchor dir t) (contents settings ws))

/-- There is room for the generated tree: nothing is in the way of its directory, and all paths fit. -/
structure Room (ws : List Wrapper) (anchor : Anchor) (dir : List String) (t : FileTree) : Prop where
  clear : Clear t dir
  files : ∀ r ∈ filePlaces ws, (Path.mk anchor (dir ++ stagingName anchor dir t :: r)).Fits
  tree : (treePath anchor dir).Fits
  old : (t.get? (dir ++ [Layout.containerName])).isSome →
    (Path.mk anchor (dir ++ [retiredName anchor dir t])).Fits

/-- What is beside the generated tree with the name of an old one is no directory, and there is no
more of it than names of eight digits. -/
structure OnlyNew (anchor : Anchor) (dir : List String) (t : FileTree) : Prop where
  noOldTrees : Staging.NoOldTrees (treePath anchor dir) (t.entriesAt dir)
  few : ((t.entriesAt dir).map (·.1)).countP (Staging.isRetired (treePath anchor dir)) < 16 ^ 8

theorem noLinks_contents (settings : Settings) (ws : List Wrapper) :
    NoLinks (contents settings ws) := by
  have h := ((noLinks_entries (noLinks_empty.append (noLinks_ofText Layout.gitignoreContent)
    Layout.gitignoreFile) settings ws).append (noLinks_ofText (Manifest.ofWrappers ws).text)
    Layout.manifestFile).append (noLinks_ofText (Wrapper.discoveryText ws))
    (Layout.moduleFile Layout.discoveryModule)
  rw [List.append_assoc] at h
  exact h

theorem exact_replace_tree (ht : NoLinks t) (hup : ".." ∉ dir)
    (hold : Staging.NoOldTrees (treePath anchor dir) (t.entriesAt dir))
    (settings : Settings) (hws : ∀ w ∈ ws, w.IsPlaced) (hnodup : (ws.map (·.directory)).Nodup) :
    Exact t (Staging.replace (treePath anchor dir) (writeTree settings ws)) (Room ws anchor dir t) ()
      (rebuilt settings ws anchor dir t) := by
  have hslash : '/' ∉ Layout.containerName.toList := by decide
  have hbuild := exact_writeTree anchor ht (ht.entriesAt dir) hup
    (Staging.lookup_freshName (Staging.stagingHead (treePath anchor dir)) (t.entriesAt dir))
    (Staging.freshName_stagingHead_ne_parent _ _) settings hws hnodup
  refine (Staging.exact_replace ht hup (by decide) hslash (noLinks_contents settings ws)
    hold rfl rfl hbuild).congr ?_
  rw [lookup_entriesAt]
  constructor
  · rintro ⟨⟨hclear, hfiles⟩, -, htree, hold⟩
    exact ⟨hclear, hfiles, htree, hold⟩
  · rintro ⟨hclear, hfiles, htree, hold⟩
    refine ⟨⟨hclear, hfiles⟩, ?_, htree, hold⟩
    have hfile : (Path.mk anchor (dir ++ [stagingName anchor dir t] ++ [Layout.gitignoreFile])).Fits :=
      by
        rw [List.append_assoc]
        exact hfiles _ List.mem_cons_self
    exact hfile.above

theorem name_treePath (anchor : Anchor) (dir : List String) :
    (treePath anchor dir).name = Layout.containerName := Staging.name_entry anchor dir _

theorem isRetired_retiredName (anchor : Anchor) (dir : List String) (t : FileTree) :
    Staging.isRetired (treePath anchor dir) (retiredName anchor dir t) :=
  Staging.isRetired_freshName _ _

theorem retiredName_ne (anchor : Anchor) (dir : List String) (t : FileTree) :
    retiredName anchor dir t ≠ Layout.containerName := by
  intro he
  have h := isRetired_retiredName anchor dir t
  rw [he, ← name_treePath anchor dir, Staging.not_isRetired_name] at h
  cases h

theorem entriesAt_rebuilt : (rebuilt settings ws anchor dir t).entriesAt dir =
    Staging.replaced (t.entriesAt dir) Layout.containerName (retiredName anchor dir t)
      (contents settings ws) :=
  entriesAt_eq get?_withEntries_self

theorem rebuilt_rebuilt :
    rebuilt settings ws anchor dir (rebuilt settings ws anchor dir t) =
      rebuilt settings ws anchor dir t := by
  rw [rebuilt, entriesAt_rebuilt, Staging.replaced_replaced (retiredName_ne anchor dir t) rfl]
  exact set_set _ _ _ _

theorem stagingName_rebuilt :
    stagingName anchor dir (rebuilt settings ws anchor dir t) = stagingName anchor dir t := by
  rw [stagingName, entriesAt_rebuilt]
  exact Staging.stagingName_replaced (name_treePath anchor dir).symm
    (isRetired_retiredName anchor dir t)

theorem OnlyNew.noOldTrees_rebuilt (h : OnlyNew anchor dir t) :
    Staging.NoOldTrees (treePath anchor dir) ((rebuilt settings ws anchor dir t).entriesAt dir) := by
  rw [entriesAt_rebuilt]
  exact Staging.noOldTrees_replaced (name_treePath anchor dir).symm h.noOldTrees

theorem isDirAt_rebuilt : (rebuilt settings ws anchor dir t).isDirAt dir := isDirAt_withEntries

theorem clear_of_isDirAt (h : t.isDirAt dir) : Clear t dir := by
  rintro q ⟨r, rfl⟩
  have hq := isDirAt_above h
  unfold isDirAt at hq
  cases hu : t.get? q with
  | none => rfl
  | some u => simpa [hu] using hq

/-- Of few trees of one kind the next has a short name. -/
theorem utf8ByteSize_retiredName
    (hfew : ((t.entriesAt dir).map (·.1)).countP (Staging.isRetired (treePath anchor dir)) ≤ 16 ^ 8) :
    (retiredName anchor dir t).utf8ByteSize ≤ 32 := by
  obtain ⟨n, hn, hbound⟩ : ∃ n, retiredName anchor dir t =
      Staging.retiredHead (treePath anchor dir) ++ serial n ∧
      n ≤ ((t.entriesAt dir).map (·.1) ++ [stagingName anchor dir t]).countP
        (Staging.isRetired (treePath anchor dir)) := freshName_bound _ _
  have hstaging : Staging.isRetired (treePath anchor dir) (stagingName anchor dir t) = false :=
    Staging.not_isRetired_freshName _ _
  have hcount : n ≤ ((t.entriesAt dir).map (·.1)).countP
      (Staging.isRetired (treePath anchor dir)) := by
    rw [List.countP_append, List.countP_cons_of_neg (by simp [hstaging])] at hbound
    exact hbound
  have hhead : (Staging.retiredHead (treePath anchor dir)).utf8ByteSize = 23 := by
    rw [Staging.retiredHead, name_treePath]
    decide
  have hserial := length_serial_le (n := n) (k := 9) (by omega) (by omega)
  rw [hn, String.utf8ByteSize_append, utf8ByteSize_serial, hhead]
  omega

theorem utf8ByteSize_freshName (anchor : Anchor) (dir taken : List String) :
    23 ≤ (freshName (Staging.stagingHead (treePath anchor dir)) taken).utf8ByteSize := by
  obtain ⟨n, hn⟩ := exists_freshName (Staging.stagingHead (treePath anchor dir)) taken
  have hhead : (Staging.stagingHead (treePath anchor dir)).utf8ByteSize = 15 := by
    rw [Staging.stagingHead, name_treePath]
    decide
  have hserial := length_serial n
  rw [hn, String.utf8ByteSize_append, utf8ByteSize_serial, hhead]
  omega

theorem utf8ByteSize_stagingName (anchor : Anchor) (dir : List String) (t : FileTree) :
    23 ≤ (stagingName anchor dir t).utf8ByteSize := utf8ByteSize_freshName anchor dir _

theorem countP_rebuilt : ((rebuilt settings ws anchor dir t).entriesAt dir |>.map (·.1)).countP
    (Staging.isRetired (treePath anchor dir)) ≤
      ((t.entriesAt dir).map (·.1)).countP (Staging.isRetired (treePath anchor dir)) + 1 := by
  have htree : Staging.isRetired (treePath anchor dir) Layout.containerName = false :=
    name_treePath anchor dir ▸ Staging.not_isRetired_name _
  have hkept := ((List.filter_sublist (p := fun e => decide (e.1 ≠ Layout.containerName))
    (l := t.entriesAt dir)).map (·.1)).countP_le
    (p := Staging.isRetired (treePath anchor dir))
  have hleft : (Staging.leftover ((t.entriesAt dir).lookup Layout.containerName)
      (retiredName anchor dir t)).length ≤ 1 := by
    unfold Staging.leftover
    cases Option.map _ _ <;> simp
  have hleftCount := (List.countP_le_length (p := Staging.isRetired (treePath anchor dir))
    (l := (Staging.leftover ((t.entriesAt dir).lookup Layout.containerName)
      (retiredName anchor dir t)).map (·.1)))
  rw [List.length_map] at hleftCount
  rw [entriesAt_rebuilt, Staging.replaced, List.map_append, List.map_append, List.countP_append,
    List.countP_append, List.map_singleton, List.countP_cons_of_neg (by simp [htree]),
    List.countP_nil]
  omega

/-- A second time there is room again. -/
theorem Room.again (h : Room ws anchor dir t) (hnew : OnlyNew anchor dir t) :
    Room ws anchor dir (rebuilt settings ws anchor dir t) where
  clear := clear_of_isDirAt isDirAt_rebuilt
  files := by
    rw [stagingName_rebuilt]
    exact h.files
  tree := h.tree
  old _ := by
    have hmanifest := h.files [Layout.manifestFile] (by simp [filePlaces])
    have hsize : (retiredName anchor dir (rebuilt settings ws anchor dir t)).utf8ByteSize ≤ 32 :=
      utf8ByteSize_retiredName (countP_rebuilt.trans hnew.few)
    refine hmanifest.beside ?_ ?_
    · have hstaging := utf8ByteSize_stagingName anchor dir t
      have hfile : Layout.manifestFile.utf8ByteSize = 13 := rfl
      omega
    · exact hsize.trans (by decide)

end Generation

end CronWrap
