import CronWrap.Proofs.CallSite.Names
import CronWrap.Proofs.Discovery.Asked
import CronWrap.Proofs.Text.Utf8
import CronWrap.Proofs.Wrapper.Renewal
import Mathlib.Data.List.TakeDrop

/-! What is seen of a project after a generation is what was seen before it. -/
namespace CronWrap

open FileTree Session Workspace

theorem Path.suffixOf_of_hidden {cs : List Char} (h : '.' ∉ cs) : suffixOf ('.' :: cs) = [] := by
  have hkept : ∀ c ∈ cs.reverse, decide (c ≠ '.') := by
    intro c hc
    rw [List.mem_reverse] at hc
    exact decide_eq_true fun hdot => h (hdot ▸ hc)
  rw [suffixOf, List.reverse_cons, List.span_eq_takeWhile_dropWhile,
    List.takeWhile_append_of_pos hkept, List.dropWhile_append_of_pos hkept]
  simp only [List.takeWhile, List.dropWhile, ne_eq, not_true, decide_false, List.append_nil]
  split <;> simp_all

namespace Generation

theorem IsLeftoverName.suffix_eq {n : String} (h : IsLeftoverName n) :
    Path.suffixOf n.toList = [] := by
  obtain ⟨k, rfl⟩ := h
  have hdigits : '.' ∉ (serial k).toList := by
    intro hc
    obtain ⟨d, hd, he⟩ := mem_serial hc
    have hall : ∀ d < 16, '.' ≠ Nat.digitChar d := by decide
    exact hall d hd he
  rw [String.toList_append]
  have hname : '.' ∉ "cron-wrappers-retired-".toList ++ (serial k).toList := by
    rw [List.mem_append, not_or]
    exact ⟨by decide, hdigits⟩
  exact Path.suffixOf_of_hidden hname

theorem IsLeftoverName.isPrefix {n : String} (h : IsLeftoverName n) :
    ".cron-wrappers-retired-".toList <+: n.toList := by
  obtain ⟨k, rfl⟩ := h
  rw [String.toList_append]
  exact List.prefix_append _ _

variable {anchor : Anchor} {dir q : Place} {t t' : FileTree} {p : Path}

theorem elsewhere_of_suffix (hin : ¬ treePlace dir <+: p.segments) (h : p.suffix ≠ "") :
    Elsewhere dir p.segments := by
  refine ⟨hin, fun n hn hp => h ?_⟩
  rw [Path.suffix, Path.name, hp, List.getLast?_concat, Option.getD_some, hn.suffix_eq]

theorem elsewhere_of_name (hin : ¬ treePlace dir <+: p.segments)
    (h : ¬ ".cron-wrappers-retired-".toList <+: p.name.toList) : Elsewhere dir p.segments := by
  refine ⟨hin, fun n hn hp => h ?_⟩
  rw [Path.name, hp, List.getLast?_concat, Option.getD_some]
  exact hn.isPrefix

/-- What is directly below a directory that leads to the generated tree is not in it. -/
theorem not_in_tree_of_entry {above : Place} {n : String} (h : above <+: dir)
    (hn : n ≠ Layout.containerName) : ¬ treePlace dir <+: above ++ [n] := by
  obtain ⟨r, rfl⟩ := h
  rw [treePlace, List.append_assoc, List.prefix_append_right_inj]
  intro hr
  have hlength := hr.length_le
  rw [List.length_append, List.length_singleton, List.length_singleton] at hlength
  have hnil : r = [] := List.eq_nil_of_length_eq_zero (by omega)
  subst hnil
  obtain ⟨rest, hrest⟩ := hr
  rw [List.nil_append, List.singleton_append, List.cons.injEq] at hrest
  exact hn hrest.1.symm

namespace Regenerated

section Files

variable (h : Regenerated dir t t')

include h

theorem isFileAt_eq (hq : Elsewhere dir q) : t'.isFileAt q = t.isFileAt q := by
  rw [Bool.eq_iff_iff, isFileAt_iff, isFileAt_iff]
  exact exists_congr (h.renewal.file_iff q hq)

/-- What is there was there, or is a directory that leads to the generated tree. -/
theorem isSome_cases (hq : Elsewhere dir q) (hsome : (t'.get? q).isSome) :
    (t.get? q).isSome ∨ q <+: dir := by
  obtain ⟨u, hu⟩ := Option.isSome_iff_exists.mp hsome
  cases u with
  | dir es =>
    have hdir := (h.renewal.dir_iff q hq.not_in_tree).mp (isDirAt_iff.mpr ⟨es, hu⟩)
    exact hdir.imp_left isSome_of_isDirAt
  | file content => exact .inl (by simp [(h.renewal.file_iff q hq content).mp hu])
  | link target => exact absurd (h.noLinks' _ _ hu) (by simp [target?])

theorem fits_of_above_tree (hq : q <+: treePlace dir) : (Path.mk anchor q).Fits := by
  have htree := h.fits anchor [] (by simpa using isSome_of_isDirAt h.tree)
  obtain ⟨r, hr⟩ := hq
  have hwhole : (Path.mk anchor (q ++ r)).Fits := by
    rw [hr]
    simpa using htree
  exact hwhole.above

theorem fits_of_above (hq : q <+: dir) : (Path.mk anchor q).Fits :=
  h.fits_of_above_tree (hq.trans (List.prefix_append dir _))

/-! ## Single files -/

theorem steady_readText (hp : Elsewhere dir p.segments) (hup : ".." ∉ p.segments)
    (hfile : t.isFileAt p.segments) : Steady t t' (readText p : Session _) := by
  obtain ⟨content, hcontent⟩ := isFileAt_iff.mp hfile
  exact ⟨_, sees_readText h.noLinks hup hcontent,
    sees_readText h.noLinks' hup ((h.renewal.file_iff _ hp content).mpr hcontent)⟩

theorem sameFile (hp : Elsewhere dir p.segments) (hup : ".." ∉ p.segments) (hshort : p.Short) :
    SameFile t t' p where
  isFile := by
    have hnow := sees_isFile h.noLinks' hup (.inl hshort)
    rw [h.isFileAt_eq hp] at hnow
    exact ⟨_, sees_isFile h.noLinks hup (.inl hshort), hnow⟩
  readText hfound :=
    h.steady_readText hp hup (of_sees_isFile h.noLinks hup (.inl hshort) hfound).2

/-- The files of the generated tree can be read. -/
theorem exists_sees_readText {r : Place}
    (hfile : t'.isFileAt (treePlace dir ++ r)) :
    ∃ cs, Sees t' (readText ⟨anchor, treePlace dir ++ r⟩) (.ok cs) := by
  obtain ⟨content, hcontent⟩ := isFileAt_iff.mp hfile
  have hsome : (t'.get? (treePlace dir ++ r)).isSome := by simp [hcontent]
  have hup : ".." ∉ treePlace dir ++ r := fun hmem => (h.proper'.isName hsome _ hmem).2 rfl
  obtain ⟨cs, rfl⟩ := h.text r content hcontent
  have hread := sees_readText (p := ⟨anchor, treePlace dir ++ r⟩) h.noLinks' hup hcontent
  rw [if_pos (h.fits _ r hsome), textOf, Text.decodeUtf8_encodeUtf8] at hread
  exact ⟨_, hread⟩

end Files

/-! ## Ignore files -/

section Ignores

variable {root : Path}

theorem elsewhere_of_counts (hp : IgnoreFile.Counts root p) (hin : ¬ treePlace dir <+: p.segments) :
    Elsewhere dir p.segments := by
  refine elsewhere_of_name hin ?_
  rw [hp.name_eq]
  decide

/-- An ignore file of the generated tree says nothing of what is outside. -/
theorem isUnder_tree_of_ignores {f : Pattern.IgnoreFile} (hp : IgnoreFile.Counts root p)
    (hin : treePlace dir <+: p.segments) (hup : ".." ∉ p.segments)
    (hload : Sees t (IgnoreFile.load p) (.ok f)) {x : Path} (hx : ".." ∉ x.segments)
    (hf : f.ignores x) : x.isUnder ⟨root.anchor, treePlace dir⟩ := by
  obtain ⟨cs, -, hbase⟩ := hload.of_bind_looks (looks_readText p) fun _ => looks_pure _
  cases hbase.unique (sees_pure t _)
  have hunder := Pattern.IgnoreFile.isUnder_of_ignores hx hf
  have hparent : ".." ∉ p.parent.segments := fun hmem => hup (List.dropLast_subset _ hmem)
  rw [Pattern.IgnoreFile.ofText, Path.normalize_of_no_parent hparent] at hunder
  obtain ⟨r, hr⟩ := hin
  have hne : r ≠ [] := by
    rintro rfl
    have hname := hp.name_eq
    rw [Path.name, ← hr, List.append_nil, treePlace, List.getLast?_concat] at hname
    exact absurd hname (by decide)
  rw [Path.isUnder, Path.relativeTo?] at hunder ⊢
  split at hunder
  · rename_i hsame
    rw [if_pos (hsame.trans hp.anchor_eq), Option.isSome_iff_exists]
    obtain ⟨rest, hrest⟩ := Option.isSome_iff_exists.mp hunder
    have hall := List.isPrefixOf?_eq_some_iff_append_eq.mp hrest
    refine ⟨r.dropLast ++ rest, List.isPrefixOf?_eq_some_iff_append_eq.mpr ?_⟩
    rw [← hall, Path.parent, ← hr, List.dropLast_append_of_ne_nil hne, List.append_assoc]
  · cases hunder

variable (h : Regenerated dir t t')

include h

theorem fits_candidates (hfits : ∀ p ∈ IgnoreFile.candidates t root, p.Fits) :
    ∀ p ∈ IgnoreFile.candidates t' root, p.Fits := by
  intro p hp
  obtain ⟨hcounts, hp | hsome⟩ := (IgnoreFile.mem_candidates_iff h.proper').mp hp
  · exact hp ▸ hfits _ List.mem_cons_self
  · obtain ⟨anchor, segs⟩ := p
    cases hcounts.anchor_eq
    by_cases hin : treePlace dir <+: segs
    · obtain ⟨r, rfl⟩ := hin
      exact h.fits _ r hsome
    · rcases h.isSome_cases (elsewhere_of_counts hcounts hin) hsome with hsome | hdir
      · exact hfits _ ((IgnoreFile.mem_candidates_iff h.proper).mpr ⟨hcounts, .inr hsome⟩)
      · exact h.fits_of_above hdir

theorem mem_own_iff (hin : ¬ treePlace dir <+: p.segments) :
    p ∈ IgnoreFile.own t' root ↔ p ∈ IgnoreFile.own t root := by
  rw [IgnoreFile.mem_own_iff h.proper', IgnoreFile.mem_own_iff h.proper]
  refine and_congr_right fun hcounts => ?_
  rw [h.isFileAt_eq (elsewhere_of_counts hcounts hin)]

theorem steady_load (hin : ¬ treePlace dir <+: p.segments) (hp : p ∈ IgnoreFile.own t root) :
    Steady t t' (IgnoreFile.load p : Session _) := by
  obtain ⟨hcounts, hfile⟩ := (IgnoreFile.mem_own_iff h.proper).mp hp
  obtain ⟨content, hcontent⟩ := isFileAt_iff.mp hfile
  have hup : ".." ∉ p.segments := fun hmem => (h.proper.isName (by simp [hcontent]) _ hmem).2 rfl
  exact (h.steady_readText (elsewhere_of_counts hcounts hin) hup hfile).bind fun _ _ => steady_pure _

/-- All ignore files can be read again, and together they say the same of what is outside the generated
tree. -/
theorem exists_sees_everywhere (hup : ".." ∉ root.segments) (hshort : root.Short)
    {fs : List Pattern.IgnoreFile} (hfs : Sees t (IgnoreFile.everywhere root) (.ok fs)) :
    ∃ fs', Sees t' (IgnoreFile.everywhere root) (.ok fs') ∧
      ∀ x : Path, ".." ∉ x.segments → x.isUnder ⟨root.anchor, treePlace dir⟩ = false →
        fs'.any (·.ignores x) = fs.any (·.ignores x) := by
  obtain ⟨hroot, hfits, hload, hmem⟩ :=
    IgnoreFile.of_sees_everywhere h.noLinks h.proper hup hshort hfs
  have hload' : ∀ p ∈ IgnoreFile.own t' root, ∃ f, Sees t' (IgnoreFile.load p) (.ok f) := by
    intro p hp
    by_cases hin : treePlace dir <+: p.segments
    · obtain ⟨hcounts, hfile⟩ := (IgnoreFile.mem_own_iff h.proper').mp hp
      obtain ⟨anchor, segs⟩ := p
      cases hcounts.anchor_eq
      obtain ⟨r, rfl⟩ := hin
      obtain ⟨cs, hcs⟩ := h.exists_sees_readText hfile
      exact ⟨_, hcs.bind (sees_pure t' _)⟩
    · rw [h.mem_own_iff hin] at hp
      obtain ⟨f, hf⟩ := hload p hp
      exact ⟨f, (h.steady_load hin hp).sees hf⟩
  obtain ⟨fs', hfs', hmem'⟩ := IgnoreFile.sees_everywhere h.noLinks' h.proper' hup hshort hroot
    (h.fits_candidates hfits) hload'
  refine ⟨fs', hfs', fun x hx hout => ?_⟩
  rw [Bool.eq_iff_iff, List.any_eq_true, List.any_eq_true]
  -- Whatever ignores the path was read from a file outside of the generated tree.
  have hplace : ∀ {u p f}, Proper u → p ∈ IgnoreFile.own u root →
      Sees u (IgnoreFile.load p) (.ok f) → f.ignores x → ¬ treePlace dir <+: p.segments := by
    intro u p f hproper hp hf hx' hin
    obtain ⟨hcounts, hfile⟩ := (IgnoreFile.mem_own_iff hproper).mp hp
    obtain ⟨content, hcontent⟩ := isFileAt_iff.mp hfile
    have hup : ".." ∉ p.segments := fun hmem => (hproper.isName (by simp [hcontent]) _ hmem).2 rfl
    rw [isUnder_tree_of_ignores hcounts hin hup hf hx hx'] at hout
    cases hout
  constructor
  · rintro ⟨f, hf, hx'⟩
    obtain ⟨p, hp, hload'⟩ := (hmem' f).mp hf
    have hin := hplace h.proper' hp hload' hx'
    rw [h.mem_own_iff hin] at hp
    exact ⟨f, (hmem f).mpr ⟨p, hp, (h.steady_load hin hp).symm.sees hload'⟩, hx'⟩
  · rintro ⟨f, hf, hx'⟩
    obtain ⟨p, hp, hload⟩ := (hmem f).mp hf
    have hin := hplace h.proper hp hload hx'
    exact ⟨f, (hmem' f).mpr ⟨p, (h.mem_own_iff hin).mpr hp, (h.steady_load hin hp).sees hload⟩, hx'⟩

end Ignores

/-! ## Source files -/

section Sources

open SourceFilter

variable {f f' : SourceFilter}

/-- The filters agree on what is outside the generated tree, and let nothing count that is in it. -/
structure SameOutside (dir : Place) (f f' : SourceFilter) : Prop where
  root_eq : f'.root = f.root
  output : f.output = some ⟨f.root.anchor, treePlace dir⟩
  output' : f'.output = some ⟨f.root.anchor, treePlace dir⟩
  exclude_eq : f'.exclude = f.exclude
  ignored : ∀ x : Path, ".." ∉ x.segments → x.isUnder ⟨f.root.anchor, treePlace dir⟩ = false →
    f'.ignored.any (·.ignores x) = f.ignored.any (·.ignores x)

theorem SameOutside.admits_eq (hf : SameOutside dir f f') (hup : ".." ∉ p.segments) :
    f'.admits p = f.admits p := by
  unfold admits
  rw [hf.root_eq, hf.output, hf.output', hf.exclude_eq]
  simp only [Option.any_some]
  cases hin : p.isUnder ⟨f.root.anchor, treePlace dir⟩ with
  | true => simp
  | false => rw [hf.ignored p hup hin]

theorem anchor_of_isUnder {base : Path} (hp : p.isUnder base) : p.anchor = base.anchor := by
  rw [Path.isUnder, Path.relativeTo?] at hp
  split at hp
  · assumption
  · cases hp

theorem elsewhere_of_admits (ho : f.output = some ⟨f.root.anchor, treePlace dir⟩) (hp : f.admits p) :
    Elsewhere dir p.segments := by
  refine elsewhere_of_suffix (fun hin => ?_) fun hnone => ?_
  · have hout := not_isUnder_of_admits hp ho
    obtain ⟨r, hr⟩ := hin
    rw [Path.isUnder, Path.relativeTo?, if_pos (anchor_of_isUnder (isUnder_of_admits hp)), ← hr,
      List.isPrefixOf?_eq_some_iff_append_eq.mpr rfl] at hout
    cases hout
  · have hsuffix := suffix_of_admits hp
    rw [hnone] at hsuffix
    exact absurd hsuffix (by decide)

variable (h : Regenerated dir t t') (hf : SameOutside dir f f')

include h hf

theorem allShow_again {d : String} (hup : ".." ∉ (f.root / d).segments)
    (hshort : (f.root / d).Short) (hshow : AllShow t f.root d) : AllShow t' f'.root d := by
  have hstart := (h.noLinks.shows_iff hup (.inl hshort)).mp hshow.start
  refine ⟨hf.root_eq ▸ shows_of_fits h.noLinks' hup hstart, fun p hp hsource => ?_⟩
  rw [hf.root_eq] at hp
  have hupP := no_parent_of_mem_pathsBelow h.proper' hp
  obtain ⟨hanchor, r, hne, hsegs, hsome⟩ := (mem_pathsBelow_iff h.proper').mp hp
  refine shows_of_fits h.noLinks' hupP ?_
  by_cases hin : treePlace dir <+: p.segments
  · obtain ⟨rest, hrest⟩ := hin
    have hfits := h.fits p.anchor rest (hrest ▸ hsome)
    rwa [hrest] at hfits
  · have hsuffix : p.suffix ≠ "" := fun hnone => absurd (hnone ▸ hsource) (by decide)
    rcases h.isSome_cases (elsewhere_of_suffix hin hsuffix) hsome with hsome | hdir
    · have hbefore := hshow.sources p
        ((mem_pathsBelow_iff h.proper).mpr ⟨hanchor, r, hne, hsegs, hsome⟩) hsource
      exact (h.noLinks.shows_iff hupP (known_of_isSome hsome)).mp hbefore
    · exact h.fits_of_above hdir

theorem mem_counted_iff {d : String} : p ∈ counted t f d ↔ p ∈ counted t' f' d := by
  have hsome : ∀ u : FileTree, u.isFileAt p.segments → (u.get? p.segments).isSome := by
    intro u hfile
    obtain ⟨content, hcontent⟩ := isFileAt_iff.mp hfile
    simp [hcontent]
  simp only [counted, List.mem_filter, Bool.and_eq_true, mem_pathsBelow_iff h.proper,
    mem_pathsBelow_iff h.proper', hf.root_eq]
  constructor
  · rintro ⟨⟨hanchor, r, hne, hsegs, hthere⟩, hadmits, hfile⟩
    have hup : ".." ∉ p.segments := fun hmem => (h.proper.isName hthere _ hmem).2 rfl
    rw [← h.isFileAt_eq (elsewhere_of_admits hf.output hadmits)] at hfile
    exact ⟨⟨hanchor, r, hne, hsegs, hsome _ hfile⟩, (hf.admits_eq hup).trans hadmits, hfile⟩
  · rintro ⟨⟨hanchor, r, hne, hsegs, hthere⟩, hadmits, hfile⟩
    have hup : ".." ∉ p.segments := fun hmem => (h.proper'.isName hthere _ hmem).2 rfl
    rw [hf.admits_eq hup] at hadmits
    rw [h.isFileAt_eq (elsewhere_of_admits hf.output hadmits)] at hfile
    exact ⟨⟨hanchor, r, hne, hsegs, hsome _ hfile⟩, hadmits, hfile⟩

/-- The same files count as before. -/
theorem sees_files_again {dirs : List String} (hroot : ".." ∉ f.root.segments)
    (hup : ∀ d ∈ dirs, ".." ∉ (f.root / d).segments) (hshort : ∀ d ∈ dirs, (f.root / d).Short)
    {ps : List Path} (hps : Sees t (f.files dirs : Session _) (.ok ps)) :
    Sees t' (f'.files dirs : Session _) (.ok ps) :=
  files_congr h.proper (direct_of_noLinks h.noLinks hroot hup) h.proper'
    (direct_of_noLinks h.noLinks' (hf.root_eq ▸ hroot) (hf.root_eq ▸ hup)) hf.root_eq
    (fun d hd => h.allShow_again hf (hup d hd) (hshort d hd)) (fun _ _ _ => h.mem_counted_iff hf) hps

end Sources

section Project

variable {root : Path} (h : Regenerated dir t t') (hroot : root.segments <+: dir)
  (hup : ".." ∉ root.segments)

include h hroot hup

theorem steady_atRoot : Steady t t' (IgnoreFile.atRoot root : Session _) := by
  have hshort : root.Short := (h.fits_of_above hroot).short
  have hplace : Elsewhere dir (root / IgnoreFile.fileName).segments := by
    refine elsewhere_of_counts (.inl rfl) ?_
    rw [IgnoreFile.div_fileName]
    exact not_in_tree_of_entry hroot (by decide)
  have hup' : ".." ∉ (root / IgnoreFile.fileName).segments := by
    rw [IgnoreFile.div_fileName]
    simpa [IgnoreFile.fileName] using hup
  have hshort' : (root / IgnoreFile.fileName).Short := by
    rw [IgnoreFile.div_fileName]
    exact hshort.append (by decide)
  exact (h.sameFile hplace hup' hshort').steady_bind
    (fun hread => (hread.bind fun _ _ => steady_pure _).bind fun _ _ => steady_pure _)
    (steady_pure _)

theorem exists_sees_ignored {nested : Bool} {fs : List Pattern.IgnoreFile}
    (hfs : Sees t (if nested then IgnoreFile.everywhere root else IgnoreFile.atRoot root) (.ok fs)) :
    ∃ fs', Sees t' (if nested then IgnoreFile.everywhere root else IgnoreFile.atRoot root) (.ok fs') ∧
      ∀ x : Path, ".." ∉ x.segments → x.isUnder ⟨root.anchor, treePlace dir⟩ = false →
        fs'.any (·.ignores x) = fs.any (·.ignores x) := by
  cases nested with
  | true => exact h.exists_sees_everywhere hup (h.fits_of_above hroot).short hfs
  | false => exact ⟨fs, (h.steady_atRoot hroot hup).sees hfs, fun _ _ _ => rfl⟩

variable {dirs exclude : List String} {nested : Bool} {ps : List Path}
  (hdirs : ∀ d ∈ dirs, ".." ∉ (root / d).segments) (hshort : ∀ d ∈ dirs, (root / d).Short)
  (hps : Sees t (sourceFiles root dirs (some ⟨root.anchor, treePlace dir⟩) exclude nested) (.ok ps))

include hdirs hshort hps

theorem sees_sourceFiles_again :
    Sees t' (sourceFiles root dirs (some ⟨root.anchor, treePlace dir⟩) exclude nested) (.ok ps) := by
  rw [(alike_sourceFiles h.proper hdirs _ _ _).sees_iff] at hps
  rw [(alike_sourceFiles h.proper' hdirs _ _ _).sees_iff]
  obtain ⟨fs, hfs, hfiles⟩ := hps.of_bind_looks (looks_ignored root nested) fun fs =>
    (SourceFilter.glances_files _ dirs).looks
  obtain ⟨fs', hfs', hsame⟩ := h.exists_sees_ignored hroot hup hfs
  have hfilter : SameOutside dir ⟨root, some ⟨root.anchor, treePlace dir⟩, fs, exclude⟩
      ⟨root, some ⟨root.anchor, treePlace dir⟩, fs', exclude⟩ := ⟨rfl, rfl, rfl, rfl, hsame⟩
  exact hfs'.bind (sees_files_again h hfilter hup hdirs hshort hfiles)

omit hroot hshort in
/-- In the files that count the same calls are found. -/
theorem steady_scan (settings : Settings) :
    Steady t t' (CallSite.scan settings root ps : Session _) := by
  rw [(alike_sourceFiles h.proper hdirs _ _ _).sees_iff] at hps
  obtain ⟨fs, -, hfiles⟩ := hps.of_bind_looks (looks_ignored root nested) fun fs =>
    (SourceFilter.glances_files _ dirs).looks
  have hmem := (SourceFilter.of_sees_files h.proper
    (SourceFilter.direct_of_noLinks h.noLinks hup hdirs) hfiles).2
  refine CallSite.steady_scan fun p hp => ?_
  obtain ⟨d, -, hcounted⟩ := (hmem p).mp hp
  rw [SourceFilter.counted, List.mem_filter, Bool.and_eq_true] at hcounted
  obtain ⟨hbelow, hadmits, hfile⟩ := hcounted
  exact h.steady_readText (elsewhere_of_admits rfl hadmits)
    (no_parent_of_mem_pathsBelow h.proper hbelow) hfile

end Project

end Regenerated

end Generation

end CronWrap
