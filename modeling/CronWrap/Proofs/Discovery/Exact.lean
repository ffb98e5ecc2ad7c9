import CronWrap.Proofs.Discovery.Asked
import CronWrap.Proofs.Files.Exact

/-! The files that are found are exactly the sources of a project, in the order of their paths, whatever
links there are below the directories. -/
namespace CronWrap

open FileTree Pattern Session Workspace

namespace SourceFilter

variable {t : FileTree} {f : SourceFilter} {root p : Path} {rel : Place} {dirs : List String}

/-! ## Sources -/

/-- The place, seen from the root, is below one of the directories. -/
def IsListed (dirs : List String) (rel : Place) : Prop :=
  ∃ d ∈ dirs, ∃ r, r ≠ [] ∧ rel = (Path.parse d).segments ++ r

/-- There is a source of the project at the place, seen from the root: a file, to which directories and
no links lead, that is below one of the directories to scan and that nothing excludes. -/
structure IsSource (t : FileTree) (f : SourceFilter) (dirs : List String) (rel : Place) : Prop where
  listed : IsListed dirs rel
  file : t.isFileAt (f.root.segments ++ rel)
  extension : (pathAt f.root rel).suffix ∈ sourceExtensions
  skipped : ∀ n ∈ rel.dropLast, n ∉ skippedDirs
  output : ∀ o ∈ f.output, (pathAt f.root rel).isUnder o = false
  ignored : ∀ i ∈ f.ignored, i.ignores (pathAt f.root rel) = false
  excluded : ∀ pattern ∈ f.exclude, Glob.fits pattern (relativeText rel) = false

theorem admits_pathAt : f.admits (pathAt f.root rel) ↔
    (pathAt f.root rel).suffix ∈ sourceExtensions ∧ (∀ n ∈ rel.dropLast, n ∉ skippedDirs) ∧
      (∀ o ∈ f.output, (pathAt f.root rel).isUnder o = false) ∧
      (∀ i ∈ f.ignored, i.ignores (pathAt f.root rel) = false) ∧
      ∀ pattern ∈ f.exclude, Glob.fits pattern (relativeText rel) = false := by
  unfold admits
  rw [relativeTo?_pathAt]
  simp only [Bool.and_eq_true, Bool.not_eq_true', List.any_eq_false, List.contains_iff_mem,
    Bool.not_eq_true, Option.mem_def, and_assoc]
  cases f.output with
  | none => simp
  | some o => simp

theorem mem_counted_iff_isSource (hproper : Proper t) {d : String}
    (hd : (Path.parse d).isAbsolute = false) :
    p ∈ counted t f d ↔ ∃ rel, p = pathAt f.root rel ∧ IsSource t f [d] rel := by
  rw [counted, List.mem_filter, Bool.and_eq_true, mem_pathsBelow_iff hproper, div_of_relative hd]
  constructor
  · rintro ⟨⟨hanchor, r, hne, hsegs, -⟩, hadmits, hfile⟩
    have hp : p = pathAt f.root ((Path.parse d).segments ++ r) := by
      obtain ⟨anchor, segs⟩ := p
      cases hanchor
      rw [pathAt, ← List.append_assoc]
      exact congrArg _ hsegs
    subst hp
    obtain ⟨hsource, hskipped, houtput, hignored, hexcluded⟩ := admits_pathAt.mp hadmits
    exact ⟨_, rfl, ⟨d, List.mem_singleton_self d, r, hne, rfl⟩, hfile, hsource, hskipped, houtput,
      hignored, hexcluded⟩
  · rintro ⟨rel, rfl, h⟩
    obtain ⟨d', hmem, r, hne, rfl⟩ := h.listed
    obtain rfl := List.mem_singleton.mp hmem
    obtain ⟨content, hcontent⟩ := isFileAt_iff.mp h.file
    refine ⟨⟨rfl, r, hne, (List.append_assoc _ _ _).symm, by simp [pathAt, hcontent]⟩, ?_, h.file⟩
    exact admits_pathAt.mpr ⟨h.extension, h.skipped, h.output, h.ignored, h.excluded⟩

theorem isSource_iff : IsSource t f dirs rel ↔ ∃ d ∈ dirs, IsSource t f [d] rel := by
  constructor
  · intro h
    obtain ⟨d, hd, r, hne, hrel⟩ := h.listed
    exact ⟨d, hd, { h with listed := ⟨d, List.mem_singleton_self d, r, hne, hrel⟩ }⟩
  · rintro ⟨d, hd, h⟩
    obtain ⟨d', hmem, r, hne, hrel⟩ := h.listed
    obtain rfl := List.mem_singleton.mp hmem
    exact { h with listed := ⟨d', hd, r, hne, hrel⟩ }

/-! ## What is found -/

theorem pairwise_lt_sorted {ps : List Path} (hps : ∀ p ∈ ps, IsBelow root p) :
    (sorted root ps).Pairwise fun p q => sortKey root p < sortKey root q := by
  have hboth := (pairwise_sorted root ps).and (nodup_sorted root ps)
  refine hboth.imp_of_mem fun hp hq h => ?_
  obtain ⟨hle, hne⟩ := h
  rw [mem_sorted] at hp hq
  by_contra hlt
  exact hne (sortKey_inj (hps _ hp) (hps _ hq) (String.le_antisymm hle (String.not_lt.mp hlt)))

section Files

variable (hproper : Proper t) (hdirect : Direct t f.root dirs)
  (hrelative : ∀ d ∈ dirs, (Path.parse d).isAbsolute = false)

include hproper hdirect hrelative

theorem exists_sees_files (hshow : ∀ d ∈ dirs, AllShow t f.root d) :
    ∃ ps, Sees t (f.files dirs : Session _) (.ok (sorted f.root ps)) ∧
      (∀ p ∈ ps, IsBelow f.root p) ∧
      ∀ p, p ∈ ps ↔ ∃ rel, p = pathAt f.root rel ∧ IsSource t f dirs rel := by
  obtain ⟨ps, hps, hmem⟩ := sees_files hproper hdirect hshow
  refine ⟨ps, hps, fun p hp => ?_, fun p => ?_⟩
  · obtain ⟨d, -, hcounted⟩ := (hmem p).mp hp
    exact isBelow_of_mem_counted hproper hcounted
  · rw [hmem]
    constructor
    · rintro ⟨d, hd, hcounted⟩
      obtain ⟨rel, hp, h⟩ := (mem_counted_iff_isSource hproper (hrelative d hd)).mp hcounted
      exact ⟨rel, hp, isSource_iff.mpr ⟨d, hd, h⟩⟩
    · rintro ⟨rel, hp, h⟩
      obtain ⟨d, hd, h⟩ := isSource_iff.mp h
      exact ⟨d, hd, (mem_counted_iff_isSource hproper (hrelative d hd)).mpr ⟨rel, hp, h⟩⟩

/-- What is found depends only on the sources that there are. -/
theorem files_unique {dirs' : List String} (hdirect' : Direct t f.root dirs')
    (hrelative' : ∀ d ∈ dirs', (Path.parse d).isAbsolute = false)
    (hlisted : ∀ rel, IsListed dirs rel ↔ IsListed dirs' rel) {found found' : List Path}
    (h : Sees t (f.files dirs : Session _) (.ok found))
    (h' : Sees t (f.files dirs' : Session _) (.ok found')) : found = found' := by
  obtain ⟨ps, hps, hbelow, hmem⟩ := exists_sees_files hproper hdirect hrelative
    (of_sees_files hproper hdirect h).1
  obtain ⟨ps', hps', -, hmem'⟩ := exists_sees_files hproper hdirect' hrelative'
    (of_sees_files hproper hdirect' h').1
  have hsources : ∀ rel, IsSource t f dirs rel ↔ IsSource t f dirs' rel := fun rel =>
    ⟨fun hs => { hs with listed := (hlisted rel).mp hs.listed },
      fun hs => { hs with listed := (hlisted rel).mpr hs.listed }⟩
  cases h.unique hps
  cases h'.unique hps'
  refine sorted_congr hbelow fun p => ?_
  simp only [hmem, hmem', hsources]

end Files

end SourceFilter

section Project

open SourceFilter

variable {t : FileTree} {root : Path} {dirs : List String} {output : Option Path}
  {exclude : List String} {nested : Bool} {ignored : List Pattern.IgnoreFile}

/-- Whatever links there are in a project, let none lead to its root or to a directory to scan, which
is named from the root and by no parent. All its sources are found and nothing else, in the order of
their paths as seen from the root, exactly if the directories and all that is below them with the name
of a source can be looked at; else a path is too long. The directories may be listed in another order,
more than once or together with others below them. -/
theorem sourceFiles_exact_iff (hproper : Proper t) (hdirect : Direct t root dirs)
    (hrelative : ∀ d ∈ dirs, (Path.parse d).isAbsolute = false)
    (hignored : Sees t (if nested then IgnoreFile.everywhere root else IgnoreFile.atRoot root)
      (.ok ignored)) :
    ((∃ found, Sees t (sourceFiles root dirs output exclude nested) (.ok found) ∧
        found.Pairwise (fun p q => sortKey root p < sortKey root q) ∧
        ∀ p, p ∈ found ↔ ∃ rel, p = pathAt root rel ∧
          IsSource t ⟨root, output, ignored, exclude⟩ dirs rel) ↔
      ∀ d ∈ dirs, AllShow t root d) ∧
    ((¬ ∀ d ∈ dirs, AllShow t root d) → ∃ p, ¬ t.Shows p ∧
      Sees t (sourceFiles root dirs output exclude nested) (.error (tooLong p))) ∧
    ∀ dirs' found found', Direct t root dirs' →
      (∀ d ∈ dirs', (Path.parse d).isAbsolute = false) →
      (∀ rel, IsListed dirs rel ↔ IsListed dirs' rel) →
      Sees t (sourceFiles root dirs output exclude nested) (.ok found) →
      Sees t (sourceFiles root dirs' output exclude nested) (.ok found') → found = found' := by
  let f : SourceFilter := ⟨root, output, ignored, exclude⟩
  have hfiles : ∀ {ds : List String} {r : Except Failure (List Path)}, Direct t root ds →
      (Sees t (sourceFiles root ds output exclude nested) r ↔
        Sees t (f.files ds : Session _) r) := by
    intro ds r hds
    rw [(alike_sourceFiles hproper hds.dirs_up output exclude nested).sees_iff]
    refine ⟨fun h => ?_, fun h => hignored.bind h⟩
    obtain ⟨r', hr', -⟩ := (glances_files f ds).looks t
    rwa [h.unique (hignored.bind hr')]
  simp only [hfiles hdirect]
  refine ⟨⟨?_, fun hshow => ?_⟩, fun hhidden => ?_, fun dirs' found found' hdirect' hrelative' => ?_⟩
  · rintro ⟨found, hfound, -⟩
    exact (of_sees_files hproper hdirect hfound).1
  · obtain ⟨ps, hps, hbelow, hmem⟩ := exists_sees_files (f := f) hproper hdirect hrelative hshow
    exact ⟨_, hps, pairwise_lt_sorted hbelow, fun p => mem_sorted.trans (hmem p)⟩
  · rcases glances_files f dirs t with ⟨found, hfound⟩ | hfailed
    · exact absurd (of_sees_files hproper hdirect hfound).1 hhidden
    · exact hfailed
  · rw [hfiles hdirect']
    exact fun hlisted =>
      files_unique (f := f) hproper hdirect hrelative hdirect' hrelative' hlisted

/-- Where files are found, the directories and what has the name of a source can be looked at. -/
theorem allShow_of_sourceFiles {s s' : SessionState} {found : List Path} (hproper : Proper s.tree)
    (hdirect : Direct s.tree root dirs)
    (h : (sourceFiles root dirs output exclude nested : Session _) s = .ok found s') :
    ∀ d ∈ dirs, AllShow s.tree root d := by
  have hseen := ((looks_sourceFiles root dirs output exclude nested).of_eq_ok h).1
  rw [(alike_sourceFiles hproper hdirect.dirs_up output exclude nested).sees_iff] at hseen
  obtain ⟨ignored, -, hfiles⟩ := hseen.of_bind_looks (looks_ignored root nested) fun _ =>
    (glances_files _ dirs).looks
  exact (of_sees_files (f := ⟨root, output, ignored, exclude⟩) hproper hdirect hfiles).1

/-- A project with an ignore file and links, one of them to a directory above it, in which directories
are listed that overlap. -/
theorem sourceFiles_exact_with_links :
    let root : Path := ⟨.root, ["p"]⟩
    let t := FileTree.empty.set (.dir [
      (".gitignore", .file (Text.encodeUtf8 "*.gen.ts\n".toList)),
      ("src", .dir [("a.ts", .file []), ("c.gen.ts", .file []), ("d.ts", .link "a.ts"),
        ("up", .link ".."), ("lib", .dir [("b.tsx", .file [])])])]) ["p"]
    let dirs := ["src/lib", "src", "missing", "src"]
    Proper t ∧ Direct t root dirs ∧ (∀ d ∈ dirs, (Path.parse d).isAbsolute = false) ∧
      ∃ ignored, Sees t (IgnoreFile.atRoot root) (.ok ignored) ∧
        ∃ found, Sees t (sourceFiles root dirs none [] false) (.ok found) ∧
          found.Pairwise (fun p q => sortKey root p < sortKey root q) ∧
          ∀ p, p ∈ found ↔ ∃ rel, p = pathAt root rel ∧
            IsSource t ⟨root, none, ignored, []⟩ dirs rel := by
  intro root t dirs
  have hlib : Proper (.dir [("b.tsx", .file [])]) :=
    proper_dir (by decide) (by simpa using ⟨by decide, proper_file []⟩)
  have hsrc : Proper (.dir [("a.ts", .file []), ("c.gen.ts", .file []), ("d.ts", .link "a.ts"),
      ("up", .link ".."), ("lib", .dir [("b.tsx", .file [])])]) :=
    proper_dir (by decide) (by
      simpa using ⟨⟨by decide, proper_file []⟩, ⟨by decide, proper_file []⟩,
        ⟨by decide, proper_link _⟩, ⟨by decide, proper_link _⟩, by decide, hlib⟩)
  have hproper : Proper t := proper_empty.set (proper_dir (by decide) (by
    simpa using ⟨⟨by decide, proper_file _⟩, by decide, hsrc⟩)) (by decide)
  have hdirect : Direct t root dirs :=
    ⟨by decide, by decide +kernel, by decide +kernel, by decide +kernel⟩
  have hrelative : ∀ d ∈ dirs, (Path.parse d).isAbsolute = false := by decide +kernel
  have hloads : Passes (IgnoreFile.atRoot root) { tree := t } fun _ _ => true := by decide +kernel
  obtain ⟨ignored, s', hrun, -⟩ := exists_eq_ok_of_passes hloads
  have hignored : Sees t (if false then IgnoreFile.everywhere root else IgnoreFile.atRoot root)
      (.ok ignored) := ((IgnoreFile.looks_atRoot root).of_eq_ok hrun).1
  refine ⟨hproper, hdirect, hrelative, ignored, hignored, ?_⟩
  exact (sourceFiles_exact_iff hproper hdirect hrelative hignored).1.mpr (by decide +kernel)

/-- A link to a target with a name of three hundred characters, and a directory with such a name, of
which there is none, among those that are listed. -/
theorem sourceFiles_fails_of_long_name :
    let root : Path := ⟨.root, ["p"]⟩
    let long := String.ofList (List.replicate 300 'x')
    let plain := FileTree.empty.set (.dir [("a.ts", .file [])]) ["p", "src"]
    let linked := FileTree.empty.set (.dir [("a.ts", .file []), ("b.ts", .link long)]) ["p", "src"]
    let find (dirs : List String) : Session (List Path) := sourceFiles root dirs none [] false
    (Proper linked ∧ Direct linked root ["src"] ∧
      IsSource linked ⟨root, none, [], []⟩ ["src"] ["src", "a.ts"] ∧
      ¬ ∃ found s', find ["src"] { tree := linked } = .ok found s') ∧
    Proper plain ∧ Direct plain root ["src", long] ∧ plain.get? ["p", long] = none ∧
      IsSource plain ⟨root, none, [], []⟩ ["src", long] ["src", "a.ts"] ∧
      ¬ ∃ found s', find ["src", long] { tree := plain } = .ok found s' := by
  intro root long plain linked find
  have hsource : ∀ t dirs, t.isFileAt ["p", "src", "a.ts"] → "src" ∈ dirs →
      IsSource t ⟨root, none, [], []⟩ dirs ["src", "a.ts"] := fun t dirs hfile hsrc =>
    { listed := ⟨"src", hsrc, ["a.ts"], by simp, by decide⟩
      file := hfile
      extension := by decide +kernel
      skipped := by decide
      output := by simp
      ignored := by simp
      excluded := by simp }
  have hsize : maxName < long.utf8ByteSize := by
    have hchars : ∀ c ∈ List.replicate 300 'x', c.utf8Size = 1 := fun c hc => by
      rw [List.eq_of_mem_replicate hc]
      decide
    rw [utf8ByteSize_ofList_of_ascii hchars, List.length_replicate]
    decide
  have hother : ∀ s : String, s.utf8ByteSize ≤ maxName → long ≠ s := fun s hs he =>
    absurd (he ▸ hs) (Nat.not_le.mpr hsize)
  have hsegment : Path.IsSegment long := by
    have hslash : '/' ∉ List.replicate 300 'x' := fun h =>
      absurd (List.eq_of_mem_replicate h) (by decide)
    have hchars : '/' ∉ long.toList := by rwa [String.toList_ofList]
    exact ⟨hother "" (by decide), hother "." (by decide), hchars⟩
  clear_value long
  have hsrc : root / "src" = ⟨.root, ["p", "src"]⟩ := Path.div_of_isSegment root (by decide)
  have hlong : root / long = ⟨.root, ["p", long]⟩ := Path.div_of_isSegment root hsegment
  have hlinked : Proper linked := proper_empty.set (proper_dir (by simp) (by
    simpa using ⟨⟨by decide, proper_file []⟩, by decide, proper_link long⟩)) (by decide)
  have hdirectLinked : Direct linked root ["src"] :=
    { root_up := by decide
      root_straight := straight_of_isDirAt rfl
      dirs_up := by simp [hsrc]
      dirs_straight := by simpa [hsrc] using straight_of_isSome (t := linked) (by rfl) }
  have hplain : Proper plain := proper_empty.set (proper_dir (by simp) (by
    simpa using ⟨by decide, proper_file []⟩)) (by decide)
  have hdir : plain.isDirAt ["p"] := rfl
  have hstart : Straight plain false [] ["p", long] := (straight_of_isDirAt hdir).concat long
  have hdirectPlain : Direct plain root ["src", long] :=
    { root_up := by decide
      root_straight := straight_of_isDirAt hdir
      dirs_up := by simp [hsrc, hlong, (hother ".." (by decide)).symm]
      dirs_straight := by
        simpa [hsrc, hlong] using ⟨straight_of_isSome (t := plain) (by rfl), hstart⟩ }
  have hnone : plain.get? ["p", long] = none := by
    simp [plain, FileTree.empty, FileTree.set, setField, hother "src" (by decide)]
  refine ⟨⟨hlinked, hdirectLinked, hsource _ _ rfl (by simp), ?_⟩, hplain, hdirectPlain, hnone,
    hsource _ _ rfl (by simp), ?_⟩
  · rintro ⟨found, s', h⟩
    have hlink : linked.get? (["p", "src"] ++ ["b.ts"]) = some (.link long) := rfl
    have hbelow : ⟨.root, ["p", "src", "b.ts"]⟩ ∈ pathsBelow linked (root / "src") := by
      rw [mem_pathsBelow_iff hlinked, hsrc]
      exact ⟨rfl, ["b.ts"], by simp, rfl, rfl⟩
    have hshow := allShow_of_sourceFiles hlinked hdirectLinked h "src" (by simp)
    exact not_shows_of_link hlink (by decide) hsegment hsize
      (hshow.sources _ hbelow (by decide +kernel))
  · rintro ⟨found, s', h⟩
    have hshows := (allShow_of_sourceFiles hplain hdirectPlain h long (by simp)).start
    rw [hlong] at hshows
    have hfits := ((hstart.followed (by simp [hnone])).shows_iff
      (by simp [(hother ".." (by decide)).symm]) (.inr hdir)).mp hshows
    exact absurd (hfits.2 long (by simp)) (Nat.not_le.mpr hsize)

end Project

end CronWrap
