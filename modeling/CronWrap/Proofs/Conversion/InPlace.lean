import CronWrap.Conversion.File
import CronWrap.Proofs.Conversion.LineEnds
import CronWrap.Proofs.Files.Exact
import CronWrap.Proofs.Wrapper.Again

/-! Converting a file in place: what is written back, and what becomes of its line ends. -/
namespace CronWrap

open Text Session Workspace FileTree

namespace FileTree

/-! ## Another content for a file -/

variable {t : FileTree} {place : Place} {old new : Bytes}

theorem walk_congr {a b : FileTree} (hobstacle : ∀ q n, a.obstacle q n = b.obstacle q n)
    (hlink : ∀ q n, a.linkAt? q n = b.linkAt? q n) (last : Bool) (k : Nat)
    (trouble : Option FileCause) (q : Place) (segs : List String) :
    a.walk last k trouble q segs = b.walk last k trouble q segs := by
  induction k, trouble, q, segs using walk_induction a last with
  | nil k trouble q => rw [walk_nil, walk_nil]
  | up k trouble q rest ih => rw [walk_up, walk_up, ih, hobstacle]
  | down k trouble q name rest hname hfree ih =>
    rw [walk_down hname hfree, walk_down hname ((hlink q name).symm.trans hfree), ih, hobstacle]
  | stop k trouble q name target hname htarget hlast =>
    subst hlast
    rw [walk_stop hname htarget, walk_stop hname ((hlink q name).symm.trans htarget), hobstacle]
  | lost trouble q name rest target hname htarget hgo =>
    rw [walk_lost hname htarget hgo, walk_lost hname ((hlink q name).symm.trans htarget) hgo,
      hobstacle]
  | link k trouble q name rest target hname htarget hgo ih =>
    rw [walk_link hname htarget hgo, walk_link hname ((hlink q name).symm.trans htarget) hgo, ih,
      hobstacle]

variable (h : t.get? place = some (.file old))
include h

theorem obstacle_set_file (q : Place) (name : String) :
    (t.set (.file new) place).obstacle q name = t.obstacle q name := by
  have hsome : (t.get? place).isSome := by simp [h]
  rcases get?_set_cases t (.file new) place q with ⟨r, rfl, hr⟩ | ⟨hq, hne, es, hes⟩ | ⟨-, hsame⟩
  · have hold : t.get? (place ++ r) = (file old).get? r := by rw [get?_append, h]; rfl
    unfold obstacle
    rw [hr, hold]
    cases r <;> rfl
  · obtain ⟨fs, hfs⟩ := exists_dir_above hsome hq hne
    exact obstacle_eq_of_dir hes hfs name
  · simp only [obstacle, hsame]

theorem linkAt?_set_file (q : Place) (name : String) :
    (t.set (.file new) place).linkAt? q name = t.linkAt? q name := by
  have hsome : (t.get? place).isSome := by simp [h]
  rw [linkAt?_eq, linkAt?_eq]
  rcases get?_set_cases t (.file new) place (q ++ [name]) with
    ⟨r, hq, hr⟩ | ⟨hq, hne, es, hes⟩ | ⟨-, hsame⟩
  · have hold : t.get? (q ++ [name]) = (file old).get? r := by rw [hq, get?_append, h]; rfl
    rw [hr, hold]
    cases r <;> rfl
  · obtain ⟨fs, hfs⟩ := exists_dir_above hsome hq hne
    rw [hes, hfs]
    rfl
  · rw [hsame]

theorem find_set_file {last : Bool} {p : Path} {found : Option FileTree}
    (hfind : t.find last p = .ok (place, found)) :
    (t.set (.file new) place).find last p = .ok (place, some (.file new)) := by
  have hwalk : (t.set (.file new) place).walkTo last p = t.walkTo last p :=
    walk_congr (obstacle_set_file h) (linkAt?_set_file h) _ _ _ _ _
  have hplace := (find_eq_ok hfind).1
  unfold find at hfind ⊢
  split at hfind
  · cases hfind
  · rw [if_neg ‹_›, hwalk, hplace]
    simp

end FileTree

namespace Converted

variable {settings : Settings} {root file : Path} {s s' : SessionState}

theorem of_inProject_eq_ok {source : List Char} {result : Converted}
    (h : (inProject settings root file source : Session Converted) s = .ok result s') :
    result = (ofSource settings (Generation.containerOf s.tree root) file source).1 ∧
      s'.tree = s.tree := by
  obtain ⟨container, s₁, hcontainer, h⟩ := exists_of_bind_eq_ok h
  have hfound := Generation.triple_findContainer root s s rfl
  rw [hcontainer] at hfound
  obtain ⟨rfl, rfl⟩ := hfound
  obtain ⟨_, s₂, hnotes, h⟩ := exists_of_bind_eq_ok h
  cases h
  have hlooks : ∀ log : Log, Looks (log.forM note : Session Unit) :=
    fun log t => steady_forM fun entry _ => steady_note entry
  exact ⟨rfl, ((hlooks _).of_eq_ok hnotes).2.tree_eq⟩

variable {place : Place} {source : List Char} {result : Converted}

/-- What is written back is the conversion of what was read, and nothing else changes. -/
theorem of_ofFile_eq_ok (hfile : s.tree.find true file = .ok (place, some (.file (encodeUtf8 source))))
    (h : (ofFile settings root file true : Session Converted) s = .ok result s')
    (hchanged : result.changed) :
    let written :=
      (ofSource settings (Generation.containerOf s.tree root) file (unifyLineEnds source)).1.code
    s'.tree = s.tree.set (.file (encodeUtf8 written)) place ∧
      s'.tree.find true file = .ok (place, some (.file (encodeUtf8 written))) := by
  intro written
  obtain ⟨cs, s₁, hcs, h⟩ := exists_of_bind_eq_ok h
  obtain ⟨htext, log, rfl⟩ := (sees_readText_of_encoded hfile).of_eq_ok rfl hcs
  cases htext
  obtain ⟨result', s₂, hresult, h⟩ := exists_of_bind_eq_ok h
  obtain ⟨hvalue, htree⟩ := of_inProject_eq_ok hresult
  dsimp only at h
  split at h
  · obtain ⟨_, s₃, hwrite, h⟩ := exists_of_bind_eq_ok h
    cases h
    have hcode : result.code = written := congrArg code hvalue
    have hwritten := triple_write file (encodeUtf8 result.code) s₂.tree s₂.failed s₂ ⟨rfl, rfl⟩
    rw [show Session.write file (encodeUtf8 result.code) s₂ = .ok () s' from hwrite] at hwritten
    obtain ⟨place', found, hfind, -, hafter, -⟩ := hwritten
    rw [htree, hfile, Except.ok.injEq, Prod.mk.injEq] at hfind
    obtain ⟨rfl, -⟩ := hfind
    rw [htree, hcode] at hafter
    refine ⟨hafter, ?_⟩
    rw [hafter]
    exact find_set_file (find_eq_ok hfile).2.symm hfile
  · cases h
    rename_i hkept
    simp [hchanged] at hkept

/-- Where no change is made to fail, a file that is found is converted. -/
theorem exists_ofFile_eq_ok (settings : Settings)
    (hfile : s.tree.find true file = .ok (place, some (.file (encodeUtf8 source)))) (hcalm : Calm s)
    (hcontainer : Sees s.tree (Generation.findContainer root)
      (.ok (Generation.containerOf s.tree root))) :
    ∃ s', (ofFile settings root file true : Session Converted) s =
      .ok (ofSource settings (Generation.containerOf s.tree root) file (unifyLineEnds source)).1 s' := by
  generalize hresult :
    (ofSource settings (Generation.containerOf s.tree root) file (unifyLineEnds source)).1 = result
  have hconvert : Sees s.tree (inProject settings root file (unifyLineEnds source) : Session _)
      (.ok result) := by
    rw [← hresult]
    exact hcontainer.bind ((sees_notes s.tree _).bind (sees_pure _ _))
  have hwrite : Exact s.tree (do
      if true && result.changed then writeText file result.code
      return result : Session Converted) True result
      (if result.changed then s.tree.set (.file (encodeUtf8 result.code)) place else s.tree) := by
    cases result.changed with
    | false => exact exact_pure _ _
    | true => exact (exact_write_of_find hfile (encodeUtf8 result.code)).then (exact_pure _ _)
  have hexact : Exact s.tree (ofFile settings root file true) True result _ :=
    (exact_of_sees_ok (sees_readText_of_encoded hfile)).then
      ((exact_of_sees_ok hconvert).then hwrite)
  obtain ⟨s', hrun, -⟩ := (hexact s rfl hcalm).1 trivial
  exact ⟨s', hrun⟩

/-- A conversion in place writes what the conversion makes of the text with its line ends made one, and
nothing else: no carriage return is left in the file. The file is the conversion of the text as it
stands exactly if the line ends make no difference, as in a text without carriage returns. -/
theorem ofFile_inPlace
    (hfile : s.tree.find true file = .ok (place, some (.file (encodeUtf8 source))))
    (h : (ofFile settings root file true : Session Converted) s = .ok result s')
    (hchanged : result.changed) :
    let convert (text : List Char) :=
      (ofSource settings (Generation.containerOf s.tree root) file text).1.code
    let written := convert (unifyLineEnds source)
    s'.tree = s.tree.set (.file (encodeUtf8 written)) place ∧
      s'.tree.find true file = .ok (place, some (.file (encodeUtf8 written))) ∧
      ('\r' ∉ settings.startName.toList → '\r' ∉ written) ∧
      (s'.tree.find true file = .ok (place, some (.file (encodeUtf8 (convert source)))) ↔
        written = convert source) ∧
      ('\r' ∉ source → written = convert source) := by
  intro convert written
  obtain ⟨htree, hfound⟩ := of_ofFile_eq_ok hfile h hchanged
  refine ⟨htree, hfound, fun hstart => return_not_mem_code hstart (unifyLineEnds_no_return source),
    ?_, fun hreturn => ?_⟩
  · rw [hfound]
    simp [encodeUtf8_inj, written, convert]
  · rw [show written = convert (unifyLineEnds source) from rfl, unifyLineEnds_eq_self hreturn]

/-- A page with two characters at the end of each line. -/
def returnsPage : List Char :=
  ("import \x7b cronStart \x7d from \"workflow-cron-start\"\r\n" ++
    "cronStart(job, [], \x7b\x7d)\r\n").toList

/-- A project with that page alone. -/
def returnsProject : SessionState :=
  { tree := .dir [("p", .dir [("app", .dir [("page.ts", .file (encodeUtf8 returnsPage))])])] }

def returnsContainer : Path := ⟨.root, ["p", "app", "cron-wrappers"]⟩

def returnsFile : Path := ⟨.root, ["p", "app", "page.ts"]⟩

/-- With either line ends the page is converted, and keeps the ends that it has. -/
theorem ofSource_returnsPage {text : List Char}
    (htext : text ∈ [returnsPage, unifyLineEnds returnsPage]) :
    (ofSource {} returnsContainer returnsFile text).1.changed ∧
      ('\r' ∈ text → '\r' ∈ (ofSource {} returnsContainer returnsFile text).1.code) := by
  have hfacts : ∀ text ∈ [returnsPage, unifyLineEnds returnsPage],
      let settings : Settings := {}
      let m := Module.parse returnsFile text
      let calls := m.convertedCalls settings.callName
      let es := m.edits settings returnsContainer returnsFile calls
        (calls.length = (m.scheduleCalls settings.callName).length)
      (Mention.mentionsImport text settings.callName settings.callModule ∧
        m.importsName settings.callName settings.callModule) ∧
      calls ≠ [] ∧ (es.rotate 1).Pairwise (fun a b => a.stop ≤ b.start) ∧
        Edit.weave text 0 (es.rotate 1) ≠ text ∧
        ('\r' ∈ text → '\r' ∈ Edit.weave text 0 (es.rotate 1)) := by
    decide +kernel
  obtain ⟨hname, hcalls, hordered, hchanged, hreturn⟩ := hfacts text htext
  clear hfacts
  have hm := Module.ofScheduling_of_importsName hname.1 hname.2
  have hweave := ofSource_eq_weave hm hcalls (List.rotate_perm _ 1) hordered
  rw [hweave]
  dsimp only
  exact ⟨by simpa only [decide_eq_true_eq] using hchanged, hreturn⟩

theorem containerOf_returnsProject :
    Generation.containerOf returnsProject.tree ⟨.root, ["p"]⟩ = returnsContainer := by
  decide +kernel

theorem ofFile_returnsPage :
    returnsProject.tree.find true returnsFile =
        .ok (["p", "app", "page.ts"], some (.file (encodeUtf8 returnsPage))) ∧
      ∃ result s', (ofFile {} ⟨.root, ["p"]⟩ returnsFile true : Session Converted)
        returnsProject = .ok result s' ∧ result.changed := by
  have hfile : returnsProject.tree.find true returnsFile =
      .ok (["p", "app", "page.ts"], some (.file (encodeUtf8 returnsPage))) := rfl
  have hfound : Passes (Generation.findContainer ⟨.root, ["p"]⟩) returnsProject fun _ _ => true := by
    decide +kernel
  obtain ⟨container, s₁, hrun, -⟩ := exists_eq_ok_of_passes hfound
  obtain ⟨hsees, -⟩ := (Generation.looks_findContainer _).of_eq_ok hrun
  obtain rfl := Generation.eq_containerOf_of_sees hsees
  obtain ⟨s', hs'⟩ := exists_ofFile_eq_ok {} hfile (fun _ _ => rfl) hsees
  refine ⟨hfile, _, s', hs', ?_⟩
  rw [containerOf_returnsProject]
  exact (ofSource_returnsPage (by simp)).1

theorem ofFile_inPlace_of_returns :
    ∃ result s', (ofFile {} ⟨.root, ["p"]⟩ returnsFile true : Session Converted) returnsProject =
        .ok result s' ∧ result.changed ∧ ∃ written, '\r' ∉ written ∧ s'.tree.find true returnsFile =
      .ok (["p", "app", "page.ts"], some (.file (encodeUtf8 written))) := by
  obtain ⟨hfile, result, s', hrun, hchanged⟩ := ofFile_returnsPage
  obtain ⟨-, hfound, hreturn, -⟩ := ofFile_inPlace hfile hrun hchanged
  exact ⟨result, s', hrun, hchanged, _, hreturn (by decide), hfound⟩

/-- Of the two characters at each end of a line one is left, although the conversion of the page as it
stands keeps both. -/
theorem ofFile_drops_returns :
    ∃ result s', (ofFile {} ⟨.root, ["p"]⟩ returnsFile true : Session Converted) returnsProject =
        .ok result s' ∧ result.changed ∧ ∀ place, s'.tree.find true returnsFile ≠
      .ok (place, some (.file (encodeUtf8 (ofSource {} (Generation.containerOf returnsProject.tree
        ⟨.root, ["p"]⟩) returnsFile returnsPage).1.code))) := by
  obtain ⟨hfile, result, s', hrun, hchanged⟩ := ofFile_returnsPage
  obtain ⟨-, hfound⟩ := of_ofFile_eq_ok hfile hrun hchanged
  refine ⟨result, s', hrun, hchanged, fun place hfind => ?_⟩
  rw [hfound, Except.ok.injEq, Prod.mk.injEq, Option.some.injEq, FileTree.file.injEq,
    encodeUtf8_inj, containerOf_returnsProject] at hfind
  have hkept := (ofSource_returnsPage List.mem_cons_self).2 (by decide)
  rw [← hfind.2] at hkept
  exact return_not_mem_code (by decide) (unifyLineEnds_no_return returnsPage) hkept

end Converted

end CronWrap
