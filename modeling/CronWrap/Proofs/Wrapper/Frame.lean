import CronWrap.Proofs.Wrapper.Again
import CronWrap.Proofs.Wrapper.Faultless

/-! What a generation leaves in the whole tree of files: the generated tree, and all else as it was, but
for directories on the way and for old trees. -/
namespace CronWrap

open FileTree Session Workspace

namespace Staging

/-- In the second tree an entry of the directory at a place was replaced. Directories on the way to it
were made where there were none, directories beside it that have the name of an old tree are gone, and
all other places are as in the first tree. -/
structure Replaces (target : Path) (p : Place) (new t t' : FileTree) : Prop where
  tree : t'.get? (p ++ [target.name]) = some new
  onTheWay : ∀ q, q <+: p → (t'.get? q).any FileTree.isDir ∧ (t.get? q).all FileTree.isDir
  oldTrees : ∀ n, isRetired target n → (t.get? (p ++ [n])).any FileTree.isDir →
    t'.get? (p ++ [n]) = none
  elsewhere : ∀ q, ¬ q <+: p → ¬ p ++ [target.name] <+: q →
    (∀ n, isRetired target n → (t.get? (p ++ [n])).any FileTree.isDir → ¬ p ++ [n] <+: q) →
    t'.get? q = t.get? q

theorem replaces_of_entries {target : Path} {p : Place} {new t b : FileTree}
    {es gs : List (String × FileTree)} (habove : SameButAbove p t b)
    (hdir : b.get? p = some (.dir es))
    (hgs : ∀ n, gs.lookup n = replacedEntry target new (fun n => t.get? (p ++ [n])) n) :
    Replaces target p new t (b.withEntries p gs) where
  tree := by rw [get?_withEntries, hgs, replacedEntry, if_pos rfl]
  onTheWay := by
    intro q hq
    have hq' : ∀ u, b.get? q = some u → u.isDir := fun u =>
      isDir_above (by simp [hdir, FileTree.isDir]) hq
    constructor
    · by_cases hne : q = p
      · rw [hne, get?_withEntries_self]
        rfl
      · obtain ⟨ds, hds⟩ := get?_set_above b (.dir gs) hq hne
        rw [withEntries, hds]
        rfl
    · rcases habove q with hsame | ⟨-, -, hall⟩
      · rw [← hsame]
        cases hu : b.get? q with
        | none => rfl
        | some u => exact hq' u hu
      · exact hall
  oldTrees := by
    intro n hn hold
    have hne : n ≠ target.name := by
      rintro rfl
      rw [not_isRetired_name] at hn
      cases hn
    rw [get?_withEntries, hgs, replacedEntry, if_neg hne, swept, if_pos ⟨hn, hold⟩]
  elsewhere := by
    intro q hq hnew hold
    have hsame : b.get? q = t.get? q := (habove q).resolve_right fun h => hq h.1
    rcases get?_set_cases b (.dir gs) p q with ⟨r, rfl, -⟩ | ⟨hle, -⟩ | ⟨-, hkept⟩
    · obtain ⟨n, r, rfl⟩ := List.exists_cons_of_ne_nil (l := r) (by rintro rfl; simp at hq)
      have hbelow : ∀ m, m = n → p ++ [m] <+: p ++ n :: r := by
        rintro m rfl
        exact ⟨r, by simp⟩
      have hne : n ≠ target.name := fun he => hnew (hbelow _ he.symm)
      have hkept : ¬ (isRetired target n ∧ (t.get? (p ++ [n])).any FileTree.isDir) :=
        fun h => hold n h.1 h.2 (hbelow n rfl)
      have happ : p ++ n :: r = p ++ [n] ++ r := by simp
      rw [get?_withEntries_cons, hgs, replacedEntry, if_neg hne, swept, if_neg hkept, happ,
        get?_append t (p ++ [n])]
      rfl
    · exact absurd hle hq
    · exact hkept.trans hsame

/-- Nothing is new beside the entry. -/
theorem Replaces.beside {target : Path} {p : Place} {new t t' : FileTree}
    (h : Replaces target p new t t') {n : String} (hn : n ≠ target.name)
    (hthere : (t'.get? (p ++ [n])).isSome) : t'.get? (p ++ [n]) = t.get? (p ++ [n]) := by
  have hinj : ∀ m, p ++ [m] <+: p ++ [n] → m = n := fun m hm => by simpa using hm
  refine h.elsewhere _ (fun hle => ?_) (fun hle => hn (hinj _ hle).symm) fun m hm hold hle => ?_
  · simpa using hle.length_le
  · obtain rfl := hinj m hle
    rw [h.oldTrees m hm hold] at hthere
    cases hthere

/-- A replacement in which no operation fails. -/
theorem triple_replace_faultless {anchor : Anchor} {dir : List String} {c : String}
    {build : Path → Session Unit} {new t : FileTree} (hbuild : Builds build new)
    (hrem : ∀ q, Remembers (build q)) (hdir : Makeable t ⟨anchor, dir⟩) (hc : c ≠ "..")
    (hslash : '/' ∉ c.toList) :
    Triple (fun s => s.tree = t) (replace (Path.mk anchor (dir ++ [c])) build)
      (fun _ s =>
        Faultless ⟨anchor, dir ++ [c]⟩
          (fun n => t.get? ((t.walk true maxLinks none [] dir).place ++ [n])) s.failed →
        Replaces ⟨anchor, dir ++ [c]⟩ (t.walk true maxLinks none [] dir).place new t s.tree)
      fun _ => True := by
  unfold replace
  rw [parent_entry]
  refine ((triple_makeDirs hdir).weaken (fun s hs => (⟨hs, Nat.zero_le _⟩ : Holds t 0 s))
    (fun _ _ h => h) fun _ _ => trivial).bind fun _ => ?_
  refine triple_of_exists fun b => triple_of_forall fun hmade => ?_
  obtain ⟨p, es, hreach, hes⟩ := hmade.dir
  have habove := hmade.outside [] (by simp)
  have hplace := hmade.place_eq [] (by simp)
  rw [List.append_nil] at habove hplace
  rw [← hplace, hreach.place_eq] at habove ⊢
  have hfound : ∀ n, es.lookup n = t.get? (p ++ [n]) := by
    intro n
    have hsame := habove.sameBelow [n] (by simp)
    rwa [eq_withEntries hes, get?_withEntries] at hsame
  rw [eq_withEntries hes] at hreach ⊢
  refine (triple_replace_in_faultless hbuild hrem hreach hfound hc hslash).weaken (fun _ h => h) ?_
    fun _ h => h
  intro _ s hs hfaultless
  obtain ⟨gs, hgs, htree⟩ := hs hfaultless
  rw [htree]
  exact replaces_of_entries habove hes hgs

end Staging

namespace Generation

variable {settings : Settings} {ws : List Wrapper}

theorem remembers_writeText (p : Path) (cs : List Char) :
    Remembers (writeText p cs : Session Unit) := remembers_write p _

theorem remembers_writeWrapper (settings : Settings) (top : Path) (w : Wrapper) :
    Remembers (writeWrapper settings top w : Session Unit) :=
  (remembers_makeDir _).bind fun _ => remembers_writeText _ _

theorem remembers_writeTree (settings : Settings) (ws : List Wrapper) (top : Path) :
    Remembers (writeTree settings ws top : Session Unit) :=
  (remembers_writeText _ _).bind fun _ =>
    (Remembers.forM ws fun w _ => remembers_writeWrapper settings top w).bind fun _ =>
      (remembers_writeText _ _).bind fun _ => remembers_writeText _ _

/-- The files of a generated tree, by their places in it. -/
def files (settings : Settings) (ws : List Wrapper) : List (Place × String) :=
  ([Layout.gitignoreFile], Layout.gitignoreContent) ::
    ws.map (fun w => ([Layout.triggerDir w.functionName, Layout.moduleFile Layout.schedulerModule],
      w.schedulerText settings)) ++
    [([Layout.manifestFile], (Manifest.ofWrappers ws).text),
      ([Layout.moduleFile Layout.discoveryModule], Wrapper.discoveryText ws)]

/-- A tree has these files, and but for the directories on the way to them it has nothing else. -/
structure HasOnly (files : List (Place × String)) (t : FileTree) : Prop where
  file : ∀ f ∈ files, t.get? f.1 = some (.ofText f.2)
  only : ∀ r u, t.get? r = some u →
    (∃ f ∈ files, r = f.1 ∧ u = .ofText f.2) ∨ u.isDir ∧ ∃ f ∈ files, r <+: f.1

theorem hasOnly_contents (settings : Settings) (hws : ∀ w ∈ ws, w.IsPlaced)
    (hnodup : (ws.map (·.directory)).Nodup) :
    HasOnly (files settings ws) (contents settings ws) := by
  have hplaces : filePlaces ws = (files settings ws).map (·.1) := by
    have hdirs : ws.map (fun w => [w.directory, Layout.moduleFile Layout.schedulerModule]) =
        ws.map fun w =>
          [Layout.triggerDir w.functionName, Layout.moduleFile Layout.schedulerModule] :=
      List.map_congr_left fun w hw => by rw [(hws w hw).directory_eq]
    simp [filePlaces, files, hdirs, Function.comp_def]
  have hproper := proper_contents settings hws hnodup
  have hentry : ∀ name text, (name, FileTree.ofText text) ∈ (contents settings ws).entries →
      (contents settings ws).get? [name] = some (.ofText text) := by
    intro name text hmem
    have hlookup : (contents settings ws).entries.lookup name = some (.ofText text) :=
      (mem_iff_lookup_of_nodup hproper.nodup).mp hmem
    rw [get?_cons, hlookup]
    rfl
  have hfile : ∀ f ∈ files settings ws, (contents settings ws).get? f.1 = some (.ofText f.2) := by
    intro f hf
    simp only [files, List.cons_append, List.mem_cons, List.mem_append, List.mem_map,
      List.not_mem_nil, or_false] at hf
    rcases hf with rfl | ⟨w, hw, rfl⟩ | rfl | rfl
    · exact hentry _ _ (by simp [contents])
    · have hmodule := get?_contents_module settings hws hnodup hw
      rwa [(hws w hw).directory_eq] at hmodule
    · exact hentry _ _ (by simp [contents])
    · exact hentry _ _ (by simp [contents])
  refine ⟨hfile, fun r u hu => ?_⟩
  rcases cases_get?_contents hu with ⟨text, rfl, hr⟩ | ⟨hdir, place, hplace, hle⟩
  · rw [hplaces] at hr
    obtain ⟨f, hf, rfl⟩ := List.mem_map.mp hr
    exact .inl ⟨f, hf, rfl, Option.some.inj (hu.symm.trans (hfile f hf))⟩
  · rw [hplaces] at hplace
    obtain ⟨f, hf, rfl⟩ := List.mem_map.mp hplace
    exact .inr ⟨hdir, f, hf, hle⟩

variable {root : Path} {fetch : Session AliasTable} {sites : List CallSite}

/-- The place of the directory that the container is in. -/
def containerDir (t : FileTree) (root : Path) : Place := (containerPlace t root).dropLast

/-- No operation of a run failed, or only one that was to fail: the removal of what is beside the
container, has the name of an old tree, and is no directory. -/
def Faultless (t : FileTree) (root : Path) (failed : List Change) : Prop :=
  Staging.Faultless (containerOf t root) (fun n => t.get? (containerDir t root ++ [n])) failed

theorem triple_replace_container_faultless {t : FileTree} (hroot : IsRoot t root)
    (settings : Settings) (hws : ∀ w ∈ ws, w.IsPlaced) :
    Triple (fun s => s.tree = t) (Staging.replace (containerOf t root) (writeTree settings ws))
      (fun _ s => Faultless t root s.failed → Staging.Replaces (containerOf t root)
        (containerDir t root) (contents settings ws) t s.tree) fun _ => True := by
  obtain ⟨dir, hdir, hcontainer⟩ := exists_containerOf hroot
  have hlast : containerDir t root = (t.walk true maxLinks none [] dir).place := by
    rw [containerDir, containerPlace, hcontainer]
    have hplace : (t.walkTo false ⟨root.anchor, dir ++ [Layout.containerName]⟩).place = _ :=
      place_walk_snoc t maxLinks none [] dir (by decide)
    rw [hplace, List.dropLast_concat]
  have hbuild : Staging.Builds (writeTree settings ws) _ := builds_writeTree hws
  have hreplace : Triple _ (Staging.replace ⟨root.anchor, dir ++ [Layout.containerName]⟩ _) _ _ :=
    Staging.triple_replace_faultless hbuild (remembers_writeTree settings ws) hdir (by decide)
      (by decide)
  unfold Faultless
  rw [hlast, hcontainer]
  exact hreplace

theorem triple_renew_faultless {t : FileTree} (hroot : IsRoot t root) (settings : Settings)
    (hws : ∀ w ∈ ws, w.IsPlaced) :
    Triple (fun s => s.tree = t) (renew settings (containerOf t root) ws)
      (fun g s => g = ⟨containerOf t root, ws⟩ ∧ (Faultless t root s.failed →
        Staging.Replaces (containerOf t root) (containerDir t root) (contents settings ws) t s.tree))
      fun _ => True := by
  refine (triple_replace_container_faultless hroot settings hws).bind fun _ => ?_
  refine Triple.bind (Q := fun _ s => Faultless t root s.failed → Staging.Replaces
    (containerOf t root) (containerDir t root) (contents settings ws) t s.tree) (fun _ h => h)
    fun _ => triple_pure _ fun _ h => ⟨rfl, h⟩

/-- A run that succeeds without a fault leaves in the container exactly the files of the wrappers that
it planned, whatever was there before. Nothing new is beside the container, so no tree of the run's own
stays, and of all the rest of the files only old trees are gone and missing directories made. -/
theorem run_replaces {settings : Settings} {root : Path} {fetch : Session AliasTable}
    {sites : List CallSite} {s s' : SessionState} {g : Generation} (hquiet : Quiet fetch)
    (hsites : ∀ c ∈ sites, '/' ∉ c.functionName.toList) (hroot : IsRoot s.tree root)
    (hrun : run settings root fetch sites s = .ok g s')
    (hfaultless : Faultless s.tree root s'.failed) :
    g.container = containerOf s.tree root ∧
      (∃ table s₁, fetch s = .ok table s₁ ∧
        Wrapper.plan sites g.container table = .ok g.wrappers) ∧
      (g.wrappers.map (·.functionName)).Nodup ∧
      HasOnly (files settings g.wrappers) (contents settings g.wrappers) ∧
      Staging.Replaces g.container (containerDir s.tree root) (contents settings g.wrappers) s.tree
        s'.tree ∧
      ∀ n, n ≠ g.container.name → (s'.tree.get? (containerDir s.tree root ++ [n])).isSome →
        s'.tree.get? (containerDir s.tree root ++ [n]) =
          s.tree.get? (containerDir s.tree root ++ [n]) := by
  obtain ⟨container, s₁, table, s₂, ws, hcontainer, hfetched, hplan, hrenew⟩ :=
    exists_of_run_eq_ok hrun
  have hfound := triple_findContainer root s s rfl
  rw [hcontainer] at hfound
  obtain ⟨rfl, rfl⟩ := hfound
  have htree := triple_fetch hquiet s₁ s₁ rfl
  rw [hfetched] at htree
  obtain ⟨hplaced, hnodup⟩ := isPlaced_plan hsites hplan
  have hrenewed := triple_renew_faultless hroot settings hplaced s₂ htree.2
  rw [hrenew] at hrenewed
  obtain ⟨rfl, hreplaces⟩ := hrenewed
  have hreplaced := hreplaces hfaultless
  exact ⟨rfl, ⟨table, s₂, hfetched, hplan⟩, Wrapper.nodup_names_plan hplan,
    hasOnly_contents settings hplaced hnodup, hreplaced, fun n hn hthere => hreplaced.beside hn hthere⟩

/-- A project with a generated tree from before, in which a file is stale and another was edited, with
two things beside it that have names of old trees, a directory and a file, and with a page. -/
def staleProject : FileTree :=
  .dir [("p", .dir [("app", .dir
    [("cron-wrappers", .dir [("trigger-gone", .dir [("workflow.ts", .file [1])]),
      ("manifest.json", .file [2])]),
     (".cron-wrappers-retired-0", .dir [("route.ts", .file [3])]),
     (".cron-wrappers-retired-1", .file [4]), ("page.ts", .file [5])])])]

def staleStart : SessionState := { tree := staleProject }

def staleRoot : Path := ⟨.root, ["p"]⟩

def staleSites : List CallSite := [⟨"job", "./jobs", ⟨.root, ["p", "app", "page.ts"]⟩, none⟩]

def staleFetch : Session AliasTable := AliasTable.load staleRoot

/-- What could not be done in the run on this project. -/
def staleFailed : List Change :=
  match run {} staleRoot staleFetch staleSites staleStart with
  | .ok _ s' => s'.failed
  | .error _ _ => []

theorem run_replaces_of_stale : ∃ g s',
    run {} staleRoot staleFetch staleSites staleStart = .ok g s' ∧ Quiet staleFetch ∧
      (∀ c ∈ staleSites, '/' ∉ c.functionName.toList) ∧ IsRoot staleProject staleRoot ∧
      Faultless staleProject staleRoot s'.failed ∧
      Staging.Replaces g.container (containerDir staleProject staleRoot) (contents {} g.wrappers)
        staleProject s'.tree := by
  have hquiet : Quiet staleFetch := AliasTable.quiet_load staleRoot
  have hsites : ∀ c ∈ staleSites, '/' ∉ c.functionName.toList := by decide
  have hroot : IsRoot staleProject staleRoot := .inl (by decide)
  have hfailed : staleFailed = [.remove ⟨.root, ["p", "app", ".cron-wrappers-retired-1"]⟩] := by
    decide +kernel
  cases hrun : run {} staleRoot staleFetch staleSites staleStart with
  | error e s' =>
    rw [staleFailed, hrun] at hfailed
    cases hfailed
  | ok g s' =>
    rw [staleFailed, hrun] at hfailed
    have hfaultless : Faultless staleProject staleRoot s'.failed := by
      rw [show s'.failed = _ from hfailed]
      intro c hc
      rw [List.mem_singleton] at hc
      exact ⟨".cron-wrappers-retired-1", .file [4], hc.trans (by decide +kernel), rfl, rfl⟩
    have hreplaces := run_replaces hquiet hsites hroot hrun hfaultless
    exact ⟨g, s', rfl, hquiet, hsites, hroot, hfaultless, hreplaces.2.2.2.2.1⟩

end Generation

end CronWrap
