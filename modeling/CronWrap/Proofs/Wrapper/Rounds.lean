import CronWrap.Proofs.Alias.Load
import CronWrap.Proofs.Wrapper.Contents

/-! Generating again and again: after each run the generated tree is that of the run or of before. -/
namespace CronWrap.Generation

open FileTree Session Workspace

/-- The path of the generated tree in a project, as the files are. -/
def containerOf (t : FileTree) (root : Path) : Path :=
  Layout.containerIn root ((Layout.routableDirs root).find? t.hasDir)

/-- The place to which that path leads. -/
def containerPlace (t : FileTree) (root : Path) : Place := (t.walkTo false (containerOf t root)).place

theorem triple_findContainer (root : Path) (s : SessionState) :
    Triple (· = s) (findContainer root)
      (fun r s' => r = containerOf s.tree root ∧ s' = s) (· = s) := by
  have hfind : ∀ dirs : List Path, Triple (· = s) (dirs.findM? (isDir (m := Session)))
      (fun r s' => r = dirs.find? s.tree.hasDir ∧ s' = s) (· = s) := by
    intro dirs
    induction dirs with
    | nil => exact triple_pure _ fun _ h => ⟨rfl, h⟩
    | cons d dirs ih =>
      refine (triple_isDir d s).bind fun found => triple_of_forall ?_
      rintro rfl
      rw [List.find?_cons]
      cases s.tree.hasDir d with
      | true => exact triple_pure _ fun _ h => ⟨rfl, h⟩
      | false => exact ih
  refine (hfind _).bind fun found => triple_of_forall ?_
  rintro rfl
  exact triple_pure _ fun _ h => ⟨rfl, h⟩

/-- What a root must be for the directories in it to be made: it is there, or its path goes only
down. -/
def IsRoot (t : FileTree) (root : Path) : Prop := ".." ∉ root.segments ∨ t.hasDir root

/-- The container is an entry of one of the routable directories. -/
theorem exists_parts (t : FileTree) (root : Path) : ∃ parts ∈ Layout.routableRoots,
    containerOf t root = ⟨root.anchor, root.segments ++ parts ++ [Layout.containerName]⟩ := by
  have hbase : ∀ d ∈ Layout.routableDirs root, ∃ parts ∈ Layout.routableRoots,
      d / Layout.containerName =
        ⟨root.anchor, root.segments ++ parts ++ [Layout.containerName]⟩ := by
    intro d hd
    obtain ⟨parts, hparts, rfl⟩ := List.mem_map.mp hd
    exact ⟨parts, hparts, Path.div_of_isSegment _ (by decide)⟩
  unfold containerOf Layout.containerIn
  cases hfound : (Layout.routableDirs root).find? t.hasDir with
  | none => exact hbase _ (by simp [Layout.routableDirs, Layout.routableRoots])
  | some d => exact hbase d (List.mem_of_find?_eq_some hfound)

theorem exists_containerOf {t : FileTree} {root : Path} (hroot : IsRoot t root) :
    ∃ dir, Makeable t ⟨root.anchor, dir⟩ ∧
      containerOf t root = ⟨root.anchor, dir ++ [Layout.containerName]⟩ := by
  obtain ⟨parts, hparts, hcontainer⟩ := exists_parts t root
  have hall : ∀ parts ∈ Layout.routableRoots, ".." ∉ parts := by decide
  exact ⟨_, ⟨root.segments, parts, rfl, hall parts hparts, hroot⟩, hcontainer⟩

/-- Beside the generated tree only old trees have come or gone. -/
def OthersKept (root : Path) (t t' : FileTree) : Prop :=
  Staging.SameBeside (containerOf t root) (containerPlace t root).dropLast t t'

/-- The generated tree is what it was. -/
def Kept (root : Path) (t t' : FileTree) : Prop :=
  t'.get? (containerPlace t root) = t.get? (containerPlace t root) ∧ OthersKept root t t'

theorem Kept.refl (root : Path) (t : FileTree) : Kept root t t := ⟨rfl, fun _ _ _ => rfl⟩

/-- The generated tree is the one that belongs to the wrappers. -/
def Renewed (root : Path) (settings : Settings) (ws : List Wrapper) (t t' : FileTree) : Prop :=
  t'.get? (containerPlace t root) = some (contents settings ws) ∧ OthersKept root t t'

theorem triple_replace_container {t : FileTree} {root : Path} (hroot : IsRoot t root)
    (settings : Settings) {ws : List Wrapper} (hws : ∀ w ∈ ws, w.IsPlaced) :
    Triple (fun s => s.tree = t)
      (Staging.replace (containerOf t root) (writeTree settings ws))
      (fun _ s => Renewed root settings ws t s.tree)
      (fun s => Staging.Tolerable (containerOf t root) s.failed → Kept root t s.tree) := by
  obtain ⟨dir, hdir, hcontainer⟩ := exists_containerOf hroot
  have hplace : containerPlace t root =
      (t.walk true maxLinks none [] dir).place ++ [Layout.containerName] := by
    rw [containerPlace, hcontainer]
    exact place_walk_snoc t maxLinks none [] dir (by decide)
  have hlast : (containerPlace t root).dropLast = (t.walk true maxLinks none [] dir).place := by
    rw [hplace, List.dropLast_concat]
  have hreplace : Triple _ (Staging.replace ⟨root.anchor, dir ++ [Layout.containerName]⟩
      (writeTree settings ws)) _ _ :=
    Staging.triple_replace (builds_writeTree hws) hdir (by decide) (by decide)
  rw [← hcontainer, ← hplace, ← hlast] at hreplace
  exact hreplace

theorem triple_fetch {fetch : Session AliasTable} (hquiet : Quiet fetch) (s : SessionState) :
    Triple (· = s) fetch (fun table s' => fetch s = .ok table s' ∧ s'.tree = s.tree)
      (fun s' => s'.tree = s.tree) := by
  intro s' hs'
  subst hs'
  have hq := hquiet s'.tree s'.failed s' ⟨rfl, rfl⟩
  cases hf : fetch s' with
  | ok table s₁ =>
    rw [hf] at hq
    exact ⟨rfl, hq.1⟩
  | error e s₁ =>
    rw [hf] at hq
    exact hq.1

/-- A run that succeeds leaves the whole tree that it planned and nothing else. One that fails leaves
what was there, unless more than one write or move failed or a tree could not be removed that no
earlier run left. -/
theorem triple_run (settings : Settings) {root : Path} {fetch : Session AliasTable}
    {sites : List CallSite} (hquiet : Quiet fetch)
    (hsites : ∀ c ∈ sites, '/' ∉ c.functionName.toList) {s : SessionState}
    (hroot : IsRoot s.tree root) :
    Triple (· = s) (run settings root fetch sites)
      (fun g s' => g.container = containerOf s.tree root ∧
        (∃ table s₁, fetch s = .ok table s₁ ∧
          Wrapper.plan sites g.container table = .ok g.wrappers) ∧
        Renewed root settings g.wrappers s.tree s'.tree)
      (fun s' => Staging.Tolerable (containerOf s.tree root) s'.failed →
        Kept root s.tree s'.tree) := by
  have hkept : ∀ s' : SessionState, s'.tree = s.tree →
      Staging.Tolerable (containerOf s.tree root) s'.failed → Kept root s.tree s'.tree := by
    rintro s' hs -
    rw [hs]
    exact .refl root s.tree
  refine ((triple_findContainer root s).weaken (fun _ h => h) (fun _ _ h => h)
    fun s' hs => hkept s' (congrArg SessionState.tree hs)).bind fun container => triple_of_forall ?_
  rintro rfl
  refine ((triple_fetch hquiet s).weaken (fun _ h => h) (fun _ _ h => h) hkept).bind fun table =>
    triple_of_eq fun s₁ ⟨hs₁, htree⟩ => ?_
  cases hplan : Wrapper.plan sites (containerOf s.tree root) table with
  | error c => exact triple_throw _ fun s' hs => hkept s' (hs ▸ htree)
  | ok ws =>
    have hws : ∀ w ∈ ws, w.IsPlaced := by
      intro w hw
      obtain ⟨c, hc, rfl⟩ := Wrapper.exists_site_of_mem_plan hplan hw
      exact Wrapper.isPlaced_ofSite _ _ (hsites c hc)
    refine ((triple_replace_container hroot settings hws).weaken ?_ (fun _ _ h => h)
      fun _ h => h).bind fun _ => ?_
    · rintro _ rfl
      exact htree
    refine Triple.bind (Q := fun _ s' => Renewed root settings ws s.tree s'.tree) (fun _ h => h)
      fun _ => triple_pure _ fun s' h => ⟨rfl, ⟨table, s₁, hs₁, hplan⟩, h⟩

/-! ## Runs one after the other -/

/-- What a run is asked for, with the changes that are made to fail in it. -/
structure Request where
  settings : Settings
  fetch : Session AliasTable
  sites : List CallSite
  fails : List Change → Change → Bool
  quiet_fetch : Quiet fetch
  no_slash : ∀ c ∈ sites, '/' ∉ c.functionName.toList

/-- A run: what it was asked for, and the state in which it started. -/
structure Round where
  request : Request
  start : SessionState

def Round.result (root : Path) (r : Round) : EStateM.Result Failure SessionState Generation :=
  run r.request.settings root r.request.fetch r.request.sites r.start

def Round.stop (root : Path) (r : Round) : SessionState :=
  match r.result root with
  | .ok _ s => s
  | .error _ s => s

/-- The runs on one project, each on the files that the one before left, however that ended. -/
def rounds (root : Path) (s : SessionState) : List Request → List Round
  | [] => []
  | r :: rest =>
    let round : Round := ⟨r, { tree := s.tree, aliases := s.aliases, fails := r.fails }⟩
    round :: rounds root (round.stop root) rest

/-- After a run that succeeded the container is the whole tree that was planned from its sites, and
after one that failed, in one step at most, it is what it was. Beside it there is nothing new but old
trees. -/
def Round.AllOrNothing (root : Path) (r : Round) : Prop :=
  match r.result root with
  | .ok g s =>
    g.container = containerOf r.start.tree root ∧
    (∃ table s₁, r.request.fetch r.start = .ok table s₁ ∧
      Wrapper.plan r.request.sites g.container table = .ok g.wrappers) ∧
    Renewed root r.request.settings g.wrappers r.start.tree s.tree
  | .error _ s =>
    Staging.Tolerable (containerOf r.start.tree root) s.failed → Kept root r.start.tree s.tree

theorem Round.allOrNothing {root : Path} {r : Round} (hroot : IsRoot r.start.tree root) :
    r.AllOrNothing root := by
  have hrun :=
    triple_run r.request.settings r.request.quiet_fetch r.request.no_slash hroot r.start rfl
  unfold AllOrNothing result
  cases h : run r.request.settings root r.request.fetch r.request.sites r.start with
  | ok g s =>
    rw [h] at hrun
    exact hrun
  | error e s =>
    rw [h] at hrun
    exact hrun

/-- Each run of a sequence replaces the container as a whole or leaves it, whatever the runs before it
left. -/
theorem all_or_nothing (root : Path) (s : SessionState) (requests : List Request) :
    ∀ r ∈ rounds root s requests, IsRoot r.start.tree root → r.AllOrNothing root := by
  induction requests generalizing s with
  | nil =>
    intro r hr
    cases hr
  | cons request rest ih =>
    intro r hr hroot
    rcases List.mem_cons.mp hr with rfl | hr
    · exact Round.allOrNothing hroot
    · exact ih _ r hr hroot

/-- A run that fails when the new tree is to be moved into the place of the old one. -/
theorem all_or_nothing_of_failed_move :
    let root : Path := ⟨.root, ["p"]⟩
    let app (name : String) : Path := ⟨.root, ["p", "app", name]⟩
    let s : SessionState := { tree := .dir [("p", .dir [("app", .dir [("cron-wrappers", .empty)])])] }
    let move : Change := .rename (app ".cron-wrappers-00000000") (app "cron-wrappers")
    let request : Request :=
      { settings := {}
        fetch := AliasCache.fetch root
        sites := [⟨"job", "./jobs", app "page.ts", none⟩]
        fails := fun _ c => c = move
        quiet_fetch := AliasCache.quiet_fetch root
        no_slash := by decide }
    let r : Round := ⟨request, { tree := s.tree, fails := request.fails }⟩
    r ∈ rounds root s [request] ∧ IsRoot r.start.tree root ∧ (r.stop root).failed = [move] ∧
      r.AllOrNothing root := by
  intro root app s move request r
  have hmem : r ∈ rounds root s [request] := List.mem_cons_self
  have hroot : IsRoot r.start.tree root := Or.inl (by decide)
  exact ⟨hmem, hroot, by decide +kernel, all_or_nothing root s [request] r hmem hroot⟩

/-- A first run, in which all goes well. -/
example :
    let root : Path := ⟨.root, ["p"]⟩
    let request : Request :=
      { settings := {}
        fetch := AliasTable.load root
        sites := [⟨"job", "./jobs", ⟨.root, ["p", "page.ts"]⟩, none⟩]
        fails := fun _ _ => false
        quiet_fetch := AliasTable.quiet_load root
        no_slash := by decide }
    ((Round.mk request {}).stop root).tree.get? ["p", "src", "app", "cron-wrappers"] |>.map
        (fun t => t.entries.map (·.1)) |>.isEqSome
      [".gitignore", "trigger-job", "manifest.json", "route.ts"] := by decide +kernel

end CronWrap.Generation
