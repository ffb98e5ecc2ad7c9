import CronWrap.Proofs.Alias.Loaded
import CronWrap.Proofs.Files.Exact
import Mathlib.Data.List.Induction

/-! The alias table that is held for reuse, in whatever order it is asked for, let go and overtaken by
changes of the files. -/
namespace CronWrap

open FileTree Session Workspace

/-! ## The files that a table depends on -/

namespace AliasConfig

/-- The files that are read for the table of a project: those that may configure it, and what the
configuration that counts extends. -/
def files (t : FileTree) (root : Path) : List Path :=
  aliasConfigNames.map (root / ·) ++
    (((inEffect? t root).bind (·.parent)).bind fun extended =>
      (parentPath root extended).toOption).toList

theorem found?_congr {t t' : FileTree} {p : Path} (h : t'.contentAt p = t.contentAt p) :
    found? t' p = found? t p := by
  rw [found?, found?, h]

end AliasConfig

namespace AliasTable

variable {t t' : FileTree} {root : Path}

theorem extendedIn_congr {config : AliasConfig}
    (h : ∀ extended ∈ config.parent, ∀ p, AliasConfig.parentPath root extended = .ok p →
      t'.contentAt p = t.contentAt p) :
    extendedIn t' root config = extendedIn t root config := by
  unfold extendedIn
  cases hparent : config.parent with
  | none => rfl
  | some extended =>
    dsimp only
    cases hp : AliasConfig.parentPath root extended with
    | error e => rfl
    | ok p =>
      have hsame := h extended hparent p hp
      dsimp only
      rw [AliasConfig.found?_congr hsame, hsame]

theorem loadedFrom_congr {name : String} {otherwise otherwise' : Except Failure AliasTable}
    (hname : t'.contentAt (root / name) = t.contentAt (root / name))
    (hnone : AliasConfig.found? t (root / name) = none → otherwise' = otherwise)
    (hsome : ∀ config, AliasConfig.found? t (root / name) = some config →
      extendedIn t' root config = extendedIn t root config) :
    loadedFrom t' root name otherwise' = loadedFrom t root name otherwise := by
  unfold loadedFrom
  rw [hname, AliasConfig.found?_congr hname]
  cases t.contentAt (root / name) with
  | error cause => rfl
  | ok found =>
    cases hfound : AliasConfig.found? t (root / name) with
    | none => exact hnone hfound
    | some config => exact congrArg (Except.map _) (hsome config hfound)

/-- The table of a project depends only on the contents of the files that are read for it. -/
theorem loaded_congr (h : ∀ p ∈ AliasConfig.files t root, t'.contentAt p = t.contentAt p) :
    loaded t' root = loaded t root := by
  have hnames : ∀ name ∈ aliasConfigNames, t'.contentAt (root / name) = t.contentAt (root / name) :=
    fun name hname => h _ (List.mem_append_left _ (List.mem_map_of_mem hname))
  have hextended : ∀ config ∈ AliasConfig.inEffect? t root, ∀ extended ∈ config.parent, ∀ p,
      AliasConfig.parentPath root extended = .ok p → t'.contentAt p = t.contentAt p := by
    rintro config hconfig extended hextended p hp
    refine h p (List.mem_append_right _ ?_)
    rw [Option.mem_def.mp hconfig, Option.bind_some, Option.mem_def.mp hextended, Option.bind_some,
      hp]
    exact Option.mem_toList.mpr rfl
  unfold AliasConfig.inEffect? at hextended
  unfold loaded
  generalize aliasConfigNames = names at hnames hextended
  induction names with
  | nil => rfl
  | cons name rest ih =>
    obtain ⟨hname, hrest⟩ := List.forall_mem_cons.mp hnames
    rw [List.foldr_cons, List.foldr_cons]
    refine loadedFrom_congr hname (fun hnone => ih hrest ?_) fun config hconfig => ?_
    · rwa [List.findSome?_cons, hnone] at hextended
    · refine extendedIn_congr (hextended config ?_)
      rw [List.findSome?_cons, hconfig]
      rfl

end AliasTable

namespace AliasCache

variable {root : Path} {s s' : SessionState} {table : AliasTable}

/-! ## One request -/

/-- Nothing is held for the project. -/
def Misses (root : Path) (s : SessionState) : Prop := s.aliases.map (·.1) ≠ some root

instance (root : Path) (s : SessionState) : Decidable (Misses root s) := instDecidableNot

theorem misses_iff : Misses root s ↔
    s.aliases = none ∨ ∃ held table, s.aliases = some (held, table) ∧ held ≠ root := by
  rw [Misses]
  cases s.aliases with
  | none => simp
  | some held =>
    obtain ⟨project, table⟩ := held
    simp

theorem exists_held (h : ¬ Misses root s) : ∃ table, s.aliases = some (root, table) := by
  rw [Misses, not_not, Option.map_eq_some_iff] at h
  obtain ⟨⟨held, table⟩, haliases, rfl⟩ := h
  exact ⟨table, haliases⟩

theorem not_misses (h : s.aliases = some (root, table)) : ¬ Misses root s := by
  simp [Misses, h]

theorem fetch_of_held (h : s.aliases = some (root, table)) :
    (fetch root : Session _) s = .ok table s := by
  have hget : (getThe AliasCache : Session AliasCache) s = .ok s.aliases s := rfl
  rw [fetch, bind_of_eq_ok hget, h]
  dsimp only
  rw [if_pos rfl]
  rfl

/-- A table that is not held is loaded, and held unless that fails. -/
theorem fetch_of_misses (h : Misses root s) :
    (fetch root : Session _) s = match (AliasTable.load root : Session _) s with
      | .ok table s' => .ok table { s' with aliases := some (root, table) }
      | .error e s' => .error e s' := by
  have hget : (getThe AliasCache : Session AliasCache) s = .ok s.aliases s := rfl
  have hreload : (fetch root : Session _) s = (fetch.reload root : Session _) s := by
    rw [fetch, bind_of_eq_ok hget]
    rcases misses_iff.mp h with hnone | ⟨held, table, hsome, hne⟩
    · rw [hnone]
    · rw [hsome]
      dsimp only
      rw [if_neg hne]
  rw [hreload, fetch.reload]
  change EStateM.bind _ _ s = _
  rw [EStateM.bind]
  cases (AliasTable.load root : Session _) s <;> rfl

/-- The load that is done if nothing is held leaves the rest as it is. -/
theorem exists_fetch_of_misses (h : Misses root s) :
    ∃ log, (fetch root : Session _) s = match AliasTable.loaded s.tree root with
      | .ok table => .ok table { s with log := log, aliases := some (root, table) }
      | .error e => .error e { s with log := log } := by
  obtain ⟨log, hload⟩ := AliasTable.sees_load s.tree root s rfl
  refine ⟨log, ?_⟩
  rw [fetch_of_misses h, hload]
  cases AliasTable.loaded s.tree root <;> rfl

/-- A table that was got is held. -/
theorem held_of_fetch (h : (fetch root : Session _) s = .ok table s') :
    s'.aliases = some (root, table) ∧ s'.tree = s.tree ∧ s'.fails = s.fails := by
  by_cases hmiss : Misses root s
  · obtain ⟨log, hfetch⟩ := exists_fetch_of_misses hmiss
    rw [hfetch] at h
    cases hloaded : AliasTable.loaded s.tree root with
    | error e => simp [hloaded] at h
    | ok other =>
      simp only [hloaded] at h
      cases h
      exact ⟨rfl, rfl, rfl⟩
  · obtain ⟨held, haliases⟩ := exists_held hmiss
    rw [fetch_of_held haliases] at h
    cases h
    exact ⟨haliases, rfl, rfl⟩

/-- A request that fails changes nothing that is held. -/
theorem aliases_of_fetch_error {e : Failure} (h : (fetch root : Session _) s = .error e s') :
    s'.aliases = s.aliases := by
  by_cases hmiss : Misses root s
  · obtain ⟨log, hfetch⟩ := exists_fetch_of_misses hmiss
    rw [hfetch] at h
    cases hloaded : AliasTable.loaded s.tree root with
    | error e =>
      simp only [hloaded] at h
      cases h
      rfl
    | ok other => simp [hloaded] at h
  · obtain ⟨held, haliases⟩ := exists_held hmiss
    rw [fetch_of_held haliases] at h
    cases h

/-! ## Histories -/

/-- What may happen to the table that is held and to the files that it comes from. -/
inductive Event
  | get (root : Path)
  | invalidate
  | edit (tree : FileTree)

/-- The state in which an action ends, whether it fails or not. -/
def endOf {α : Type} (x : Session α) (s : SessionState) : SessionState :=
  match x s with
  | .ok _ s' => s'
  | .error _ s' => s'

def step (s : SessionState) : Event → SessionState
  | .get root => endOf (fetch root) s
  | .invalidate => endOf invalidate s
  | .edit tree => { s with tree := tree }

/-- The state after a history. -/
def after (s : SessionState) (events : List Event) : SessionState := events.foldl step s

theorem after_concat (s : SessionState) (events : List Event) (e : Event) :
    after s (events ++ [e]) = step (after s events) e := by
  rw [after, List.foldl_append]
  rfl

/-- What a request does to what is held. -/
theorem aliases_step_get (root : Path) (s : SessionState) :
    (step s (.get root)).aliases = if Misses root s then
      match AliasTable.loaded s.tree root with
      | .ok table => some (root, table)
      | .error _ => s.aliases
    else s.aliases := by
  by_cases hmiss : Misses root s
  · obtain ⟨log, hfetch⟩ := exists_fetch_of_misses hmiss
    rw [if_pos hmiss, step, endOf, hfetch]
    cases AliasTable.loaded s.tree root <;> rfl
  · obtain ⟨table, haliases⟩ := exists_held hmiss
    rw [if_neg hmiss, step, endOf, fetch_of_held haliases]

/-- The last request for the table of a project that had to load it is the one that follows `before`. -/
def LastMiss (s : SessionState) (root : Path) (events before : List Event) : Prop :=
  ∃ since, events = before ++ .get root :: since ∧ Misses root (after s before) ∧
    ∀ earlier, earlier ++ [.get root] <+: since →
      ¬ Misses root (after s (before ++ .get root :: earlier))

theorem lastMiss_self {events : List Event} (h : Misses root (after s events)) :
    LastMiss s root (events ++ [.get root]) events :=
  ⟨[], rfl, h, fun earlier hearlier => by simp at hearlier⟩

/-- It stays the last one unless a later request has to load the table again. -/
theorem LastMiss.concat {events before : List Event} (h : LastMiss s root events before) {e : Event}
    (he : e = .get root → ¬ Misses root (after s events)) :
    LastMiss s root (events ++ [e]) before := by
  obtain ⟨since, rfl, hmiss, hsince⟩ := h
  refine ⟨since ++ [e], by simp, hmiss, fun earlier hearlier => ?_⟩
  rcases List.prefix_concat_iff.mp hearlier with heq | hprefix
  · obtain ⟨rfl, hlast⟩ := List.append_inj' heq rfl
    exact he (List.singleton_injective hlast).symm
  · exact hsince earlier hprefix

/-- What is held for a project was loaded for it when it was last missing. -/
theorem exists_lastMiss_of_held (hs : s.aliases = none) (events : List Event)
    (h : (after s events).aliases = some (root, table)) :
    ∃ before, LastMiss s root events before ∧
      AliasTable.loaded (after s before).tree root = .ok table := by
  induction events using List.reverseRecOn with
  | nil =>
    rw [after, List.foldl_nil, hs] at h
    cases h
  | append_singleton events e ih =>
    rw [after_concat] at h
    cases e with
    | edit tree =>
      obtain ⟨before, hlast, hloaded⟩ := ih h
      exact ⟨before, hlast.concat (by simp), hloaded⟩
    | invalidate => cases h
    | get asked =>
      rw [aliases_step_get] at h
      by_cases hmiss : Misses asked (after s events)
      · rw [if_pos hmiss] at h
        cases hload : AliasTable.loaded (after s events).tree asked with
        | ok loaded =>
          rw [hload] at h
          cases h
          exact ⟨events, lastMiss_self hmiss, hload⟩
        | error e =>
          rw [hload] at h
          obtain ⟨before, hlast, hloaded⟩ := ih h
          refine ⟨before, hlast.concat fun heq => ?_, hloaded⟩
          cases heq
          exact absurd hmiss (not_misses h)
      · rw [if_neg hmiss] at h
        obtain ⟨before, hlast, hloaded⟩ := ih h
        refine ⟨before, hlast.concat fun heq => ?_, hloaded⟩
        exact not_misses h

/-- No request since the table was last let go was answered. -/
def NoneAnswered (s : SessionState) (events : List Event) : Prop :=
  ∀ before root since, events = before ++ .get root :: since → .invalidate ∉ since →
    ∀ table s', (fetch root : Session _) (after s before) ≠ .ok table s'

theorem noneAnswered_concat_iff {events : List Event} {e : Event} (he : e ≠ .invalidate) :
    NoneAnswered s (events ++ [e]) ↔ NoneAnswered s events ∧
      ∀ root, e = .get root → ∀ table s', (fetch root : Session _) (after s events) ≠ .ok table s' := by
  constructor
  · refine fun h => ⟨fun before root since hevents hsince => ?_, fun root hroot => ?_⟩
    · refine h before root (since ++ [e]) (by simp [hevents]) ?_
      simpa using ⟨hsince, he.symm⟩
    · exact h events root [] (by rw [hroot]) (by simp)
  · rintro ⟨hevents, hlast⟩ before root since heq hsince
    rcases List.eq_nil_or_concat since with rfl | ⟨since, last, rfl⟩
    · obtain ⟨rfl, hget⟩ := List.append_inj' heq rfl
      exact hlast root (List.singleton_injective hget)
    · have heq' : events ++ [e] = (before ++ .get root :: since) ++ [last] := by simpa using heq
      obtain ⟨rfl, -⟩ := List.append_inj' heq' rfl
      exact hevents before root since rfl fun hmem => hsince (by simp [hmem])

/-- Nothing is held at the start, and as long as no request was answered since the table was let go. -/
theorem aliases_eq_none_iff (hs : s.aliases = none) (events : List Event) :
    (after s events).aliases = none ↔ NoneAnswered s events := by
  induction events using List.reverseRecOn with
  | nil => exact iff_of_true hs fun before root since h => by simp at h
  | append_singleton events e ih =>
    rw [after_concat]
    cases e with
    | invalidate =>
      refine iff_of_true rfl fun before root since heq hsince => ?_
      rcases List.eq_nil_or_concat since with rfl | ⟨since, last, rfl⟩
      · cases List.singleton_injective (List.append_inj' heq rfl).2
      · have heq' : events ++ [.invalidate] = (before ++ .get root :: since) ++ [last] := by
          simpa using heq
        cases List.singleton_injective (List.append_inj' heq' rfl).2
        simp at hsince
    | edit tree =>
      rw [noneAnswered_concat_iff (by simp)]
      exact ih.trans (and_iff_left fun root h => by cases h).symm
    | get root =>
      rw [noneAnswered_concat_iff (by simp), ← ih, aliases_step_get]
      by_cases hmiss : Misses root (after s events)
      · obtain ⟨log, hfetch⟩ := exists_fetch_of_misses hmiss
        rw [if_pos hmiss]
        cases hload : AliasTable.loaded (after s events).tree root with
        | ok table => simp [hfetch, hload]
        | error e => simp [hfetch, hload]
      · obtain ⟨table, haliases⟩ := exists_held hmiss
        rw [if_neg hmiss, haliases]
        simp

/-- The load by which the last miss was met, if the request comes to an end. -/
theorem exists_load_of_lastMiss {before : List Event}
    (h : AliasTable.loaded (after s before).tree root = .ok table) :
    (∃ s₁, (AliasTable.load root : Session _) (after s before) = .ok table s₁) ∧
      ∀ u : SessionState, (∀ p ∈ AliasConfig.files (after s before).tree root,
          u.tree.contentAt p = (after s before).tree.contentAt p) →
        ∃ s₂, (AliasTable.load root : Session _) u = .ok table s₂ := by
  have hload : ∀ u : SessionState, AliasTable.loaded u.tree root = .ok table →
      ∃ s₁, (AliasTable.load root : Session _) u = .ok table s₁ := by
    intro u hu
    obtain ⟨log, hload⟩ := (hu ▸ AliasTable.sees_load u.tree root).eq_ok rfl
    exact ⟨_, hload⟩
  exact ⟨hload _ h, fun u hu => hload u ((AliasTable.loaded_congr hu).trans h)⟩

/-- After any history of requests, invalidations and changes of the files: a table is missing for a
project exactly if none is held, for no request was answered since the start or the last invalidation,
or it is that of another project. Then it is loaded, and what is held is replaced only if that comes to
an end. A request that is answered gives what could be loaded when the table was last missing, which is
what can be loaded now if the files that are read for it have not changed. -/
theorem fetch_after (hs : s.aliases = none) (events : List Event) (root : Path) :
    ((after s events).aliases = none ↔ NoneAnswered s events) ∧
    (Misses root (after s events) ↔ (after s events).aliases = none ∨
      ∃ held table, (after s events).aliases = some (held, table) ∧ held ≠ root) ∧
    (Misses root (after s events) → (fetch root : Session _) (after s events) =
      match (AliasTable.load root : Session _) (after s events) with
      | .ok table s' => .ok table { s' with aliases := some (root, table) }
      | .error e s' => .error e s') ∧
    (¬ Misses root (after s events) → ∃ table, (after s events).aliases = some (root, table) ∧
      (fetch root : Session _) (after s events) = .ok table (after s events)) ∧
    (∀ table s', (fetch root : Session _) (after s events) = .ok table s' →
      ∃ before, LastMiss s root (events ++ [.get root]) before ∧
        (∃ s₁, (AliasTable.load root : Session _) (after s before) = .ok table s₁) ∧
        ((∀ p ∈ AliasConfig.files (after s before).tree root,
            (after s events).tree.contentAt p = (after s before).tree.contentAt p) →
          ∃ s₂, (AliasTable.load root : Session _) (after s events) = .ok table s₂)) ∧
    ∀ e s', (fetch root : Session _) (after s events) = .error e s' →
      s'.aliases = (after s events).aliases := by
  refine ⟨aliases_eq_none_iff hs events, misses_iff, fetch_of_misses, fun hhit => ?_,
    fun table s' hfetch => ?_, fun e s' => aliases_of_fetch_error⟩
  · obtain ⟨table, haliases⟩ := exists_held hhit
    exact ⟨table, haliases, fetch_of_held haliases⟩
  · have hend : (after s (events ++ [.get root])).aliases = some (root, table) := by
      rw [after_concat, step, endOf, hfetch]
      exact (held_of_fetch hfetch).1
    obtain ⟨before, hlast, hloaded⟩ := exists_lastMiss_of_held hs _ hend
    obtain ⟨hthen, hnow⟩ := exists_load_of_lastMiss hloaded
    exact ⟨before, hlast, hthen, hnow _⟩

/-- A table is asked for, its configuration is taken away, and a table of another project cannot be
loaded: the first one is still held. -/
theorem fetch_after_of_edit :
    let root : Path := ⟨.root, ["p"]⟩
    let other : Path := ⟨.root, ["q"]⟩
    let configuredBy (text : String) : FileTree :=
      .dir [("tsconfig.json", .file (Text.encodeUtf8 text.toList))]
    let plain := configuredBy "\x7b\"compilerOptions\": \x7b\"baseUrl\": \"./src\"\x7d\x7d"
    let broken := configuredBy "\x7b\"extends\": \"/\"\x7d"
    let s : SessionState := { tree := .dir [("p", plain), ("q", broken)] }
    let events : List Event := [.get root, .edit (.dir [("q", broken)]), .get other]
    s.aliases = none ∧ ∃ table s', (fetch root : Session _) (after s events) = .ok table s' ∧
      table.base = ⟨.root, ["p", "src"]⟩ ∧
      ∃ before, LastMiss s root (events ++ [.get root]) before ∧
        ∃ s₁, (AliasTable.load root : Session _) (after s before) = .ok table s₁ := by
  intro root other configuredBy plain broken s events
  have hpasses : Passes (fetch root) (after s events) fun table _ =>
      table.base = ⟨.root, ["p", "src"]⟩ := by decide +kernel
  obtain ⟨table, s', hfetch, hbase⟩ := exists_eq_ok_of_passes hpasses
  obtain ⟨-, -, -, -, hanswered, -⟩ := fetch_after (s := s) rfl events root
  obtain ⟨before, hlast, hload, -⟩ := hanswered table s' hfetch
  exact ⟨rfl, table, s', hfetch, of_decide_eq_true hbase, before, hlast, hload⟩

end AliasCache

end CronWrap
