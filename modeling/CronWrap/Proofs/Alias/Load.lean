import CronWrap.Proofs.Files.Look

/-! Getting the alias table of a project only looks at files. -/
namespace CronWrap

open Session Workspace

theorem Session.Looks.quiet {α : Type} {x : Session α} (h : Looks x) : Quiet x := by
  intro t failed s hs
  obtain ⟨r, hr, -⟩ := h t
  obtain ⟨log, hx⟩ := hr s hs.1
  rw [hx]
  cases r <;> exact hs

namespace AliasTable

variable {t t' : FileTree}

theorem steady_unreadable {α : Type} (p : Path) (reason : String) :
    Steady t t' (readConfig.unreadable p reason : Session (Option α)) :=
  (steady_note _).bind fun _ _ => steady_pure _

theorem steady_readConfig {p : Path} (h : Steady t t' (readText p : Session _)) :
    Steady t t' (readConfig p : Session (Option AliasConfig)) := by
  refine Steady.bind (Steady.handled (h.bind fun _ _ => steady_pure _) fun e => ?_) fun text _ => ?_
  · split
    · exact steady_unreadable p _
    · exact steady_unreadable p _
    · exact steady_throw _
  · split
    · exact steady_pure _
    · exact steady_pure _
    · exact (steady_note _).bind fun _ _ => steady_pure _
    · exact steady_unreadable p _

theorem steady_readExtended {root : Path} {config : AliasConfig}
    (h : ∀ extended ∈ config.parent, ∀ p, AliasConfig.parentPath root extended = .ok p →
      SameFile t t' p) :
    Steady t t' (readExtended root config : Session (Option (Path × AliasConfig))) := by
  unfold readExtended
  split
  · exact steady_pure _
  · rename_i extended hparent
    split
    · exact steady_throw _
    · rename_i p hp
      exact (h extended hparent p hp).steady_bind
        (fun hread => (steady_readConfig hread).bind fun _ _ => steady_pure _) (steady_pure _)

/-- What is done with a configuration that was found. -/
theorem steady_found {root : Path} {config : AliasConfig} (name : String)
    (h : Steady t t' (readExtended root config : Session (Option (Path × AliasConfig)))) :
    Steady t t' (do
      let table := ofConfig root config (← readExtended root config)
      note (aliasNote s!"Loaded {table.entries.length} path alias(es) from {name}")
      return table : Session AliasTable) :=
  h.bind fun _ _ => (steady_note _).bind fun _ _ => steady_pure _

theorem looks_loadFrom (root : Path) (names : List String) :
    Looks (loadFrom root names : Session AliasTable) := by
  intro t
  induction names with
  | nil => exact steady_pure _
  | cons name rest ih =>
    refine (sameFile_self t _).steady_bind (fun hread => ?_) ih
    refine (steady_readConfig hread).bind fun config _ => ?_
    cases config with
    | none => exact ih
    | some config =>
      exact steady_found name (steady_readExtended fun _ _ p _ => sameFile_self t p)

theorem looks_load (root : Path) : Looks (load root : Session AliasTable) := looks_loadFrom root _

theorem quiet_load (root : Path) : Quiet (load root : Session AliasTable) := (looks_load root).quiet

end AliasTable

namespace AliasCache

/-- Nor does a table that is held for reuse change a file. -/
theorem quiet_fetch (root : Path) : Quiet (fetch root : Session AliasTable) := by
  have hreload : Quiet (fetch.reload root : Session AliasTable) :=
    (AliasTable.quiet_load root).bind fun _ => Quiet.bind (fun _ _ _ h => h) fun _ => quiet_pure _
  refine Quiet.bind (fun _ _ _ h => h) fun held => ?_
  split
  · split
    · exact quiet_pure _
    · exact hreload
  · exact hreload

end AliasCache

end CronWrap
