import CronWrap.Proofs.Alias.Config
import CronWrap.Proofs.Files.Shows

/-! The alias table that is loaded from a tree of files, whatever links there are in it, and when none
is. -/
namespace CronWrap

open FileTree Session Workspace
open Text (Bytes)

namespace AliasConfig

/-- The configuration in the file to which a path leads. -/
def found? (t : FileTree) (p : Path) : Option AliasConfig :=
  match t.contentAt p with
  | .ok (some content) => ofBytes? content
  | _ => none

/-- The configuration that counts: that of the first file that has one. -/
def inEffect? (t : FileTree) (root : Path) : Option AliasConfig :=
  aliasConfigNames.findSome? fun name => found? t (root / name)

theorem exists_parentPath_iff {root : Path} {extended : String} :
    (∃ p, parentPath root extended = .ok p) ↔ (root / extended).normalize.name ≠ "" := by
  simp only [parentPath]
  split
  · rename_i hsuffix
    refine iff_of_true ⟨_, rfl⟩ fun hname => ?_
    rw [Path.suffix, hname] at hsuffix
    exact absurd hsuffix (by decide)
  · unfold Path.withName
    split
    · exact iff_of_false (by simp) (by simpa)
    · exact iff_of_true ⟨_, rfl⟩ ‹_›

/-- Only a path without a name, as that of the root is, leads to no configuration to extend. -/
theorem parentPath_eq_error {root : Path} {extended : String} {e : PathError}
    (h : parentPath root extended = .error e) : e = .emptyName (root / extended).normalize := by
  simp only [parentPath] at h
  split at h
  · cases h
  · unfold Path.withName at h
    split at h
    · cases h
      rfl
    · cases h

end AliasConfig

namespace AliasTable

variable {t : FileTree} {root : Path}

/-- What a configuration extends, if that can be read. -/
def extendedIn (t : FileTree) (root : Path) (config : AliasConfig) :
    Except Failure (Option (Path × AliasConfig)) :=
  match config.parent with
  | none => .ok none
  | some extended =>
    match AliasConfig.parentPath root extended with
    | .error e => .error (.path e)
    | .ok p =>
      match t.contentAt p with
      | .error cause => .error (.file ⟨cause, p⟩)
      | .ok _ => .ok ((AliasConfig.found? t p).map (p, ·))

/-- The table from one of the named files, or what is loaded otherwise if it has no configuration. -/
def loadedFrom (t : FileTree) (root : Path) (name : String) (otherwise : Except Failure AliasTable) :
    Except Failure AliasTable :=
  match t.contentAt (root / name) with
  | .error cause => .error (.file ⟨cause, root / name⟩)
  | .ok _ =>
    match AliasConfig.found? t (root / name) with
    | none => otherwise
    | some config => (extendedIn t root config).map (ofConfig root config)

/-- What loading the table of a project comes to where the tree is this one. -/
def loaded (t : FileTree) (root : Path) : Except Failure AliasTable :=
  aliasConfigNames.foldr (loadedFrom t root) (.ok ⟨root.normalize, []⟩)

theorem sees_readExtended (t : FileTree) (root : Path) (config : AliasConfig) :
    Sees t (readExtended root config : Session _) (extendedIn t root config) := by
  unfold readExtended extendedIn
  cases config.parent with
  | none => exact sees_pure t _
  | some extended =>
    dsimp only
    cases AliasConfig.parentPath root extended with
    | error e => exact sees_throw t _
    | ok p =>
      dsimp only
      cases h : t.contentAt p with
      | error cause => exact (sees_isFile_of_error h).bind_error
      | ok found =>
        refine (sees_isFile_of_contentAt h).bind ?_
        rw [AliasConfig.found?, h]
        cases found with
        | none => exact sees_pure t _
        | some content =>
          exact (sees_readConfig_of_readText (sees_readText_of_contentAt h)).bind (sees_pure t _)

/-- What is done with the configuration that a file has. -/
theorem sees_found (t : FileTree) (root : Path) (config : AliasConfig) (name : String) :
    Sees t (do
      let table := ofConfig root config (← readExtended root config)
      note (aliasNote s!"Loaded {table.entries.length} path alias(es) from {name}")
      return table : Session AliasTable)
      ((extendedIn t root config).map (ofConfig root config)) := by
  have hextended := sees_readExtended t root config
  cases hin : extendedIn t root config with
  | error e =>
    rw [hin] at hextended
    exact hextended.bind_error
  | ok extended =>
    rw [hin] at hextended
    exact hextended.bind ((sees_note t _).bind (sees_pure t _))

theorem sees_load (t : FileTree) (root : Path) :
    Sees t (load root : Session _) (loaded t root) := by
  unfold load loaded
  induction aliasConfigNames with
  | nil => exact sees_pure t _
  | cons name rest ih =>
    rw [List.foldr_cons]
    generalize rest.foldr (loadedFrom t root) (.ok ⟨root.normalize, []⟩) = otherwise at ih ⊢
    unfold loadedFrom
    cases h : t.contentAt (root / name) with
    | error cause => exact (sees_isFile_of_error h).bind_error
    | ok found =>
      refine (sees_isFile_of_contentAt h).bind ?_
      rw [AliasConfig.found?, h]
      cases found with
      | none => exact ih
      | some content =>
        have hread := sees_readConfig_of_readText (sees_readText_of_contentAt h)
        refine hread.bind ?_
        dsimp only
        cases AliasConfig.ofBytes? content with
        | none => exact ih
        | some config => exact sees_found t root config name

end AliasTable

end CronWrap
