import CronWrap.Proofs.Alias.Loaded
import CronWrap.Proofs.Files.Exact

/-! When an alias table can be loaded, and what goes wrong where it cannot. -/
namespace CronWrap

open FileTree Session Workspace

variable {t : FileTree} {root : Path}

/-- The named files of a project at which a load looks: up to the first that has a configuration. -/
def AliasConfig.tried (t : FileTree) (root : Path) : List String → List String
  | [] => []
  | name :: rest => name :: if (found? t (root / name)).isSome then [] else tried t root rest

theorem AliasConfig.mem_of_mem_tried {names : List String} {name : String}
    (h : name ∈ tried t root names) : name ∈ names := by
  induction names with
  | nil => exact h
  | cons first rest ih =>
    rw [tried, List.mem_cons] at h
    refine List.mem_cons.mpr (h.imp_right fun hrest => ?_)
    split at hrest
    · cases hrest
    · exact ih hrest

namespace AliasTable

/-! ## What a configuration extends -/

theorem exists_extendedIn_iff {config : AliasConfig} :
    (∃ extended, extendedIn t root config = .ok extended) ↔ ∀ extended ∈ config.parent,
      (root / extended).normalize.name ≠ "" ∧
        ∀ p, AliasConfig.parentPath root extended = .ok p → t.Shows p := by
  unfold extendedIn
  cases config.parent with
  | none => simp
  | some extended =>
    simp only [Option.mem_some_iff, forall_eq', ← AliasConfig.exists_parentPath_iff]
    cases AliasConfig.parentPath root extended with
    | error e => simp
    | ok p =>
      cases h : t.contentAt p with
      | error cause => simp [Shows, h]
      | ok found => simp [Shows, h]

/-- The path to extend has no name, or a look at it is a look at too long a path. -/
theorem extendedIn_eq_error {config : AliasConfig} {e : Failure}
    (h : extendedIn t root config = .error e) :
    (∃ extended ∈ config.parent, e = .path (.emptyName (root / extended).normalize)) ∨
      ∃ p, e = tooLong p := by
  unfold extendedIn at h
  cases hparent : config.parent with
  | none => simp [hparent] at h
  | some extended =>
    simp only [hparent] at h
    cases hp : AliasConfig.parentPath root extended with
    | error cause =>
      simp only [hp, Except.error.injEq] at h
      subst h
      exact .inl ⟨extended, rfl, congrArg _ (AliasConfig.parentPath_eq_error hp)⟩
    | ok p =>
      simp only [hp] at h
      cases hcontent : t.contentAt p with
      | ok found => simp [hcontent] at h
      | error cause =>
        simp only [hcontent, Except.error.injEq] at h
        subst h
        exact .inr ⟨p, by rw [contentAt_eq_error hcontent, tooLong]⟩

/-! ## The table -/

theorem exists_loaded_iff : (∃ table, loaded t root = .ok table) ↔
    (∀ name ∈ AliasConfig.tried t root aliasConfigNames, t.Shows (root / name)) ∧
    ∀ config ∈ AliasConfig.inEffect? t root, ∃ extended, extendedIn t root config = .ok extended := by
  unfold loaded AliasConfig.inEffect?
  induction aliasConfigNames with
  | nil => simp [AliasConfig.tried]
  | cons name rest ih =>
    rw [List.foldr_cons, List.findSome?_cons, AliasConfig.tried, List.forall_mem_cons]
    generalize rest.foldr (loadedFrom t root) (.ok ⟨root.normalize, []⟩) = otherwise at ih ⊢
    unfold loadedFrom
    cases h : t.contentAt (root / name) with
    | error cause => simp [Shows, h]
    | ok found =>
      have hshows : t.Shows (root / name) := ⟨found, h⟩
      cases AliasConfig.found? t (root / name) with
      | none => simpa [hshows] using ih
      | some config =>
        cases hextended : extendedIn t root config <;> simp [hshows, hextended, Except.map]

theorem loaded_eq_error {e : Failure} (h : loaded t root = .error e) :
    (∃ config ∈ AliasConfig.inEffect? t root, ∃ extended ∈ config.parent,
      e = .path (.emptyName (root / extended).normalize)) ∨ ∃ p, e = tooLong p := by
  unfold loaded at h
  unfold AliasConfig.inEffect?
  generalize aliasConfigNames = names at h ⊢
  induction names with
  | nil => cases h
  | cons name rest ih =>
    rw [List.foldr_cons] at h
    rw [List.findSome?_cons]
    generalize rest.foldr (loadedFrom t root) (.ok ⟨root.normalize, []⟩) = otherwise at ih h
    unfold loadedFrom at h
    split at h
    · rename_i hcontent
      cases h
      obtain rfl := contentAt_eq_error hcontent
      exact .inr ⟨_, rfl⟩
    · cases hfound : AliasConfig.found? t (root / name) with
      | none =>
        rw [hfound] at h
        exact ih h
      | some config =>
        rw [hfound] at h
        dsimp only at h
        cases hextended : extendedIn t root config with
        | ok extended => simp [hextended, Except.map] at h
        | error e' =>
          simp only [hextended, Except.map, Except.error.injEq] at h
          subst h
          exact (extendedIn_eq_error hextended).imp_left fun hnone => ⟨config, rfl, hnone⟩

theorem exists_load_iff {s : SessionState} : (∃ table s', (load root : Session _) s = .ok table s') ↔
    (∀ name ∈ AliasConfig.tried s.tree root aliasConfigNames, s.tree.Shows (root / name)) ∧
      ∀ config ∈ AliasConfig.inEffect? s.tree root, ∀ extended ∈ config.parent,
        (root / extended).normalize.name ≠ "" ∧
          ∀ p, AliasConfig.parentPath root extended = .ok p → s.tree.Shows p := by
  simp only [← exists_extendedIn_iff]
  rw [← exists_loaded_iff]
  obtain ⟨log, hload⟩ := sees_load s.tree root s rfl
  rw [hload]
  cases loaded s.tree root <;> simp

/-- Whatever the configuration files of a project hold, its table is loaded exactly if no path among
those looked at is too long and the one to extend, if any, has a name; what goes wrong otherwise says
which. In a tree without links it is enough that no name on the way is too long. -/
theorem load_returns_iff (root : Path) (s : SessionState) :
    ((∃ table s', (load root : Session _) s = .ok table s') ↔
      (∀ name ∈ AliasConfig.tried s.tree root aliasConfigNames, s.tree.Shows (root / name)) ∧
      ∀ config ∈ AliasConfig.inEffect? s.tree root, ∀ extended ∈ config.parent,
        (root / extended).normalize.name ≠ "" ∧
          ∀ p, AliasConfig.parentPath root extended = .ok p → s.tree.Shows p) ∧
    (∀ e s', (load root : Session _) s = .error e s' →
      (∃ config ∈ AliasConfig.inEffect? s.tree root, ∃ extended ∈ config.parent,
        e = .path (.emptyName (root / extended).normalize)) ∨ ∃ p, e = tooLong p) ∧
    (NoLinks s.tree → root.isAbsolute → ".." ∉ root.segments →
      (∀ name ∈ aliasConfigNames, (root / name).Fits) →
      (∀ config ∈ AliasConfig.inEffect? s.tree root, ∀ extended ∈ config.parent,
        (root / extended).normalize.name ≠ "" ∧
          ∀ p, AliasConfig.parentPath root extended = .ok p → p.Fits) →
      ∃ table s', (load root : Session _) s = .ok table s') := by
  have hreturns : (∃ table s', (load root : Session _) s = .ok table s') ↔ _ := exists_load_iff
  refine ⟨hreturns, fun e s' h => ?_, fun ht habs hup hnames hextended => ?_⟩
  · obtain ⟨log, hload⟩ := sees_load s.tree root s rfl
    rw [h] at hload
    cases hloaded : loaded s.tree root with
    | ok table => simp [hloaded] at hload
    | error cause =>
      simp only [hloaded, EStateM.Result.error.injEq] at hload
      exact loaded_eq_error (hloaded.trans (congrArg _ hload.1.symm))
  · have hall : ∀ name ∈ aliasConfigNames, Path.IsSegment name ∧ name ≠ ".." := by decide
    refine hreturns.mpr ⟨fun name hname => ?_, fun config hconfig extended hparent => ?_⟩
    · have hname := AliasConfig.mem_of_mem_tried hname
      refine shows_of_fits ht ?_ (hnames name hname)
      rw [Path.div_of_isSegment _ (hall name hname).1]
      simpa using ⟨hup, (hall name hname).2.symm⟩
    · obtain ⟨hnamed, hfits⟩ := hextended config hconfig extended hparent
      exact ⟨hnamed, fun p hp =>
        shows_of_fits ht (AliasConfig.no_parent_of_parentPath habs hp) (hfits p hp)⟩

/-- A configuration that extends the root of all paths, which has no name that could get an
extension. -/
theorem load_fails_of_nameless_parent :
    let root : Path := ⟨.root, ["project"]⟩
    let config : FileTree := .file (Text.encodeUtf8 "\x7b\"extends\": \"/\"\x7d".toList)
    let s : SessionState := { tree := .dir [("project", .dir [("tsconfig.json", config)])] }
    root.isAbsolute ∧ ¬ ∃ table s', (load root : Session _) s = .ok table s' := by
  intro root config s
  have hfails : Passes (load root) s (fun _ _ => true) = false := by decide +kernel
  refine ⟨rfl, ?_⟩
  rintro ⟨table, s', h⟩
  rw [Passes, h] at hfails
  cases hfails

end AliasTable

end CronWrap
