import CronWrap.Proofs.Alias.Load
import CronWrap.Proofs.Path.Normalize
import Mathlib.Data.List.TakeDrop

/-! The alias configuration that a tree without links has, and the files that it takes to read it. -/
namespace CronWrap

open FileTree Session Workspace
open Text (Bytes)

namespace AliasConfig

/-- The configuration that a file holds, if it is an object. -/
def ofBytes? (content : Bytes) : Option AliasConfig :=
  match (textOf content).toOption >>= Json.parseLenient? with
  | some (.record fields) => some (ofFields fields)
  | _ => none

/-- The configuration in the file at a path. -/
def at? (t : FileTree) (p : Path) : Option AliasConfig :=
  match t.get? p.segments with
  | some (.file content) => ofBytes? content
  | _ => none

/-- The configuration of a project that counts: that of the first file that has one. -/
def effective? (t : FileTree) (root : Path) : Option AliasConfig :=
  aliasConfigNames.findSome? fun name => at? t (root / name)

theorem suffixOf_append_json {cs : List Char} (h : cs ≠ []) :
    Path.suffixOf (cs ++ ".json".toList) = ".json".toList := by
  obtain ⟨c, rest, hrest⟩ : ∃ c rest, cs.reverse = c :: rest := by
    cases hcs : cs.reverse with
    | nil => exact absurd (List.reverse_eq_nil_iff.mp hcs) h
    | cons c rest => exact ⟨c, rest, rfl⟩
  have hreverse : (cs ++ ".json".toList).reverse = 'n' :: 'o' :: 's' :: 'j' :: '.' :: c :: rest := by
    rw [List.reverse_append, hrest]
    rfl
  rw [Path.suffixOf, hreverse, List.span_eq_takeWhile_dropWhile]
  rfl

theorem parentPath_cases {root p : Path} {extended : String}
    (h : parentPath root extended = .ok p) :
    p = (root / extended).normalize ∧ p.suffix = ".json" ∨
      (root / extended).normalize.name ≠ "" ∧
        p = ⟨(root / extended).normalize.anchor, (root / extended).normalize.segments.dropLast ++
          [(root / extended).normalize.name ++ ".json"]⟩ := by
  simp only [parentPath] at h
  split at h
  · cases h
    exact .inl ⟨rfl, ‹_›⟩
  · rw [Path.withName] at h
    split at h
    · cases h
    · cases h
      exact .inr ⟨‹_›, rfl⟩

/-- What is extended has the name of a JSON file. -/
theorem suffix_of_parentPath {root p : Path} {extended : String}
    (h : parentPath root extended = .ok p) : p.suffix = ".json" := by
  rcases parentPath_cases h with ⟨-, hsuffix⟩ | ⟨hname, rfl⟩
  · exact hsuffix
  · have hne : (root / extended).normalize.name.toList ≠ [] := fun hnil =>
      hname (String.toList_inj.mp hnil)
    rw [Path.suffix, Path.name, List.getLast?_concat, Option.getD_some, String.toList_append,
      suffixOf_append_json hne]
    rfl

theorem no_parent_of_parentPath {root p : Path} (hroot : root.isAbsolute) {extended : String}
    (h : parentPath root extended = .ok p) : ".." ∉ p.segments := by
  have habs : (root / extended).isAbsolute := by
    change (root.join (.parse extended)).isAbsolute
    unfold Path.join
    split
    · assumption
    · exact hroot
  have hup := Path.no_parent_normalize habs
  rcases parentPath_cases h with ⟨rfl, -⟩ | ⟨-, rfl⟩
  · exact hup
  · rw [List.mem_append, not_or, List.mem_singleton]
    refine ⟨fun hmem => hup (List.dropLast_subset _ hmem), fun he => ?_⟩
    have hlast := congrArg (fun s => s.toList.getLast?) he
    simp at hlast

end AliasConfig

namespace AliasTable

variable {t t' : FileTree} {p root : Path}

theorem sees_unreadable {α : Type} (t : FileTree) (p : Path) (reason : String) :
    Sees t (readConfig.unreadable p reason : Session (Option α)) (.ok none) :=
  (sees_note t _).bind (sees_pure t _)

theorem sees_readConfig_of_readText {content : Bytes}
    (hread : Sees t (readText p : Session _) (textOf content)) :
    Sees t (readConfig p : Session (Option AliasConfig)) (.ok (AliasConfig.ofBytes? content)) := by
  unfold AliasConfig.ofBytes? readConfig
  cases htext : Text.decodeUtf8 content with
  | error e =>
    have htextOf : textOf content = .error (.encoding e) := by rw [textOf, htext]
    rw [htextOf] at hread ⊢
    exact Sees.bind (Sees.handled hread.bind_error (sees_unreadable t p _)) (sees_pure t _)
  | ok cs =>
    have htextOf : textOf content = .ok (Text.unifyLineEnds cs) := by rw [textOf, htext]
    rw [htextOf] at hread ⊢
    refine Sees.bind (Sees.unhandled (hread.bind (sees_pure t _))) ?_
    change Sees t _ (.ok (match Json.parseLenient? (Text.unifyLineEnds cs) with
      | some (.record fields) => some (AliasConfig.ofFields fields)
      | _ => none))
    cases hvalue : Json.parseLenient? (Text.unifyLineEnds cs) with
    | none =>
      simp only [Option.map_some, hvalue]
      exact sees_unreadable t p _
    | some value =>
      simp only [Option.map_some, hvalue]
      cases value with
      | record fields => exact sees_pure t _
      | _ => exact (sees_note t _).bind (sees_pure t _)

theorem sees_readConfig (ht : NoLinks t) (hup : ".." ∉ p.segments) (hfits : p.Fits)
    (hfile : t.isFileAt p.segments) :
    Sees t (readConfig p : Session (Option AliasConfig)) (.ok (AliasConfig.at? t p)) := by
  obtain ⟨content, hcontent⟩ := isFileAt_iff.mp hfile
  have hread := sees_readText ht hup hcontent
  rw [if_pos hfits] at hread
  rw [AliasConfig.at?, hcontent]
  exact sees_readConfig_of_readText hread

/-- The same table is loaded where the files are the same that are read for it. -/
theorem steady_load (ht : NoLinks t)
    (hnames : ∀ name ∈ aliasConfigNames, ".." ∉ (root / name).segments ∧ (root / name).Short ∧
      SameFile t t' (root / name))
    (hextended : ∀ config ∈ AliasConfig.effective? t root, ∀ extended ∈ config.parent, ∀ p,
      AliasConfig.parentPath root extended = .ok p → SameFile t t' p) :
    Steady t t' (load root : Session AliasTable) := by
  unfold AliasConfig.effective? at hextended
  unfold load
  generalize aliasConfigNames = names at hnames hextended
  induction names with
  | nil => exact steady_pure _
  | cons name rest ih =>
    obtain ⟨⟨hup, hshort, hsame⟩, hrest⟩ := List.forall_mem_cons.mp hnames
    -- Without a configuration in this file the next one counts.
    have hnext : AliasConfig.at? t (root / name) = none →
        Steady t t' (loadFrom root rest : Session AliasTable) := by
      intro hnone
      refine ih hrest fun config hconfig => hextended config ?_
      rw [List.findSome?_cons, hnone]
      exact hconfig
    refine hsame.isFile.bind fun found hfound => ?_
    obtain ⟨hfits, hfile⟩ := of_sees_isFile ht hup (.inl hshort) hfound
    cases found with
    | false =>
      refine hnext ?_
      unfold isFileAt at hfile
      unfold AliasConfig.at?
      split
      · simp_all [FileTree.isFile]
      · rfl
    | true =>
      refine (steady_readConfig (hsame.readText hfound)).bind fun config hconfig => ?_
      cases hconfig.unique (sees_readConfig ht hup hfits hfile)
      cases hat : AliasConfig.at? t (root / name) with
      | none => exact hnext hat
      | some config =>
        refine steady_found name (steady_readExtended (hextended config ?_))
        rw [List.findSome?_cons, hat]
        rfl

end AliasTable

end CronWrap
