import CronWrap.CallSite.Scan
import CronWrap.Proofs.CallSite.Dedup
import CronWrap.Proofs.Files.Look
import CronWrap.Proofs.Text.Decoding

/-! Lists of files are scanned a part at a time with the same result: what is found is the first site
of each key, in the order of the files. -/
namespace CronWrap

open Session Workspace

/-- The path leads to a file with this text. -/
def FileTree.HoldsText (t : FileTree) (p : Path) (source : List Char) : Prop :=
  ∃ place cs, t.find true p = .ok (place, some (.file (Text.encodeUtf8 cs))) ∧
    source = Text.unifyLineEnds cs

namespace CallSite

variable (t : FileTree) (settings : Settings) (root : Path)

/-- The text that can be read at a path. -/
def readable? (p : Path) : Option (List Char) :=
  match t.find true p with
  | .ok (_, some (.file content)) =>
    match Text.decodeUtf8 content with
    | .ok cs => some (Text.unifyLineEnds cs)
    | .error _ => none
  | _ => none

/-- The sites of the file at a path, none if it cannot be read. -/
def sitesAt (p : Path) : List CallSite :=
  (readable? t p).elim [] fun source => (extract settings p source).1

variable {t settings root}

theorem readable?_eq_some_iff {p : Path} {source : List Char} :
    readable? t p = some source ↔ t.HoldsText p source := by
  unfold FileTree.HoldsText
  constructor
  · intro h
    unfold readable? at h
    split at h
    · rename_i place content hfind
      split at h
      · rename_i cs hdecoded
        exact ⟨place, cs, Text.decodeUtf8_eq_ok_iff.mp hdecoded ▸ hfind, (Option.some.inj h).symm⟩
      · cases h
    · cases h
  · rintro ⟨place, cs, hfind, rfl⟩
    simp [readable?, hfind, Text.decodeUtf8_encodeUtf8]

theorem sitesAt_of_holdsText {p : Path} {source : List Char} (h : t.HoldsText p source) :
    sitesAt t settings p = (extract settings p source).1 := by
  rw [sitesAt, readable?_eq_some_iff.mpr h]
  rfl

theorem sitesAt_eq_nil {p : Path} (h : ∀ source, ¬t.HoldsText p source) :
    sitesAt t settings p = [] := by
  have hnone : readable? t p = none :=
    Option.eq_none_iff_forall_ne_some.mpr fun source hs => h source (readable?_eq_some_iff.mp hs)
  rw [sitesAt, hnone]
  rfl

/-! ## What a scan finds -/

/-- A reading can fail in these ways only. -/
theorem sees_readText_or_passed_over (t : FileTree) (p : Path) :
    (∃ source, readable? t p = some source ∧ Sees t (readText p : Session _) (.ok source)) ∨
      readable? t p = none ∧ ((∃ e, Sees t (readText p : Session _) (.error (.file e))) ∨
        ∃ e, Sees t (readText p : Session _) (.error (.encoding e))) := by
  have hfind := sees_find t true p
  unfold readable?
  cases hfound : t.find true p with
  | error cause =>
    rw [hfound] at hfind
    exact .inr ⟨rfl, .inl ⟨_, Sees.bind_error (Sees.bind_error hfind)⟩⟩
  | ok found =>
    obtain ⟨place, found⟩ := found
    rw [hfound] at hfind
    cases found with
    | none => exact .inr ⟨rfl, .inl ⟨_, Sees.bind_error (hfind.bind (sees_throw t _))⟩⟩
    | some u =>
      cases u with
      | dir es => exact .inr ⟨rfl, .inl ⟨_, Sees.bind_error (hfind.bind (sees_throw t _))⟩⟩
      | link target => exact .inr ⟨rfl, .inl ⟨_, Sees.bind_error (hfind.bind (sees_throw t _))⟩⟩
      | file content =>
        have htext := sees_readText_of_read (sees_read_of_find hfound)
        unfold textOf at htext
        cases hdecoded : Text.decodeUtf8 content with
        | ok cs =>
          rw [hdecoded] at htext
          exact .inl ⟨_, by simp [hdecoded], htext⟩
        | error e =>
          rw [hdecoded] at htext
          exact .inr ⟨by simp [hdecoded], .inr ⟨e, htext⟩⟩

theorem sees_readSource (t : FileTree) (root p : Path) :
    Sees t (readSource root p : Session _) (.ok (readable? t p)) := by
  rcases sees_readText_or_passed_over t p with ⟨source, hsome, hread⟩ | ⟨hnone, ⟨e, hread⟩ | ⟨e, hread⟩⟩
  · rw [hsome]
    exact (hread.bind (f := fun source => pure (some source)) (sees_pure t _)).unhandled
  · rw [hnone]
    exact (Sees.bind_error hread).handled ((sees_note t _).bind (sees_pure t _))
  · rw [hnone]
    exact (Sees.bind_error hread).handled ((sees_note t _).bind (sees_pure t _))

theorem sees_scanFile (t : FileTree) (settings : Settings) (root p : Path) :
    Sees t (scanFile settings root p : Session _) (.ok (sitesAt t settings p)) := by
  refine (sees_readSource t root p).bind ?_
  unfold sitesAt
  cases readable? t p with
  | none => exact sees_pure t []
  | some source => exact (sees_notes t _).bind (sees_pure t _)

theorem sees_report (t : FileTree) (settings : Settings) (sites : List CallSite) :
    Sees t (do
      unless sites.isEmpty do note (foundNote settings sites)
      return sites : Session (List CallSite)) (.ok sites) := by
  dsimp only
  split
  · exact sees_pure t sites
  · exact (sees_note t _).bind (sees_pure t sites)

theorem sees_scan (t : FileTree) (settings : Settings) (root : Path) (ps : List Path) :
    Sees t (scan settings root ps : Session _) (.ok (dedup (ps.flatMap (sitesAt t settings)))) :=
  (sees_mapM fun p _ => sees_scanFile t settings root p).bind (sees_report t settings _)

/-- The sites are those that come first with their key, in their order. -/
structure KeepsFirst (found sites : List CallSite) : Prop where
  sublist : sites.Sublist found
  distinct : (sites.map key).Nodup
  complete : ∀ c ∈ found, c.key ∈ sites.map key
  first : ∀ c ∈ sites, IsFirst found c

theorem keepsFirst_dedup (found : List CallSite) : KeepsFirst found (dedup found) where
  sublist := dedupFrom_sublist [] found
  distinct := nodup_keys_dedupFrom [] found
  complete _ hc := (mem_keys_dedup_iff found _).mpr (List.mem_map_of_mem hc)
  first c hc := (mem_dedup_iff found c).mp hc

/-- A scan never fails. It finds the first site of each key in the files that hold a text, whatever the
others are, and the scan of a list put together finds what is first in the scans of its parts. -/
theorem scan_append_and_keepsFirst (t : FileTree) (settings : Settings) (root : Path) :
    (∀ xs ys, ∃ as bs,
      Sees t (scan settings root xs) (.ok as) ∧ Sees t (scan settings root ys) (.ok bs) ∧
        Sees t (scan settings root (xs ++ ys)) (.ok (dedup (as ++ bs)))) ∧
    (∀ ps, ∃ sites, Sees t (scan settings root ps) (.ok sites) ∧
      KeepsFirst (ps.flatMap (sitesAt t settings)) sites) ∧
    (∀ p source, t.HoldsText p source →
      sitesAt t settings p = (extract settings p source).1) ∧
    ∀ p, (∀ source, ¬t.HoldsText p source) → sitesAt t settings p = [] := by
  refine ⟨fun xs ys => ?_, fun ps => ?_, fun p source => sitesAt_of_holdsText,
    fun p => sitesAt_eq_nil⟩
  · have hparts := dedup_append (xs.flatMap (sitesAt t settings)) (ys.flatMap (sitesAt t settings))
    rw [← List.flatMap_append] at hparts
    refine ⟨_, _, sees_scan t settings root xs, sees_scan t settings root ys, ?_⟩
    rw [hparts]
    exact sees_scan t settings root (xs ++ ys)
  · exact ⟨_, sees_scan t settings root ps, keepsFirst_dedup _⟩

end CallSite

end CronWrap
