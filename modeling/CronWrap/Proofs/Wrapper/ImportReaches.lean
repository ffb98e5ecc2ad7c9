import Mathlib.Tactic.MkIffOfInductiveProp
import CronWrap.Layout
import CronWrap.Proofs.Alias.RoundTrip
import CronWrap.Wrapper.Import

/-! Where the import of a wrapper leads, and when that is the module of its function. -/
namespace CronWrap.CallSite

open Layout

/-- The import of the function's wrapper in `directory`, seen as a call site. -/
def inWrapper (c : CallSite) (directory : Path) (table : AliasTable) : CallSite :=
  ⟨c.functionName, c.importPath directory table, directory / moduleFile schedulerModule,
    c.importedName⟩

/-- Seen from `directory`, this specifier leads to the target of the site. -/
def IsReachedBy (c : CallSite) (directory : Path) (table : AliasTable) (specifier : String) : Prop :=
  if Path.isRelativeSpecifier specifier then (directory / specifier).normalize = c.relativeTarget
  else table.resolve specifier = some c.relativeTarget

/-- The calling file is a plain path, and no backslash and no line feed is in it or the origin. -/
@[mk_iff]
structure IsPlain (c : CallSite) : Prop where
  sourceFile : c.sourceFile.IsPlain
  one_line : ∀ s ∈ c.sourceFile.segments, '\n' ∉ s.toList
  origin_backslash : '\\' ∉ c.origin.toList
  origin_one_line : '\n' ∉ c.origin.toList

instance (c : CallSite) : Decidable c.IsPlain := decidable_of_iff _ (isPlain_iff c).symm

variable {c : CallSite} {directory : Path} {table : AliasTable}

theorem importTarget_of_relative (h : Path.isRelativeSpecifier c.origin) (table : AliasTable) :
    c.importTarget table = c.relativeTarget.toString := by
  simp [importTarget, h]

theorem isAlias_of_relative (h : Path.isRelativeSpecifier c.origin) (table : AliasTable) :
    table.isAlias c.origin = false := by
  simp [AliasTable.isAlias, h]

namespace IsPlain

theorem fromFile (hc : c.IsPlain) (h : Path.isRelativeSpecifier c.origin) :
    (c.sourceFile.parent / c.origin).IsPlain := by
  have hanchor : Path.anchorOf c.origin.toList ≠ .twinRoot := by
    rw [Path.anchorOf_of_isRelativeSpecifier h]
    decide
  exact AliasTable.isPlain_join_ofChars hc.sourceFile.parent hanchor hc.origin_backslash

theorem relativeTarget (hc : c.IsPlain) (h : Path.isRelativeSpecifier c.origin) :
    c.relativeTarget.IsPlain := (hc.fromFile h).normalize

theorem relativeTarget_one_line (hc : c.IsPlain) (h : Path.isRelativeSpecifier c.origin) :
    '\n' ∉ c.relativeTarget.posix.toList := by
  have hjoin : c.sourceFile.parent / c.origin =
      ⟨c.sourceFile.anchor, c.sourceFile.segments.dropLast ++ Path.segmentsOf c.origin.toList⟩ := by
    change c.sourceFile.parent.join (.ofChars c.origin.toList) = _
    simp [Path.join, Path.ofChars, Path.isAbsolute, Path.anchorOf_of_isRelativeSpecifier h,
      Path.parent]
  intro hmem
  rcases Path.mem_posix_normalize (hc.fromFile h) hmem with hslash | ⟨s, hs, hn⟩
  · cases hslash
  · rw [hjoin] at hs
    rcases List.mem_append.mp hs with hs | hs
    · exact hc.one_line s (List.dropLast_subset _ hs) hn
    · exact hc.origin_one_line (Path.mem_of_mem_segmentsOf hs hn)

theorem normalize_relativeTarget (hc : c.IsPlain) (h : Path.isRelativeSpecifier c.origin) :
    c.relativeTarget.normalize = c.relativeTarget :=
  Path.normalize_normalize (hc.fromFile h).isAbsolute

end IsPlain

/-! ## The four ways to choose the import -/

theorem origin_inWrapper_of_not_relative (h : Path.isRelativeSpecifier c.origin = false) :
    (c.inWrapper directory table).origin = c.origin := by
  simp [inWrapper, importPath, h]

theorem importTarget_inWrapper_of_not_relative (h : Path.isRelativeSpecifier c.origin = false) :
    (c.inWrapper directory table).importTarget table = c.importTarget table := by
  simp [importTarget, origin_inWrapper_of_not_relative h, h]

theorem origin_inWrapper_of_relative (h : Path.isRelativeSpecifier c.origin) :
    (c.inWrapper directory table).origin =
      (table.nameOf c.relativeTarget).getD
        (Path.relativeSpecifier c.relativeTarget directory) := by
  simp [inWrapper, importPath, h, isAlias_of_relative h]

/-- What a relative specifier of a wrapper leads to is told from the wrapper's directory. -/
theorem relativeTarget_inWrapper :
    (c.inWrapper directory table).relativeTarget =
      (directory / (c.inWrapper directory table).origin).normalize := by
  have hfile : directory / moduleFile schedulerModule =
      ⟨directory.anchor, directory.segments ++ ["workflow.ts"]⟩ :=
    Path.div_of_isSegment directory (by decide)
  have hparent : (directory / moduleFile schedulerModule).parent = directory := by
    simp [hfile, Path.parent]
  simp only [CallSite.relativeTarget]
  exact congrArg (fun d : Path => (d / (c.inWrapper directory table).origin).normalize) hparent

theorem importTarget_inWrapper_of_uncovered (hc : c.IsPlain) (hd : directory.IsPlain)
    (h : Path.isRelativeSpecifier c.origin) (hnone : table.nameOf c.relativeTarget = none) :
    (c.inWrapper directory table).importTarget table = c.importTarget table := by
  have horigin : (c.inWrapper directory table).origin =
      Path.relativeSpecifier c.relativeTarget directory := by
    rw [origin_inWrapper_of_relative h, hnone, Option.getD_none]
  have hrelative : Path.isRelativeSpecifier (c.inWrapper directory table).origin := by
    rw [horigin]
    exact Path.isRelativeSpecifier_relativeSpecifier _ _
  rw [importTarget_of_relative hrelative, importTarget_of_relative h, relativeTarget_inWrapper,
    horigin, Path.normalize_div_relativeSpecifier (hc.relativeTarget h) hd,
    hc.normalize_relativeTarget h]

theorem importTarget_inWrapper_of_alias (hc : c.IsPlain) (hd : directory.IsPlain)
    (hbase : table.base.IsPlain) (h : Path.isRelativeSpecifier c.origin) {a : String}
    (ha : table.nameOf c.relativeTarget = some a) :
    (c.inWrapper directory table).importTarget table = c.importTarget table ↔
      c.IsReachedBy directory table a := by
  have horigin : (c.inWrapper directory table).origin = a := by
    rw [origin_inWrapper_of_relative h, ha, Option.getD_some]
  have htarget := hc.relativeTarget h
  rw [importTarget_of_relative h, IsReachedBy]
  cases hrelative : Path.isRelativeSpecifier a with
  | true =>
    obtain ⟨habs, hsegs⟩ := Path.normalize_join_ofChars hd a.toList
    rw [importTarget_of_relative (horigin ▸ hrelative), relativeTarget_inWrapper, horigin,
      if_pos rfl]
    exact Path.toString_inj habs htarget.isAbsolute hsegs htarget.isSegment
  | false =>
    have hline := hc.relativeTarget_one_line h
    rw [← hc.normalize_relativeTarget h] at hline
    obtain ⟨hmatch, hsome⟩ := AliasTable.isSome_resolve_of_nameOf hline ha
    obtain ⟨q, hq⟩ := Option.isSome_iff_exists.mp hsome
    have halias : table.isAlias a := by simp [AliasTable.isAlias, hrelative, hmatch]
    obtain ⟨habs, hsegs⟩ := AliasTable.resolve_spec hbase hq
    have htext : (c.inWrapper directory table).importTarget table = q.toString := by
      simp [importTarget, horigin, hrelative, halias, hq]
    rw [htext, if_neg (by simp), hq, Option.some.injEq]
    exact Path.toString_inj habs htarget.isAbsolute hsegs htarget.isSegment

theorem isReachedBy_of_namesRegularly (hc : c.IsPlain) (hbase : table.base.IsPlain)
    (h : Path.isRelativeSpecifier c.origin) {a : String} (ha : Path.isRelativeSpecifier a = false)
    (hregular : table.NamesRegularly c.relativeTarget a) : c.IsReachedBy directory table a := by
  have hline := hc.relativeTarget_one_line h
  rw [← hc.normalize_relativeTarget h] at hline
  rw [IsReachedBy, if_neg (by simp [ha]),
    AliasTable.resolve_of_namesRegularly hbase (hc.relativeTarget h) hline hregular,
    hc.normalize_relativeTarget h]

/-- The import of a wrapper leads to the module of its function exactly if the function's file is
imported by a package name or an alias, or has no name in the table, or has one that leads back to
it. A name does so if it is regular: it comes from an entry that puts its wildcard at the start of a
segment and is the first to match the name. -/
theorem importTarget_inWrapper_iff (hc : c.IsPlain) (hd : directory.IsPlain)
    (hbase : table.base.IsPlain) :
    ((c.inWrapper directory table).importTarget table = c.importTarget table ↔
      (Path.isRelativeSpecifier c.origin → ∀ a, table.nameOf c.relativeTarget = some a →
        c.IsReachedBy directory table a)) ∧
    ((∀ a, table.nameOf c.relativeTarget = some a →
        Path.isRelativeSpecifier a = false ∧ table.NamesRegularly c.relativeTarget a) →
      (c.inWrapper directory table).importTarget table = c.importTarget table) := by
  have hiff : (c.inWrapper directory table).importTarget table = c.importTarget table ↔
      (Path.isRelativeSpecifier c.origin → ∀ a, table.nameOf c.relativeTarget = some a →
        c.IsReachedBy directory table a) := by
    cases h : Path.isRelativeSpecifier c.origin with
    | false => simp [importTarget_inWrapper_of_not_relative h]
    | true =>
      cases ha : table.nameOf c.relativeTarget with
      | none => simp [importTarget_inWrapper_of_uncovered hc hd h ha]
      | some a => simp [importTarget_inWrapper_of_alias hc hd hbase h ha]
  refine ⟨hiff, ?_⟩
  intro hregular
  rw [hiff]
  intro h a ha
  obtain ⟨hrelative, hnames⟩ := hregular a ha
  exact isReachedBy_of_namesRegularly hc hbase h hrelative hnames

theorem importTarget_inWrapper_of_src_alias :
    let c : CallSite := ⟨"job", "../lib/jobs", .parse "/p/src/app/page.ts", none⟩
    let directory := Path.parse "/p/src/app/cron-wrappers/trigger-job"
    let table : AliasTable := ⟨.parse "/p", [("@/*", ["./src/*"])]⟩
    c.importPath directory table = "@/lib/jobs" ∧
      (c.inWrapper directory table).importTarget table = "/p/src/lib/jobs" := by
  intro c directory table
  have hname : c.importPath directory table = "@/lib/jobs" ∧
      table.nameOf c.relativeTarget = some "@/lib/jobs" ∧
      c.importTarget table = "/p/src/lib/jobs" := by decide
  obtain ⟨himport, ha, htarget⟩ := hname
  refine ⟨himport, ?_⟩
  rw [← htarget]
  apply (importTarget_inWrapper_iff (by decide) (by decide) (by decide)).2
  intro a ha'
  rw [ha] at ha'
  cases ha'
  have hregular : AliasTable.IsRegular "@/*" "./src/*" := by decide
  exact ⟨by decide, [], "@/*", "./src/*", [], [], rfl, hregular, by decide, by simp⟩

/-- Covered by the second entry, the path is named by its pattern; but the name matches the first
entry, and leads to another directory. -/
theorem importTarget_inWrapper_of_catch_all :
    let c : CallSite := ⟨"job", "../lib/jobs", .parse "/p/src/app/page.ts", none⟩
    let directory := Path.parse "/p/src/app/cron-wrappers/trigger-job"
    let table : AliasTable := ⟨.parse "/p", [("*", ["./other/*"]), ("@/*", ["./src/*"])]⟩
    c.IsPlain ∧ directory.IsPlain ∧ table.base.IsPlain ∧
      c.importPath directory table = "@/lib/jobs" ∧
      c.importTarget table = "/p/src/lib/jobs" ∧
      (c.inWrapper directory table).importTarget table = "/p/other/@/lib/jobs" := by
  decide

end CronWrap.CallSite
