import CronWrap.Proofs.Alias.RoundTrip

/-! An alias that a table gives to a path leads back to the path, where the entry that gives it is
the first to match it. -/
namespace CronWrap.AliasTable

open Text

variable {table : AliasTable} {p : Path} {a : String}

/-- The entry that stands behind `before` in the table is the first to name the path, and gives it
this name. -/
structure NamedBy (table : AliasTable) (p : Path) (a : String)
    (before : List (String × List String)) (entry : String × List String) : Prop where
  entries : ∃ behind, table.entries = before ++ entry :: behind
  unnamed : ∀ e ∈ before, nameEntry table.base p.normalize.posix.toList e = none
  named : nameEntry table.base p.normalize.posix.toList entry = some a

/-- The alias of a path is the name that the first entry gives it that names it at all. -/
theorem nameOf_eq_some_iff :
    table.nameOf p = some a ↔ ∃ before entry, table.NamedBy p a before entry := by
  rw [nameOf, List.findSome?_eq_some_iff]
  constructor
  · rintro ⟨before, entry, behind, hentries, hnamed, hunnamed⟩
    exact ⟨before, entry, ⟨behind, hentries⟩, hunnamed, hnamed⟩
  · rintro ⟨before, entry, ⟨behind, hentries⟩, hunnamed, hnamed⟩
    exact ⟨before, entry, behind, hentries, hnamed, hunnamed⟩

theorem NamedBy.namesRegularly {before : List (String × List String)} {pattern target : String}
    {more : List String} (h : table.NamedBy p a before (pattern, target :: more))
    (hregular : IsRegular pattern target)
    (hbefore : ∀ e ∈ before, e.2 ≠ [] → matchesPattern e.1 a = false) :
    table.NamesRegularly p a := by
  obtain ⟨behind, hentries⟩ := h.entries
  refine ⟨before, pattern, target, more, behind, hentries, hregular, h.named, ?_⟩
  intro e he
  by_cases htargets : e.2 = []
  · exact .inl htargets
  · exact .inr (hbefore e he htargets)

/-- Of a path and a base that are written from `/`, without backslashes and the path without line
feeds, the alias is read back as the path with its dots carried out, if it comes from an entry with
a wildcard in its pattern and one at the start of a segment of its target (which is no target from a
root of its own), and no entry before that one, unless it has no target, matches the alias. -/
theorem resolve_of_namedBy {base path pattern target : String}
    {entries before : List (String × List String)} {more : List String}
    (hb : Path.anchorOf base.toList = .root) (hbs : '\\' ∉ base.toList)
    (hp : Path.anchorOf path.toList = .root) (hps : '\\' ∉ path.toList) (hpn : '\n' ∉ path.toList)
    (hname : (AliasTable.mk (.parse base) entries).NamedBy (.parse path) a before
      (pattern, target :: more))
    (hregular : IsRegular pattern target)
    (hbefore : ∀ e ∈ before, e.2 ≠ [] → matchesPattern e.1 a = false) :
    (AliasTable.mk (.parse base) entries).nameOf (.parse path) = some a ∧
      (AliasTable.mk (.parse base) entries).resolve a = some (Path.parse path).normalize := by
  have hpath := Path.isPlain_parse hp hps
  have hline : '\n' ∉ (Path.parse path).normalize.posix.toList := by
    intro hmem
    rcases Path.mem_posix_normalize hpath hmem with hslash | ⟨s, hs, hn⟩
    · cases hslash
    · exact hpn (Path.mem_of_mem_segmentsOf hs hn)
  refine ⟨nameOf_eq_some_iff.mpr ⟨before, _, hname⟩, ?_⟩
  exact resolve_of_namesRegularly (Path.isPlain_parse hb hbs) hpath hline
    (hname.namesRegularly hregular hbefore)

theorem resolve_of_namedBy_below_dots :
    let entries := [("*", []), ("~/*", ["./lib/*"]), ("@/*.js", ["../q/./x/../*.ts", "./other/*"])]
    let table : AliasTable := ⟨.parse "/p/./r/..", entries⟩
    table.nameOf (.parse "/q//src/../a*b/job.ts") = some "@/a*b/job.js" ∧
      table.resolve "@/a*b/job.js" = some (.parse "/q/a*b/job.ts") := by
  intro entries table
  have hname : table.NamedBy (.parse "/q//src/../a*b/job.ts") "@/a*b/job.js"
      [("*", []), ("~/*", ["./lib/*"])] ("@/*.js", ["../q/./x/../*.ts", "./other/*"]) :=
    ⟨⟨[], rfl⟩, by decide, by decide⟩
  have hplace : (Path.parse "/q//src/../a*b/job.ts").normalize = .parse "/q/a*b/job.ts" := by decide
  rw [← hplace]
  exact resolve_of_namedBy (by decide) (by decide) (by decide) (by decide) (by decide) hname
    (by decide) (by decide)

end CronWrap.AliasTable
