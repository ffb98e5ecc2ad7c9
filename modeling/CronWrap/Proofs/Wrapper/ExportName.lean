import CronWrap.Proofs.Module.Prefilter
import CronWrap.Proofs.Wrapper.Collision
import CronWrap.Proofs.Wrapper.ManifestText
import CronWrap.Wrapper.Render

/-! From an import specifier to the wrapper that imports the same function. The name of an export is
an identifier or a string literal, and both are read as a bare text, so that the wrapper's import can
only be written with an identifier. -/
namespace CronWrap

open Syntax

/-! ## String literals -/

/-- A content between two quotes of one sort. -/
def IsQuoted (token : List Char) : Prop :=
  ∃ q body, (q = '"' ∨ q = '\'') ∧ token = q :: (body ++ [q])

theorem Syntax.Node.unquote_quoted {q : Char} (h : q = '"' ∨ q = '\'') (body : List Char) :
    unquote (q :: (body ++ [q])) = body := by
  have hlast : (q :: (body ++ [q])).getLast? = some q := by
    rw [← List.cons_append, List.getLast?_concat]
  cases body with
  | nil => simp [unquote, h]
  | cons c body =>
    rw [List.cons_append] at hlast ⊢
    simp only [unquote, hlast]
    rw [if_pos (by simpa using h), List.drop_one, List.tail_cons, ← List.cons_append,
      List.dropLast_concat]

/-- A literal is longer than its content. -/
theorem IsQuoted.length {token : List Char} (h : IsQuoted token) :
    token.length = (Node.unquote token).length + 2 := by
  obtain ⟨q, body, hq, rfl⟩ := h
  rw [Node.unquote_quoted hq, List.length_cons, List.length_append, List.length_singleton]

/-! ## The binding of a specifier -/

theorem lookup_collectFields_of_last {α : Type} {before after : List (String × α)} {key : String}
    {value : α} (h : ∀ f ∈ after, f.1 ≠ key) :
    (collectFields (before ++ (key, value) :: after)).lookup key = some value := by
  have hafter : after.reverse.lookup key = none := by
    rw [List.lookup_eq_none_iff]
    intro f hf
    exact bne_iff_ne.mpr (h f (List.mem_reverse.mp hf)).symm
  rw [lookup_collectFields, List.reverse_append, List.reverse_cons, List.append_assoc,
    List.lookup_append, hafter, Option.none_or, List.singleton_append, List.lookup_cons_self]

namespace Module

variable {m : Module}

/-- The first part of a specifier is a name that an export can have. -/
def IsExportName (m : Module) (name : Node) : Prop :=
  (name.kind = .identifier ∧ name.text m.source ≠ "") ∨
    (name.kind = .string ∧ IsQuoted (name.chars m.source))

/-- The specifier of the statement binds the local name, and nothing that is imported further on
binds it again. -/
structure LastBinds (m : Module) (statement specifier : Node) (localName : String) : Prop where
  names : (m.specifierNames specifier).2 = localName
  last : ∃ before after, specifiers statement = before ++ specifier :: after ∧
    ∀ s ∈ after, (m.specifierNames s).2 ≠ localName
  lastStatement : ∃ before after, m.imports = before ++ statement :: after ∧
    ∀ i ∈ after, ∀ b ∈ m.statementBindings i, b.localName ≠ localName

theorem LastBinds.bindings_eq {statement specifier : Node} {localName source : String}
    (h : m.LastBinds statement specifier localName)
    (hsource : m.importSource? statement = some source) :
    ∃ before after,
      m.bindings = before ++ ⟨localName, (m.specifierNames specifier).1, source⟩ :: after ∧
      ∀ b ∈ after, b.localName ≠ localName := by
  obtain ⟨earlier, later, hspecifiers, hlater⟩ := h.last
  obtain ⟨before, after, himports, hafter⟩ := h.lastStatement
  obtain ⟨first, hstatement⟩ : ∃ first, m.statementBindings statement =
      first ++ ⟨localName, (m.specifierNames specifier).1, source⟩ :: later.map fun s =>
        ⟨(m.specifierNames s).2, (m.specifierNames s).1, source⟩ := by
    refine ⟨(defaultImport? statement).toList.map
      (fun n => ⟨n.text m.source, defaultExport, source⟩) ++
        earlier.map fun s => ⟨(m.specifierNames s).2, (m.specifierNames s).1, source⟩, ?_⟩
    simp only [statementBindings, hsource, hspecifiers, List.map_append, List.map_cons,
      List.append_assoc, h.names]
  refine ⟨before.flatMap m.statementBindings ++ first, (later.map fun s =>
    ⟨(m.specifierNames s).2, (m.specifierNames s).1, source⟩) ++
      after.flatMap m.statementBindings, ?_, ?_⟩
  · rw [bindings, himports, List.flatMap_append, List.flatMap_cons, hstatement]
    simp only [List.append_assoc, List.cons_append]
  · intro b hb
    rcases List.mem_append.mp hb with hb | hb
    · obtain ⟨s, hs, rfl⟩ := List.mem_map.mp hb
      exact hlater s hs
    · obtain ⟨i, hi, hb⟩ := List.mem_flatMap.mp hb
      exact hafter i hi b hb

theorem LastBinds.lookup_importMap {statement specifier : Node} {localName source : String}
    (h : m.LastBinds statement specifier localName)
    (hsource : m.importSource? statement = some source) :
    m.importMap.lookup localName =
      some ⟨localName, (m.specifierNames specifier).1, source⟩ := by
  obtain ⟨before, after, hbindings, hafter⟩ := h.bindings_eq hsource
  rw [importMap, hbindings, List.map_append, List.map_cons]
  apply lookup_collectFields_of_last
  intro f hf
  obtain ⟨b, hb, rfl⟩ := List.mem_map.mp hf
  exact hafter b hb

/-- The last specifier of the last statement binds its name for good. -/
theorem lastBinds_of_getLast? {statement specifier : Node}
    (hstatement : m.imports.getLast? = some statement)
    (hspecifier : (specifiers statement).getLast? = some specifier) :
    m.LastBinds statement specifier (m.specifierNames specifier).2 := by
  obtain ⟨before, hbefore⟩ := List.getLast?_eq_some_iff.mp hstatement
  obtain ⟨earlier, hearlier⟩ := List.getLast?_eq_some_iff.mp hspecifier
  exact ⟨rfl, ⟨earlier, [], hearlier, by simp⟩, ⟨before, [], hbefore, by simp⟩⟩

end Module

/-! ## The line of the wrapper -/

/-- The line imports from the path, under the local name, the export that the first part of a
specifier names; where the name of the export has to be written, the token is of the same sort. -/
inductive KeepsExport (m : Module) (name : Node) (exported localName path : String) :
    String → Prop
  | asDefault (h : exported = defaultExport) :
    KeepsExport m name exported localName path s!"import {localName} from {Text.quote path}"
  | same (h : exported = localName) :
    KeepsExport m name exported localName path
      s!"import \x7b {localName} \x7d from {Text.quote path}"
  | word (hdefault : exported ≠ defaultExport) (hlocal : exported ≠ localName)
    (hkind : name.kind = .identifier) :
    KeepsExport m name exported localName path
      s!"import \x7b {name.text m.source} as {localName} \x7d from {Text.quote path}"
  | literal (hdefault : exported ≠ defaultExport) (hlocal : exported ≠ localName)
    (hkind : name.kind = .string) (token : String) (hquoted : IsQuoted token.toList)
    (hcontent : Node.unquote token.toList = exported.toList) :
    KeepsExport m name exported localName path
      s!"import \x7b {token} as {localName} \x7d from {Text.quote path}"

/-- What a call site records of the export, and the line that is written from it. -/
def recordedLine (exported localName path : String) : String :=
  importLine localName (if exported = localName then none else some exported) path

theorem recordedLine_default {localName path : String} (h : defaultExport ≠ localName) :
    recordedLine defaultExport localName path = s!"import {localName} from {Text.quote path}" := by
  rw [recordedLine, if_neg h, importLine]
  exact if_pos rfl

theorem recordedLine_bare {exported localName path : String}
    (h : exported = "" ∨ exported = localName) :
    recordedLine exported localName path =
      s!"import \x7b {localName} \x7d from {Text.quote path}" := by
  by_cases hlocal : exported = localName
  · rw [recordedLine, if_pos hlocal]
    rfl
  · obtain rfl := h.resolve_right hlocal
    rw [recordedLine, if_neg hlocal]
    rfl

theorem recordedLine_renamed {exported localName path : String} (hdefault : exported ≠ defaultExport)
    (hlocal : exported ≠ localName) (hempty : exported ≠ "") :
    recordedLine exported localName path =
      s!"import \x7b {exported} as {localName} \x7d from {Text.quote path}" := by
  rw [recordedLine, if_neg hlocal, importLine]
  simp [hdefault, hlocal, hempty]

/-- No line with a quoted name is written. -/
theorem recordedLine_ne_literal {exported localName path token : String}
    (hdefault : exported ≠ defaultExport) (hlocal : exported ≠ localName)
    (hquoted : IsQuoted token.toList) (hcontent : Node.unquote token.toList = exported.toList) :
    recordedLine exported localName path ≠
      s!"import \x7b {token} as {localName} \x7d from {Text.quote path}" := by
  intro h
  have hlength := hquoted.length
  rw [hcontent] at hlength
  by_cases hempty : exported = ""
  · rw [recordedLine_bare (.inl hempty)] at h
    have htexts := congrArg (fun line : String => line.toList.length) h
    simp [toString] at htexts
    omega
  · rw [recordedLine_renamed hdefault hlocal hempty] at h
    have htexts := congrArg (fun line : String => line.toList.length) h
    simp [toString] at htexts
    omega

/-- The export's name is kept exactly if it is a word, or need not be written. -/
theorem keepsExport_recordedLine_iff {m : Module} {name : Node} {exported localName path : String}
    (hname : m.IsExportName name)
    (hexported : exported = if name.kind = .string then name.stringValue m.source
      else name.text m.source) :
    KeepsExport m name exported localName path (recordedLine exported localName path) ↔
      (name.kind = .string → exported = defaultExport ∨ exported = localName) := by
  constructor
  · intro h hkind
    by_contra hother
    obtain ⟨hdefault, hlocal⟩ := not_or.mp hother
    generalize hline : recordedLine exported localName path = line at h
    cases h with
    | asDefault h => exact hdefault h
    | same h => exact hlocal h
    | word _ _ h =>
      rw [hkind] at h
      cases h
    | literal _ _ _ token hquoted hcontent =>
      exact recordedLine_ne_literal hdefault hlocal hquoted hcontent hline
  · intro h
    by_cases hlocal : exported = localName
    · rw [recordedLine_bare (.inr hlocal)]
      exact .same hlocal
    · by_cases hdefault : exported = defaultExport
      · subst hdefault
        rw [recordedLine_default hlocal]
        exact .asDefault rfl
      · have hkind : name.kind = .identifier := by
          rcases hname with ⟨hkind, -⟩ | ⟨hkind, -⟩
          · exact hkind
          · rcases h hkind with h | h
            · exact absurd h hdefault
            · exact absurd h hlocal
        have htext : exported = name.text m.source := by
          rw [hexported, if_neg (by simp [hkind])]
        have hempty : exported ≠ "" := by
          rcases hname with ⟨-, hne⟩ | ⟨hstring, -⟩
          · rwa [htext]
          · rw [hkind] at hstring
            cases hstring
        rw [recordedLine_renamed hdefault hlocal hempty]
        nth_rewrite 2 [htext]
        exact .word hdefault hlocal hkind

/-! ## From the specifier to the wrapper -/

namespace CallSite

/-- The site of a call whose function an import specifier binds. -/
theorem ofCall_of_lastBinds {m : Module} {statement specifier : Node} {file : Path}
    {call : ScheduleCall} {source : String}
    (h : m.LastBinds statement specifier call.functionName)
    (hsource : m.importSource? statement = some source) :
    ofCall file m.importMap call =
      ⟨call.functionName, source, file,
        if (m.specifierNames specifier).1 = call.functionName then none
        else some (m.specifierNames specifier).1⟩ := by
  unfold ofCall
  rw [h.lookup_importMap hsource]

end CallSite

namespace Wrapper

theorem importedName_of_mem_plan {sites : List CallSite} {container : Path} {table : AliasTable}
    {ws : List Wrapper} (hplan : plan sites container table = .ok ws) {site : CallSite}
    (hsite : CallSite.IsFirst sites site) {w : Wrapper} (hw : w ∈ ws)
    (hname : w.functionName = site.functionName) : w.importedName = site.importedName := by
  obtain ⟨d, hd, rfl⟩ := exists_site_of_mem_planFrom hplan hw
  have hfirst := (CallSite.mem_dedup_iff _ _).mp hd
  exact congrArg Prod.snd (identity_eq_of_plan hplan hfirst hsite hname)

/-- An import specifier binds the function of a scheduling call, and nothing after it binds the name
again. Then the call has a site, and in every plan in which this site is the first of its key there
is a wrapper of the name; its import keeps the specifier's export exactly if the export is named by a
word, or is the default one, or has the function's name. -/
theorem import_keeps_export_iff {settings : Settings} {file : Path} {text : List Char} {m : Module}
    (hm : Module.ofScheduling? settings file text = some m) {call : ScheduleCall}
    (hcall : call ∈ m.scheduleCalls settings.callName) {statement specifier name : Node}
    {rest : List Node} {source : String} (hsource : m.importSource? statement = some source)
    (hname : specifier.children = name :: rest) (hexport : m.IsExportName name)
    (hbinds : m.LastBinds statement specifier call.functionName) :
    let f := call.functionName
    let exported := (m.specifierNames specifier).1
    ∃ site ∈ (CallSite.extract settings file text).1, site.functionName = f ∧
      site.origin = source ∧
      ∀ sites container table ws, CallSite.IsFirst sites site →
        plan sites container table = .ok ws →
        (∃ w ∈ ws, w.functionName = f) ∧
        ∀ w ∈ ws, w.functionName = f →
          let line := importLine w.functionName w.importedName w.importPath
          line ∈ schedulerLines w settings ∧
          (KeepsExport m name exported f w.importPath line ↔
            (name.kind = .string → exported = defaultExport ∨ exported = f)) := by
  intro f exported
  have hexported : exported = if name.kind = .string then name.stringValue m.source
      else name.text m.source := by
    simp only [exported, Module.specifierNames, hname]
  let site : CallSite := ⟨f, source, file, if exported = f then none else some exported⟩
  have hsite : site ∈ (CallSite.extract settings file text).1 := by
    rw [CallSite.extract, hm]
    exact List.mem_map.mpr ⟨call, hcall, CallSite.ofCall_of_lastBinds hbinds hsource⟩
  refine ⟨site, hsite, rfl, rfl, ?_⟩
  intro sites container table ws hfirst hplan
  refine ⟨exists_mem_plan_of_site hplan hfirst.mem, ?_⟩
  intro w hw hf line
  have hline : line = recordedLine exported f w.importPath := by
    change importLine w.functionName w.importedName w.importPath = _
    rw [importedName_of_mem_plan hplan hfirst hw hf, hf]
    rfl
  refine ⟨by simp [schedulerLines, line], ?_⟩
  rw [hline]
  exact keepsExport_recordedLine_iff hexport hexported

theorem import_keeps_export_of_word :
    let source := ("import \x7b cronStart \x7d from \"workflow-cron-start\"\n" ++
      "import \x7b nightly as job \x7d from \"./jobs\"\ncronStart(job, [])\n").toList
    let file := Path.parse "/p/app/page.ts"
    let container := Path.parse "/p/app/cron-wrappers"
    let table : AliasTable := ⟨.parse "/p", []⟩
    let m := Module.parse file source
    ∃ name : Node, name.kind = .identifier ∧ name.text m.source = "nightly" ∧
      ∃ w, plan (CallSite.extract {} file source).1 container table = .ok [w] ∧
        KeepsExport m name "nightly" "job" w.importPath
          (importLine w.functionName w.importedName w.importPath) := by
  intro source file container table m
  let site : CallSite := ⟨"job", "./jobs", file, some "nightly"⟩
  have hgates : Mention.mentionsImport source "cronStart" "workflow-cron-start" ∧
      m.importsName "cronStart" "workflow-cron-start" ∧
      (CallSite.extract {} file source).1 = [site] := by decide +kernel
  obtain ⟨statement, hstatement, specifier, hspecifier, name, hname, call, hcall, hsource, hnames,
      hf, hkind, htext⟩ :
      ∃ statement ∈ m.imports.getLast?, ∃ specifier ∈ (Module.specifiers statement).getLast?,
      ∃ name ∈ specifier.children.head?, ∃ call ∈ (m.scheduleCalls "cronStart").head?,
        m.importSource? statement = some "./jobs" ∧
        m.specifierNames specifier = ("nightly", "job") ∧ call.functionName = "job" ∧
        name.kind = .identifier ∧ name.text m.source = "nightly" := by decide +kernel
  obtain ⟨hmention, himports, hsites⟩ := hgates
  obtain ⟨rest, hchildren⟩ := List.head?_eq_some_iff.mp hname
  have hexport : m.IsExportName name := .inl ⟨hkind, by rw [htext]; decide⟩
  have hbinds : m.LastBinds statement specifier call.functionName := by
    have h := Module.lastBinds_of_getLast? hstatement hspecifier
    rwa [hnames, ← hf] at h
  have hm : Module.ofScheduling? {} file source = some m :=
    Module.ofScheduling_of_importsName hmention himports
  have hmem : call ∈ m.scheduleCalls ({} : Settings).callName := List.mem_of_mem_head? hcall
  obtain ⟨found, hfound, -, -, hkeeps⟩ :=
    import_keeps_export_iff hm hmem hsource hchildren hexport hbinds
  rw [hsites] at hfound ⊢
  obtain rfl := List.mem_singleton.mp hfound
  refine ⟨name, hkind, htext, ofSite container table site, rfl, ?_⟩
  obtain ⟨-, hlines⟩ := hkeeps [site] container table _ ⟨[], [], rfl, by simp⟩ rfl
  have hline := (hlines (ofSite container table site) List.mem_cons_self hf.symm).2
  rw [hnames, hf] at hline
  exact hline.mpr fun h => absurd (hkind.symm.trans h) (by decide)

/-- A name in quotes is written without them. -/
theorem import_loses_export_of_literal :
    let source := ("import \x7b cronStart \x7d from \"workflow-cron-start\"\n" ++
      "import \x7b \"nightly-job\" as job \x7d from \"./jobs\"\ncronStart(job, [])\n").toList
    let file := Path.parse "/p/app/page.ts"
    let container := Path.parse "/p/app/cron-wrappers"
    let table : AliasTable := ⟨.parse "/p", []⟩
    let m := Module.parse file source
    ∃ statement ∈ m.imports.getLast?, ∃ specifier ∈ (Module.specifiers statement).getLast?,
    ∃ name ∈ specifier.children.head?, m.specifierNames specifier = ("nightly-job", "job") ∧
      name.kind = .string ∧ name.text m.source = "\"nightly-job\"" ∧
      m.LastBinds statement specifier "job" ∧
      ∃ w, plan (CallSite.extract {} file source).1 container table = .ok [w] ∧
        let line := importLine w.functionName w.importedName w.importPath
        line = "import \x7b nightly-job as job \x7d from \"../../jobs\"" ∧
        line ∈ schedulerLines w {} ∧
        ¬ KeepsExport m name "nightly-job" "job" w.importPath line := by
  intro source file container table m
  let site : CallSite := ⟨"job", "./jobs", file, some "nightly-job"⟩
  have hsites : (CallSite.extract {} file source).1 = [site] := by decide +kernel
  obtain ⟨statement, hstatement, specifier, hspecifier, name, hname, hnames, hkind, htext⟩ :
      ∃ statement ∈ m.imports.getLast?, ∃ specifier ∈ (Module.specifiers statement).getLast?,
      ∃ name ∈ specifier.children.head?, m.specifierNames specifier = ("nightly-job", "job") ∧
        name.kind = .string ∧ name.text m.source = "\"nightly-job\"" := by decide +kernel
  have hexport : m.IsExportName name := by
    refine .inr ⟨hkind, '"', "nightly-job".toList, .inl rfl, ?_⟩
    have hchars := congrArg String.toList htext
    rw [Node.text, String.toList_ofList] at hchars
    exact hchars
  have hexported : "nightly-job" = if name.kind = .string then name.stringValue m.source
      else name.text m.source := by
    have hvalue := congrArg (fun text : String => String.ofList (Node.unquote text.toList)) htext
    rw [Node.text, String.toList_ofList] at hvalue
    rw [if_pos hkind, Node.stringValue, hvalue]
    decide
  have hbinds := Module.lastBinds_of_getLast? hstatement hspecifier
  rw [hnames] at hbinds
  have hline : importLine "job" (some "nightly-job")
      (ofSite container table site).importPath =
        "import \x7b nightly-job as job \x7d from \"../../jobs\"" := by decide +kernel
  refine ⟨statement, hstatement, specifier, hspecifier, name, hname, hnames, hkind, htext,
    hbinds, ofSite container table site, ?_, hline, ?_, ?_⟩
  · rw [hsites]
    rfl
  · simp [schedulerLines]
  · intro h
    rcases (keepsExport_recordedLine_iff hexport hexported).mp h hkind with h | h
    · exact absurd h (by decide)
    · exact absurd h (by decide)

end Wrapper

end CronWrap
