import CronWrap.Proofs.Conversion.Rewriting

/-! The names that a converted module binds by its imports: those that are left of its own imports,
and those of the new ones. -/
namespace CronWrap

open Syntax

/-- The statement that makes a binding in which the export has the local name. -/
def Binding.line (b : Binding) : String := importLine b.localName none b.source

namespace Module

variable (m : Module) (settings : Settings)

/-! ## What is left -/

/-- The specifiers that are left of an import. -/
def keptSpecifiers (i : Node) : List Node :=
  if m.LosesCall settings i then m.others settings.callName i else specifiers i

/-- The bindings that are left of an import, the default import first. -/
def keptOf (i : Node) : List Binding :=
  match m.importSource? i with
  | none => []
  | some source =>
    ((defaultImport? i).toList.map fun n => ⟨n.text m.source, defaultExport, source⟩) ++
      (m.keptSpecifiers settings i).map fun s =>
        ⟨(m.specifierNames s).2, (m.specifierNames s).1, source⟩

def keptBindings : List Binding := m.imports.flatMap (m.keptOf settings)

theorem keptSpecifiers_sublist (i : Node) :
    (m.keptSpecifiers settings i).Sublist (specifiers i) := by
  unfold keptSpecifiers
  split
  · exact List.filter_sublist
  · exact List.Sublist.refl _

theorem keptOf_sublist (i : Node) : (m.keptOf settings i).Sublist (m.statementBindings i) := by
  unfold keptOf statementBindings
  cases m.importSource? i with
  | none => exact List.Sublist.refl _
  | some source => exact ((m.keptSpecifiers_sublist settings i).map _).append_left _

theorem keptBindings_sublist : (m.keptBindings settings).Sublist m.bindings := by
  unfold keptBindings bindings
  induction m.imports with
  | nil => exact List.Sublist.refl _
  | cons i rest ih => exact (m.keptOf_sublist settings i).append ih

/-! ## What is new -/

/-- The bindings of the new imports: the start primitive, unless it is imported, and the wrappers of
functions. -/
def newBindings (container file : Path) (functions : List String) : List Binding :=
  (if m.ImportsStart settings then []
    else [⟨settings.startName, settings.startName, settings.startModule⟩]) ++
  (distinctFrom [] functions).map fun f =>
    ⟨Layout.wrapperName f, Layout.wrapperName f, wrapperSpecifier container file f⟩

theorem newImports_eq_lines (container file : Path) (functions : List String) :
    m.newImports settings container file functions =
      (m.newBindings settings container file functions).map Binding.line := by
  rw [newImports_eq, importLines, newBindings, List.map_append, List.map_map]
  simp only [Function.comp_def]
  by_cases h : m.ImportsStart settings
  · simp only [if_pos h, List.map_nil, Binding.line]
  · simp only [if_neg h, List.map_cons, List.map_nil, Binding.line]

theorem nodup_wrapperNames (functions : List String) :
    ((distinctFrom [] functions).map Layout.wrapperName).Nodup :=
  (nodup_distinctFrom [] functions).map Layout.wrapperName_injective

/-- The new names and some others are pairwise distinct exactly if no wrapper has the name of one of
the others, and the start primitive, if it is imported anew, has the name of no other and of no
wrapper. -/
theorem nodup_append_newBindings_iff {container file : Path} {functions : List String}
    {kept : List Binding} (hkept : (kept.map (·.localName)).Nodup) :
    ((kept ++ m.newBindings settings container file functions).map (·.localName)).Nodup ↔
      (¬ m.ImportsStart settings → (∀ b ∈ kept, b.localName ≠ settings.startName) ∧
        ∀ f ∈ functions, Layout.wrapperName f ≠ settings.startName) ∧
      ∀ f ∈ functions, ∀ b ∈ kept, b.localName ≠ Layout.wrapperName f := by
  let starts : List String := if m.ImportsStart settings then [] else [settings.startName]
  have hnames : (m.newBindings settings container file functions).map (·.localName) =
      starts ++ (distinctFrom [] functions).map Layout.wrapperName := by
    rw [newBindings, List.map_append, List.map_map, apply_ite (List.map Binding.localName)]
    rfl
  have hstarts : starts.Nodup ∧ ∀ x, x ∈ starts ↔ ¬ m.ImportsStart settings ∧ x = settings.startName := by
    by_cases h : m.ImportsStart settings <;> simp [starts, h]
  have hwrapper : ∀ x, x ∈ (distinctFrom [] functions).map Layout.wrapperName ↔
      ∃ f ∈ functions, Layout.wrapperName f = x := by
    simp [mem_distinctFrom_iff]
  rw [List.map_append, hnames, List.nodup_append, List.nodup_append]
  simp only [hkept, hstarts, nodup_wrapperNames, true_and, List.mem_append, hwrapper]
  constructor
  · rintro ⟨hstart, hother⟩
    refine ⟨fun h => ⟨fun b hb => ?_, fun f hf => ?_⟩, fun f hf b hb => ?_⟩
    · exact hother _ (List.mem_map_of_mem hb) _ (.inl ⟨h, rfl⟩)
    · exact (hstart _ ⟨h, rfl⟩ _ ⟨f, hf, rfl⟩).symm
    · exact hother _ (List.mem_map_of_mem hb) _ (.inr ⟨f, hf, rfl⟩)
  · rintro ⟨hstart, hother⟩
    constructor
    · rintro x ⟨h, rfl⟩ y ⟨f, hf, rfl⟩
      exact ((hstart h).2 f hf).symm
    · intro x hx y hy
      obtain ⟨b, hb, rfl⟩ := List.mem_map.mp hx
      rcases hy with ⟨h, rfl⟩ | ⟨f, hf, rfl⟩
      · exact (hstart h).1 b hb
      · exact hother f hf b hb

end Module

namespace Converted

/-- The bindings of a converted text: what is left of its imports, and the new ones. -/
def importBindings (settings : Settings) (container file : Path) (source : List Char) :
    List Binding :=
  match Module.ofScheduling? settings file source with
  | none => (Module.parse file source).bindings
  | some m =>
    let calls := m.convertedCalls settings.callName
    if calls = [] then m.bindings
    else m.keptBindings settings ++
      m.newBindings settings container file (calls.map (·.functionName))

/-- The lines of new imports are those of the new bindings. Let the imports of a text bind pairwise
distinct names. After the conversion they do so exactly if no import that is left binds the name of
a new wrapper; and, where the start primitive is not imported from its module under its own name,
neither an import that is left nor a new wrapper has that name. -/
theorem nodup_importBindings_iff {settings : Settings} {file : Path} {source : List Char}
    (hdistinct : ((Module.parse file source).bindings.map (·.localName)).Nodup) (container : Path) :
    (∀ (m : Module) functions, m.newImports settings container file functions =
      (m.newBindings settings container file functions).map Binding.line) ∧
    (((importBindings settings container file source).map (·.localName)).Nodup ↔
      ∀ m, Module.ofScheduling? settings file source = some m →
        ∀ call ∈ m.convertedCalls settings.callName,
          (∀ b ∈ m.keptBindings settings, b.localName ≠ Layout.wrapperName call.functionName) ∧
          (¬ m.ImportsStart settings →
            (∀ b ∈ m.keptBindings settings, b.localName ≠ settings.startName) ∧
            Layout.wrapperName call.functionName ≠ settings.startName)) := by
  refine ⟨fun m functions => m.newImports_eq_lines settings container file functions, ?_⟩
  unfold importBindings
  cases hm : Module.ofScheduling? settings file source with
  | none => simp [hdistinct]
  | some m =>
    obtain rfl := Module.eq_parse_of_ofScheduling hm
    generalize Module.parse file source = m at hdistinct ⊢
    have hkept : ((m.keptBindings settings).map (·.localName)).Nodup :=
      hdistinct.sublist ((m.keptBindings_sublist settings).map _)
    simp only [Option.some.injEq, forall_eq']
    split
    · rename_i hnone
      simp [hnone, hdistinct]
    · rename_i hsome
      rw [m.nodup_append_newBindings_iff settings hkept]
      simp only [List.forall_mem_map]
      constructor
      · rintro ⟨hstart, hwrapper⟩ call hcall
        refine ⟨hwrapper call hcall, fun h => ?_⟩
        obtain ⟨hother, hnone⟩ := hstart h
        exact ⟨hother, hnone call hcall⟩
      · intro h
        obtain ⟨first, hfirst⟩ := List.exists_mem_of_ne_nil _ hsome
        refine ⟨fun hstart => ⟨((h first hfirst).2 hstart).1, ?_⟩, fun call hcall => (h call hcall).1⟩
        exact fun call hcall => ((h call hcall).2 hstart).2

theorem nodup_importBindings_of_page :
    let file := Path.parse "/p/app/page.ts"
    let container := Path.parse "/p/app/cron-wrappers"
    let source := ("import \x7b cronStart \x7d from \"workflow-cron-start\"\n" ++
      "import \x7b job \x7d from \"./jobs\"\ncronStart(job, [], \x7b\x7d)\n").toList
    ((Module.parse file source).bindings.map (·.localName)).Nodup ∧
      ((importBindings {} container file source).map (·.localName)).Nodup := by
  intro file container source
  have hfacts : ((Module.parse file source).bindings.map (·.localName)).Nodup ∧
      ∀ call ∈ (Module.parse file source).convertedCalls "cronStart",
        (∀ b ∈ (Module.parse file source).keptBindings {},
          b.localName ≠ Layout.wrapperName call.functionName) ∧
        (∀ b ∈ (Module.parse file source).keptBindings {}, b.localName ≠ "start") ∧
        Layout.wrapperName call.functionName ≠ "start" := by decide +kernel
  obtain ⟨hdistinct, hapart⟩ := hfacts
  refine ⟨hdistinct, (nodup_importBindings_iff hdistinct container).2.mpr ?_⟩
  intro m hm
  obtain rfl := Module.eq_parse_of_ofScheduling hm
  intro call hcall
  obtain ⟨hwrapper, hstart⟩ := hapart call hcall
  exact ⟨hwrapper, fun _ => hstart⟩

/-- A wrapper that is imported already is imported again. -/
theorem importBindings_of_imported_wrapper :
    let settings : Settings := { callName := "run", callModule := "cron", startModule := "api" }
    let file := Path.parse "/project/src/app/page.ts"
    let container := Path.parse "/project/src/app/cron-wrappers"
    let source := ("import \x7b __cron__f \x7d from './cron-wrappers/trigger-f/workflow'\n" ++
      "import \x7b run \x7d from 'cron'\nrun(f, [], \x7b\x7d)").toList
    let code := ("import \x7b __cron__f \x7d from './cron-wrappers/trigger-f/workflow'\n" ++
      "import \x7b start \x7d from \"api\"\n" ++
      "import \x7b __cron__f \x7d from \"./cron-wrappers/trigger-f/workflow\"\n" ++
      "start(__cron__f, [\x7b args: [] \x7d])").toList
    ((Module.parse file source).bindings.map (·.localName)).Nodup ∧
      (ofSource settings container file source).1.code = code ∧
      (Module.parse file code).bindings = importBindings settings container file source ∧
      ¬ ((importBindings settings container file source).map (·.localName)).Nodup := by
  intro settings file container source code
  let m := Module.parse file source
  let calls := m.convertedCalls settings.callName
  let es := m.edits settings container file calls
    (calls.length = (m.scheduleCalls settings.callName).length)
  have hfacts : (Mention.mentionsImport source settings.callName settings.callModule ∧
        m.importsName settings.callName settings.callModule) ∧
      calls ≠ [] ∧ (es.rotate 1).Pairwise (fun a b => a.stop ≤ b.start) ∧
      Edit.weave source 0 (es.rotate 1) = code ∧ (m.bindings.map (·.localName)).Nodup ∧
      (Module.parse file code).bindings = importBindings settings container file source ∧
      ¬ ((importBindings settings container file source).map (·.localName)).Nodup := by
    decide +kernel
  obtain ⟨hgates, hcalls, hordered, hcode, hdistinct, hsame, htwice⟩ := hfacts
  have hfound := Module.ofScheduling_of_importsName hgates.1 hgates.2
  refine ⟨hdistinct, ?_, hsame, htwice⟩
  -- The call comes first in the list of edits and last in the text.
  rw [ofSource_eq_weave hfound hcalls (List.rotate_perm _ 1) hordered, hcode]

end Converted

end CronWrap
