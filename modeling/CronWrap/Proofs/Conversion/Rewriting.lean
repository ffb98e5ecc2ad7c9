import CronWrap.Proofs.Conversion.ImportLoss

/-! The text of a converted module, import by import and call by call: each import with what it
loses, the block of new imports in one place, each call with its replacement, and all else as it
was. -/
namespace CronWrap

namespace Module

open Syntax

variable (m : Module) (settings : Settings)

/-! ## The block of new imports -/

/-- The names that occur in a list, in the order in which they first do. -/
structure IsFirsts (names firsts : List String) : Prop where
  mem_iff : ∀ f, f ∈ firsts ↔ f ∈ names
  ordered : firsts.Pairwise fun a b => names.idxOf a < names.idxOf b

theorem isFirsts_distinctFrom (names : List String) : IsFirsts names (distinctFrom [] names) where
  mem_iff f := by simp [mem_distinctFrom_iff]
  ordered := pairwise_distinctFrom [] names

/-- The start primitive is imported from its module under its own name. -/
def ImportsStart : Prop :=
  ∃ b ∈ m.bindings, b.source = settings.startModule ∧ b.importedName = settings.startName ∧
    b.localName = settings.startName

instance : Decidable (m.ImportsStart settings) :=
  inferInstanceAs (Decidable (∃ b ∈ m.bindings, _))

/-- The lines of new imports: the start primitive, unless it is imported, and the wrappers of
functions. -/
def importLines (container file : Path) (functions : List String) : List String :=
  (if m.ImportsStart settings then []
    else [importLine settings.startName none settings.startModule]) ++
  functions.map fun f =>
    importLine (Layout.wrapperName f) none (wrapperSpecifier container file f)

theorem hasStartImport_iff : m.hasStartImport settings = true ↔ m.ImportsStart settings := by
  simp [hasStartImport, ImportsStart, and_assoc]

theorem newImports_eq (container file : Path) (functions : List String) :
    m.newImports settings container file functions =
      m.importLines settings container file (distinctFrom [] functions) := by
  have hwrappers : (wrapperImports container file functions).map (fun w => importLine w.1 none w.2) =
      (distinctFrom [] functions).map fun f =>
        importLine (Layout.wrapperName f) none (wrapperSpecifier container file f) := by
    simp only [wrapperImports, List.map_map, Function.comp_def]
  rw [newImports, importLines, hwrappers]
  by_cases h : m.ImportsStart settings
  · rw [if_pos h, if_pos ((m.hasStartImport_iff settings).mpr h)]
  · rw [if_neg h, if_neg fun hstart => h ((m.hasStartImport_iff settings).mp hstart)]

/-- Where a block comes to stand among what is put in place of the imports: behind the last import
that stays, or in place of the first one. -/
inductive Placed (block : List Char) : List Edit → List Edit → Prop
  | behind {before after : List Node} {last : Node} {parts : List Edit}
      (himports : m.imports = before ++ last :: after) (hstays : ¬ m.Goes settings last)
      (hgo : ∀ i ∈ after, m.Goes settings i) :
      Placed block parts (parts ++ [⟨last.stop, last.stop, '\n' :: block⟩])
  | instead {first : Edit} {rest : List Edit} (hgo : ∀ i ∈ m.imports, m.Goes settings i) :
      Placed block (first :: rest) (⟨first.start, first.stop, block ++ ['\n']⟩ :: rest)

/-- A module with its imports and calls rewritten. -/
structure Rewriting (container file : Path) where
  /-- What is put in place of each import, before the block has its place. -/
  parts : List Edit
  /-- The functions of the calls that are replaced. -/
  functions : List String
  placed : List Edit
  /-- All edits, from left to right. -/
  ordered : List Edit
  rewritten : List.Forall₂ (m.Rewritten settings) m.imports parts
  firsts : IsFirsts ((m.convertedCalls settings.callName).map (·.functionName)) functions
  isPlaced : m.Placed settings
    ("\n".intercalate (m.importLines settings container file functions)).toList parts placed
  perm : ordered.Perm
    ((m.convertedCalls settings.callName).map (ScheduleCall.edit settings m.source) ++ placed)
  ascending : ordered.Pairwise fun a b => a.stop ≤ b.start

def Rewriting.text {m : Module} {settings : Settings} {container file : Path}
    (r : m.Rewriting settings container file) : List Char := Edit.weave m.source 0 r.ordered

/-! ## Pieces -/

theorem perm_edits_of_removals (rs : List (Node × Removal)) :
    (rs.flatMap fun x => x.2.edit?.toList).Perm (shortened rs ++ (removed rs).map (·.2)) := by
  induction rs with
  | nil => exact List.Perm.nil
  | cons x rs ih =>
    obtain ⟨i, r⟩ := x
    cases r with
    | nothing => exact ih
    | specifiers e => exact ih.cons e
    | statement e => exact (ih.cons e).trans List.perm_middle.symm

/-- The ranges of the imports and of the block, with the edits that lie in them. -/
structure AreLaid (block : List Char) (ps : List Edit.Piece) : Prop where
  made : ∀ p ∈ ps, p.IsMade m.source
  apart : ps.Pairwise fun a b => a.whole.stop ≤ b.whole.start ∨ b.whole.stop ≤ a.whole.start
  within : ∀ p ∈ ps, ∃ i ∈ m.imports, i.start ≤ p.whole.start ∧
    p.whole.stop ≤ removalEnd m.source i.stop
  perm : (ps.flatMap (·.parts)).Perm
    (shortened (m.losses settings m.imports) ++
      insertion (surviving (m.losses settings m.imports)) (removed (m.losses settings m.imports)) block)
  placed : m.Placed settings block
    (m.imports.map fun i => ((m.loss settings i).piece m.source i).whole) (ps.map (·.whole))

variable {m settings}

theorem insertion_of_getLast? {stay gone : List (Node × Edit)} {last : Node} {e : Edit}
    {block : List Char} (h : stay.getLast? = some (last, e)) :
    insertion stay gone block = ⟨last.stop, last.stop, '\n' :: block⟩ :: gone.map (·.2) := by
  simp [insertion, h]

theorem perm_parts (is : List Node) :
    ((is.map fun i => (m.loss settings i).piece m.source i).flatMap (·.parts)).Perm
      (shortened (m.losses settings is) ++ (removed (m.losses settings is)).map (·.2)) := by
  simpa only [losses, List.flatMap_map, Removal.parts_piece] using
    perm_edits_of_removals (m.losses settings is)

theorem exists_last_of_surviving {last : Node} {e : Edit}
    (h : (surviving (m.losses settings m.imports)).getLast? = some (last, e)) :
    ∃ before after, m.imports = before ++ last :: after ∧ ¬ m.Goes settings last ∧
      ∀ i ∈ after, m.Goes settings i := by
  rw [surviving, losses, List.filterMap_map, List.getLast?_filterMap, List.findSome?_eq_some_iff] at h
  obtain ⟨after, i, before, himports, hi, hafter⟩ := h
  simp only [goes_iff_loss]
  have hlast : i = last ∧ ∀ e, m.loss settings i ≠ .statement e := by
    cases hloss : m.loss settings i <;> simp_all
  obtain ⟨rfl, hstays⟩ := hlast
  refine ⟨before.reverse, after.reverse, ?_, by simpa using hstays, ?_⟩
  · rw [← List.reverse_inj, himports]
    simp
  · intro j hj
    have hgo := hafter j (List.mem_reverse.mp hj)
    cases hloss : m.loss settings j <;> simp_all

theorem goes_of_surviving_eq_nil
    (h : surviving (m.losses settings m.imports) = []) :
    ∀ i ∈ m.imports, m.Goes settings i := by
  intro i hi
  rw [surviving, losses, List.filterMap_map, List.filterMap_eq_nil_iff] at h
  rw [goes_iff_loss]
  have hgo := h i hi
  cases hloss : m.loss settings i <;> simp_all

namespace IsOrderly

variable (hm : m.IsOrderly) (hname : settings.callName ≠ "") (block : List Char)
include hm hname

theorem pairwise_pieces :
    (m.imports.map fun i => (m.loss settings i).piece m.source i).Pairwise
      fun a b => a.whole.stop ≤ b.whole.start ∨ b.whole.stop ≤ a.whole.start := by
  rw [List.pairwise_map]
  refine hm.pairwise_imports.imp_of_mem ?_
  intro a b ha hb hab
  obtain ⟨-, hstop, -⟩ := hm.piece_loss_bounds hname ha
  obtain ⟨hstart, -, -⟩ := hm.piece_loss_bounds hname hb
  left
  omega

/-- The block goes behind the last import that stays. -/
theorem areLaid_behind {before after : List Node} {last : Node}
    (himports : m.imports = before ++ last :: after) (hstays : ¬ m.Goes settings last)
    (hgo : ∀ i ∈ after, m.Goes settings i) {e : Edit}
    (hlast : (surviving (m.losses settings m.imports)).getLast? = some (last, e)) :
    m.AreLaid settings block ((m.imports.map fun i => (m.loss settings i).piece m.source i) ++
      [.single ⟨last.stop, last.stop, '\n' :: block⟩]) where
  made p hp := by
    rcases List.mem_append.mp hp with hp | hp
    · obtain ⟨i, hi, rfl⟩ := List.mem_map.mp hp
      exact hm.isMade_piece_loss hname hi
    · rw [List.mem_singleton.mp hp]
      exact Edit.Piece.isMade_single (Nat.le_refl _)
  apart := by
    refine List.pairwise_append.mpr ⟨hm.pairwise_pieces hname, List.pairwise_singleton _ _, ?_⟩
    intro p hp q hq
    obtain ⟨i, hi, rfl⟩ := List.mem_map.mp hp
    rw [List.mem_singleton.mp hq]
    simp only [Edit.Piece.single]
    have hmem : last ∈ m.imports := by simp [himports]
    have hle := (hm.import_bounds hmem last.self_mem_nodes).2.1
    have hend := le_removalEnd m.source last.stop
    obtain ⟨hstart, hstop, hwhole⟩ := hm.piece_loss_bounds hname hi
    have hpairwise := hm.pairwise_imports
    rw [himports, List.pairwise_append, List.pairwise_cons] at hpairwise
    obtain ⟨-, ⟨hbehind, -⟩, hbefore⟩ := hpairwise
    rw [himports] at hi
    rcases List.mem_append.mp hi with hi | hi
    · have := hbefore i hi last List.mem_cons_self
      left
      omega
    · rcases List.mem_cons.mp hi with rfl | hi
      · exact .inl (hwhole hstays).le
      · have := hbehind i hi
        right
        omega
  within p hp := by
    rcases List.mem_append.mp hp with hp | hp
    · obtain ⟨i, hi, rfl⟩ := List.mem_map.mp hp
      obtain ⟨hstart, hstop, -⟩ := hm.piece_loss_bounds hname hi
      exact ⟨i, hi, hstart.ge, hstop⟩
    · rw [List.mem_singleton.mp hp]
      have hmem : last ∈ m.imports := by simp [himports]
      exact ⟨last, hmem, (hm.import_bounds hmem last.self_mem_nodes).2.1, le_removalEnd _ _⟩
  perm := by
    rw [insertion_of_getLast? hlast, List.flatMap_append]
    refine ((perm_parts m.imports).append_right _).trans ?_
    rw [List.append_assoc]
    exact (List.perm_append_singleton _ _).append_left _
  placed := by
    rw [List.map_append, List.map_map]
    exact .behind himports hstays hgo

/-- No import stays, and the block goes in place of the first one. -/
theorem areLaid_instead {i : Node} {rest : List Node} (himports : m.imports = i :: rest)
    (hnone : surviving (m.losses settings m.imports) = []) {first : Edit}
    (hfirst : m.loss settings i = .statement first) :
    m.AreLaid settings block (.single ⟨first.start, first.stop, block ++ ['\n']⟩ ::
      rest.map fun i => (m.loss settings i).piece m.source i) where
  made p hp := by
    rcases List.mem_cons.mp hp with rfl | hp
    · have hi : i ∈ m.imports := by simp [himports]
      exact Edit.Piece.isMade_single ((hm.loss_bounds hname hi).2 first hfirst).2.1.le
    · obtain ⟨j, hj, rfl⟩ := List.mem_map.mp hp
      exact hm.isMade_piece_loss hname (by simp [himports, hj])
  apart := by
    -- The block has the range of the import that it replaces.
    have hpieces := hm.pairwise_pieces hname
    rw [himports, List.map_cons, hfirst, List.pairwise_cons] at hpieces
    exact List.pairwise_cons.mpr hpieces
  within p hp := by
    rcases List.mem_cons.mp hp with rfl | hp
    · have hi : i ∈ m.imports := by simp [himports]
      obtain ⟨hstart, -, hstop⟩ := (hm.loss_bounds hname hi).2 first hfirst
      exact ⟨i, hi, hstart.ge, hstop.le⟩
    · obtain ⟨j, hj, rfl⟩ := List.mem_map.mp hp
      have hj : j ∈ m.imports := by simp [himports, hj]
      obtain ⟨hstart, hstop, -⟩ := hm.piece_loss_bounds hname hj
      exact ⟨j, hj, hstart.ge, hstop⟩
  perm := by
    rw [hnone, himports, losses, List.map_cons, hfirst, List.flatMap_cons]
    exact ((perm_parts rest).cons _).trans List.perm_middle.symm
  placed := by
    rw [himports, List.map_cons, List.map_cons, List.map_map, hfirst]
    exact .instead (goes_of_surviving_eq_nil hnone)

theorem exists_areLaid (himports : m.imports ≠ []) : ∃ ps, m.AreLaid settings block ps := by
  cases hlast : (surviving (m.losses settings m.imports)).getLast? with
  | some last =>
    obtain ⟨before, after, hsplit, hstays, hgo⟩ := exists_last_of_surviving hlast
    exact ⟨_, hm.areLaid_behind hname block hsplit hstays hgo hlast⟩
  | none =>
    have hnone := List.getLast?_eq_none_iff.mp hlast
    obtain ⟨i, rest, hsplit⟩ := List.exists_cons_of_ne_nil himports
    have hgoes := goes_of_surviving_eq_nil hnone i (by simp [hsplit])
    obtain ⟨first, hfirst⟩ := (m.goes_iff_loss settings).mp hgoes
    exact ⟨_, hm.areLaid_instead hname block hsplit hnone hfirst⟩

/-- Each call, and each piece of the imports, is a piece of the text. -/
theorem pieces_of_areLaid {ps : List Edit.Piece} (hps : m.AreLaid settings block ps) :
    let qs := ((m.convertedCalls settings.callName).map
      fun c => Edit.Piece.single (c.edit settings m.source)) ++ ps
    (∀ p ∈ qs, p.IsMade m.source) ∧
      qs.Pairwise fun a b => a.whole.stop ≤ b.whole.start ∨ b.whole.stop ≤ a.whole.start := by
  have hcall : ∀ c ∈ m.convertedCalls settings.callName, c.node.start < c.node.stop ∧
      ∀ i ∈ m.imports, c.node.stop ≤ i.start ∨ removalEnd m.source i.stop ≤ c.node.start := by
    intro c hc
    obtain ⟨hroot, hkind, hlt⟩ := hm.call_bounds hname ((m.convertedCalls_sublist _).subset hc)
    exact ⟨hlt, fun i hi => hm.call_apart hroot hkind hi⟩
  constructor
  · intro p hp
    rcases List.mem_append.mp hp with hp | hp
    · obtain ⟨c, hc, rfl⟩ := List.mem_map.mp hp
      exact Edit.Piece.isMade_single (hcall c hc).1.le
    · exact hps.made p hp
  · refine List.pairwise_append.mpr ⟨?_, hps.apart, ?_⟩
    · have hcalls := List.pairwise_map.mp (hm.pairwise_calls hname)
      exact List.pairwise_map.mpr (hcalls.imp And.left)
    · intro p hp q hq
      obtain ⟨c, hc, rfl⟩ := List.mem_map.mp hp
      obtain ⟨i, hi, hstart, hstop⟩ := hps.within q hq
      rcases (hcall c hc).2 i hi with h | h
      · exact .inl (h.trans hstart)
      · exact .inr (hstop.trans h)

omit block in
/-- The edits of the calls and of the imports make the text that is put together from the pieces. -/
theorem exists_rewriting_of_edits (container file : Path) (himports : m.imports ≠ []) :
    ∃ r : m.Rewriting settings container file,
      Edit.applyAll m.source (m.edits settings container file
        (m.convertedCalls settings.callName) ((m.convertedCalls settings.callName).length =
          (m.scheduleCalls settings.callName).length)) = r.text := by
  let calls := m.convertedCalls settings.callName
  let functions := calls.map (·.functionName)
  let single : ScheduleCall → Edit.Piece := fun c => .single (c.edit settings m.source)
  obtain ⟨ps, hps⟩ := hm.exists_areLaid hname
    ("\n".intercalate (m.newImports settings container file functions)).toList himports
  obtain ⟨hmade, hapart⟩ := hm.pieces_of_areLaid hname _ hps
  have hparts : ((calls.map single ++ ps).flatMap (·.parts)).Perm
      (m.edits settings container file calls
        (calls.length = (m.scheduleCalls settings.callName).length)) := by
    have hsingles : (calls.map single).flatMap (·.parts) =
        calls.map (ScheduleCall.edit settings m.source) := by
      rw [List.flatMap_map]
      exact List.map_eq_flatMap.symm
    rw [List.flatMap_append, hsingles, edits_eq, removals_eq, List.append_assoc]
    exact hps.perm.append_left _
  obtain ⟨ordered, hperm, hascending, hcode⟩ := Edit.exists_weave_pieces
    (hm.edits_fit container file hname) (hm.edits_separate container file hname) hmade hapart hparts
  have hsingles : (calls.map single).map (·.whole) =
      calls.map (ScheduleCall.edit settings m.source) := List.map_map
  rw [List.map_append, hsingles] at hperm
  refine ⟨{
    parts := m.imports.map fun i => ((m.loss settings i).piece m.source i).whole
    functions := distinctFrom [] functions
    placed := ps.map (·.whole)
    ordered := ordered
    rewritten := ?_
    firsts := isFirsts_distinctFrom functions
    isPlaced := m.newImports_eq settings container file functions ▸ hps.placed
    perm := hperm
    ascending := hascending }, hcode⟩
  rw [List.forall₂_map_right_iff, List.forall₂_same]
  exact fun i _ => m.rewritten_piece_loss settings i

end IsOrderly

end Module

/-- A text that imports the scheduling call and has a call that can be converted becomes the one in
which each import is kept, keeps its other names, keeps its default or goes, by what it lists; the
block of new imports stands in one place; each converted call gives way to its replacement; and all
else is as it was. -/
theorem Converted.exists_rewriting {settings : Settings} {file : Path} {source : List Char}
    {m : Module} (hfound : Module.ofScheduling? settings file source = some m)
    (hcalls : m.convertedCalls settings.callName ≠ []) (container : Path) :
    ∃ r : m.Rewriting settings container file,
      (ofSource settings container file source).1.code = r.text := by
  obtain ⟨hm, hname⟩ := Module.isOrderly_of_ofScheduling hfound hcalls
  obtain ⟨r, hr⟩ := hm.exists_rewriting_of_edits hname container file
    (Module.imports_ne_nil_of_ofScheduling hfound)
  exact ⟨r, by rw [ofSource_eq_applyAll hfound hcalls, hr]⟩

theorem Converted.exists_rewriting_of_page :
    let settings : Settings := { callName := "run", callModule := "cron", startModule := "api" }
    let container := Path.parse "/app/cron-wrappers"
    let file := Path.parse "/app/page.ts"
    let source := ("import d, \x7b run \x7d from 'cron'\nimport \x7b run \x7d from 'cron';\n" ++
      "run(f, [], \x7b\x7d)").toList
    let converted := ("import d from 'cron'\nimport \x7b start \x7d from \"api\"\n" ++
      "import \x7b __cron__f \x7d from \"./cron-wrappers/trigger-f/workflow\"\n" ++
      "start(__cron__f, [\x7b args: [] \x7d])").toList
    let m := Module.parse file source
    (Module.ofScheduling? settings file source = some m ∧
      m.convertedCalls settings.callName ≠ []) ∧
    ∃ r : m.Rewriting settings container file,
      (ofSource settings container file source).1.code = r.text ∧ r.text = converted := by
  intro settings container file source converted m
  let calls := m.convertedCalls settings.callName
  let es := m.edits settings container file calls
    (calls.length = (m.scheduleCalls settings.callName).length)
  have hfacts : (Mention.mentionsImport source settings.callName settings.callModule ∧
      m.importsName settings.callName settings.callModule) ∧ calls ≠ [] ∧
      (es.rotate 1).Pairwise (fun a b => a.stop ≤ b.start) ∧
      Edit.weave source 0 (es.rotate 1) = converted := by decide +kernel
  obtain ⟨hgates, hcalls, hordered, hcode⟩ := hfacts
  have hfound := Module.ofScheduling_of_importsName hgates.1 hgates.2
  obtain ⟨r, hr⟩ := exists_rewriting hfound hcalls container
  refine ⟨⟨hfound, hcalls⟩, r, hr, ?_⟩
  -- The call comes first in the list of edits and last in the text.
  rw [← hr, ofSource_eq_weave hfound hcalls (List.rotate_perm _ 1) hordered, hcode]

/-- A specifier of the scheduling call with another local name stays where the call goes. -/
theorem Converted.keeps_other_local_name :
    let settings : Settings := { callName := "run", callModule := "cron", startModule := "api" }
    let container := Path.parse "/project/src/app/cron-wrappers"
    let file := Path.parse "/project/src/app/page.ts"
    let source := "import \x7b run, run as again \x7d from 'cron'\nrun(f, [], \x7b\x7d)".toList
    let m := Module.parse file source
    Module.ofScheduling? settings file source = some m ∧
      m.convertedCalls settings.callName ≠ [] ∧
      (m.convertedCalls settings.callName).length =
        (m.scheduleCalls settings.callName).length ∧
      (∃ i ∈ m.imports, m.importSource? i = some settings.callModule ∧
        (Module.specifiers i).length = 2 ∧
        (∀ s ∈ Module.specifiers i, (m.specifierNames s).1 = settings.callName) ∧
        Module.defaultImport? i = none) ∧
      (ofSource settings container file source).1.code =
        ("import \x7b run as again \x7d from 'cron'\nimport \x7b start \x7d from \"api\"\n" ++
          "import \x7b __cron__f \x7d from \"./cron-wrappers/trigger-f/workflow\"\n" ++
          "start(__cron__f, [\x7b args: [] \x7d])").toList := by
  intro settings container file source m
  let calls := m.convertedCalls settings.callName
  let es := m.edits settings container file calls
    (calls.length = (m.scheduleCalls settings.callName).length)
  have hfacts : (Mention.mentionsImport source settings.callName settings.callModule ∧
        m.importsName settings.callName settings.callModule) ∧
      calls ≠ [] ∧ calls.length = (m.scheduleCalls settings.callName).length ∧
      (∃ i ∈ m.imports, m.importSource? i = some settings.callModule ∧
        (Module.specifiers i).length = 2 ∧
        (∀ s ∈ Module.specifiers i, (m.specifierNames s).1 = settings.callName) ∧
        Module.defaultImport? i = none) ∧
      (es.rotate 1).Pairwise (fun a b => a.stop ≤ b.start) ∧
      Edit.weave source 0 (es.rotate 1) =
        ("import \x7b run as again \x7d from 'cron'\nimport \x7b start \x7d from \"api\"\n" ++
          "import \x7b __cron__f \x7d from \"./cron-wrappers/trigger-f/workflow\"\n" ++
          "start(__cron__f, [\x7b args: [] \x7d])").toList := by
    decide +kernel
  obtain ⟨hgates, hcalls, hall, himport, hordered, hcode⟩ := hfacts
  have hfound := Module.ofScheduling_of_importsName hgates.1 hgates.2
  refine ⟨hfound, hcalls, hall, himport, ?_⟩
  -- The call comes first in the list of edits and last in the text.
  rw [ofSource_eq_weave hfound hcalls (List.rotate_perm _ 1) hordered, hcode]

end CronWrap
