import CronWrap.Conversion.Module
import CronWrap.Proofs.Wrapper.Place
import CronWrap.Proofs.Wrapper.PlanShape

/-! The wrappers that a converted module imports: each is for a scheduling call of the module. -/
namespace CronWrap

/-! ## The calls -/

theorem ScheduleCall.outermostFrom_sublist (stop : Nat) (cs : List ScheduleCall) :
    (outermostFrom stop cs).Sublist cs := by
  induction cs generalizing stop with
  | nil => exact List.Sublist.refl _
  | cons c rest ih =>
    simp only [outermostFrom]
    split
    · exact (ih stop).cons _
    · exact (ih c.node.stop).cons_cons _

theorem Module.convertedCalls_sublist (m : Module) (callName : String) :
    (m.convertedCalls callName).Sublist (m.scheduleCalls callName) :=
  (ScheduleCall.outermostFrom_sublist 0 _).trans List.filter_sublist

@[simp] theorem CallSite.functionName_ofCall (file : Path) (bindings : List (String × Binding))
    (call : ScheduleCall) : (ofCall file bindings call).functionName = call.functionName := by
  unfold ofCall
  split <;> rfl

/-- Each scheduling call of a module gives a call site of its function. -/
theorem CallSite.exists_mem_extract {settings : Settings} {file : Path} {source : List Char}
    {m : Module} (hm : Module.ofScheduling? settings file source = some m) {call : ScheduleCall}
    (hcall : call ∈ m.scheduleCalls settings.callName) :
    ∃ c ∈ (extract settings file source).1, c.functionName = call.functionName := by
  refine ⟨ofCall file m.importMap call, ?_, functionName_ofCall _ _ _⟩
  simp only [extract, hm, ofModule?]
  exact List.mem_map.mpr ⟨call, hcall, rfl⟩

/-! ## The imports of wrappers -/

theorem Module.imports_ne_nil_of_importsName {m : Module} {name module : String}
    (h : m.importsName name module) : m.imports ≠ [] := by
  intro hnil
  simp [importsName, bindings, hnil] at h

theorem Module.imports_ne_nil_of_ofScheduling {settings : Settings} {file : Path}
    {source : List Char} {m : Module} (h : ofScheduling? settings file source = some m) :
    m.imports ≠ [] := by
  have hname : m.importsName settings.callName settings.callModule := by
    simp only [ofScheduling?, importing?] at h
    split at h
    · split at h
      · cases h
        assumption
      · cases h
    · cases h
  exact imports_ne_nil_of_importsName hname

namespace Converted

/-- The wrappers that a converted module imports, by their names and specifiers. -/
def wrapperImports (settings : Settings) (container file : Path) (source : List Char) :
    List (String × String) :=
  match Module.ofScheduling? settings file source with
  | none => []
  | some m =>
    Module.wrapperImports container file
      ((m.convertedCalls settings.callName).map (·.functionName))

/-- A wrapper is imported for some scheduling call of the module. -/
theorem exists_call_of_wrapperImport {settings : Settings} {container file : Path}
    {source : List Char} {name specifier : String}
    (h : (name, specifier) ∈ wrapperImports settings container file source) :
    ∃ m, Module.ofScheduling? settings file source = some m ∧
      ∃ call ∈ m.convertedCalls settings.callName,
        name = Layout.wrapperName call.functionName ∧
        specifier = Module.wrapperSpecifier container file call.functionName := by
  unfold wrapperImports at h
  split at h
  · cases h
  · rename_i m hm
    obtain ⟨f, hf, he⟩ := List.mem_map.mp h
    obtain ⟨call, hcall, rfl⟩ := List.mem_map.mp ((Module.mem_distinctFrom_iff _ _ _).mp hf).2
    simp only [Prod.mk.injEq] at he
    exact ⟨m, hm, call, hcall, he.1.symm, he.2.symm⟩

end Converted

namespace Module

theorem exists_mem_insertion {surviving removed : List (Syntax.Node × Edit)} {block : List Char}
    (h : surviving ≠ [] ∨ removed ≠ []) :
    ∃ e ∈ insertion surviving removed block, block <:+: e.text := by
  unfold insertion
  cases hs : surviving.getLast? with
  | some last => exact ⟨_, List.mem_cons_self, (List.suffix_cons _ _).isInfix⟩
  | none =>
    have hnil : surviving = [] := List.getLast?_eq_none_iff.mp hs
    cases removed with
    | nil => simp [hnil] at h
    | cons first rest => exact ⟨_, List.mem_cons_self, (List.prefix_append _ _).isInfix⟩

/-- Unless a module is without imports, its edits put the new imports in as one block. -/
theorem exists_mem_edits {m : Module} (hm : m.imports ≠ []) (settings : Settings)
    (container file : Path) (calls : List ScheduleCall) (dropImport : Bool) :
    ∃ e ∈ m.edits settings container file calls dropImport,
      ("\n".intercalate (m.newImports settings container file
        (calls.map (·.functionName)))).toList <:+: e.text := by
  obtain ⟨statement, hstatement⟩ := List.exists_mem_of_ne_nil _ hm
  -- Each import either stays or goes, so that the block has a place.
  have hplace : ∃ r, (statement, r) ∈ m.removals settings dropImport :=
    ⟨_, List.mem_map.mpr ⟨statement, hstatement, rfl⟩⟩
  obtain ⟨r, hr⟩ := hplace
  simp only [edits]
  refine Exists.imp (fun e he => ⟨List.mem_append_right _ he.1, he.2⟩) (exists_mem_insertion ?_)
  cases r with
  | statement e =>
    right
    exact List.ne_nil_of_mem (List.mem_filterMap.mpr ⟨_, hr, rfl⟩)
  | nothing =>
    left
    exact List.ne_nil_of_mem (List.mem_filterMap.mpr ⟨_, hr, rfl⟩)
  | specifiers e =>
    left
    exact List.ne_nil_of_mem (List.mem_filterMap.mpr ⟨_, hr, rfl⟩)

end Module

theorem CallSite.mem_extract_of_wrapperImport {settings : Settings} {container file : Path}
    {source : List Char} {f specifier : String}
    (h : (Layout.wrapperName f, specifier) ∈
      Converted.wrapperImports settings container file source) :
    (∃ c ∈ (extract settings file source).1, c.functionName = f) ∧
      specifier = Module.wrapperSpecifier container file f := by
  obtain ⟨m, hm, call, hcall, hname, hspec⟩ := Converted.exists_call_of_wrapperImport h
  have hf : f = call.functionName := Layout.wrapperName_injective hname
  obtain ⟨c, hc, hcf⟩ := exists_mem_extract hm ((m.convertedCalls_sublist _).subset hcall)
  exact ⟨⟨c, hc, hcf.trans hf.symm⟩, hf ▸ hspec⟩

end CronWrap
