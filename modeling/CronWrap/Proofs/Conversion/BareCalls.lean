import CronWrap.Proofs.Conversion.WrapperImports
import CronWrap.Proofs.Module.Prefilter

/-! Which calls of the scheduling name a conversion leaves over when it takes the import away. -/
namespace CronWrap.Module

open Syntax

variable (m : Module) (settings : Settings)

/-- A call of the bare name, whatever its arguments. -/
def IsBareCall (callName : String) (n : Node) : Prop :=
  n.kind = .call ∧ ∃ callee ∈ n.children.head?,
    callee.kind = .identifier ∧ callee.text m.source = callName

instance (callName : String) (n : Node) : Decidable (m.IsBareCall callName n) :=
  inferInstanceAs (Decidable (_ ∧ _))

/-- Two arguments or more, of which the first is a name. -/
def PassesName (n : Node) : Prop :=
  2 ≤ (argumentNodes n).length ∧
    ∃ scheduled ∈ (argumentNodes n).head?, scheduled.kind = .identifier

/-- The conversion replaces this node. -/
def IsConverted (n : Node) : Prop := ∃ c ∈ m.convertedCalls settings.callName, c.node = n

/-- The conversion takes the scheduling call out of some import. -/
def LosesImport : Prop :=
  m.convertedCalls settings.callName ≠ [] ∧
    ∃ p ∈ m.removals settings
      ((m.convertedCalls settings.callName).length = (m.scheduleCalls settings.callName).length),
      p.2 ≠ .nothing

variable {m settings}

theorem node_of_scheduleCall {callName : String} {n : Node} {c : ScheduleCall}
    (h : m.scheduleCall? callName n = some c) :
    c.node = n ∧ m.IsBareCall callName n ∧ PassesName n := by
  unfold scheduleCall? at h
  split at h
  · rename_i callee more hkind hchildren
    split at h
    · rename_i scheduled next rest hargs
      split at h
      · rename_i hnames
        simp only [Bool.and_eq_true, decide_eq_true_eq] at hnames
        obtain ⟨⟨hcallee, htext⟩, hscheduled⟩ := hnames
        cases h
        exact ⟨rfl, ⟨hkind, callee, by simp [hchildren], hcallee, htext⟩,
          by simp [hargs], scheduled, by simp [hargs], hscheduled⟩
      · cases h
    · cases h
  · cases h

theorem exists_scheduleCall {callName : String} {n : Node} (hbare : m.IsBareCall callName n)
    (hname : PassesName n) : ∃ c, m.scheduleCall? callName n = some c := by
  obtain ⟨hkind, callee, hhead, hcallee, htext⟩ := hbare
  obtain ⟨hlength, scheduled, hfirst, hscheduled⟩ := hname
  obtain ⟨more, hchildren⟩ := List.head?_eq_some_iff.mp hhead
  obtain ⟨rest, hargs⟩ := List.head?_eq_some_iff.mp hfirst
  cases rest with
  | nil => simp [hargs] at hlength
  | cons next rest => simp [scheduleCall?, hkind, hchildren, hargs, hcallee, htext, hscheduled]

/-- An import goes only if every call that was found is converted: none has another number of
arguments, none lies in another one. -/
theorem LosesImport.convertedCalls_eq (h : m.LosesImport settings) :
    m.convertedCalls settings.callName = m.scheduleCalls settings.callName := by
  obtain ⟨-, ⟨statement, r⟩, hmem, hne⟩ := h
  apply (m.convertedCalls_sublist settings.callName).eq_of_length
  by_contra hlength
  obtain ⟨n, -, hn⟩ := List.mem_map.mp hmem
  simp [hlength] at hn
  exact hne hn.2.symm

/-- What the conversion finds is what it replaces, once it takes the import away. -/
theorem LosesImport.isConverted_iff (h : m.LosesImport settings) {n : Node} (hn : n ∈ m.root.nodes)
    (hbare : m.IsBareCall settings.callName n) : m.IsConverted settings n ↔ PassesName n := by
  unfold IsConverted
  rw [h.convertedCalls_eq]
  constructor
  · rintro ⟨c, hc, rfl⟩
    obtain ⟨found, -, hfound⟩ := List.mem_filterMap.mp hc
    obtain ⟨rfl, -, hname⟩ := node_of_scheduleCall hfound
    exact hname
  · intro hname
    obtain ⟨c, hc⟩ := exists_scheduleCall hbare hname
    exact ⟨c, List.mem_filterMap.mpr ⟨n, hn, hc⟩, (node_of_scheduleCall hc).1⟩

/-- Calls of the bare name survive the loss of its import exactly if they lack a second argument or
do not begin with a name; calls that lie in others, or that are found and not converted, keep the
import. -/
theorem import_outlives_calls_iff (m : Module) (settings : Settings) :
    (m.LosesImport settings →
        m.convertedCalls settings.callName = m.scheduleCalls settings.callName) ∧
    ((m.LosesImport settings → ∀ n ∈ m.root.nodes, m.IsBareCall settings.callName n →
        m.IsConverted settings n) ↔
      (m.LosesImport settings → ∀ n ∈ m.root.nodes, m.IsBareCall settings.callName n →
        PassesName n)) := by
  refine ⟨LosesImport.convertedCalls_eq, ?_⟩
  constructor
  · intro hall h n hn hbare
    exact (h.isConverted_iff hn hbare).mp (hall h n hn hbare)
  · intro hall h n hn hbare
    exact (h.isConverted_iff hn hbare).mpr (hall h n hn hbare)

/-- A call with the function alone is not found, and when the import goes no edit reaches it. -/
theorem import_goes_before_short_call :
    let settings : Settings := {}
    let file := Path.parse "/project/app/page.ts"
    let source := ("import \x7b cronStart \x7d from \"workflow-cron-start\"\n" ++
      "import \x7b job \x7d from \"./jobs\"\ncronStart(job, [], \x7b\x7d)\ncronStart(job)\n").toList
    let m := parse file source
    ofScheduling? settings file source = some m ∧ m.LosesImport settings ∧
      ∃ n ∈ m.root.nodes, m.IsBareCall settings.callName n ∧ ¬ m.IsConverted settings n ∧
        ∀ e ∈ m.edits settings (.parse "/project/src/app/cron-wrappers") file
          (m.convertedCalls settings.callName) true, e.stop ≤ n.start := by
  intro settings file source m
  have hname : Mention.mentionsImport source settings.callName settings.callModule ∧
      m.importsName settings.callName settings.callModule := by decide +kernel
  have hlost : m.LosesImport settings := by
    unfold LosesImport
    decide +kernel
  -- The call that is left starts where no converted one does.
  have hleft : ∃ n ∈ m.root.nodes, m.IsBareCall settings.callName n ∧
      (∀ c ∈ m.convertedCalls settings.callName, c.node.start ≠ n.start) ∧
        ∀ e ∈ m.edits settings (.parse "/project/src/app/cron-wrappers") file
          (m.convertedCalls settings.callName) true, e.stop ≤ n.start := by decide +kernel
  refine ⟨?_, hlost, ?_⟩
  · exact ofScheduling_of_importsName hname.1 hname.2
  · obtain ⟨n, hn, hbare, hstart, hedits⟩ := hleft
    refine ⟨n, hn, hbare, ?_, hedits⟩
    rintro ⟨c, hc, hcn⟩
    exact hstart c hc (congrArg Node.start hcn)

end CronWrap.Module
