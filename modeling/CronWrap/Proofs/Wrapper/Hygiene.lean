import CronWrap.Proofs.Script.Scopes

/-! The module of a wrapper as a script with scopes, and the functions for which its names do not
meet. -/
namespace CronWrap.Wrapper

open Script

def own (x : String) : Part := .name .function x

def ofModule (x : String) : Part := .name .module x

/-- The step that starts the function once. -/
def stepFunction (w : Wrapper) (settings : Settings) : Function where
  exported := false
  name := Layout.stepName w.functionName
  params := [("args", "unknown[]")]
  result := ": Promise<\x7b runId: string \x7d>"
  body :=
    [ .line [.plain "\"use step\""],
      .blank,
      .constant (.name "run")
        [.plain "await ", ofModule settings.startName, .plain "(", ofModule w.functionName,
          .plain ", ", own "args", .plain " as Parameters<typeof ", ofModule w.functionName,
          .plain ">)"],
      .line [.plain "return \x7b runId: ", own "run", .plain ".runId \x7d"] ]

/-- The wrapper itself. -/
def wrapperFunction (w : Wrapper) (settings : Settings) : Function where
  exported := true
  name := w.name
  params := [("config", "CronSchedulerConfig")]
  result := ""
  body :=
    let f := w.functionName
    let log := Layout.messagePrefix
    [ .line [.plain "\"use workflow\""],
      .blank,
      .constant (.fields [("args", ""), ("cron", ""), ("timezone", ""),
        ("onError", " = \"continue\"")]) [own "config"],
      .blank,
      .line [.plain s!"console.log(`{log} Cron scheduler started for {f}`)"],
      .line [.plain s!"console.log(`{log} Schedule: $\x7b", own "cron",
        .plain "\x7d, Timezone: $\x7b", own "timezone", .plain " || \"UTC\"\x7d`)"],
      .blank,
      .block [.plain "while (true)"]
        [ .line [.plain "await ", ofModule settings.sleepName, .plain "(", own "cron",
            .plain ", \x7b ", own "timezone", .plain " \x7d)"],
          .blank,
          .attempt
            [ .constant (.name "run")
                [.plain "await ", ofModule (Layout.stepName f), .plain "(", own "args",
                  .plain ")"],
              .line [.plain s!"console.log(`{log} Started {f} run: $\x7b", own "run",
                .plain ".runId\x7d`)"] ]
            "error"
            [ .block [.plain "if (", own "onError", .plain " === \"stop\")"]
                [ .line [.plain s!"console.error(\"{log} Failed to start {f}, stopping:\", ",
                    own "error", .plain ")"],
                  .line [.plain "throw ", own "error"] ],
              .line [.plain s!"console.error(\"{log} Failed to start {f}, continuing:\", ",
                own "error", .plain ")"] ] ] ]

/-- The module of a wrapper, with its scopes. -/
def script (w : Wrapper) (settings : Settings) : Script where
  items :=
    [ .verbatim
        [ "/**",
          s!" * Auto-generated cron scheduler for {w.functionName}",
          " * DO NOT EDIT - regenerated on every build by cronstart",
          " *",
          " * Runs forever: sleep until the next cron occurrence, then start a new,",
          s!" * independent run of {w.functionName} with its own runId.",
          " */",
          "" ],
      .importing settings.startName none settings.startModule,
      .importing settings.sleepName none settings.sleepModule,
      .importing w.functionName w.importedName w.importPath,
      .verbatim
        [ "",
          "interface CronSchedulerConfig \x7b",
          "    args: unknown[]",
          "    cron: string",
          "    timezone?: string",
          "    onError?: \"continue\" | \"stop\"",
          "\x7d",
          "" ],
      .function (stepFunction w settings),
      .verbatim [""],
      .function (wrapperFunction w settings) ]

theorem lines_script (w : Wrapper) (settings : Settings) :
    (w.script settings).lines = schedulerLines w settings := by
  simp [Script.lines, script, schedulerLines, Item.lines, stepFunction, wrapperFunction, linesIn,
    Statement.lines, Function.head, Phrase.text, Part.text, Binder.text, indent, own, ofModule,
    toString, ← String.toList_inj]

theorem bound_script (w : Wrapper) (settings : Settings) :
    (w.script settings).bound = [settings.startName, settings.sleepName, w.functionName,
      Layout.stepName w.functionName, w.name] := rfl

theorem references_script (w : Wrapper) (settings : Settings) :
    (w.script settings).references =
      let f := w.functionName
      let step := ["args", "run"]
      let body := ["config", "args", "cron", "timezone", "onError"]
      [ ⟨.module, settings.startName, step⟩, ⟨.module, f, step⟩, ⟨.function, "args", step⟩,
        ⟨.module, f, step⟩, ⟨.function, "run", step⟩,
        ⟨.function, "config", body⟩, ⟨.function, "cron", body⟩, ⟨.function, "timezone", body⟩,
        ⟨.module, settings.sleepName, body⟩, ⟨.function, "cron", body⟩,
        ⟨.function, "timezone", body⟩,
        ⟨.module, Layout.stepName f, "run" :: body⟩, ⟨.function, "args", "run" :: body⟩,
        ⟨.function, "run", "run" :: body⟩,
        ⟨.function, "onError", "error" :: body⟩, ⟨.function, "error", "error" :: body⟩,
        ⟨.function, "error", "error" :: body⟩, ⟨.function, "error", "error" :: body⟩ ] := rfl

/-! ## Names that cannot meet -/

theorem stepName_ne {f x : String} (h : x.toList.head? ≠ some '_') : Layout.stepName f ≠ x := by
  rintro rfl
  simp [Layout.stepName] at h

theorem wrapperName_ne {f x : String} (h : x.toList.head? ≠ some '_') :
    Layout.wrapperName f ≠ x := by
  rintro rfl
  simp [Layout.wrapperName, Layout.wrapperPrefix] at h

theorem stepName_ne_self (f : String) : Layout.stepName f ≠ f := by
  intro h
  have hlength := congrArg (·.toList.length) h
  simp [Layout.stepName] at hlength
  omega

theorem wrapperName_ne_self (f : String) : Layout.wrapperName f ≠ f := by
  intro h
  have hlength := congrArg (·.toList.length) h
  simp [Layout.wrapperName, Layout.wrapperPrefix] at hlength
  omega

theorem stepName_ne_wrapperName (f g : String) : Layout.stepName f ≠ Layout.wrapperName g := by
  intro h
  have hlist := congrArg String.toList h
  simp [Layout.stepName, Layout.wrapperName, Layout.wrapperPrefix] at hlist

/-- What the module binds and the functions use is hidden only from the step, by its parameter and
its constant, and from the wrapper for a name of its own. -/
theorem reachesAll_script_iff (w : Wrapper) (settings : Settings) :
    (w.script settings).ReachesAll ↔
      settings.startName ∉ ["args", "run"] ∧ w.functionName ∉ ["args", "run"] ∧
        settings.sleepName ∉ ["config", "args", "cron", "timezone", "onError"] := by
  have hstep : Layout.stepName w.functionName ∉
      ["run", "config", "args", "cron", "timezone", "onError"] := by
    intro hmem
    have hhead : ∀ x ∈ ["run", "config", "args", "cron", "timezone", "onError"],
        x.toList.head? ≠ some '_' := by decide
    exact stepName_ne (hhead _ hmem) rfl
  rw [ReachesAll, references_script, bound_script]
  simp only [List.forall_mem_cons, Reference.Reaches]
  simp [hstep]

/-- The names made from that of the function meet no other, unless the settings have one like
them. -/
theorem nodup_bound_script_iff (container : Path) (table : AliasTable) (c : CallSite)
    {settings : Settings} (hstart : settings.startName.toList.head? ≠ some '_')
    (hsleep : settings.sleepName.toList.head? ≠ some '_') :
    ((ofSite container table c).script settings).bound.Nodup ↔
      settings.startName ≠ settings.sleepName ∧
        c.functionName ∉ [settings.startName, settings.sleepName] := by
  rw [bound_script]
  simp only [ofSite, List.nodup_cons, List.mem_cons, List.not_mem_nil, not_or, or_false]
  constructor
  · rintro ⟨⟨hne, hfirst, -⟩, ⟨hsecond, -⟩, -⟩
    exact ⟨hne, Ne.symm hfirst, Ne.symm hsecond⟩
  · rintro ⟨hne, hfirst, hsecond⟩
    exact ⟨⟨hne, Ne.symm hfirst, (stepName_ne hstart).symm, (wrapperName_ne hstart).symm⟩,
      ⟨Ne.symm hsecond, (stepName_ne hsleep).symm, (wrapperName_ne hsleep).symm⟩,
      ⟨(stepName_ne_self _).symm, (wrapperName_ne_self _).symm⟩,
      stepName_ne_wrapperName _ _, not_false, List.nodup_nil⟩

/-- With the names of the defaults, the module of a function binds no name twice unless the function
has that of an import, and hides none that it needs unless the function has that of the parameter or
of the constant of the step. -/
theorem script_hygienic_iff (container : Path) (table : AliasTable) (c : CallSite) :
    let w := ofSite container table c
    let f := c.functionName
    w.schedulerText {} = lines (w.script {}).lines ∧
      (w.script {}).bound = ["start", "cronSleep", f, Layout.stepName f, Layout.wrapperName f] ∧
      ((w.script {}).bound.Nodup ↔ f ∉ ["start", "cronSleep"]) ∧
      ((w.script {}).ReachesAll ↔ f ∉ ["args", "run"]) := by
  intro w f
  refine ⟨?_, bound_script w {}, ?_, ?_⟩
  · rw [lines_script, schedulerText]
  · rw [nodup_bound_script_iff container table c (by decide) (by decide)]
    exact and_iff_right (by decide)
  · rw [reachesAll_script_iff]
    constructor
    · rintro ⟨-, hf, -⟩
      exact hf
    · intro hf
      exact ⟨by decide, hf, by decide⟩

/-- A function called as the constant of the step: what is started is that constant, inside its own
definition. -/
theorem script_of_run_captured :
    let c : CallSite := ⟨"run", "@/jobs", .parse "/p/app/page.ts", none⟩
    let w := ofSite (.parse "/p/app/cron-wrappers") ⟨.parse "/p", []⟩ c
    Settings.isIdentifier c.functionName.toList ∧
      "import \x7b run \x7d from \"@/jobs\"" ∈ w.schedulerLines {} ∧
      "    const run = await start(run, args as Parameters<typeof run>)" ∈ w.schedulerLines {} ∧
      (⟨.module, "run", ["args", "run"]⟩ : Reference) ∈ (w.script {}).references ∧
      ¬ (w.script {}).ReachesAll := by
  decide

end CronWrap.Wrapper
