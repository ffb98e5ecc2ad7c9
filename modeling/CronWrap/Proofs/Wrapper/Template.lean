import CronWrap.Proofs.Settings.Valid
import CronWrap.Proofs.Wrapper.ImportLine
import CronWrap.Wrapper.Render

/-! The template of the module of a wrapper, and what keeps its lines lines. -/
namespace CronWrap.Wrapper

/-! ## Lines -/

theorem count_lineFeed_lines (ls : List String) :
    (lines ls).toList.count '\n' = ls.length + (ls.flatMap String.toList).count '\n' := by
  induction ls with
  | nil => rfl
  | cons l ls ih =>
    have hcons : (lines (l :: ls)).toList = l.toList ++ '\n' :: (lines ls).toList := by
      simp [lines, String.toList_join]
    rw [hcons, List.count_append, List.count_cons_self, ih, List.flatMap_cons, List.count_append,
      List.length_cons]
    omega

/-! ## Templates -/

/-- A place in a template that is filled for each wrapper. -/
inductive Hole
  | functionName
  | wrapperName
  | stepName
  | functionImport
  | startName
  | startModule
  | sleepName
  | sleepModule
  | messagePrefix
  deriving DecidableEq, Repr

inductive Piece
  | text (s : String)
  | hole (h : Hole)
  deriving DecidableEq, Repr

/-- The lines of a text with holes. -/
abbrev Template := List (List Piece)

namespace Piece

def hole? : Piece → Option Hole
  | text _ => none
  | hole h => some h

def filled (values : Hole → String) : Piece → String
  | text s => s
  | hole h => values h

variable (values : Hole → String) (s : String) (h : Hole)

@[simp] theorem hole?_text : (text s).hole? = none := rfl

@[simp] theorem hole?_hole : (hole h).hole? = some h := rfl

@[simp] theorem filled_text : (text s).filled values = s := rfl

@[simp] theorem filled_hole : (hole h).filled values = values h := rfl

end Piece

namespace Template

def fillLine (values : Hole → String) (pieces : List Piece) : String :=
  String.join (pieces.map (·.filled values))

def fill (values : Hole → String) (t : Template) : String := lines (t.map (fillLine values))

/-- The holes of a template, in order. -/
def holes (t : Template) : List Hole := t.flatten.filterMap Piece.hole?

/-- The texts between the holes break no line. -/
def IsPlain (t : Template) : Prop := ∀ line ∈ t, ∀ p ∈ line, '\n' ∉ (p.filled fun _ => "").toList

variable {values : Hole → String}

theorem count_lineFeed_fillLine {pieces : List Piece}
    (hplain : ∀ p ∈ pieces, '\n' ∉ (p.filled fun _ => "").toList) :
    (fillLine values pieces).toList.count '\n' =
      ((pieces.filterMap Piece.hole?).flatMap fun h => (values h).toList).count '\n' := by
  simp only [fillLine, String.toList_join, List.flatMap_map]
  induction pieces with
  | nil => rfl
  | cons p pieces ih =>
    obtain ⟨hp, hpieces⟩ := List.forall_mem_cons.mp hplain
    rw [List.flatMap_cons, List.count_append, ih hpieces]
    cases p with
    | text s =>
      have hs : s.toList.count '\n' = 0 := List.count_eq_zero.mpr hp
      simp [hs, List.filterMap_cons]
    | hole h => simp

/-- Each line ends in a line feed; all others are in what fills the holes. -/
theorem count_lineFeed_fill {t : Template} (ht : t.IsPlain) :
    (t.fill values).toList.count '\n' =
      t.length + (t.holes.flatMap fun h => (values h).toList).count '\n' := by
  rw [fill, count_lineFeed_lines, List.length_map, List.flatMap_map]
  congr 1
  induction t with
  | nil => rfl
  | cons line t ih =>
    obtain ⟨hline, ht⟩ := List.forall_mem_cons.mp ht
    rw [List.flatMap_cons, List.count_append, ih ht, count_lineFeed_fillLine hline]
    simp [holes]

theorem count_lineFeed_fill_iff {t : Template} (ht : t.IsPlain) :
    (t.fill values).toList.count '\n' = t.length ↔ ∀ h ∈ t.holes, '\n' ∉ (values h).toList := by
  rw [count_lineFeed_fill ht, Nat.add_eq_left, List.count_eq_zero]
  simp

end Template

/-! ## The module of a wrapper -/

/-- How a hole stands in the text of a template. -/
def Hole.mark : Hole → String
  | functionName => "\x7b\x7b function_name \x7d\x7d"
  | wrapperName => "\x7b\x7b wrapper_name \x7d\x7d"
  | stepName => "\x7b\x7b step_name \x7d\x7d"
  | functionImport => "\x7b\x7b function_import \x7d\x7d"
  | startName => "\x7b\x7b start_name \x7d\x7d"
  | startModule => "\x7b\x7b start_module | js_string \x7d\x7d"
  | sleepName => "\x7b\x7b sleep_name \x7d\x7d"
  | sleepModule => "\x7b\x7b sleep_module | js_string \x7d\x7d"
  | messagePrefix => "\x7b\x7b log_prefix \x7d\x7d"

/-- The text of a template, with its holes marked. -/
def Template.source (t : Template) : String := t.fill Hole.mark

def schedulerTemplate : Template :=
  [ [.text "/**"],
    [.text " * Auto-generated cron scheduler for ", .hole .functionName],
    [.text " * DO NOT EDIT - regenerated on every build by cronstart"],
    [.text " *"],
    [.text " * Runs forever: sleep until the next cron occurrence, then start a new,"],
    [.text " * independent run of ", .hole .functionName, .text " with its own runId."],
    [.text " */"],
    [],
    [.text "import \x7b ", .hole .startName, .text " \x7d from ", .hole .startModule],
    [.text "import \x7b ", .hole .sleepName, .text " \x7d from ", .hole .sleepModule],
    [.hole .functionImport],
    [],
    [.text "interface CronSchedulerConfig \x7b"],
    [.text "    args: unknown[]"],
    [.text "    cron: string"],
    [.text "    timezone?: string"],
    [.text "    onError?: \"continue\" | \"stop\""],
    [.text "\x7d"],
    [],
    [.text "async function ", .hole .stepName,
      .text "(args: unknown[]): Promise<\x7b runId: string \x7d> \x7b"],
    [.text "    \"use step\""],
    [],
    [.text "    const run = await ", .hole .startName, .text "(", .hole .functionName,
      .text ", args as Parameters<typeof ", .hole .functionName, .text ">)"],
    [.text "    return \x7b runId: run.runId \x7d"],
    [.text "\x7d"],
    [],
    [.text "export async function ", .hole .wrapperName,
      .text "(config: CronSchedulerConfig) \x7b"],
    [.text "    \"use workflow\""],
    [],
    [.text "    const \x7b args, cron, timezone, onError = \"continue\" \x7d = config"],
    [],
    [.text "    console.log(`", .hole .messagePrefix, .text " Cron scheduler started for ",
      .hole .functionName, .text "`)"],
    [.text "    console.log(`", .hole .messagePrefix,
      .text " Schedule: $\x7bcron\x7d, Timezone: $\x7btimezone || \"UTC\"\x7d`)"],
    [],
    [.text "    while (true) \x7b"],
    [.text "        await ", .hole .sleepName, .text "(cron, \x7b timezone \x7d)"],
    [],
    [.text "        try \x7b"],
    [.text "            const run = await ", .hole .stepName, .text "(args)"],
    [.text "            console.log(`", .hole .messagePrefix, .text " Started ",
      .hole .functionName, .text " run: $\x7brun.runId\x7d`)"],
    [.text "        \x7d catch (error) \x7b"],
    [.text "            if (onError === \"stop\") \x7b"],
    [.text "                console.error(\"", .hole .messagePrefix, .text " Failed to start ",
      .hole .functionName, .text ", stopping:\", error)"],
    [.text "                throw error"],
    [.text "            \x7d"],
    [.text "            console.error(\"", .hole .messagePrefix, .text " Failed to start ",
      .hole .functionName, .text ", continuing:\", error)"],
    [.text "        \x7d"],
    [.text "    \x7d"],
    [.text "\x7d"] ]

/-- What fills the template for a wrapper. -/
def fillings (w : Wrapper) (settings : Settings) : Hole → String
  | .functionName => w.functionName
  | .wrapperName => w.name
  | .stepName => Layout.stepName w.functionName
  | .functionImport => importLine w.functionName w.importedName w.importPath
  | .startName => settings.startName
  | .startModule => Text.quote settings.startModule
  | .sleepName => settings.sleepName
  | .sleepModule => Text.quote settings.sleepModule
  | .messagePrefix => Layout.messagePrefix

theorem schedulerText_eq_fill (w : Wrapper) (settings : Settings) :
    w.schedulerText settings = schedulerTemplate.fill (w.fillings settings) := by
  have himport : ∀ name module : String,
      importLine name none module = "import \x7b " ++ name ++ " \x7d from " ++ Text.quote module :=
    fun _ _ => rfl
  have hlines : schedulerLines w settings =
      schedulerTemplate.map (Template.fillLine (w.fillings settings)) := by
    simp only [schedulerLines, schedulerTemplate, List.map_cons, List.map_nil, Template.fillLine,
      Piece.filled_text, Piece.filled_hole, fillings, himport]
    simp [toString, ← String.toList_inj]
  rw [schedulerText, hlines, Template.fill]

theorem isPlain_schedulerTemplate : schedulerTemplate.IsPlain := by
  unfold Template.IsPlain
  decide +kernel

theorem lineFeed_not_mem_mark (h : Hole) : '\n' ∉ h.mark.toList := by
  cases h <;> decide

theorem mem_holes_schedulerTemplate (h : Hole) : h ∈ schedulerTemplate.holes := by
  cases h <;> decide

theorem count_lineFeed_source :
    schedulerTemplate.source.toList.count '\n' = schedulerTemplate.length :=
  (Template.count_lineFeed_fill_iff isPlain_schedulerTemplate).mpr fun h _ => lineFeed_not_mem_mark h

/-- The module has as many line feeds as its template exactly if what fills the template has none. -/
theorem count_lineFeed_schedulerText_iff (w : Wrapper) (settings : Settings) :
    (w.schedulerText settings).toList.count '\n' = schedulerTemplate.source.toList.count '\n' ↔
      ∀ h, '\n' ∉ (w.fillings settings h).toList := by
  rw [count_lineFeed_source, schedulerText_eq_fill,
    Template.count_lineFeed_fill_iff isPlain_schedulerTemplate]
  exact ⟨fun hall h => hall h (mem_holes_schedulerTemplate h), fun hall h _ => hall h⟩

theorem lineFeed_not_mem_stepName {f : String} (hf : '\n' ∉ f.toList) :
    '\n' ∉ (Layout.stepName f).toList := by
  have hends : '\n' ∉ "__start_".toList ∧ '\n' ∉ "__".toList := by decide
  simp only [Layout.stepName, String.toList_append, List.mem_append, not_or]
  exact ⟨⟨hends.1, hf⟩, hends.2⟩

/-- Quoted texts and fixed words never break a line, so that only bare names can. -/
theorem lineFeed_not_mem_fillings_iff (w : Wrapper) (settings : Settings) :
    (∀ h, '\n' ∉ (w.fillings settings h).toList) ↔
      '\n' ∉ settings.startName.toList ∧ '\n' ∉ settings.sleepName.toList ∧
        ∀ name ∈ w.name :: w.functionName :: w.importedName.toList, '\n' ∉ name.toList := by
  simp only [List.forall_mem_cons, Option.mem_toList]
  constructor
  · intro hall
    refine ⟨hall .startName, hall .sleepName, hall .wrapperName, hall .functionName, ?_⟩
    exact fun name hname hmem => hall .functionImport <|
      (control_mem_importLine_iff (by decide) _ _ _).mpr (.inr ⟨name, hname, hmem⟩)
  · rintro ⟨hstart, hsleep, hwrapper, hfunction, himported⟩ h
    have hquoted := Text.control_not_mem_quote (c := '\n') (by decide)
    cases h with
    | functionName => exact hfunction
    | wrapperName => exact hwrapper
    | stepName => exact lineFeed_not_mem_stepName hfunction
    | functionImport => exact control_not_mem_importLine (by decide) hfunction himported w.importPath
    | startName => exact hstart
    | startModule => exact hquoted settings.startModule
    | sleepName => exact hsleep
    | sleepModule => exact hquoted settings.sleepModule
    | messagePrefix => exact (by decide : '\n' ∉ Layout.messagePrefix.toList)

/-- The imports of a wrapper's module keep to their lines, and the module to those of its template,
exactly if no bare name has a line feed: settings that are accepted have one at most at the end of a
name. -/
theorem imports_keep_lines_iff {v : Value} {settings : Settings}
    (hsettings : Settings.ofValue v = .ok settings) (w : Wrapper) :
    let imports := [importLine settings.startName none settings.startModule,
      importLine settings.sleepName none settings.sleepModule,
      importLine w.functionName w.importedName w.importPath]
    (∃ before after, w.schedulerText settings = lines (before ++ imports ++ after)) ∧
      w.schedulerText settings = schedulerTemplate.fill (w.fillings settings) ∧
      ((∀ line ∈ imports, '\n' ∉ line.toList) ∧
          (w.schedulerText settings).toList.count '\n' =
            schedulerTemplate.source.toList.count '\n' ↔
        settings.startName.toList.getLast? ≠ some '\n' ∧
          settings.sleepName.toList.getLast? ≠ some '\n' ∧
          ∀ name ∈ w.name :: w.functionName :: w.importedName.toList, '\n' ∉ name.toList) := by
  intro imports
  have hvalid := Settings.valid_of_ofValue hsettings
  have hstart := Settings.lineFeed_mem_iff_of_isIdentifier hvalid.startName
  have hsleep := Settings.lineFeed_mem_iff_of_isIdentifier hvalid.sleepName
  refine ⟨⟨(w.schedulerLines settings).take 8, (w.schedulerLines settings).drop 11, rfl⟩,
    schedulerText_eq_fill w settings, ?_⟩
  rw [count_lineFeed_schedulerText_iff, lineFeed_not_mem_fillings_iff, ne_eq, ne_eq, ← hstart, ← hsleep,
    and_iff_right_iff_imp]
  rintro ⟨hstart, hsleep, hnames⟩
  simp only [List.forall_mem_cons, Option.mem_toList] at hnames
  have hnone : ∀ name ∈ (none : Option String), '\n' ∉ name.toList := fun _ h => nomatch h
  simp only [imports, List.forall_mem_cons]
  exact ⟨control_not_mem_importLine (by decide) hstart hnone _,
    control_not_mem_importLine (by decide) hsleep hnone _,
    control_not_mem_importLine (by decide) hnames.2.1 hnames.2.2 _, fun _ h => nomatch h⟩

/-- Settings with a dollar in a name, and the import of an export of another name. -/
theorem imports_keep_lines_of_dollar :
    let v : Value := .record [("start_name", .text "$go")]
    let settings : Settings := { startName := "$go" }
    let w : Wrapper := ⟨"purge", "__cron__purge", "trigger-purge",
      .parse "/p/app/cron-wrappers/trigger-purge/workflow.ts", "./a\nb", some "cleanup"⟩
    let imports := [importLine settings.startName none settings.startModule,
      importLine settings.sleepName none settings.sleepModule,
      importLine w.functionName w.importedName w.importPath]
    Settings.ofValue v = .ok settings ∧
      (∃ before after, w.schedulerText settings = lines (before ++ imports ++ after)) ∧
      w.schedulerText settings = schedulerTemplate.fill (w.fillings settings) ∧
      ((∀ line ∈ imports, '\n' ∉ line.toList) ∧
          (w.schedulerText settings).toList.count '\n' =
            schedulerTemplate.source.toList.count '\n' ↔
        settings.startName.toList.getLast? ≠ some '\n' ∧
          settings.sleepName.toList.getLast? ≠ some '\n' ∧
          ∀ name ∈ w.name :: w.functionName :: w.importedName.toList, '\n' ∉ name.toList) := by
  intro v settings w imports
  have hsettings : Settings.ofValue v = .ok settings := by rfl
  exact ⟨hsettings, imports_keep_lines_iff hsettings w⟩

/-- A name that ends in a line feed is accepted, and its import takes two lines. -/
theorem imports_break_at_line_feed :
    let v : Value := .record [("start_name", .text "start\n")]
    let settings : Settings := { startName := "start\n" }
    let w : Wrapper := ⟨"job", "__cron__job", "trigger-job",
      .parse "/p/app/cron-wrappers/trigger-job/workflow.ts", "@/jobs", none⟩
    Settings.ofValue v = .ok settings ∧ Settings.isIdentifier w.functionName.toList ∧
      importLine settings.startName none settings.startModule =
        "import \x7b start\n \x7d from \"workflow/api\"" ∧
      importLine settings.startName none settings.startModule ∈ schedulerLines w settings ∧
      (w.schedulerText settings).toList.count '\n' =
        schedulerTemplate.source.toList.count '\n' + 2 := by
  intro v settings w
  refine ⟨by rfl, by decide, by decide, by simp [schedulerLines], ?_⟩
  rw [count_lineFeed_source, schedulerText_eq_fill,
    Template.count_lineFeed_fill isPlain_schedulerTemplate]
  decide +kernel

end CronWrap.Wrapper
