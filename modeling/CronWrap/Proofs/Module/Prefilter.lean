import CronWrap.Conversion.Module
import CronWrap.Proofs.Module.Mention

/-! What the quick look at a text costs: nothing where it finds what the syntax tree has. -/
namespace CronWrap

open Mention

namespace Module

/-- If the syntax tree has the import, then the text spells it out. -/
def IsNoticed (settings : Settings) (file : Path) (source : List Char) : Prop :=
  (parse file source).importsName settings.callName settings.callModule →
    SpellsImport settings.callName.toList settings.callModule.toList none source

variable {settings : Settings} {file : Path} {source : List Char}

theorem importing_of_importsName
    (h : (parse file source).importsName settings.callName settings.callModule) :
    importing? settings file source = some (parse file source) := by
  simp [importing?, h]

theorem ofScheduling_of_importsName
    (hmention : mentionsImport source settings.callName settings.callModule)
    (h : (parse file source).importsName settings.callName settings.callModule) :
    ofScheduling? settings file source = some (parse file source) := by
  rw [ofScheduling?, if_pos hmention]
  exact importing_of_importsName h

theorem eq_parse_of_ofScheduling {m : Module}
    (h : ofScheduling? settings file source = some m) : m = parse file source := by
  unfold ofScheduling? importing? at h
  dsimp only at h
  split at h
  · split at h
    · exact (Option.some.inj h).symm
    · cases h
  · cases h

theorem ofScheduling_of_isNoticed (h : IsNoticed settings file source) :
    ofScheduling? settings file source = importing? settings file source := by
  unfold ofScheduling?
  split
  · rfl
  · rename_i hmention
    rw [mentionsImport_iff] at hmention
    have hnot : ¬ (parse file source).importsName settings.callName settings.callModule :=
      fun hname => hmention (h hname)
    simp [importing?, hnot]

theorem ofScheduling_of_not_isNoticed (h : ¬ IsNoticed settings file source) :
    ofScheduling? settings file source = none ∧
      importing? settings file source = some (parse file source) := by
  obtain ⟨hname, hspells⟩ := Classical.not_imp.mp h
  rw [← mentionsImport_iff] at hspells
  exact ⟨by simp [ofScheduling?, hspells], importing_of_importsName hname⟩

end Module

open CronWrap.Module

theorem CallSite.ofModule_eq_nil_iff (settings : Settings) (file : Path) (m : Module) :
    ofModule? settings file none = ofModule? settings file (some m) ↔
      m.scheduleCalls settings.callName = [] := by
  simp only [ofModule?, Prod.mk.injEq]
  constructor
  · rintro ⟨hsites, -⟩
    exact List.map_eq_nil_iff.mp hsites.symm
  · intro hcalls
    simp [hcalls]

theorem Converted.ofModule_eq_unchanged_iff (settings : Settings) (container file : Path)
    (source : List Char) (m : Module) :
    ofModule? settings container file source none =
        ofModule? settings container file source (some m) ↔
      m.convertedCalls settings.callName = [] := by
  simp only [ofModule?, ← List.isEmpty_iff]
  constructor
  · intro h
    by_contra hcalls
    -- A conversion that does something leaves a note.
    rw [if_neg hcalls] at h
    have hlog := congrArg Prod.snd h
    simp at hlog
  · intro hcalls
    rw [if_pos hcalls]

/-- The quick look is without consequences exactly where every import of the scheduling call is
spelled out with blanks only: otherwise the module is passed over, and that does not show exactly
if it has no call for scanning, or none for conversion. -/
theorem prefilter_transparent_iff (settings : Settings) (file : Path) (source : List Char) :
    (((parse file source).importsName settings.callName settings.callModule →
        mentionsImport source settings.callName settings.callModule) ↔
      IsNoticed settings file source) ∧
    (CallSite.extract settings file source =
        CallSite.ofModule? settings file (importing? settings file source) ↔
      IsNoticed settings file source ∨
        (parse file source).scheduleCalls settings.callName = []) ∧
    ∀ container, Converted.ofSource settings container file source =
        Converted.ofModule? settings container file source (importing? settings file source) ↔
      IsNoticed settings file source ∨
        (parse file source).convertedCalls settings.callName = [] := by
  refine ⟨by rw [IsNoticed, mentionsImport_iff], ?_, ?_⟩
  · rw [CallSite.extract]
    by_cases h : IsNoticed settings file source
    · simp [ofScheduling_of_isNoticed h, h]
    · obtain ⟨hnone, hsome⟩ := ofScheduling_of_not_isNoticed h
      rw [hnone, hsome, CallSite.ofModule_eq_nil_iff]
      simp [h]
  · intro container
    rw [Converted.ofSource]
    by_cases h : IsNoticed settings file source
    · simp [ofScheduling_of_isNoticed h, h]
    · obtain ⟨hnone, hsome⟩ := ofScheduling_of_not_isNoticed h
      rw [hnone, hsome, Converted.ofModule_eq_unchanged_iff]
      simp [h]

/-- A name with `$` in front may be called, but starts no word, so that its import is missed and with
it a call. -/
theorem prefilter_misses_dollar_name :
    let settings : Settings := { callName := "$run" }
    let source := ("import \x7b $run \x7d from \"workflow-cron-start\"\n" ++
      "import \x7b job \x7d from \"./jobs\"\n$run(job, [])\n").toList
    Settings.isIdentifier settings.callName.toList ∧
      (Module.parse (.parse "/p/app/page.ts") source).importsName "$run" "workflow-cron-start" ∧
      ¬ mentionsImport source "$run" "workflow-cron-start" ∧
      CallSite.extract settings (.parse "/p/app/page.ts") source = ([], []) ∧
      CallSite.ofModule? settings (.parse "/p/app/page.ts")
          (importing? settings (.parse "/p/app/page.ts") source) =
        ([⟨"job", "./jobs", .parse "/p/app/page.ts", none⟩], []) := by
  decide +kernel

end CronWrap
