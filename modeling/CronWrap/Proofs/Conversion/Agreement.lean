import CronWrap.Proofs.Conversion.EditOrder
import CronWrap.Proofs.Wrapper.Place

/-! Scanning, planning and conversion speak of the same wrappers. -/
namespace CronWrap

/-- What a conversion imports is what scanning finds and planning makes: a wrapper that a converted
module imports is for a function with a call site in the module, and in every plan with that site
the function has exactly one wrapper, of the imported name and at the place that the import leads
to. The wrappers that are meant are those of the lines that the conversion writes. -/
theorem Converted.wrapper_import_meets_plan {settings : Settings} {root file : Path}
    {found : Option Path} {source : List Char} {f specifier : String} (hroot : root.IsPlain)
    (hfile : file.IsPlain) (hfound : ∀ d ∈ found, d ∈ Layout.routableDirs root)
    (hf : '\\' ∉ f.toList)
    (h : (Layout.wrapperName f, specifier) ∈
      wrapperImports settings (Layout.containerIn root found) file source) :
    let container := Layout.containerIn root found
    (∃ m lines, Module.ofScheduling? settings file source = some m ∧
        lines = m.newImports settings container file
          ((m.convertedCalls settings.callName).map (·.functionName)) ∧
        lines = (if m.hasStartImport settings then []
            else [importLine settings.startName none settings.startModule]) ++
          (wrapperImports settings container file source).map (fun i => importLine i.1 none i.2) ∧
        ("\n".intercalate lines).toList <:+: (ofSource settings container file source).1.code) ∧
      (∃ c ∈ (CallSite.extract settings file source).1, c.functionName = f) ∧
      ∀ c ∈ (CallSite.extract settings file source).1, c.functionName = f →
        ∀ sites table ws, c ∈ sites → Wrapper.plan sites container table = .ok ws →
          ∃ w, ws.filter (·.functionName = f) = [w] ∧ w.name = Layout.wrapperName f ∧
            (file.parent / specifier).normalize.toString ++ ".ts" =
              w.modulePath.normalize.toString := by
  intro container
  obtain ⟨hsite, hspec⟩ := CallSite.mem_extract_of_wrapperImport h
  obtain ⟨m, hm, call, hcall, -, -⟩ := exists_call_of_wrapperImport h
  have hlines : wrapperImports settings container file source =
      Module.wrapperImports container file
        ((m.convertedCalls settings.callName).map (·.functionName)) := by
    rw [wrapperImports, hm]
  refine ⟨⟨m, _, hm, rfl, ?_, newImports_infix_code hm (List.ne_nil_of_mem hcall)⟩, hsite, ?_⟩
  · rw [hlines]
    rfl
  intro c _ hcf sites table ws hmem hplan
  obtain ⟨d, -, hdf, hone⟩ := Wrapper.filter_plan_of_site hplan hmem
  rw [hcf] at hdf hone
  have hplace := Wrapper.toString_div_wrapperSpecifier table
    (Layout.isPlain_containerIn hroot hfound) hfile hdf hf
  refine ⟨Wrapper.ofSite (Layout.containerIn root found) table d, hone, ?_, ?_⟩
  · rw [Wrapper.name_ofSite, hdf]
  · rw [hspec]
    exact hplace

theorem Converted.wrapper_import_meets_plan_of_page :
    (CallSite.extract {} ⟨.root, ["p", "app", "page.ts"]⟩
      "import { cronStart } from 'workflow-cron-start'\ncronStart(job, [], {})".toList).1 =
        [⟨"job", "./page", ⟨.root, ["p", "app", "page.ts"]⟩, none⟩] ∧
    ∃ w, Wrapper.plan [⟨"job", "./page", ⟨.root, ["p", "app", "page.ts"]⟩, none⟩]
        (Layout.containerIn ⟨.root, ["p"]⟩ none) ⟨⟨.root, ["p"]⟩, []⟩ = .ok [w] ∧
      w.name = "__cron__job" ∧
      (Path.parent ⟨.root, ["p", "app", "page.ts"]⟩ /
        "../src/app/cron-wrappers/trigger-job/workflow").normalize.toString ++ ".ts" =
          w.modulePath.normalize.toString := by
  have hsites : (CallSite.extract {} ⟨.root, ["p", "app", "page.ts"]⟩
      "import { cronStart } from 'workflow-cron-start'\ncronStart(job, [], {})".toList).1 =
        [⟨"job", "./page", ⟨.root, ["p", "app", "page.ts"]⟩, none⟩] := by decide +kernel
  obtain ⟨-, -, hmeets⟩ := @wrapper_import_meets_plan {} ⟨.root, ["p"]⟩
    ⟨.root, ["p", "app", "page.ts"]⟩ none
    "import { cronStart } from 'workflow-cron-start'\ncronStart(job, [], {})".toList
    "job" "../src/app/cron-wrappers/trigger-job/workflow" (by decide) (by decide)
    (fun d hd => nomatch hd) (by decide) (by decide +kernel)
  rw [hsites] at hmeets
  have hplan : ∀ container table c,
      Wrapper.plan [c] container table = .ok [Wrapper.ofSite container table c] :=
    fun _ _ _ => rfl
  obtain ⟨w, hone, hname, hplace⟩ :=
    hmeets _ List.mem_cons_self rfl _ ⟨⟨.root, ["p"]⟩, []⟩ _ List.mem_cons_self (hplan _ _ _)
  have hw : _ = w := List.head_eq_of_cons_eq hone
  subst hw
  exact ⟨hsites, _, hplan _ _ _, hname, hplace⟩

end CronWrap
