import CronWrap.Conversion.Imports
import CronWrap.Proofs.Path.Specifier
import CronWrap.Wrapper.Plan

/-! The place of a wrapper, and the specifier that leads to it. -/
namespace CronWrap

open CronWrap.Path

namespace Layout

theorem wrapperName_injective : Function.Injective wrapperName := by
  intro f g h
  have hl := congrArg String.toList h
  simp only [wrapperName, String.toList_append, List.append_cancel_left_eq] at hl
  exact String.toList_inj.mp hl

theorem triggerDir_injective : Function.Injective triggerDir := by
  intro f g h
  have hl := congrArg String.toList h
  simp only [triggerDir, String.toList_append, List.append_cancel_left_eq] at hl
  exact String.toList_inj.mp hl

theorem isSegment_triggerDir {f : String} (h : '/' ∉ f.toList) : IsSegment (triggerDir f) := by
  have hlist : (triggerDir f).toList = "trigger-".toList ++ f.toList := by
    rw [triggerDir, String.toList_append, triggerPrefix]
  refine ⟨fun he => ?_, fun he => ?_, fun hc => ?_⟩
  · simp [he] at hlist
  · simp [he] at hlist
  · rw [hlist, List.mem_append] at hc
    exact hc.elim (by decide) h

theorem parse_triggerDir (f : String) :
    Path.parse (triggerDir f) = ⟨.here, segmentsOf (triggerDir f).toList⟩ := by
  have h : (triggerDir f).toList = 't' :: ("rigger-".toList ++ f.toList) := by
    simp [triggerDir, triggerPrefix]
  simp [Path.parse, ofChars, h, anchorOf]

theorem parse_schedulerSpecifier (f : String) :
    Path.parse (schedulerSpecifier f) =
      ⟨.here, segmentsOf (triggerDir f).toList ++ [schedulerModule]⟩ := by
  have h : (schedulerSpecifier f).toList = (triggerDir f).toList ++ '/' :: "workflow".toList := by
    simp [schedulerSpecifier, schedulerModule]
  have ht : (triggerDir f).toList = 't' :: ("rigger-".toList ++ f.toList) := by
    simp [triggerDir, triggerPrefix]
  have hw : segmentsOf "workflow".toList = [schedulerModule] := by decide
  rw [Path.parse, ofChars, h, segmentsOf_append_slash, hw, ht]
  rfl

/-- The directory of a wrapper, as a path that is not collapsed. -/
def wrapperDir (container : Path) (f : String) : Path :=
  ⟨container.anchor, container.segments ++ segmentsOf (triggerDir f).toList⟩

theorem div_schedulerSpecifier (container : Path) (f : String) :
    container / schedulerSpecifier f =
      ⟨container.anchor, (wrapperDir container f).segments ++ [schedulerModule]⟩ := by
  change container.join (Path.parse (schedulerSpecifier f)) = _
  rw [parse_schedulerSpecifier]
  simp [join, isAbsolute, wrapperDir]

theorem isPlain_wrapperDir {container : Path} (h : container.IsPlain) {f : String}
    (hf : '\\' ∉ f.toList) : (wrapperDir container f).IsPlain := by
  refine h.append (fun s hs => isSegment_of_mem_segmentsOf hs) ?_
  intro s hs hc
  have hmem := mem_of_mem_segmentsOf hs hc
  rw [triggerDir, String.toList_append, List.mem_append] at hmem
  rcases hmem with hmem | hmem
  · exact absurd hmem (by decide)
  · exact hf hmem

theorem isPlain_containerIn {root : Path} (h : root.IsPlain) {found : Option Path}
    (hfound : ∀ d ∈ found, d ∈ routableDirs root) : (containerIn root found).IsPlain := by
  have hdirs : ∀ d ∈ routableDirs root, d.IsPlain := by
    intro d hd
    obtain ⟨parts, hparts, rfl⟩ := List.mem_map.mp hd
    have hp : (∀ s ∈ parts, IsSegment s) ∧ ∀ s ∈ parts, '\\' ∉ s.toList := by
      have hall : ∀ parts ∈ routableRoots,
          (∀ s ∈ parts, IsSegment s) ∧ ∀ s ∈ parts, '\\' ∉ s.toList := by decide
      exact hall parts hparts
    exact h.append hp.1 hp.2
  have hbase : (found.getD ((routableDirs root).headD root)).IsPlain := by
    cases found with
    | none => exact hdirs _ (by simp [routableDirs, routableRoots])
    | some d => exact hdirs d (hfound d rfl)
  rw [containerIn, div_of_isSegment _ (by decide)]
  exact hbase.append (by decide) (by decide)

end Layout

theorem Wrapper.modulePath_ofSite (container : Path) (table : AliasTable) (c : CallSite) :
    (ofSite container table c).modulePath = ⟨container.anchor,
      (Layout.wrapperDir container c.functionName).segments ++
        [Layout.moduleFile Layout.schedulerModule]⟩ := by
  have hfile : Path.parse (Layout.moduleFile Layout.schedulerModule) =
      ⟨.here, [Layout.moduleFile Layout.schedulerModule]⟩ := by decide
  change (container.join (Path.parse (Layout.triggerDir c.functionName))).join
    (Path.parse (Layout.moduleFile Layout.schedulerModule)) = _
  rw [hfile, Layout.parse_triggerDir]
  simp [join, isAbsolute, Layout.wrapperDir]

/-- A longer last segment only makes the text of a path longer. -/
theorem Path.toString_append_last (anchor : Anchor) (segs : List String) (s t : String) :
    toString ⟨anchor, segs ++ [s]⟩ ++ t = toString ⟨anchor, segs ++ [s ++ t]⟩ := by
  have h : String.intercalate "/" (segs ++ [s]) ++ t = String.intercalate "/" (segs ++ [s ++ t]) := by
    by_cases hs : segs = []
    · simp [hs]
    · rw [String.intercalate_append_of_ne_nil hs (by simp),
        String.intercalate_append_of_ne_nil hs (by simp)]
      simp [String.append_assoc]
  simp [toString, ← h, String.append_assoc]

/-- The specifier of a wrapper leads from the converted file to the file of the wrapper. -/
theorem Wrapper.toString_div_wrapperSpecifier (table : AliasTable) {container file : Path}
    (hc : container.IsPlain) (hfile : file.IsPlain) {c : CallSite} {f : String}
    (hcf : c.functionName = f) (hf : '\\' ∉ f.toList) :
    (file.parent / Module.wrapperSpecifier container file f).normalize.toString ++ ".ts" =
      (ofSite container table c).modulePath.normalize.toString := by
  have hplain := Layout.isPlain_wrapperDir hc hf
  have htarget : (container / Layout.schedulerSpecifier f).IsPlain := by
    rw [Layout.div_schedulerSpecifier]
    exact hplain.append (by decide) (by decide)
  have hway := normalize_div_relativeSpecifier htarget hfile.parent
  have hmodule : (container / Layout.schedulerSpecifier f).normalize =
      ⟨container.anchor, (Layout.wrapperDir container f).normalize.segments ++ ["workflow"]⟩ := by
    rw [Layout.div_schedulerSpecifier]
    exact normalize_append (Layout.wrapperDir container f) (by decide)
  have hpath : (ofSite container table c).modulePath.normalize =
      ⟨container.anchor, (Layout.wrapperDir container f).normalize.segments ++ ["workflow.ts"]⟩ := by
    rw [modulePath_ofSite, hcf]
    exact normalize_append (Layout.wrapperDir container f) (by decide)
  have hts : "workflow" ++ ".ts" = "workflow.ts" := by decide
  rw [Module.wrapperSpecifier, hway, hmodule, hpath, toString_append_last, hts]

end CronWrap
