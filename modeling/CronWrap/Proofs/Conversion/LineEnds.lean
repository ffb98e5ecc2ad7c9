import CronWrap.Proofs.Conversion.EditOrder
import CronWrap.Proofs.Wrapper.ImportLine
import CronWrap.Proofs.Wrapper.PlanShape

/-! The line ends of a converted text: carriage returns come from the text itself, none is put in. -/
namespace CronWrap

open Text

theorem return_not_mem_importLine {functionName : String} (h : '\r' ∉ functionName.toList)
    (path : String) : '\r' ∉ (importLine functionName none path).toList :=
  control_not_mem_importLine (by decide) h (by simp) path

theorem Edit.mem_of_mem_applyAll {source : List Char} {es : List Edit} {c : Char}
    (h : c ∈ applyAll source es) : c ∈ source ∨ ∃ e ∈ es, c ∈ e.text := by
  have hfold : ∀ (l : List Edit) (cs : List Char), c ∈ l.foldl apply cs →
      c ∈ cs ∨ ∃ e ∈ l, c ∈ e.text := by
    intro l
    induction l with
    | nil => exact fun cs h => .inl h
    | cons e l ih =>
      intro cs h
      rcases ih _ h with h | ⟨f, hf, h⟩
      · rw [apply, List.mem_append, List.mem_append] at h
        rcases h with (h | h) | h
        · exact .inl (List.mem_of_mem_take h)
        · exact .inr ⟨e, List.mem_cons_self, h⟩
        · exact .inl (List.mem_of_mem_drop h)
      · exact .inr ⟨f, List.mem_cons_of_mem _ hf, h⟩
  rcases hfold _ _ h with h | ⟨e, he, h⟩
  · exact .inl h
  · exact .inr ⟨e, List.mem_mergeSort.mp he, h⟩

namespace Module

variable {m : Module} {settings : Settings} {container file : Path} {dropImport : Bool}

theorem return_not_mem_chars (hsource : '\r' ∉ m.source) (n : Syntax.Node) :
    '\r' ∉ n.chars m.source :=
  fun h => hsource (List.mem_of_mem_drop (List.mem_of_mem_take h))

theorem return_not_mem_functionName (hsource : '\r' ∉ m.source) {callName : String}
    {c : ScheduleCall} (hc : c ∈ m.convertedCalls callName) : '\r' ∉ c.functionName.toList := by
  obtain ⟨n, -, hn⟩ := List.mem_filterMap.mp ((m.convertedCalls_sublist callName).subset hc)
  unfold scheduleCall? at hn
  split at hn
  · split at hn
    · split at hn
      · cases hn
        rw [Syntax.Node.text, String.toList_ofList]
        exact return_not_mem_chars hsource _
      · cases hn
    · cases hn
  · cases hn

theorem return_not_mem_mergedOptions {source : List Char} (hsource : '\r' ∉ source)
    (args options : Syntax.Node) : '\r' ∉ ScheduleCall.mergedOptions source args options := by
  have hchars : ∀ n : Syntax.Node, '\r' ∉ n.chars source :=
    fun n h => hsource (List.mem_of_mem_drop (List.mem_of_mem_take h))
  have hbody : '\r' ∉ ((options.chars source).drop 1).dropLast :=
    fun h => hchars options (List.mem_of_mem_drop (List.mem_of_mem_dropLast h))
  have hopening : '\r' ∉ "\x7b args: ".toList := by decide
  have hspread : '\r' ∉ ", ...".toList := by decide
  have hclosing : '\r' ∉ " \x7d".toList := by decide
  unfold ScheduleCall.mergedOptions
  dsimp only
  split
  · simp only [List.mem_append, not_or]
    exact ⟨⟨⟨⟨hopening, hchars args⟩, hspread⟩, hchars options⟩, hclosing⟩
  split
  · simp only [List.mem_append, not_or]
    exact ⟨⟨hopening, hchars args⟩, hclosing⟩
  · have hgap : '\r' ∉ if ((options.chars source).drop 1).dropLast.head?.any isBlank then []
        else [' '] := by
      split <;> decide
    simp only [List.mem_append, not_or]
    exact ⟨⟨⟨⟨⟨hopening, hchars args⟩, by decide⟩, hgap⟩, hbody⟩, by decide⟩

theorem return_not_mem_wrapperName {f : String} (h : '\r' ∉ f.toList) :
    '\r' ∉ (Layout.wrapperName f).toList := by
  have hhead : '\r' ∉ Layout.wrapperPrefix.toList := by decide
  rw [Layout.wrapperName, String.toList_append, List.mem_append, not_or]
  exact ⟨hhead, h⟩

theorem return_not_mem_replacement (hsource : '\r' ∉ m.source)
    (hstart : '\r' ∉ settings.startName.toList) {c : ScheduleCall}
    (hname : '\r' ∉ c.functionName.toList) : '\r' ∉ c.replacement settings m.source := by
  have hopening : '\r' ∉ "(".toList := by decide
  have hlist : '\r' ∉ ", [".toList := by decide
  have hclosing : '\r' ∉ "])".toList := by decide
  unfold ScheduleCall.replacement
  split
  · simp only [String.toList_append, List.mem_append, not_or]
    exact ⟨⟨⟨⟨⟨hstart, hopening⟩, return_not_mem_wrapperName hname⟩, hlist⟩,
      return_not_mem_mergedOptions hsource _ _⟩, hclosing⟩
  · exact return_not_mem_chars hsource _

theorem return_not_mem_newImport (hstart : '\r' ∉ settings.startName.toList) {functions : List String}
    (hfunctions : ∀ f ∈ functions, '\r' ∉ f.toList) {line : String}
    (h : line ∈ m.newImports settings container file functions) : '\r' ∉ line.toList := by
  rcases List.mem_append.mp h with h | h
  · split at h
    · cases h
    · rw [List.mem_singleton] at h
      subst h
      exact return_not_mem_importLine hstart _
  · obtain ⟨w, hw, rfl⟩ := List.mem_map.mp h
    obtain ⟨f, hf, rfl⟩ := List.mem_map.mp hw
    have hname := hfunctions f (((mem_distinctFrom_iff _ _ _).mp hf).2)
    exact return_not_mem_importLine (return_not_mem_wrapperName hname) _

theorem return_not_mem_listText (hsource : '\r' ∉ m.source) (specifiers : List Syntax.Node) :
    '\r' ∉ m.listText specifiers := by
  have hopening : '\r' ∉ "\x7b ".toList := by decide
  have hclosing : '\r' ∉ " \x7d".toList := by decide
  simp only [listText, List.mem_append, not_or]
  refine ⟨⟨hopening, fun h => ?_⟩, hclosing⟩
  rcases List.mem_of_mem_intercalate h with h | ⟨l, hl, h⟩
  · revert h
    decide
  · obtain ⟨n, -, rfl⟩ := List.mem_map.mp hl
    exact return_not_mem_chars hsource n h

theorem return_not_mem_removal (hsource : '\r' ∉ m.source) {name module : String} {i : Syntax.Node}
    {e : Edit} (h : (m.removal name module i).edit? = some e) : '\r' ∉ e.text := by
  unfold removal at h
  split at h
  · cases h
  dsimp only at h
  split at h
  · cases h
  split at h
  · cases h
  split at h
  · cases h
    exact return_not_mem_listText hsource _
  split at h <;> cases h <;> exact List.not_mem_nil

theorem text_of_mem_insertion {survivors gone : List (Syntax.Node × Edit)} {block : List Char}
    {e : Edit} (h : e ∈ insertion survivors gone block) :
    e.text = '\n' :: block ∨ e.text = block ++ ['\n'] ∨ ∃ i, (i, e) ∈ gone := by
  have hgone : ∀ rest : List (Syntax.Node × Edit), e ∈ rest.map (·.2) → ∃ i, (i, e) ∈ rest := by
    intro rest he
    obtain ⟨⟨i, e'⟩, hi, rfl⟩ := List.mem_map.mp he
    exact ⟨i, hi⟩
  unfold insertion at h
  split at h
  · rcases List.mem_cons.mp h with rfl | h
    · exact .inl rfl
    · exact .inr (.inr (hgone _ h))
  · rcases List.mem_cons.mp h with rfl | h
    · exact .inr (.inl rfl)
    · exact .inr (.inr ((hgone _ h).imp fun i hi => List.mem_cons_of_mem _ hi))
  · cases h

theorem return_not_mem_edits (hsource : '\r' ∉ m.source)
    (hstart : '\r' ∉ settings.startName.toList) {e : Edit}
    (he : e ∈ m.edits settings container file (m.convertedCalls settings.callName) dropImport) :
    '\r' ∉ e.text := by
  have hremovals : ∀ i r, (i, r) ∈ m.removals settings dropImport → ∀ e, r.edit? = some e →
      '\r' ∉ e.text := by
    intro i r hr e he
    obtain ⟨j, -, hj⟩ := List.mem_map.mp hr
    cases hj
    split at he
    · exact return_not_mem_removal hsource he
    · cases he
  rw [edits_eq, List.append_assoc, List.mem_append, List.mem_append] at he
  rcases he with he | he | he
  · obtain ⟨c, hc, rfl⟩ := List.mem_map.mp he
    exact return_not_mem_replacement hsource hstart (return_not_mem_functionName hsource hc)
  · obtain ⟨i, hi⟩ := mem_shortened_iff.mp he
    exact hremovals i _ hi e rfl
  · have hblock : '\r' ∉ ("\n".intercalate (m.newImports settings container file
        ((m.convertedCalls settings.callName).map (·.functionName)))).toList := by
      have hbreak : '\r' ∉ "\n".toList := by decide
      rw [String.toList_intercalate]
      intro h
      obtain ⟨l, hl, h⟩ := (List.mem_of_mem_intercalate h).resolve_left hbreak
      obtain ⟨line, hline, rfl⟩ := List.mem_map.mp hl
      refine return_not_mem_newImport hstart (fun f hf => ?_) hline h
      obtain ⟨c, hc, rfl⟩ := List.mem_map.mp hf
      exact return_not_mem_functionName hsource hc
    rcases text_of_mem_insertion he with h | h | ⟨i, hi⟩
    · simpa [h] using hblock
    · simpa [h] using hblock
    · exact hremovals i _ (mem_removed_iff.mp hi) e rfl

end Module

/-- The conversion of a text without carriage returns has none. -/
theorem Converted.return_not_mem_code {settings : Settings} {container file : Path}
    {source : List Char} (hstart : '\r' ∉ settings.startName.toList) (hsource : '\r' ∉ source) :
    '\r' ∉ (ofSource settings container file source).1.code := by
  cases hm : Module.ofScheduling? settings file source with
  | none => simpa [ofSource, hm, ofModule?, unchanged] using hsource
  | some m =>
    obtain rfl := Module.eq_parse_of_ofScheduling hm
    simp only [ofSource, hm, ofModule?]
    split
    · exact hsource
    · intro h
      rcases Edit.mem_of_mem_applyAll h with h | ⟨e, he, h⟩
      · exact hsource h
      · exact Module.return_not_mem_edits hsource hstart he h

end CronWrap
