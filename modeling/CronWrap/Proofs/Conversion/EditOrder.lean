import Mathlib.Data.List.Rotate
import CronWrap.Proofs.Conversion.Outermost
import CronWrap.Proofs.Conversion.TextTree
import CronWrap.Proofs.Conversion.Weave

/-! The edits of a conversion do not meet, so that they can be carried out in any order. -/
namespace CronWrap

open Syntax

/-! ## Calls -/

/-- What is called in the tree of a text has a name that is not blank. -/
theorem Module.exists_not_isBlank_callName {file : Path} {source : List Char} {callName : String}
    {c : ScheduleCall} (hc : c ∈ (parse file source).scheduleCalls callName) :
    ∃ x ∈ callName.toList, ¬ Text.isBlank x := by
  obtain ⟨n, hn, hfound⟩ := List.mem_filterMap.mp hc
  obtain ⟨-, ⟨-, callee, hcallee, hkind, htext⟩, -⟩ := node_of_scheduleCall hfound
  have hmem : callee ∈ (parse file source).root.nodes := Node.mem_nodes_trans hn
    (Node.mem_nodes_of_mem_children (List.mem_of_mem_head? hcallee) callee.self_mem_nodes)
  obtain ⟨x, hx, hblank⟩ := exists_not_isBlank_of_name hmem hkind
  exact ⟨x, by rw [← htext, Node.text, String.toList_ofList]; exact hx, hblank⟩

theorem Module.callName_ne_of_convertedCalls {file : Path} {source : List Char} {callName : String}
    (h : (parse file source).convertedCalls callName ≠ []) : callName ≠ "" := by
  obtain ⟨c, hc⟩ := List.exists_mem_of_ne_nil _ h
  obtain ⟨x, hx, -⟩ := exists_not_isBlank_callName ((convertedCalls_sublist _ _).subset hc)
  rintro rfl
  cases hx

namespace Module.IsOrderly

variable {m : Module} {settings : Settings}

theorem call_bounds (hm : m.IsOrderly) (hname : settings.callName ≠ "") {c : ScheduleCall}
    (hc : c ∈ m.scheduleCalls settings.callName) :
    c.node ∈ m.root.nodes ∧ c.node.kind = .call ∧ c.node.start < c.node.stop :=
  call_bounds_of_inOrder hm.inOrder hname hc

theorem pairwise_calls (hm : m.IsOrderly) (hname : settings.callName ≠ "") :
    ((m.convertedCalls settings.callName).map (ScheduleCall.edit settings m.source)).Pairwise
      Edit.Separate := by
  have htree : ScheduleCall.InOneTree ((m.scheduleCalls settings.callName).filter (·.isConvertible)) :=
    (inOneTree_scheduleCalls hm.inOrder hname).sublist List.filter_sublist
  rw [List.pairwise_map]
  refine htree.pairwise_outermost.imp_of_mem ?_
  intro a b ha _ hab
  have hlt := (hm.call_bounds hname ((m.convertedCalls_sublist _).subset ha)).2.2
  exact ⟨.inl hab, .inl hlt⟩

/-! ## Imports -/

/-- How an import gives way: what goes is within the import and what follows it. -/
theorem removals_bounds (hm : m.IsOrderly) (hname : settings.callName ≠ "") {dropImport : Bool}
    {i : Node} {r : Removal} (h : (i, r) ∈ m.removals settings dropImport) :
    i ∈ m.imports ∧
    (∀ e, r = .specifiers e → i.start ≤ e.start ∧ e.start < e.stop ∧ e.stop ≤ i.stop) ∧
    (∀ e, r = .statement e →
      e.start = i.start ∧ e.start < e.stop ∧ e.stop = removalEnd m.source i.stop) := by
  obtain ⟨j, hj, heq⟩ := List.mem_map.mp h
  obtain ⟨rfl, rfl⟩ := Prod.mk.inj heq
  refine ⟨hj, ?_⟩
  cases dropImport with
  | false => simp
  | true => exact hm.removal_bounds hname hj

theorem pairwise_removals (hm : m.IsOrderly) (settings : Settings) (dropImport : Bool) :
    (m.removals settings dropImport).Pairwise
      fun a b => removalEnd m.source a.1.stop ≤ b.1.start := by
  rw [removals, List.pairwise_map]
  exact hm.pairwise_imports

/-- Two imports are apart, each with what is removed together with it. -/
theorem removals_apart (hm : m.IsOrderly) {dropImport : Bool} {x y : Node × Removal}
    (hx : x ∈ m.removals settings dropImport) (hy : y ∈ m.removals settings dropImport)
    (hne : x ≠ y) :
    removalEnd m.source x.1.stop ≤ y.1.start ∨ removalEnd m.source y.1.stop ≤ x.1.start :=
  (hm.pairwise_removals settings dropImport).or_of_ne hx hy hne

end Module.IsOrderly

namespace Module

/-! ## The parts of the list of edits -/

/-- The edits that shorten lists of names. -/
def shortened (rs : List (Node × Removal)) : List Edit :=
  rs.filterMap fun (_, r) => match r with
    | .specifiers e => some e
    | _ => none

/-- The imports that go, with their edits. -/
def removed (rs : List (Node × Removal)) : List (Node × Edit) :=
  rs.filterMap fun (n, r) => match r with
    | .statement e => some (n, e)
    | _ => none

/-- The imports that stay, with the places behind them. -/
def surviving (rs : List (Node × Removal)) : List (Node × Edit) :=
  rs.filterMap fun (n, r) => match r with
    | .statement _ => none
    | _ => some (n, ⟨n.stop, n.stop, []⟩)

theorem edits_eq (m : Module) (settings : Settings) (container file : Path)
    (calls : List ScheduleCall) (dropImport : Bool) :
    m.edits settings container file calls dropImport =
      calls.map (ScheduleCall.edit settings m.source) ++
        shortened (m.removals settings dropImport) ++
        insertion (surviving (m.removals settings dropImport))
          (removed (m.removals settings dropImport))
          ("\n".intercalate
            (m.newImports settings container file (calls.map (·.functionName)))).toList := rfl

variable {rs : List (Node × Removal)}

theorem mem_shortened_iff {e : Edit} : e ∈ shortened rs ↔ ∃ i, (i, .specifiers e) ∈ rs := by
  simp only [shortened, List.mem_filterMap]
  constructor
  · rintro ⟨⟨i, r⟩, hmem, h⟩
    cases r with
    | specifiers e' =>
      cases h
      exact ⟨i, hmem⟩
    | nothing => cases h
    | statement e' => cases h
  · rintro ⟨i, hmem⟩
    exact ⟨_, hmem, rfl⟩

theorem mem_removed_iff {i : Node} {e : Edit} : (i, e) ∈ removed rs ↔ (i, .statement e) ∈ rs := by
  simp only [removed, List.mem_filterMap]
  constructor
  · rintro ⟨⟨j, r⟩, hmem, h⟩
    cases r with
    | statement e' =>
      cases h
      exact hmem
    | nothing => cases h
    | specifiers e' => cases h
  · intro hmem
    exact ⟨_, hmem, rfl⟩

theorem exists_of_mem_surviving {i : Node} {e : Edit} (h : (i, e) ∈ surviving rs) :
    ∃ r, (i, r) ∈ rs ∧ ∀ e', r ≠ .statement e' := by
  obtain ⟨⟨j, r⟩, hmem, h⟩ := List.mem_filterMap.mp h
  cases r with
  | statement e' => cases h
  | nothing =>
    cases h
    exact ⟨_, hmem, fun _ h => nomatch h⟩
  | specifiers e' =>
    cases h
    exact ⟨_, hmem, fun _ h => nomatch h⟩

/-- An edit of the place of new imports: behind an import that stays, or where an import goes. -/
theorem range_of_mem_insertion {survivors : List (Node × Edit)} {gone : List (Node × Edit)}
    {block : List Char} {e : Edit} (h : e ∈ insertion survivors gone block) :
    (∃ last ∈ survivors, e.start = last.1.stop ∧ e.stop = last.1.stop) ∨
      ∃ g ∈ gone, e.start = g.2.start ∧ e.stop = g.2.stop := by
  unfold insertion at h
  split at h
  · rename_i last _ hlast
    rcases List.mem_cons.mp h with rfl | h
    · exact .inl ⟨_, List.mem_of_getLast? hlast, rfl, rfl⟩
    · obtain ⟨g, hg, rfl⟩ := List.mem_map.mp h
      exact .inr ⟨g, hg, rfl, rfl⟩
  · rcases List.mem_cons.mp h with rfl | h
    · exact .inr ⟨_, List.mem_cons_self, rfl, rfl⟩
    · obtain ⟨g, hg, rfl⟩ := List.mem_map.mp h
      exact .inr ⟨g, List.mem_cons_of_mem _ hg, rfl, rfl⟩
  · cases h

end Module

namespace Module.IsOrderly

variable {m : Module} {settings : Settings} {dropImport : Bool}

/-! ## No two meet -/

theorem pairwise_shortened (hm : m.IsOrderly) (hname : settings.callName ≠ "") :
    (shortened (m.removals settings dropImport)).Pairwise Edit.Separate := by
  rw [shortened, List.pairwise_filterMap]
  refine (hm.pairwise_removals settings dropImport).imp_of_mem ?_
  rintro ⟨i, r⟩ ⟨j, s⟩ hi hj hij e he f hf
  cases r with
  | specifiers e' =>
    cases s with
    | specifiers f' =>
      cases he
      cases hf
      have hb := (hm.removals_bounds hname hi).2.1 e rfl
      have hc := (hm.removals_bounds hname hj).2.1 f rfl
      have hle := le_removalEnd m.source i.stop
      simp only at hij
      exact ⟨by omega, by omega⟩
    | nothing => cases hf
    | statement f' => cases hf
  | nothing => cases he
  | statement e' => cases he

theorem pairwise_removed (hm : m.IsOrderly) (hname : settings.callName ≠ "") :
    (removed (m.removals settings dropImport)).Pairwise fun a b => Edit.Separate a.2 b.2 := by
  rw [removed, List.pairwise_filterMap]
  refine (hm.pairwise_removals settings dropImport).imp_of_mem ?_
  rintro ⟨i, r⟩ ⟨j, s⟩ hi hj hij g hg f hf
  cases r with
  | statement e' =>
    cases s with
    | statement f' =>
      cases hg
      cases hf
      have hb := (hm.removals_bounds hname hi).2.2 _ rfl
      have hc := (hm.removals_bounds hname hj).2.2 _ rfl
      simp only at hij
      exact ⟨by simp only; omega, by simp only; omega⟩
    | nothing => cases hf
    | specifiers f' => cases hf
  | nothing => cases hg
  | specifiers e' => cases hg

/-- The place behind an import that stays is apart from every import that goes. -/
theorem surviving_apart (hm : m.IsOrderly) (hname : settings.callName ≠ "")
    {last : Node} {e : Edit} {g : Node × Edit}
    (hlast : (last, e) ∈ surviving (m.removals settings dropImport))
    (hg : g ∈ removed (m.removals settings dropImport)) :
    (last.stop ≤ g.2.start ∨ g.2.stop ≤ last.stop) ∧ g.2.start < g.2.stop := by
  obtain ⟨r, hr, hstays⟩ := exists_of_mem_surviving hlast
  have hgone := mem_removed_iff.mp (show (g.1, g.2) ∈ _ from hg)
  have hapart := hm.removals_apart hr hgone (fun h => hstays g.2 (congrArg Prod.snd h))
  have hb := (hm.removals_bounds hname hgone).2.2 g.2 rfl
  have hi := hm.import_bounds (hm.removals_bounds hname hr).1 last.self_mem_nodes
  have hle := le_removalEnd m.source last.stop
  simp only at hapart
  exact ⟨by omega, hb.2.1⟩

theorem pairwise_insertion (hm : m.IsOrderly) (hname : settings.callName ≠ "")
    (block : List Char) :
    (insertion (surviving (m.removals settings dropImport))
      (removed (m.removals settings dropImport)) block).Pairwise Edit.Separate := by
  have hremoved : (removed (m.removals settings dropImport)).Pairwise
      fun a b => Edit.Separate a.2 b.2 := hm.pairwise_removed hname
  unfold insertion
  split
  · rename_i last _ hlast
    refine List.pairwise_cons.mpr ⟨?_, List.pairwise_map.mpr hremoved⟩
    intro f hf
    obtain ⟨g, hg, rfl⟩ := List.mem_map.mp hf
    obtain ⟨hapart, hlt⟩ := hm.surviving_apart hname (List.mem_of_getLast? hlast) hg
    exact ⟨hapart, .inr hlt⟩
  · rename_i heq
    rw [heq] at hremoved
    obtain ⟨hfirst, hrest⟩ := List.pairwise_cons.mp hremoved
    refine List.pairwise_cons.mpr ⟨?_, List.pairwise_map.mpr hrest⟩
    intro f hf
    obtain ⟨g, hg, rfl⟩ := List.mem_map.mp hf
    exact hfirst g hg
  · exact List.Pairwise.nil

/-- A list of names that is shortened is apart from the place of new imports and from the imports
that go. -/
theorem separate_shortened_insertion (hm : m.IsOrderly) (hname : settings.callName ≠ "")
    {block : List Char} {e f : Edit} (he : e ∈ shortened (m.removals settings dropImport))
    (hf : f ∈ insertion (surviving (m.removals settings dropImport))
      (removed (m.removals settings dropImport)) block) : Edit.Separate e f := by
  obtain ⟨i, hi⟩ := mem_shortened_iff.mp he
  have hb := (hm.removals_bounds hname hi).2.1 e rfl
  have hle := le_removalEnd m.source i.stop
  refine ⟨?_, .inl hb.2.1⟩
  rcases range_of_mem_insertion hf with ⟨⟨last, l⟩, hlast, hstart, hstop⟩ | ⟨g, hg, hstart, hstop⟩
  · obtain ⟨r, hr, -⟩ := exists_of_mem_surviving hlast
    simp only at hstart hstop
    by_cases hsame : (i, Removal.specifiers e) = (last, r)
    · cases hsame
      omega
    · have hapart := hm.removals_apart hi hr hsame
      have hlb := hm.import_bounds (hm.removals_bounds hname hr).1 last.self_mem_nodes
      have hll := le_removalEnd m.source last.stop
      simp only at hapart
      omega
  · have hgone := mem_removed_iff.mp (show (g.1, g.2) ∈ _ from hg)
    have hapart := hm.removals_apart hi hgone (fun h => nomatch congrArg Prod.snd h)
    have hgb := (hm.removals_bounds hname hgone).2.2 g.2 rfl
    simp only at hapart
    omega

/-- An edit of the imports is within one of them and what is removed together with it. -/
theorem importEdit_bounds (hm : m.IsOrderly) (hname : settings.callName ≠ "") {block : List Char}
    {f : Edit} (hf : f ∈ shortened (m.removals settings dropImport) ++
      insertion (surviving (m.removals settings dropImport))
        (removed (m.removals settings dropImport)) block) :
    ∃ i ∈ m.imports, i.start ≤ f.start ∧ f.start ≤ f.stop ∧
      f.stop ≤ removalEnd m.source i.stop := by
  rcases List.mem_append.mp hf with hf | hf
  · obtain ⟨i, hi⟩ := mem_shortened_iff.mp hf
    obtain ⟨himport, hb, -⟩ := hm.removals_bounds hname hi
    have hrange := hb f rfl
    have hle := le_removalEnd m.source i.stop
    exact ⟨i, himport, hrange.1, by omega, by omega⟩
  · rcases range_of_mem_insertion hf with ⟨⟨last, l⟩, hlast, hstart, hstop⟩ | ⟨g, hg, hstart, hstop⟩
    · obtain ⟨r, hr, -⟩ := exists_of_mem_surviving hlast
      have himport := (hm.removals_bounds hname hr).1
      have hrange := hm.import_bounds himport last.self_mem_nodes
      have hle := le_removalEnd m.source last.stop
      simp only at hstart hstop
      exact ⟨last, himport, by omega, by omega, by omega⟩
    · have hgone := mem_removed_iff.mp (show (g.1, g.2) ∈ _ from hg)
      obtain ⟨himport, -, hb⟩ := hm.removals_bounds hname hgone
      have hrange := hb g.2 rfl
      exact ⟨g.1, himport, by omega, by omega, by omega⟩

theorem separate_call (hm : m.IsOrderly) (hname : settings.callName ≠ "") {block : List Char}
    {e f : Edit}
    (he : e ∈ (m.convertedCalls settings.callName).map (ScheduleCall.edit settings m.source))
    (hf : f ∈ shortened (m.removals settings dropImport) ++
      insertion (surviving (m.removals settings dropImport))
        (removed (m.removals settings dropImport)) block) : Edit.Separate e f := by
  obtain ⟨c, hc, rfl⟩ := List.mem_map.mp he
  obtain ⟨hroot, hcall, hlt⟩ := hm.call_bounds hname ((m.convertedCalls_sublist _).subset hc)
  obtain ⟨i, hi, hstart, -, hstop⟩ := hm.importEdit_bounds hname hf
  refine ⟨?_, .inl hlt⟩
  simp only [ScheduleCall.edit]
  rcases hm.call_apart hroot hcall hi with h | h
  · left
    omega
  · right
    omega

variable (container file : Path)

theorem edits_fit (hm : m.IsOrderly) (hname : settings.callName ≠ "") :
    ∀ e ∈ m.edits settings container file (m.convertedCalls settings.callName) dropImport,
      e.Fits m.source := by
  intro e he
  rw [edits_eq, List.append_assoc] at he
  rcases List.mem_append.mp he with he | he
  · obtain ⟨c, hc, rfl⟩ := List.mem_map.mp he
    exact hm.bounds (hm.call_bounds hname ((m.convertedCalls_sublist _).subset hc)).1
  · obtain ⟨i, hi, -, hle, hstop⟩ := hm.importEdit_bounds hname he
    have hend := removalEnd_le_length (hm.bounds (import_mem_nodes hi)).2
    exact ⟨hle, hstop.trans hend⟩

theorem edits_separate (hm : m.IsOrderly) (hname : settings.callName ≠ "") :
    (m.edits settings container file (m.convertedCalls settings.callName) dropImport).Pairwise
      Edit.Separate := by
  rw [edits_eq, List.append_assoc, List.pairwise_append, List.pairwise_append]
  refine ⟨hm.pairwise_calls hname, ⟨hm.pairwise_shortened hname, hm.pairwise_insertion hname _, ?_⟩,
    ?_⟩
  · exact fun e he f hf => hm.separate_shortened_insertion hname he hf
  · exact fun e he f hf => hm.separate_call hname he hf

end Module.IsOrderly

theorem Module.isOrderly_of_ofScheduling {settings : Settings} {file : Path} {source : List Char}
    {m : Module} (hfound : ofScheduling? settings file source = some m)
    (hcalls : m.convertedCalls settings.callName ≠ []) : m.IsOrderly ∧ settings.callName ≠ "" := by
  obtain rfl := eq_parse_of_ofScheduling hfound
  exact ⟨isOrderly_parse file source, callName_ne_of_convertedCalls hcalls⟩

/-- A conversion with a call to convert carries its edits out. -/
theorem Converted.ofSource_eq_applyAll {settings : Settings} {container file : Path}
    {source : List Char} {m : Module} (hm : Module.ofScheduling? settings file source = some m)
    (hcalls : m.convertedCalls settings.callName ≠ []) :
    let calls := m.convertedCalls settings.callName
    let code := Edit.applyAll m.source (m.edits settings container file calls
      (calls.length = (m.scheduleCalls settings.callName).length))
    (ofSource settings container file source).1 = ⟨code, code ≠ m.source⟩ := by
  obtain rfl := Module.eq_parse_of_ofScheduling hm
  have hsome := List.isEmpty_eq_false_iff.mpr hcalls
  simp only [ofSource, hm, ofModule?]
  rw [if_neg (by simp [hsome])]
  rfl

/-- A conversion whose edits are known in their order. -/
theorem Converted.ofSource_eq_weave {settings : Settings} {container file : Path}
    {source : List Char} {ordered : List Edit}
    (hm : Module.ofScheduling? settings file source = some (Module.parse file source))
    (hcalls : (Module.parse file source).convertedCalls settings.callName ≠ [])
    (hperm : ordered.Perm ((Module.parse file source).edits settings container file
      ((Module.parse file source).convertedCalls settings.callName)
      (((Module.parse file source).convertedCalls settings.callName).length =
        ((Module.parse file source).scheduleCalls settings.callName).length)))
    (hordered : ordered.Pairwise fun a b => a.stop ≤ b.start) :
    (ofSource settings container file source).1 =
      ⟨Edit.weave source 0 ordered, Edit.weave source 0 ordered ≠ source⟩ := by
  obtain ⟨horderly, hname⟩ := Module.isOrderly_of_ofScheduling hm hcalls
  rw [ofSource_eq_applyAll hm hcalls, (Edit.applyAll_eq_weave
    (horderly.edits_fit container file hname) (horderly.edits_separate container file hname) hperm
    hordered).1]
  rfl

/-- The lines of the new imports stand together in the converted text. -/
theorem Converted.newImports_infix_code {settings : Settings} {container file : Path}
    {source : List Char} {m : Module} (hm : Module.ofScheduling? settings file source = some m)
    (hcalls : m.convertedCalls settings.callName ≠ []) :
    ("\n".intercalate (m.newImports settings container file
      ((m.convertedCalls settings.callName).map (·.functionName)))).toList <:+:
        (ofSource settings container file source).1.code := by
  obtain ⟨e, he, hblock⟩ := Module.exists_mem_edits (Module.imports_ne_nil_of_ofScheduling hm)
    settings container file (m.convertedCalls settings.callName)
    ((m.convertedCalls settings.callName).length = (m.scheduleCalls settings.callName).length)
  obtain ⟨horderly, hname⟩ := Module.isOrderly_of_ofScheduling hm hcalls
  obtain rfl := Module.eq_parse_of_ofScheduling hm
  obtain ⟨ordered, hperm, hordered⟩ := Edit.exists_ordered
    (horderly.edits_fit container file hname) (horderly.edits_separate container file hname)
  rw [ofSource_eq_weave hm hcalls hperm hordered]
  exact hblock.trans (Edit.text_infix_weave source (hperm.mem_iff.mpr he) 0)

/-- On an orderly tree the edits of a conversion are ranges of the text that do not meet, and can be
put in order from left to right. However they are listed, the converted text is what they leave
untouched and what they put in, in that order; and where ranges are told by bytes, the result is the
same text in UTF-8. -/
theorem Module.edits_weave {m : Module} (hm : m.IsOrderly) {settings : Settings}
    (hname : settings.callName ≠ "") (container file : Path) :
    let calls := m.convertedCalls settings.callName
    let es := m.edits settings container file calls
      (calls.length = (m.scheduleCalls settings.callName).length)
    (∀ e ∈ es, e.Fits m.source) ∧ es.Pairwise Edit.Separate ∧
      (∃ ordered : List Edit, ordered.Perm es ∧ ordered.Pairwise fun a b => a.stop ≤ b.start) ∧
      ∀ ordered : List Edit, ordered.Perm es →
        (ordered.Pairwise fun a b => a.stop ≤ b.start) →
        (∀ es', es'.Perm es → Edit.applyAll m.source es' = Edit.weave m.source 0 ordered ∧
          Text.decodeUtf8 (Edit.applyAllBytes m.source es') =
            .ok (Edit.weave m.source 0 ordered)) ∧
        (calls ≠ [] → (Converted.ofModule? settings container file m.source (some m)).1.code =
          Edit.weave m.source 0 ordered) := by
  intro calls es
  have hfit : ∀ e ∈ es, e.Fits m.source := hm.edits_fit container file hname
  have hsep : es.Pairwise Edit.Separate := hm.edits_separate container file hname
  refine ⟨hfit, hsep, Edit.exists_ordered hfit hsep, ?_⟩
  intro ordered hperm hordered
  have hweave : ∀ es', es'.Perm es → Edit.applyAll m.source es' = Edit.weave m.source 0 ordered ∧
      Text.decodeUtf8 (Edit.applyAllBytes m.source es') =
        .ok (Edit.weave m.source 0 ordered) := by
    intro es' hes'
    exact Edit.applyAll_eq_weave (fun e he => hfit e (hes'.subset he))
      (hes'.symm.pairwise hsep Edit.Separate.symm) (hperm.trans hes'.symm) hordered
  refine ⟨hweave, ?_⟩
  intro hcalls
  have hempty : calls.isEmpty = false := List.isEmpty_eq_false_iff.mpr hcalls
  simp only [Converted.ofModule?]
  rw [if_neg (by rw [hempty]; simp)]
  exact (hweave es (List.Perm.refl es)).1

theorem Module.edits_weave_of_page :
    let source := "import \x7b a, run \x7d from 'cron'\nrun(f, [], \x7b\x7d)".toList
    let converted := ("import \x7b a \x7d from 'cron'\nimport \x7b start \x7d from \"api\"\n" ++
      "import \x7b __cron__f \x7d from \"./cron-wrappers/trigger-f/workflow\"\n" ++
      "start(__cron__f, [\x7b args: [] \x7d])").toList
    let settings : Settings := { callName := "run", callModule := "cron", startModule := "api" }
    let container := Path.parse "/app/cron-wrappers"
    let file := Path.parse "/app/page.ts"
    let m := Module.parse file source
    m.IsOrderly ∧
      (Converted.ofModule? settings container file m.source (some m)).1.code = converted := by
  intro source converted settings container file m
  let calls := m.convertedCalls settings.callName
  let es := m.edits settings container file calls
    (calls.length = (m.scheduleCalls settings.callName).length)
  have hm : m.IsOrderly := isOrderly_parse file source
  have hfacts : calls ≠ [] ∧ (es.rotate 1).Pairwise (fun a b => a.stop ≤ b.start) ∧
      Edit.weave m.source 0 (es.rotate 1) = converted := by decide +kernel
  obtain ⟨hcalls, hordered, hcode⟩ := hfacts
  refine ⟨hm, ?_⟩
  have hname : settings.callName ≠ "" := by decide
  obtain ⟨-, -, -, hweave⟩ := Module.edits_weave hm hname container file
  -- The call comes first in the list of edits and last in the text.
  obtain ⟨-, hresult⟩ := hweave (es.rotate 1) (List.rotate_perm es 1) hordered
  rw [hresult hcalls]
  exact hcode

/-- A tree in which the default of an import comes behind its list of names, so that the edit that takes the
list out ends before it begins; and one that is a call as a whole, the import below it included. -/
theorem Module.edits_misfit_of_disorder :
    let settings : Settings := { callName := "run", callModule := "cron", startModule := "api" }
    let edits (m : Module) : List Edit :=
      let calls := m.convertedCalls settings.callName
      m.edits settings (.parse "/app/cron-wrappers") (.parse "/app/page.ts") calls
        (calls.length = (m.scheduleCalls settings.callName).length)
    let clause (start : Nat) : Node := .mk .namedImports ⟨start, start + 7⟩
      [.mk .importSpecifier ⟨start + 2, start + 5⟩ [.mk .identifier ⟨start + 2, start + 5⟩ []]]
    let callParts (start : Nat) : List Node := [.mk .identifier ⟨start, start + 3⟩ [],
      .mk .arguments ⟨start + 3, start + 14⟩ [.mk .identifier ⟨start + 4, start + 5⟩ [],
        .mk .array ⟨start + 7, start + 9⟩ [], .mk .object ⟨start + 11, start + 13⟩ []]]
    let behind : Module := ⟨"import \x7b run \x7d, b from 'cron'\nrun(f, [], \x7b\x7d)".toList,
      .mk .program ⟨0, 44⟩ [.mk .importStatement ⟨0, 29⟩
        [.mk .importClause ⟨7, 17⟩ [clause 7, .mk .identifier ⟨16, 17⟩ []], .mk .string ⟨23, 29⟩ []],
        .mk .call ⟨30, 44⟩ (callParts 30)]⟩
    let around : Module := ⟨"run(f, [], \x7b\x7d)\nimport \x7b run \x7d from 'cron'".toList,
      .mk .call ⟨0, 41⟩ (callParts 0 ++ [.mk .importStatement ⟨15, 41⟩
        [.mk .importClause ⟨22, 29⟩ [clause 22], .mk .string ⟨35, 41⟩ []]])⟩
    let converted := "start(__cron__f, [\x7b args: [] \x7d])".toList
    (behind.IsNested ∧ ⟨17, 14, []⟩ ∈ edits behind ∧ ¬ Edit.Fits behind.source ⟨17, 14, []⟩) ∧
      around.IsNested ∧ (⟨0, 41, converted⟩ ∈ edits around ∧ ∃ text, ⟨15, 41, text⟩ ∈ edits around) ∧
        ∀ text, ¬ Edit.Separate ⟨0, 41, converted⟩ ⟨15, 41, text⟩ := by
  intro settings edits clause callParts behind around converted
  have hbehind : behind.IsNested ∧ ⟨17, 14, []⟩ ∈ edits behind := by decide +kernel
  have haround : around.IsNested ∧ ⟨0, 41, converted⟩ ∈ edits around ∧
      ∃ e ∈ edits around, e.start = 15 ∧ e.stop = 41 := by decide +kernel
  obtain ⟨hnested, hwhole, ⟨_, _, text⟩, hremoval, rfl, rfl⟩ := haround
  refine ⟨⟨hbehind.1, hbehind.2, fun h => absurd h.1 (by decide)⟩, hnested, ⟨hwhole, text, hremoval⟩,
    fun text h => ?_⟩
  have hmeet : ¬ (41 ≤ 15 ∨ 41 ≤ 0) := by decide
  exact hmeet h.1

end CronWrap
