import CronWrap.Proofs.Conversion.EditOrder

/-! Converting what has been converted: which calls a conversion leaves for another one. -/
namespace CronWrap

open Syntax Text

/-! ## Texts in texts -/

/-- A part of a text that begins and ends within another one. -/
theorem infix_of_within {source : List Char} {a b a' b' : Nat} (ha : a ≤ a') (hb : b' ≤ b) :
    (source.drop a').take (b' - a') <:+: (source.drop a).take (b - a) := by
  have hpart : (source.drop a').take (b' - a') =
      (((source.drop a).take (b - a)).drop (a' - a)).take (b' - a') := by
    rw [List.drop_take, List.drop_drop, List.take_take, Nat.add_sub_cancel' ha]
    congr 1
    omega
  rw [hpart]
  exact (List.take_prefix _ _).isInfix.trans (List.drop_suffix _ _).isInfix

namespace ScheduleCall

/-- The node lies where the text of the call's arguments and options is taken over. -/
def TakesOver (c : ScheduleCall) (n : Node) : Prop :=
  ∃ scheduled args options, c.arguments = [scheduled, args, options] ∧
    (n ∈ args.nodes ∨ n ∈ options.nodes ∧ options.start < n.start ∧ n.stop < options.stop)

end ScheduleCall

namespace Module.IsOrderly

variable {m : Module} {settings : Settings}

theorem infix_chars (hm : m.IsOrderly) {n d : Node} (hn : n ∈ m.root.nodes) (hd : d ∈ n.nodes) :
    d.chars m.source <:+: n.chars m.source := by
  obtain ⟨hstart, -, hstop⟩ :=
    Node.bounds_of_mem_nodes (fun e he => hm.inOrder e (Node.mem_nodes_trans hn he)) hd
  exact infix_of_within hstart hstop

theorem arguments_mem_nodes {callName : String} {c : ScheduleCall}
    (hc : c ∈ m.scheduleCalls callName) : ∀ a ∈ c.arguments, a ∈ c.node.nodes := by
  obtain ⟨n, -, hfound⟩ := List.mem_filterMap.mp hc
  have harguments : c.arguments = argumentNodes c.node := by
    unfold scheduleCall? at hfound
    split at hfound
    · split at hfound
      · split at hfound
        · cases hfound
          exact Eq.symm ‹_›
        · cases hfound
      · cases hfound
    · cases hfound
  intro a ha
  rw [harguments, argumentNodes] at ha
  cases hlist : childOf? .arguments c.node with
  | none => simp [hlist] at ha
  | some list =>
    rw [hlist] at ha
    exact Node.mem_nodes_of_mem_children (mem_of_childOf hlist).1
      (Node.mem_nodes_of_mem_children ha a.self_mem_nodes)

/-- Some character of a call is not blank if the name has one. -/
theorem exists_not_isBlank (hm : m.IsOrderly) {callName : String}
    (hname : ∃ x ∈ callName.toList, ¬ isBlank x) {c : ScheduleCall}
    (hc : c ∈ m.scheduleCalls callName) : ∃ x ∈ c.node.chars m.source, ¬ isBlank x := by
  obtain ⟨n, hn, hfound⟩ := List.mem_filterMap.mp hc
  obtain ⟨rfl, ⟨-, callee, hcallee, -, htext⟩, -⟩ := node_of_scheduleCall hfound
  obtain ⟨rest, hchildren⟩ := List.head?_eq_some_iff.mp hcallee
  have hmem : callee ∈ c.node.nodes :=
    Node.mem_nodes_of_mem_children (by simp [hchildren]) callee.self_mem_nodes
  obtain ⟨x, hx, hblank⟩ := hname
  rw [← htext, Node.text, String.toList_ofList] at hx
  exact ⟨x, (hm.infix_chars hn hmem).subset hx, hblank⟩

/-- What is not blank within the braces of the options is in their text. -/
theorem infix_mergedOptions (hm : m.IsOrderly) {args options n : Node} (hargs : args ∈ m.root.nodes)
    (hoptions : options ∈ m.root.nodes) (hn : ∃ x ∈ n.chars m.source, ¬ isBlank x)
    (h : n ∈ args.nodes ∨ n ∈ options.nodes ∧ options.start < n.start ∧ n.stop < options.stop) :
    n.chars m.source <:+: ScheduleCall.mergedOptions m.source args options := by
  obtain ⟨-, hlength⟩ := hm.bounds hoptions
  have hbody : ((options.chars m.source).drop 1).dropLast =
      (m.source.drop (options.start + 1)).take (options.stop - 1 - (options.start + 1)) := by
    rw [List.dropLast_eq_take, Node.chars, List.drop_take, List.drop_drop, List.take_take]
    congr 1
    simp only [List.length_take, List.length_drop]
    omega
  have hopening : ∀ rest, args.chars m.source <:+: "\x7b args: ".toList ++ args.chars m.source ++ rest :=
    fun rest => List.infix_append _ _ _
  unfold ScheduleCall.mergedOptions
  dsimp only
  rcases h with h | ⟨h, hstart, hstop⟩
  · have hinfix := hm.infix_chars hargs h
    split
    · exact hinfix.trans (by simpa using hopening _)
    · split <;> exact hinfix.trans (by simpa using hopening _)
  · have hinfix := hm.infix_chars hoptions h
    split
    · exact hinfix.trans (List.infix_append _ _ _)
    · have hinside : n.chars m.source <:+: ((options.chars m.source).drop 1).dropLast := by
        rw [hbody]
        exact infix_of_within (by omega) (by omega)
      obtain ⟨x, hx, hblank⟩ := hn
      have hfilled : ¬ allBlank ((options.chars m.source).drop 1).dropLast :=
        fun hall => hblank (List.all_eq_true.mp hall x (hinside.subset hx))
      rw [if_neg hfilled]
      exact hinside.trans (List.infix_append _ _ _)

/-- The text of a call in what is taken over is in what is put in place of the outer call. -/
theorem infix_replacement (hm : m.IsOrderly) {outer inner : ScheduleCall}
    (houter : outer ∈ m.convertedCalls settings.callName)
    (hinner : inner ∈ m.scheduleCalls settings.callName)
    (hname : ∃ c ∈ settings.callName.toList, ¬ isBlank c)
    (h : outer.TakesOver inner.node) :
    inner.node.chars m.source <:+: outer.replacement settings m.source := by
  obtain ⟨scheduled, args, options, harguments, h⟩ := h
  have hfound := (m.convertedCalls_sublist _).subset houter
  have hroot : ∀ a ∈ outer.arguments, a ∈ m.root.nodes := by
    intro a ha
    obtain ⟨n, hn, hcall⟩ := List.mem_filterMap.mp hfound
    obtain ⟨rfl, -⟩ := node_of_scheduleCall hcall
    exact Node.mem_nodes_trans hn (arguments_mem_nodes hfound a ha)
  have hmerged := hm.infix_mergedOptions (hroot args (by simp [harguments]))
    (hroot options (by simp [harguments])) (hm.exists_not_isBlank hname hinner) h
  unfold ScheduleCall.replacement
  rw [harguments]
  exact hmerged.trans (List.infix_append _ _ _)

end Module.IsOrderly

/-- The text of each edit is in the result. -/
theorem Edit.infix_weave {source : List Char} {e : Edit} {es : List Edit} (h : e ∈ es) (start : Nat) :
    e.text <:+: weave source start es := by
  induction es generalizing start with
  | nil => cases h
  | cons f rest ih =>
    rw [weave]
    rcases List.mem_cons.mp h with rfl | h
    · exact List.infix_append _ _ _
    · exact (ih h f.stop).trans (List.suffix_append _ _).isInfix

/-! ## What the quick look needs -/

namespace Mention

/-- The module stands in the text between quotes. -/
def Quotes (module cs : List Char) : Prop :=
  ∃ q l, IsQuote q ∧ IsQuote l ∧ q :: (module ++ [l]) <:+: cs

variable {name module : List Char}

theorem Quotes.of_suffix {cs rest : List Char} (h : Quotes module rest) (hrest : rest <:+ cs) :
    Quotes module cs := by
  obtain ⟨q, l, hq, hl, hinfix⟩ := h
  exact ⟨q, l, hq, hl, hinfix.trans hrest.isInfix⟩

theorem Quotes.of_spells {next : List Char → Prop} (hnext : ∀ cs, next cs → Quotes module cs)
    {w cs : List Char} (h : Spells w next cs) : Quotes module cs := by
  obtain ⟨rest, rfl, h⟩ := h
  exact (hnext rest h).of_suffix (List.suffix_append w rest)

theorem Quotes.of_blanks {next : List Char → Prop} (hnext : ∀ cs, next cs → Quotes module cs)
    {cs : List Char} (h : Blanks next cs) : Quotes module cs := by
  obtain ⟨gap, rest, rfl, -, h⟩ := h
  exact (hnext rest h).of_suffix (List.suffix_append gap rest)

theorem quotes_of_spellsModule {cs : List Char} (h : SpellsModule module cs) : Quotes module cs := by
  refine .of_blanks (fun cs => .of_spells fun cs => .of_blanks fun cs => ?_) h
  rintro ⟨q, l, rest, rfl, hq, hl⟩
  exact ⟨q, l, hq, hl, [], rest, by simp⟩

theorem quotes_of_spellsList {cs : List Char} (h : SpellsList name module cs) :
    Quotes module cs := by
  refine .of_spells ?_ h
  rintro _ ⟨others, _, rfl, -, more, rest, rfl, -, -, -, hmodule⟩
  have hsuffix : rest <:+ others ++ (name ++ (more ++ '}' :: rest)) :=
    ⟨others ++ (name ++ (more ++ ['}'])), by simp⟩
  exact (quotes_of_spellsModule hmodule).of_suffix hsuffix

theorem quotes_of_spellsClause {cs : List Char} (h : SpellsClause name module cs) :
    Quotes module cs := by
  rcases h with h | ⟨single, rest, rfl, -, -, h⟩
  · exact quotes_of_spellsList h
  · have hrest : Quotes module rest :=
      .of_blanks (fun cs => .of_spells fun cs => .of_blanks fun cs => quotes_of_spellsList) h
    exact hrest.of_suffix (List.suffix_append single rest)

/-- A text that spells out an import quotes the module. -/
theorem quotes_of_spellsImport {before : Option Char} {cs : List Char}
    (h : SpellsImport name module before cs) : Quotes module cs := by
  obtain ⟨others, rest, rfl, -, -, h⟩ := h
  have hrest : Quotes module rest := by
    refine .of_spells (fun cs => .of_blanks fun cs himported => ?_) h
    rcases himported with h | h
    · exact quotes_of_spellsClause h
    · refine .of_spells ?_ h
      rintro _ ⟨c, rest, rfl, -, h⟩
      exact (Quotes.of_blanks (fun cs => quotes_of_spellsClause) h).of_suffix
        (List.suffix_cons c rest)
  exact hrest.of_suffix (List.suffix_append others rest)

end Mention

/-! ## The conversion of what is converted -/

namespace Converted

variable {settings : Settings} {container file : Path} {source : List Char}

theorem convertedCalls_eq_nil_iff {m : Module} {callName : String} :
    m.convertedCalls callName = [] ↔
      ∀ c ∈ m.scheduleCalls callName, c.isConvertible = false := by
  have houtermost : ∀ cs : List ScheduleCall, ScheduleCall.outermost cs = [] ↔ cs = [] := by
    intro cs
    cases cs <;> simp [ScheduleCall.outermost, ScheduleCall.outermostFrom]
  rw [Module.convertedCalls, houtermost, List.filter_eq_nil_iff]
  simp

/-- A text passes as it stands, and nothing is noted, exactly if no call in it could be converted. -/
theorem ofSource_eq_unchanged_iff :
    ofSource settings container file source = (unchanged source, []) ↔
      ∀ m, Module.ofScheduling? settings file source = some m →
        ∀ c ∈ m.scheduleCalls settings.callName, c.isConvertible = false := by
  rw [ofSource]
  cases Module.ofScheduling? settings file source with
  | none => simp [ofModule?]
  | some m =>
    simp only [Option.some.injEq, forall_eq']
    rw [← convertedCalls_eq_nil_iff, ← ofModule_eq_unchanged_iff settings container file source m]
    exact eq_comm

theorem ofSource_of_not_quotes (h : ¬ Mention.Quotes settings.callModule.toList source) :
    ofSource settings container file source = (unchanged source, []) := by
  have hmention : ¬ Mention.mentionsImport source settings.callName settings.callModule := by
    rw [Mention.mentionsImport_iff]
    exact fun hspells => h (Mention.quotes_of_spellsImport hspells)
  rw [ofSource, Module.ofScheduling?, if_neg hmention]
  rfl

/-- A call that could be converted and is not lies in one that is converted. Then the import stays, and
if the call is in what is taken over, its text is in the converted text. -/
theorem left_over {m : Module} (hfound : Module.ofScheduling? settings file source = some m)
    {inner : ScheduleCall} (hinner : inner ∈ m.scheduleCalls settings.callName)
    (hconvertible : inner.isConvertible) (hleft : inner ∉ m.convertedCalls settings.callName) :
    ¬ m.LosesImport settings ∧
      ∃ outer ∈ m.convertedCalls settings.callName, inner.node ∈ outer.node.nodes ∧
        (outer.TakesOver inner.node →
          inner.node.chars source <:+: (ofSource settings container file source).1.code) := by
  refine ⟨fun hlost => hleft (hlost.convertedCalls_eq ▸ hinner), ?_⟩
  obtain rfl := Module.eq_parse_of_ofScheduling hfound
  have hm := Module.isOrderly_parse file source
  obtain ⟨outer, houter, hinside⟩ := Module.exists_convertedCall hm.inOrder hinner hconvertible
  have hnode : inner.node ∈ outer.node.nodes := by
    rcases hinside with rfl | hinside
    · exact inner.node.self_mem_nodes
    · exact hinside.mem_nodes
  refine ⟨outer, houter, hnode, fun htaken => ?_⟩
  have hcalls := List.ne_nil_of_mem houter
  have hname := Module.callName_ne_of_convertedCalls hcalls
  obtain ⟨ordered, hperm, hordered⟩ := Edit.exists_ordered (hm.edits_fit container file hname)
    (hm.edits_separate container file hname)
  rw [ofSource_eq_weave hfound hcalls hperm hordered]
  have hedit : ScheduleCall.edit settings source outer ∈ ordered := by
    rw [hperm.mem_iff, Module.edits_eq, List.append_assoc]
    exact List.mem_append_left _ (List.mem_map.mpr ⟨outer, houter, rfl⟩)
  have hinfix := hm.infix_replacement houter hinner (Module.exists_not_isBlank_callName hinner) htaken
  exact hinfix.trans (Edit.infix_weave hedit 0)

/-- What a second conversion does. It lets the text be exactly if no call in it can be converted,
and so wherever the text quotes the module of the call no more. But where calls that can be
converted lie in others, the first conversion leaves them to the second one. -/
theorem ofSource_again (settings : Settings) (container file : Path) (source : List Char) :
    let first := ofSource settings container file source
    (ofSource settings container file first.1.code = (unchanged first.1.code, []) ↔
      ∀ m, Module.ofScheduling? settings file first.1.code = some m →
        ∀ c ∈ m.scheduleCalls settings.callName, c.isConvertible = false) ∧
    (¬ Mention.Quotes settings.callModule.toList first.1.code →
      ofSource settings container file first.1.code = (unchanged first.1.code, [])) ∧
    ∀ m, Module.ofScheduling? settings file source = some m →
      ∀ inner ∈ m.scheduleCalls settings.callName, inner.isConvertible →
        inner ∉ m.convertedCalls settings.callName →
        ¬ m.LosesImport settings ∧
          ∃ outer ∈ m.convertedCalls settings.callName, inner.node ∈ outer.node.nodes ∧
            (outer.TakesOver inner.node → inner.node.chars source <:+: first.1.code) :=
  ⟨ofSource_eq_unchanged_iff, ofSource_of_not_quotes,
    fun _ hfound _ hinner hconvertible hleft => left_over hfound hinner hconvertible hleft⟩

/-- A call in the arguments of another one is converted by the second conversion. -/
theorem ofSource_again_of_nested :
    let settings : Settings := { callName := "run", callModule := "cron", startModule := "api" }
    let container := Path.parse "/app/cron-wrappers"
    let file := Path.parse "/app/page.ts"
    let source := ("import \x7b run \x7d from 'cron'\n" ++
      "run(f, [run(g, [], \x7b\x7d)], \x7b\x7d)").toList
    let once := ("import \x7b run \x7d from 'cron'\nimport \x7b start \x7d from \"api\"\n" ++
      "import \x7b __cron__f \x7d from \"./cron-wrappers/trigger-f/workflow\"\n" ++
      "start(__cron__f, [\x7b args: [run(g, [], \x7b\x7d)] \x7d])").toList
    let twice := ("import \x7b start \x7d from \"api\"\n" ++
      "import \x7b __cron__f \x7d from \"./cron-wrappers/trigger-f/workflow\"\n" ++
      "import \x7b __cron__g \x7d from \"./cron-wrappers/trigger-g/workflow\"\n" ++
      "start(__cron__f, [\x7b args: [start(__cron__g, [\x7b args: [] \x7d])] \x7d])").toList
    (ofSource settings container file source).1 = ⟨once, true⟩ ∧
      (ofSource settings container file once).1 = ⟨twice, true⟩ := by
  intro settings container file source once twice
  have hfirst :
      let m := Module.parse file source
      let calls := m.convertedCalls settings.callName
      let es := m.edits settings container file calls
        (calls.length = (m.scheduleCalls settings.callName).length)
      (Mention.mentionsImport source settings.callName settings.callModule ∧
        m.importsName settings.callName settings.callModule) ∧
      calls ≠ [] ∧ (es.rotate 1).Pairwise (fun a b => a.stop ≤ b.start) ∧
        Edit.weave source 0 (es.rotate 1) = once ∧ once ≠ source := by
    decide +kernel
  have hsecond :
      let m := Module.parse file once
      let calls := m.convertedCalls settings.callName
      let es := m.edits settings container file calls
        (calls.length = (m.scheduleCalls settings.callName).length)
      (Mention.mentionsImport once settings.callName settings.callModule ∧
        m.importsName settings.callName settings.callModule) ∧
      calls ≠ [] ∧ es.reverse.Pairwise (fun a b => a.stop ≤ b.start) ∧
        Edit.weave once 0 es.reverse = twice ∧ twice ≠ once := by
    decide +kernel
  obtain ⟨hgates, hcalls, hordered, hcode, hchanged⟩ := hfirst
  obtain ⟨hgates', hcalls', hordered', hcode', hchanged'⟩ := hsecond
  constructor
  · rw [ofSource_eq_weave (Module.ofScheduling_of_importsName hgates.1 hgates.2) hcalls
      (List.rotate_perm _ 1) hordered, hcode, decide_eq_true hchanged]
  · rw [ofSource_eq_weave (Module.ofScheduling_of_importsName hgates'.1 hgates'.2) hcalls'
      (List.reverse_perm _) hordered', hcode', decide_eq_true hchanged']

end Converted

end CronWrap
