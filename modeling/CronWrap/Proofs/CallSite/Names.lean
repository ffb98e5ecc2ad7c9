import CronWrap.Proofs.CallSite.Scanned
import CronWrap.Proofs.Syntax.TreeOrder

/-! The names of scheduled functions: words of the text, in which there is no slash. -/
namespace CronWrap

open Session Workspace Syntax

theorem Module.exists_argument_of_scheduleCall {m : Module} {callName : String} {n : Node}
    {c : ScheduleCall} (h : m.scheduleCall? callName n = some c) :
    ∃ scheduled ∈ argumentNodes n, scheduled.kind = .identifier ∧
      c.functionName = scheduled.text m.source := by
  unfold scheduleCall? at h
  split at h
  · split at h
    · rename_i scheduled next rest hargs
      split at h
      · rename_i hnames
        simp only [Bool.and_eq_true, decide_eq_true_eq] at hnames
        cases h
        exact ⟨scheduled, by simp [hargs], hnames.2, rfl⟩
      · cases h
    · cases h
  · cases h

theorem Module.mem_nodes_of_mem_argumentNodes {call n : Node} (h : n ∈ argumentNodes call) :
    n ∈ call.nodes := by
  unfold argumentNodes childOf? at h
  cases hfound : call.children.find? fun c => c.kind = .arguments with
  | none => simp [hfound] at h
  | some arguments =>
    rw [hfound] at h
    exact Node.mem_nodes_of_mem_children (List.mem_of_find?_eq_some hfound)
      (Node.mem_nodes_of_mem_children h (Node.self_mem_nodes n))

theorem Module.no_slash_of_mem_scheduleCalls {file : Path} {source : List Char} {callName : String}
    {c : ScheduleCall} (h : c ∈ (parse file source).scheduleCalls callName) :
    '/' ∉ c.functionName.toList := by
  obtain ⟨n, hn, hc⟩ := List.mem_filterMap.mp h
  obtain ⟨scheduled, hmem, hkind, hname⟩ := exists_argument_of_scheduleCall hc
  have hword := (isWord_of_mem_parse
    (Node.mem_nodes_trans hn (mem_nodes_of_mem_argumentNodes hmem)) hkind).chars_eq
  have htext : c.functionName.toList = scheduled.chars source := by
    rw [hname, Node.text, String.toList_ofList]
    rfl
  rw [htext, hword]
  exact no_slash_wordOf _

namespace CallSite

theorem no_slash_of_mem_extract {settings : Settings} {file : Path} {source : List Char}
    {c : CallSite} (h : c ∈ (extract settings file source).1) : '/' ∉ c.functionName.toList := by
  have hcalls : ∀ m, Module.ofScheduling? settings file source = some m →
      m = Module.parse file source := by
    intro m hm
    unfold Module.ofScheduling? Module.importing? at hm
    split at hm
    · dsimp only at hm
      split at hm
      · exact (Option.some.inj hm).symm
      · cases hm
    · cases hm
  unfold extract at h
  cases hm : Module.ofScheduling? settings file source with
  | none => simp [hm, ofModule?] at h
  | some m =>
    rw [hm, hcalls m hm, ofModule?, List.mem_map] at h
    obtain ⟨call, hcall, rfl⟩ := h
    have hname : (ofCall file (Module.parse file source).importMap call).functionName =
        call.functionName := by
      unfold ofCall
      split <;> rfl
    rw [hname]
    exact Module.no_slash_of_mem_scheduleCalls hcall

section Scan

variable {t t' : FileTree} {settings : Settings} {root p : Path}

theorem steady_readSource (h : Steady t t' (readText p : Session _)) :
    Steady t t' (readSource root p : Session _) := by
  refine Steady.handled (h.bind fun _ _ => steady_pure _) fun e => ?_
  split
  · exact (steady_note _).bind fun _ _ => steady_pure _
  · exact (steady_note _).bind fun _ _ => steady_pure _
  · exact steady_throw _

/-- The sites in what was read of a file, with the notes on them. -/
theorem steady_sites (source : Option (List Char)) :
    Steady t t' (match source with
      | none => pure []
      | some source => do
        (extract settings p source).2.forM note
        return (extract settings p source).1 : Session (List CallSite)) := by
  cases source with
  | none => exact steady_pure _
  | some source => exact (steady_forM fun entry _ => steady_note entry).bind fun _ _ => steady_pure _

theorem steady_scanFile (h : Steady t t' (readText p : Session _)) :
    Steady t t' (scanFile settings root p : Session _) :=
  (steady_readSource h).bind fun source _ => steady_sites source

theorem steady_scan {ps : List Path} (h : ∀ p ∈ ps, Steady t t' (readText p : Session _)) :
    Steady t t' (scan settings root ps : Session _) :=
  (steady_mapM fun p hp => steady_scanFile (h p hp)).bind fun _ _ =>
    ⟨_, sees_report t _ _, sees_report t' _ _⟩

theorem looks_scan (settings : Settings) (root : Path) (ps : List Path) :
    Looks (scan settings root ps : Session _) := fun t => steady_scan fun p _ => looks_readText p t

theorem no_slash_of_mem_sitesAt {c : CallSite} (h : c ∈ sitesAt t settings p) :
    '/' ∉ c.functionName.toList := by
  unfold sitesAt at h
  cases hread : readable? t p with
  | none => simp [hread] at h
  | some source =>
    rw [hread] at h
    exact no_slash_of_mem_extract h

/-- All functions that are scheduled have names that are one step of a path. -/
theorem no_slash_of_sees_scan {ps : List Path} {sites : List CallSite}
    (h : Sees t (scan settings root ps) (.ok sites)) :
    ∀ c ∈ sites, '/' ∉ c.functionName.toList := by
  cases h.unique (sees_scan t settings root ps)
  intro c hc
  obtain ⟨p, -, hp⟩ := List.mem_flatMap.mp ((mem_dedup_iff _ c).mp hc).mem
  exact no_slash_of_mem_sitesAt hp

end Scan

end CallSite

end CronWrap
