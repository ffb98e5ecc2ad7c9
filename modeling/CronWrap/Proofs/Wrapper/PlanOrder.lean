import CronWrap.Proofs.CallSite.FirstNamed
import CronWrap.Proofs.Wrapper.Place
import CronWrap.Proofs.Wrapper.PlanShape

/-! The wrappers of a plan that goes through are those of the first sites of their names. -/
namespace CronWrap.Wrapper

open CallSite

variable {container : Path} {table : AliasTable} {sites : List CallSite} {ws : List Wrapper}

/-- What planning adds to the names that are known: the wrappers of the other names, each of the
first site that has it. -/
theorem planFrom_eq {known : List (String × (String × Option String))}
    (h : planFrom container table known sites = .ok ws) :
    ws = (unnamed (known.map (·.1)) (firstOfNames sites)).map (ofSite container table) := by
  induction sites generalizing known ws with
  | nil =>
    simp only [planFrom, Except.ok.injEq] at h
    exact h.symm
  | cons c rest ih =>
    rcases planFrom_cons_ok h with ⟨hknown, hrest⟩ | ⟨hknown, others, hothers, rfl⟩
    · have hname : c.functionName ∈ known.map (·.1) := by
        by_contra hno
        rw [(lookup_eq_none_iff_keys known c.functionName).mpr hno] at hknown
        cases hknown
      rw [firstOfNames, unnamed_cons_of_mem hname, unnamed_unnamed_of_mem hname]
      exact ih hrest
    · have hname := (lookup_eq_none_iff_keys known c.functionName).mp hknown
      rw [firstOfNames, unnamed_cons_of_not_mem hname, unnamed_unnamed, List.map_cons, ih hothers]
      rfl

theorem plan_eq (h : plan sites container table = .ok ws) :
    ws = (firstOfNames sites).map (ofSite container table) := by
  have hdedup := planFrom_eq h
  rwa [List.map_nil, unnamed_no_names, firstOfNames_dedup] at hdedup

/-- Where names have no slash, one module means one name. -/
theorem functionName_eq_of_modulePath {c d : CallSite} (hc : '/' ∉ c.functionName.toList)
    (hd : '/' ∉ d.functionName.toList)
    (h : (ofSite container table c).modulePath = (ofSite container table d).modulePath) :
    c.functionName = d.functionName := by
  have hlast : ∀ f : String, '/' ∉ f.toList →
      (Layout.wrapperDir container f).segments = container.segments ++ [Layout.triggerDir f] := by
    intro f hf
    rw [Layout.wrapperDir, Path.segmentsOf_toList_of_isSegment (Layout.isSegment_triggerDir hf)]
  rw [modulePath_ofSite, modulePath_ofSite, Path.mk.injEq, List.append_cancel_right_eq,
    hlast _ hc, hlast _ hd, List.append_cancel_left_eq, List.cons.injEq] at h
  exact Layout.triggerDir_injective h.2.1

/-- Neither names nor directories meet, and modules only where a name has a slash in it. -/
def Apart (v w : Wrapper) : Prop :=
  v.name ≠ w.name ∧ v.directory ≠ w.directory ∧
    (v.modulePath = w.modulePath → '/' ∈ v.functionName.toList ∨ '/' ∈ w.functionName.toList)

theorem apart_ofSite {c d : CallSite} (h : c.functionName ≠ d.functionName) :
    Apart (ofSite container table c) (ofSite container table d) := by
  refine ⟨Layout.wrapperName_injective.ne h, Layout.triggerDir_injective.ne h, ?_⟩
  intro hmodule
  by_contra hslash
  rw [not_or] at hslash
  exact h (functionName_eq_of_modulePath hslash.1 hslash.2 hmodule)

/-- A plan that goes through has one wrapper for each function name, in the order in which the names
first occur, and each is made from the first site of its name. So wrappers are apart, and no plan is
changed, unless it is refused, by taking away a site behind another one of its name. -/
theorem plan_of_firsts (h : plan sites container table = .ok ws) :
    (ws = (firstOfNames sites).map (ofSite container table) ∧
      (firstOfNames sites).Sublist sites ∧
      ∀ c, c ∈ firstOfNames sites ↔ sites.find? (·.functionName = c.functionName) = some c) ∧
    ws.Pairwise Apart ∧
    ∀ before c after, sites = before ++ c :: after →
      c.functionName ∈ before.map (·.functionName) →
        ∀ ws', plan (before ++ after) container table = .ok ws' → ws' = ws := by
  have hws := plan_eq h
  refine ⟨⟨hws, firstOfNames_sublist sites, fun c => mem_firstOfNames_iff⟩, ?_, ?_⟩
  · rw [hws, List.pairwise_map]
    exact (pairwise_firstOfNames sites).imp apart_ofSite
  · rintro before c after rfl hname ws' h'
    rw [plan_eq h', hws, firstOfNames_without hname]

/-- Two sites of one function, which import it by two specifiers, and between them another one. -/
theorem plan_of_firsts_of_three :
    let first : CallSite := ⟨"job", "./jobs", .parse "/p/app/page.ts", none⟩
    let second : CallSite := ⟨"mail", "@/mail", .parse "/p/app/page.ts", some "send"⟩
    let third : CallSite := ⟨"job", "../app/jobs", .parse "/p/lib/page.ts", none⟩
    let container := Path.parse "/p/app/cron-wrappers"
    let table : AliasTable := ⟨.parse "/p", [("@/*", ["./src/*"])]⟩
    ∃ ws, plan [first, second, third] container table = .ok ws ∧
      ws = [ofSite container table first, ofSite container table second] ∧ ws.Pairwise Apart ∧
      plan [first, second] container table = .ok ws := by
  intro first second third container table
  have hplan : plan [first, second, third] container table =
      .ok [ofSite container table first, ofSite container table second] := by decide
  have hshort : plan [first, second] container table =
      .ok [ofSite container table first, ofSite container table second] := by decide
  obtain ⟨⟨hws, -⟩, happart, hremoved⟩ := plan_of_firsts hplan
  refine ⟨_, hplan, hws, happart, ?_⟩
  rw [← hremoved [first, second] third [] rfl (by decide) _ hshort]
  exact hshort

/-- A name with a slash at its end has a directory and a wrapper name of its own, and yet its module
is that of the name without. -/
theorem plan_of_slash_shares_module :
    let sites : List CallSite := [⟨"job", "./jobs", .parse "/p/app/page.ts", none⟩,
      ⟨"job/", "./jobs", .parse "/p/app/page.ts", none⟩]
    ∃ v w, plan sites (.parse "/p/app/cron-wrappers") ⟨.parse "/p", []⟩ = .ok [v, w] ∧
      v.name ≠ w.name ∧ v.directory ≠ w.directory ∧ v.modulePath = w.modulePath := by
  refine ⟨_, _, rfl, ?_⟩
  decide

/-- Taking a site away can let another of its key be seen, which clashes. -/
example :
    let first : CallSite := ⟨"job", "./jobs", .parse "/p/a/page.ts", none⟩
    let second : CallSite := ⟨"job", "../a/jobs", .parse "/p/b/page.ts", none⟩
    let hidden : CallSite := ⟨"job", "../a/jobs", .parse "/p/b/c/page.ts", none⟩
    (plan [first, second, hidden] (.parse "/p/app/cron-wrappers") ⟨.parse "/p", []⟩).isOk ∧
      ¬ (plan [first, hidden] (.parse "/p/app/cron-wrappers") ⟨.parse "/p", []⟩).isOk := by
  decide

end CronWrap.Wrapper
