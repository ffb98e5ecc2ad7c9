import CronWrap.Proofs.Files.Leads

/-! Walks, the ways that they find and the places that they come to. -/
namespace CronWrap.FileTree

/-- The first trouble of a walk stays. -/
theorem trouble_walk (t : FileTree) (last : Bool) (k : Nat) {trouble : Option FileCause} (q : Place)
    (segs : List String) (h : trouble.isSome) : (t.walk last k trouble q segs).trouble = trouble := by
  have hor : ∀ {a : Option FileCause} (b : Option FileCause), a.isSome → (a <|> b) = a := by
    intro a b ha
    cases a with
    | none => cases ha
    | some cause => rfl
  induction k, trouble, q, segs using walk_induction t last with
  | nil k trouble q => rw [walk_nil]
  | up k trouble q rest ih =>
    rw [hor _ h] at ih
    rw [walk_up, hor _ h, ih h]
  | down k trouble q name rest hname hlink ih =>
    rw [hor _ h] at ih
    rw [walk_down hname hlink, hor _ h, ih h]
  | stop k trouble q name target hname hlink hlast =>
    subst hlast
    rw [walk_stop hname hlink, hor _ h]
  | lost trouble q name rest target hname hlink hgo =>
    rw [walk_lost hname hlink hgo, hor _ h, hor _ h]
  | link k trouble q name rest target hname hlink hgo ih =>
    rw [hor _ h] at ih
    rw [walk_link hname hlink hgo, hor _ h, ih h]

theorem trouble_eq_none_of_walk {t : FileTree} {last : Bool} {k : Nat}
    {trouble : Option FileCause} {q : Place} {segs : List String}
    (h : (t.walk last k trouble q segs).trouble = none) : trouble = none := by
  by_contra hsome
  rw [trouble_walk t last k q segs (Option.isSome_iff_ne_none.mpr hsome)] at h
  exact hsome h

theorem or_eq_none {a b : Option FileCause} (h : (a <|> b) = none) : b = none := by
  cases a with
  | none => exact h
  | some cause => cases h

/-- A walk without trouble that goes on behind some segments has found a way along these. -/
theorem exists_leads_of_walk {t : FileTree} {last : Bool} {k : Nat} {trouble : Option FileCause}
    {q : Place} {segs rest : List String} (hrest : rest ≠ [] ∨ last = true)
    (h : (t.walk last k trouble q (segs ++ rest)).trouble = none) :
    ∃ k' q', Leads t k q segs k' q' := by
  generalize hall : segs ++ rest = all at h
  induction k, trouble, q, all using walk_induction t last generalizing segs with
  | nil k trouble q =>
    obtain ⟨rfl, -⟩ := List.append_eq_nil_iff.mp hall
    exact ⟨_, _, .stay _ _⟩
  | up k trouble q more ih =>
    cases segs with
    | nil => exact ⟨_, _, .stay k q⟩
    | cons s segs =>
      obtain ⟨rfl, hmore⟩ := List.cons_eq_cons.mp hall
      rw [walk_up] at h
      obtain ⟨k', q', hleads⟩ := ih hmore h
      exact ⟨k', q', .up (or_eq_none (trouble_eq_none_of_walk h)) hleads⟩
  | down k trouble q name more hname hlink ih =>
    cases segs with
    | nil => exact ⟨_, _, .stay k q⟩
    | cons s segs =>
      obtain ⟨rfl, hmore⟩ := List.cons_eq_cons.mp hall
      rw [walk_down hname hlink] at h
      obtain ⟨k', q', hleads⟩ := ih hmore h
      exact ⟨k', q', .down hname (or_eq_none (trouble_eq_none_of_walk h)) hlink hleads⟩
  | stop k trouble q name target hname hlink hlast =>
    cases segs with
    | nil => exact ⟨_, _, .stay k q⟩
    | cons s segs =>
      obtain ⟨rfl, hmore⟩ := List.cons_eq_cons.mp hall
      rcases hrest with hne | htrue
      · exact absurd (List.append_eq_nil_iff.mp hmore).2 hne
      · rw [hlast] at htrue
        cases htrue
  | lost trouble q name more target hname hlink hgo =>
    rw [walk_lost hname hlink hgo] at h
    cases or_eq_none h
  | link k trouble q name more target hname hlink hgo ih =>
    cases segs with
    | nil => exact ⟨_, _, .stay _ q⟩
    | cons s segs =>
      obtain ⟨rfl, hmore⟩ := List.cons_eq_cons.mp hall
      have happ : target.segments ++ segs ++ rest = target.segments ++ more := by
        rw [← hmore, List.append_assoc]
        rfl
      rw [walk_link hname hlink hgo] at h
      obtain ⟨k', q', hleads⟩ := ih happ h
      exact ⟨k', q', .link hname (or_eq_none (trouble_eq_none_of_walk h)) hlink hleads⟩

/-- A walk that goes on past a place without trouble is in a directory there. -/
theorem obstacle_eq_none_of_walk {t : FileTree} {last : Bool} {k : Nat}
    {trouble : Option FileCause} {q : Place} {name : String} {rest : List String}
    (h : (t.walk last k trouble q (name :: rest)).trouble = none) : t.obstacle q name = none := by
  generalize hsegs : name :: rest = segs at h
  cases k, trouble, q, segs using walk_induction t last with
  | nil => cases hsegs
  | up k trouble q more =>
    cases hsegs
    rw [walk_up] at h
    exact or_eq_none (trouble_eq_none_of_walk h)
  | down k trouble q name' more hname hlink =>
    cases hsegs
    rw [walk_down hname hlink] at h
    exact or_eq_none (trouble_eq_none_of_walk h)
  | stop k trouble q name' target hname hlink hlast =>
    cases hsegs
    subst hlast
    rw [walk_stop hname hlink] at h
    exact or_eq_none h
  | lost trouble q name' more target hname hlink hgo =>
    rw [walk_lost hname hlink hgo] at h
    cases or_eq_none h
  | link k trouble q name' more target hname hlink hgo =>
    cases hsegs
    rw [walk_link hname hlink hgo] at h
    exact or_eq_none (trouble_eq_none_of_walk h)

/-- What keeps a walk from its next step is its trouble. -/
theorem trouble_walk_of_obstacle {t : FileTree} {last : Bool} {k : Nat} {q : Place} {name : String}
    {rest : List String} (h : (t.obstacle q name).isSome) :
    (t.walk last k none q (name :: rest)).trouble = t.obstacle q name := by
  by_cases hname : name = ".."
  · subst hname
    rw [walk_up]
    exact trouble_walk t last k _ rest h
  · cases hlink : t.linkAt? q name with
    | none =>
      rw [walk_down hname hlink]
      exact trouble_walk t last k _ rest h
    | some target =>
      by_cases hend : rest = [] ∧ last = false
      · obtain ⟨rfl, rfl⟩ := hend
        rw [walk_stop hname hlink]
        rfl
      · rw [Classical.not_and_iff_not_or_not, Bool.not_eq_false] at hend
        cases k with
        | zero =>
          obtain ⟨cause, hcause⟩ := Option.isSome_iff_exists.mp h
          rw [walk_lost hname hlink hend, hcause]
          rfl
        | succ k =>
          rw [walk_link hname hlink hend]
          exact trouble_walk t last k _ _ h

/-- Names that are no links lead straight down. -/
theorem place_of_walk {t : FileTree} {last : Bool} {k : Nat} {q place : Place}
    {names : List String} (hup : ".." ∉ names)
    (hlink : ∀ r, r <+: names → r ≠ [] → (r ≠ names ∨ last = true) →
      ∀ u, t.get? (q ++ r) = some u → u.target? = none)
    (h : t.walk last k none q names = ⟨place, none⟩) : place = q ++ names := by
  induction names generalizing q with
  | nil =>
    rw [walk_nil, Walk.mk.injEq] at h
    simpa using h.1.symm
  | cons name rest ih =>
    rw [List.mem_cons, not_or] at hup
    have hname := Ne.symm hup.1
    have hfree := obstacle_eq_none_of_walk (congrArg Walk.trouble h)
    cases hl : t.linkAt? q name with
    | none =>
      rw [walk_down hname hl, hfree] at h
      have hrest := ih hup.2 (q := q ++ [name]) ?_ h
      · rw [hrest, List.append_assoc]
        rfl
      · intro r hr hne hcond u hu
        refine hlink (name :: r) (List.cons_prefix_cons.mpr ⟨rfl, hr⟩) (by simp) ?_ u ?_
        · exact hcond.imp_left fun h he => h (List.cons.inj he).2
        · rw [← hu, List.append_assoc]
          rfl
    | some target =>
      by_cases hend : rest = [] ∧ last = false
      · obtain ⟨rfl, rfl⟩ := hend
        rw [walk_stop hname hl] at h
        exact (congrArg Walk.place h).symm
      · -- There is no link on the way.
        have hcond : [name] ≠ name :: rest ∨ last = true := by
          rw [Classical.not_and_iff_not_or_not, Bool.not_eq_false] at hend
          exact hend.imp_left fun hne he => hne (List.cons.inj he).2.symm
        rw [linkAt?_eq, Option.bind_eq_some_iff] at hl
        obtain ⟨u, hu, htarget⟩ := hl
        rw [hlink [name] (by simp) (by simp) hcond u hu] at htarget
        cases htarget

/-- One more segment, which is not followed, only makes the place of a walk longer. -/
theorem place_walk_snoc (t : FileTree) (k : Nat) (trouble : Option FileCause) (q : Place)
    (segs : List String) {c : String} (hc : c ≠ "..") :
    (t.walk false k trouble q (segs ++ [c])).place = (t.walk true k trouble q segs).place ++ [c] := by
  induction k, trouble, q, segs using walk_induction t true with
  | nil k trouble q =>
    rw [List.nil_append, walk_nil]
    cases hlink : t.linkAt? q c with
    | none => rw [walk_down hc hlink, walk_nil]
    | some target => rw [walk_stop hc hlink]
  | up k trouble q more ih => rw [List.cons_append, walk_up, walk_up, ih]
  | down k trouble q name more hname hlink ih =>
    rw [List.cons_append, walk_down hname hlink, walk_down hname hlink, ih]
  | stop k trouble q name target hname hlink hlast => cases hlast
  | lost trouble q name more target hname hlink hgo =>
    rw [List.cons_append, walk_lost hname hlink (Or.inl (by simp)), walk_lost hname hlink hgo]
    simp
  | link k trouble q name more target hname hlink hgo ih =>
    rw [List.append_assoc] at ih
    rw [List.cons_append, walk_link hname hlink (Or.inl (by simp)), walk_link hname hlink hgo, ih]

/-- Where there is nothing below a place, segments are only counted off. -/
theorem place_walk_of_absent {t : FileTree} {q : Place} (h : ∀ name, t.get? (q ++ [name]) = none)
    (last : Bool) (k : Nat) (trouble : Option FileCause) {segs : List String} (hs : ".." ∉ segs) :
    (t.walk last k trouble q segs).place = q ++ segs := by
  induction segs generalizing q trouble with
  | nil => simp
  | cons name segs ih =>
    rw [List.mem_cons, not_or] at hs
    have hlink : t.linkAt? q name = none := by
      rw [linkAt?_eq, h]
      rfl
    have hnext : ∀ n, t.get? (q ++ [name] ++ [n]) = none :=
      fun n => get?_eq_none_below (h name) (List.prefix_append _ _)
    rw [walk_down (Ne.symm hs.1) hlink, ih hnext _ hs.2, List.append_assoc]
    rfl

end CronWrap.FileTree
