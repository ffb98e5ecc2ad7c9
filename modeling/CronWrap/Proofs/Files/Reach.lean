import CronWrap.Proofs.Files.Walk

/-! What is found behind the place that the beginning of a path reaches. -/
namespace CronWrap.FileTree

theorem find_eq_ok {t : FileTree} {last : Bool} {p : Path} {place : Place} {found : Option FileTree}
    (h : t.find last p = .ok (place, found)) :
    t.walkTo last p = ⟨place, none⟩ ∧ found = t.get? place := by
  unfold find at h
  split at h
  · cases h
  · cases hw : t.walkTo last p with
    | mk at_ trouble =>
      rw [hw] at h
      cases trouble with
      | some cause => cases h
      | none =>
        cases h
        exact ⟨rfl, rfl⟩

/-- What is found at the end of a path is at the end of a way along the beginning of the path. -/
theorem exists_leads_of_find {t : FileTree} {last : Bool} {anchor : Anchor}
    {segs names : List String} {place : Place} {found : Option FileTree}
    (h : t.find last ⟨anchor, segs ++ names⟩ = .ok (place, found)) (hne : names ≠ []) :
    found = t.get? place ∧ ∃ k q, Leads t maxLinks [] segs k q ∧ (t.get? q).isSome ∧
      t.walk last k none q names = ⟨place, none⟩ := by
  obtain ⟨hwalk, hfound⟩ := find_eq_ok h
  rw [walkTo] at hwalk
  obtain ⟨k, q, hleads⟩ := exists_leads_of_walk (Or.inl hne) (congrArg Walk.trouble hwalk)
  rw [hleads.walk_append (Or.inl hne)] at hwalk
  obtain ⟨name, rest, rfl⟩ := List.exists_cons_of_ne_nil hne
  have hfree := obstacle_eq_none_of_walk (congrArg Walk.trouble hwalk)
  exact ⟨hfound, k, q, hleads, isSome_of_obstacle_eq_none hfree, hwalk⟩

/-- A directory that is found is one to which the path leads. -/
theorem leads_of_find_dir {t : FileTree} {p : Path} {place : Place} {found : Option FileTree}
    (h : t.find true p = .ok (place, found)) : ∃ k, Leads t maxLinks [] p.segments k place := by
  obtain ⟨hwalk, -⟩ := find_eq_ok h
  rw [walkTo, ← List.append_nil p.segments] at hwalk
  obtain ⟨k, q, hleads⟩ := exists_leads_of_walk (Or.inr rfl) (congrArg Walk.trouble hwalk)
  rw [hleads.walk_append (Or.inr rfl), walk_nil] at hwalk
  cases hwalk
  exact ⟨k, hleads⟩

/-! ## What a path reaches -/

/-- The segments lead from the top to a place at which there is something. -/
def Reaches (t : FileTree) (segs : List String) (p : Place) : Prop :=
  ∃ k, Leads t maxLinks [] segs k p ∧ (t.get? p).isSome

variable {t a b : FileTree} {segs : List String} {p q : Place}

theorem Reaches.unique (hagree : Agrees a b) (ha : Reaches a segs p) (hb : Reaches b segs q) :
    q = p := by
  obtain ⟨k, hleads, hsome⟩ := ha
  obtain ⟨m, hleads', hsome'⟩ := hb
  exact (hleads.unique hagree hsome hleads' hsome').2

/-- What is reached in two trees is reached in one that has what both have. -/
theorem Reaches.common {c : FileTree} (hagree : Agrees a b) (hcommon : ExtendsCommon a b c)
    (ha : Reaches a segs p) (hb : Reaches b segs q) : Reaches c segs p := by
  obtain ⟨k, hleads, hsome⟩ := ha
  obtain ⟨m, hleads', hsome'⟩ := hb
  obtain ⟨⟨-, rfl⟩, hc⟩ := hleads.common hagree hcommon hsome hleads' hsome'
  obtain ⟨u, hu⟩ := Option.isSome_iff_exists.mp hsome
  obtain ⟨v, hv⟩ := Option.isSome_iff_exists.mp hsome'
  obtain ⟨w, hw, -⟩ := hcommon _ _ _ hu hv
  exact ⟨k, hc, by simp [hw]⟩

/-- What is reached is reached still when the tree only grows. -/
theorem Reaches.extend (hext : Extends a b) (h : Reaches a segs p) : Reaches b segs p := by
  obtain ⟨k, hleads, hsome⟩ := h
  obtain ⟨u, hu⟩ := Option.isSome_iff_exists.mp hsome
  obtain ⟨w, hw, -⟩ := hext p u hu
  exact ⟨k, hleads.extend hext hsome, by simp [hw]⟩

theorem Reaches.place_eq (h : Reaches t segs p) : (t.walk true maxLinks none [] segs).place = p := by
  obtain ⟨k, hleads, -⟩ := h
  have hwalk : t.walk true maxLinks none [] (segs ++ []) = t.walk true k none p [] :=
    hleads.walk_append (Or.inr rfl)
  rw [List.append_nil] at hwalk
  rw [hwalk, walk_nil]

/-- What is found behind the place that the beginning of a path reaches, also if it was in another
tree that it was seen to reach it. -/
theorem Reaches.find (hagree : Agrees a t) (hreach : Reaches a segs p) {last : Bool}
    {anchor : Anchor} {names : List String} {place : Place} {found : Option FileTree}
    (h : t.find last ⟨anchor, segs ++ names⟩ = .ok (place, found)) (hne : names ≠ [])
    (hup : ".." ∉ names)
    (hlink : ∀ r, r <+: names → r ≠ [] → (r ≠ names ∨ last = true) →
      ∀ u, t.get? (p ++ r) = some u → u.target? = none) :
    place = p ++ names ∧ found = t.get? place ∧ Reaches t segs p := by
  obtain ⟨hfound, k, q, hleads, hsome, hwalk⟩ := exists_leads_of_find h hne
  obtain rfl := hreach.unique hagree ⟨k, hleads, hsome⟩
  exact ⟨place_of_walk hup hlink hwalk, hfound, k, hleads, hsome⟩

/-- The same for what is found right there, be it a link or not. -/
theorem Reaches.find_entry (hagree : Agrees a t) (hreach : Reaches a segs p) {anchor : Anchor}
    {name : String} {place : Place} {found : Option FileTree}
    (h : t.find false ⟨anchor, segs ++ [name]⟩ = .ok (place, found)) (hname : name ≠ "..") :
    place = p ++ [name] ∧ found = t.get? (p ++ [name]) ∧ Reaches t segs p := by
  have hlink : ∀ r, r <+: [name] → r ≠ [] → (r ≠ [name] ∨ false = true) →
      ∀ u, t.get? (p ++ r) = some u → u.target? = none := by
    intro r hr hne hcond
    cases r with
    | nil => exact absurd rfl hne
    | cons first r =>
      obtain ⟨rfl, hnil⟩ := List.cons_prefix_cons.mp hr
      rw [List.prefix_nil.mp hnil] at hcond
      simp at hcond
  obtain ⟨rfl, hfound, hreach'⟩ :=
    hreach.find hagree h (by simp) (by simpa using hname.symm) hlink
  exact ⟨rfl, hfound, hreach'⟩

theorem Reaches.find_dir (hagree : Agrees a t) (hreach : Reaches a segs p) {anchor : Anchor}
    {place : Place} {u : FileTree} (h : t.find true ⟨anchor, segs⟩ = .ok (place, some u)) :
    place = p ∧ t.get? p = some u ∧ Reaches t segs p := by
  obtain ⟨k, hleads⟩ := leads_of_find_dir h
  obtain ⟨-, hfound⟩ := find_eq_ok h
  have hsome : (t.get? place).isSome := by simp [← hfound]
  obtain rfl := hreach.unique hagree ⟨k, hleads, hsome⟩
  exact ⟨rfl, hfound.symm, k, hleads, hsome⟩

end CronWrap.FileTree
