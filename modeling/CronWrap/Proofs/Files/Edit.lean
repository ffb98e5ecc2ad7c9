import CronWrap.Files.Tree

/-! What an edit of a tree at one place leaves at the others. -/
namespace CronWrap

theorem setField_setField {α : Type} (fields : List (String × α)) (key : String) (a b : α) :
    setField (setField fields key a) key b = setField fields key b := by
  fun_induction setField fields key a with
  | case1 => simp [setField]
  | case2 v rest => simp [setField]
  | case3 l v rest hl ih => simp [setField, hl, ih]

theorem setField_of_lookup_eq_some {α : Type} {fields : List (String × α)} {key : String} {a : α}
    (h : fields.lookup key = some a) : setField fields key a = fields := by
  induction fields with
  | nil => cases h
  | cons f rest ih =>
    obtain ⟨k, v⟩ := f
    by_cases hk : k = key
    · subst hk
      rw [List.lookup_cons_self, Option.some.injEq] at h
      simp [setField, h]
    · rw [List.lookup_cons, beq_eq_false_iff_ne.2 (Ne.symm hk)] at h
      simp [setField, hk, ih h]

theorem setField_of_lookup_eq_none {α : Type} {fields : List (String × α)} {key : String}
    (h : fields.lookup key = none) (a : α) : setField fields key a = fields ++ [(key, a)] := by
  induction fields with
  | nil => rfl
  | cons f rest ih =>
    obtain ⟨k, v⟩ := f
    have hk : k ≠ key := by
      rintro rfl
      simp at h
    have hrest : rest.lookup key = none := by
      rwa [List.lookup_cons, beq_eq_false_iff_ne.2 (Ne.symm hk)] at h
    simp [setField, hk, ih hrest]

theorem lookup_filter_ne {α : Type} (fields : List (String × α)) (key k : String) :
    (fields.filter (·.1 ≠ key)).lookup k = if k = key then none else fields.lookup k := by
  induction fields with
  | nil => simp
  | cons f rest ih =>
    obtain ⟨l, v⟩ := f
    by_cases hl : l = key
    · subst hl
      rw [List.filter_cons_of_neg (by simp), ih]
      by_cases hk : k = l
      · simp [hk]
      · simp [hk, List.lookup_cons, beq_eq_false_iff_ne.2 hk]
    · rw [List.filter_cons_of_pos (by simpa using hl), List.lookup_cons, List.lookup_cons, ih]
      by_cases hk : k = l
      · subst hk
        simp [hl]
      · simp [beq_eq_false_iff_ne.2 hk]

namespace FileTree

theorem get?_set_append (t new : FileTree) (p q : Place) :
    (t.set new p).get? (p ++ q) = new.get? q := by
  rw [get?_append, get?_set_self]
  rfl

theorem set_cons (t new : FileTree) (name : String) (p : Place) :
    t.set new (name :: p) =
      .dir (setField t.entries name (((t.entries.lookup name).getD empty).set new p)) := rfl

theorem set_set (t a b : FileTree) (p : Place) : (t.set a p).set b p = t.set b p := by
  induction p generalizing t with
  | nil => rfl
  | cons name p ih => simp [set_cons, ih, setField_setField]

/-- An edit below a place is an edit of what is there. -/
theorem set_append {t u : FileTree} {p : Place} (h : t.get? p = some u) (new : FileTree)
    (q : Place) : t.set new (p ++ q) = t.set (u.set new q) p := by
  induction p generalizing t with
  | nil =>
    cases h
    rfl
  | cons name p ih =>
    rw [get?_cons, Option.bind_eq_bind, Option.bind_eq_some_iff] at h
    obtain ⟨inner, hinner, h⟩ := h
    rw [List.cons_append, set_cons, set_cons, hinner]
    simp only [Option.getD_some]
    rw [ih h]

theorem erase_cons_cons (t : FileTree) (name next : String) (p : Place) :
    t.erase (name :: next :: p) =
      match t.entries.lookup name with
      | some inner => .dir (setField t.entries name (inner.erase (next :: p)))
      | none => t := rfl

theorem erase_append {t u : FileTree} {p : Place} (h : t.get? p = some u) (name : String) :
    t.erase (p ++ [name]) = t.set (u.erase [name]) p := by
  induction p generalizing t with
  | nil =>
    cases h
    rfl
  | cons n p ih =>
    rw [get?_cons, Option.bind_eq_bind, Option.bind_eq_some_iff] at h
    obtain ⟨inner, hinner, h⟩ := h
    obtain ⟨next, rest, hp⟩ := List.exists_cons_of_ne_nil (l := p ++ [name]) (by simp)
    rw [List.cons_append, set_cons, hinner, hp, erase_cons_cons, hinner, ← hp]
    simp only [Option.getD_some]
    rw [ih h]

/-- Places of which neither leads to the other. -/
def Apart (p q : Place) : Prop := ¬ p <+: q ∧ ¬ q <+: p

theorem Apart.tail {name : String} {p q : Place} (h : Apart (name :: p) (name :: q)) :
    Apart p q :=
  ⟨fun hp => h.1 (List.cons_prefix_cons.mpr ⟨rfl, hp⟩),
    fun hq => h.2 (List.cons_prefix_cons.mpr ⟨rfl, hq⟩)⟩

theorem get?_set_of_apart (t new : FileTree) {p q : Place} (h : Apart p q) :
    (t.set new p).get? q = t.get? q := by
  induction p generalizing t q with
  | nil => exact absurd List.nil_prefix h.1
  | cons name p ih =>
    cases q with
    | nil => exact absurd List.nil_prefix h.2
    | cons k q =>
      rw [set_cons, get?_cons, get?_cons, entries_dir, lookup_setField]
      by_cases hk : k = name
      · subst hk
        rw [if_pos rfl]
        change FileTree.get? _ q = _
        rw [ih _ h.tail]
        cases t.entries.lookup k with
        | some inner => rfl
        | none =>
          cases q with
          | nil => exact absurd List.nil_prefix h.tail.2
          | cons l q => rfl
      · rw [if_neg hk]

/-- On the way to the place of an edit there are directories afterwards. -/
theorem get?_set_above (t new : FileTree) {p q : Place} (hq : q <+: p) (hne : q ≠ p) :
    ∃ es, (t.set new p).get? q = some (.dir es) := by
  induction p generalizing t q with
  | nil => exact absurd (List.prefix_nil.mp hq) hne
  | cons name p ih =>
    cases q with
    | nil => exact ⟨_, rfl⟩
    | cons k q =>
      obtain ⟨rfl, hrest⟩ := List.cons_prefix_cons.mp hq
      have hne' : q ≠ p := fun he => hne (he ▸ rfl)
      obtain ⟨es, hes⟩ := ih ((t.entries.lookup k).getD empty) hrest hne'
      refine ⟨es, ?_⟩
      rw [set_cons, get?_cons, entries_dir, lookup_setField, if_pos rfl]
      exact hes

/-- A place is at or below that of an edit, above it, or apart from it. -/
theorem get?_set_cases (t new : FileTree) (p q : Place) :
    (∃ r, q = p ++ r ∧ (t.set new p).get? q = new.get? r) ∨
      (q <+: p ∧ q ≠ p ∧ ∃ es, (t.set new p).get? q = some (.dir es)) ∨
      (Apart p q ∧ (t.set new p).get? q = t.get? q) := by
  by_cases hp : p <+: q
  · obtain ⟨r, rfl⟩ := hp
    exact Or.inl ⟨r, rfl, get?_set_append t new p r⟩
  · by_cases hq : q <+: p
    · have hne : q ≠ p := fun he => hp (he ▸ List.prefix_rfl)
      exact Or.inr (Or.inl ⟨hq, hne, get?_set_above t new hq hne⟩)
    · exact Or.inr (Or.inr ⟨⟨hp, hq⟩, get?_set_of_apart t new ⟨hp, hq⟩⟩)

theorem get?_eq_none_below {t : FileTree} {p q : Place} (h : t.get? p = none) (hp : p <+: q) :
    t.get? q = none := by
  obtain ⟨r, rfl⟩ := hp
  rw [get?_append, h]
  rfl

/-- What has something below it is a directory. -/
theorem exists_dir_above {t : FileTree} {p q : Place} (h : (t.get? q).isSome) (hp : p <+: q)
    (hne : p ≠ q) : ∃ es, t.get? p = some (.dir es) := by
  obtain ⟨r, rfl⟩ := hp
  rw [get?_append] at h
  cases hu : t.get? p with
  | none => simp [hu] at h
  | some u =>
    cases r with
    | nil => simp at hne
    | cons name r =>
      cases u with
      | dir es => exact ⟨es, rfl⟩
      | file content => simp [hu, entries] at h
      | link target => simp [hu, entries] at h

/-! ## Links -/

/-- The path that a link stands for. -/
def target? : FileTree → Option Path
  | link target => some (.parse target)
  | _ => none

theorem linkAt?_eq (t : FileTree) (here : Place) (name : String) :
    t.linkAt? here name = (t.get? (here ++ [name])).bind target? := by
  unfold linkAt?
  cases t.get? (here ++ [name]) with
  | none => rfl
  | some u => cases u <;> rfl

/-- Where both trees have something, they have links to the same path or none. -/
def Agrees (a b : FileTree) : Prop :=
  ∀ p u v, a.get? p = some u → b.get? p = some v → u.target? = v.target?

theorem Agrees.refl (a : FileTree) : Agrees a a := by
  intro p u v hu hv
  rw [hv] at hu
  cases hu
  rfl

/-- The second tree has all that the first has, with more in the directories. -/
def Extends (a b : FileTree) : Prop :=
  ∀ p u, a.get? p = some u →
    ∃ v, b.get? p = some v ∧ v.target? = u.target? ∧ (u.isDir → v.isDir)

/-- The third tree has all that the first two both have, as the first has it, with more in the
directories. -/
def ExtendsCommon (a b c : FileTree) : Prop :=
  ∀ p u v, a.get? p = some u → b.get? p = some v →
    ∃ w, c.get? p = some w ∧ w.target? = u.target? ∧ (u.isDir → w.isDir)

/-- What is above a directory, or that directory, is one. -/
theorem isDir_above {t u : FileTree} {p q : Place} (hdir : (t.get? p).any isDir) (hq : q <+: p)
    (hu : t.get? q = some u) : u.isDir := by
  by_cases he : q = p
  · subst he
    simpa [hu] using hdir
  · have hsome : (t.get? p).isSome := by
      cases h : t.get? p with
      | none => simp [h] at hdir
      | some v => rfl
    obtain ⟨es, hes⟩ := exists_dir_above hsome hq he
    rw [hes] at hu
    cases hu
    rfl

theorem target?_of_isDir {u : FileTree} (h : u.isDir) : u.target? = none := by
  cases u with
  | dir es => rfl
  | file content => cases h
  | link target => cases h

theorem extends_set {t : FileTree} {p : Place} {name : String} (hdir : (t.get? p).any isDir)
    (habsent : t.get? (p ++ [name]) = none) (new : FileTree) :
    Extends t (t.set new (p ++ [name])) := by
  intro q u hu
  rcases get?_set_cases t new (p ++ [name]) q with ⟨r, rfl, -⟩ | ⟨hq, hne, es, hes⟩ | ⟨-, hsame⟩
  · rw [get?_eq_none_below habsent (List.prefix_append _ _)] at hu
    cases hu
  · have hqp : q <+: p := (List.prefix_concat_iff.mp hq).resolve_left hne
    exact ⟨_, hes, (target?_of_isDir (isDir_above hdir hqp hu)).symm, fun _ => rfl⟩
  · rw [hsame]
    exact ⟨u, hu, rfl, id⟩

end FileTree

end CronWrap
