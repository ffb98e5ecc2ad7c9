import CronWrap.Proofs.Files.Edit

/-! The entries of one directory in a tree. -/
namespace CronWrap.FileTree

/-- The tree with these entries in the directory at a place. -/
def withEntries (t : FileTree) (p : Place) (es : List (String × FileTree)) : FileTree :=
  t.set (.dir es) p

variable {t : FileTree} {p : Place} {es fs : List (String × FileTree)}

@[simp] theorem get?_withEntries_self : (t.withEntries p es).get? p = some (.dir es) :=
  get?_set_self _ _ _

theorem get?_withEntries_cons (n : String) (r : Place) :
    (t.withEntries p es).get? (p ++ n :: r) = (es.lookup n).bind (·.get? r) :=
  get?_set_append _ _ _ _

theorem eq_withEntries (h : t.get? p = some (.dir es)) : t = t.withEntries p es := by
  rw [withEntries]
  induction p generalizing t with
  | nil =>
    cases h
    rfl
  | cons name p ih =>
    rw [get?_cons, Option.bind_eq_bind, Option.bind_eq_some_iff] at h
    obtain ⟨inner, hinner, h⟩ := h
    cases t with
    | dir fs =>
      rw [entries_dir] at hinner
      rw [set_cons, entries_dir, hinner, Option.getD_some, ← ih h,
        setField_of_lookup_eq_some hinner]
    | file content => cases hinner
    | link target => cases hinner

theorem withEntries_set_append {n : String} {u : FileTree} (h : es.lookup n = some u)
    (new : FileTree) (r : Place) :
    (t.withEntries p es).set new (p ++ n :: r) =
      t.withEntries p (setField es n (u.set new r)) := by
  rw [set_append get?_withEntries_self, withEntries, withEntries, set_set, set_cons, entries_dir,
    h, Option.getD_some]

theorem withEntries_set (n : String) (new : FileTree) :
    (t.withEntries p es).set new (p ++ [n]) = t.withEntries p (setField es n new) := by
  rw [set_append get?_withEntries_self, withEntries, withEntries, set_set]
  rfl

theorem get?_withEntries (n : String) :
    (t.withEntries p es).get? (p ++ [n]) = es.lookup n := by
  rw [get?_withEntries_cons]
  cases es.lookup n <;> rfl

theorem withEntries_erase (n : String) :
    (t.withEntries p es).erase (p ++ [n]) = t.withEntries p (es.filter (·.1 ≠ n)) := by
  rw [erase_append get?_withEntries_self, withEntries, withEntries, set_set]
  rfl

/-- A place is under one of the entries of a directory, or it does not depend on them what it is. -/
theorem get?_withEntries_cases (t : FileTree) (p q : Place) :
    (∃ n r, q = p ++ n :: r) ∨ (∀ es, ∃ ds, (t.withEntries p es).get? q = some (.dir ds)) ∨
      ∀ es, (t.withEntries p es).get? q = t.get? q := by
  by_cases hp : p <+: q
  · obtain ⟨r, rfl⟩ := hp
    cases r with
    | nil => exact .inr (.inl fun es => ⟨es, by simp⟩)
    | cons n r => exact .inl ⟨n, r, rfl⟩
  · by_cases hq : q <+: p
    · exact .inr (.inl fun es => get?_set_above t _ hq fun he => hp (he ▸ List.prefix_rfl))
    · exact .inr (.inr fun es => get?_set_of_apart t _ ⟨hp, hq⟩)

/-- Of trees that differ in the entries of one directory one has what two others both have if this
is so of the entries. -/
theorem extendsCommon_withEntries {gs : List (String × FileTree)}
    (h : ∀ n u v, es.lookup n = some u → fs.lookup n = some v →
      ∃ w, gs.lookup n = some w ∧ Extends u w) :
    ExtendsCommon (t.withEntries p es) (t.withEntries p fs) (t.withEntries p gs) := by
  intro q u v hu hv
  rcases get?_withEntries_cases t p q with ⟨n, r, rfl⟩ | hdir | hsame
  · rw [get?_withEntries_cons, Option.bind_eq_some_iff] at hu hv
    obtain ⟨a, ha, hu⟩ := hu
    obtain ⟨b, hb, -⟩ := hv
    obtain ⟨w, hw, hext⟩ := h n a b ha hb
    obtain ⟨x, hx, hkind⟩ := hext r u hu
    exact ⟨x, by rw [get?_withEntries_cons, hw]; exact hx, hkind⟩
  · obtain ⟨ds, hds⟩ := hdir es
    obtain ⟨ds', hds'⟩ := hdir gs
    rw [hds] at hu
    cases hu
    exact ⟨_, hds', rfl, fun _ => rfl⟩
  · rw [hsame] at hu
    exact ⟨u, by rw [hsame, hu], rfl, id⟩

/-- Trees that differ in the entries of one directory agree if they do not differ in what is under a
name in both. -/
theorem agrees_withEntries (h : ∀ n u v, es.lookup n = some u → fs.lookup n = some v → u = v) :
    Agrees (t.withEntries p es) (t.withEntries p fs) := by
  intro q u v hu hv
  rcases get?_withEntries_cases t p q with ⟨n, r, rfl⟩ | hdir | hsame
  · rw [get?_withEntries_cons, Option.bind_eq_some_iff] at hu hv
    obtain ⟨a, ha, hu⟩ := hu
    obtain ⟨b, hb, hv⟩ := hv
    rw [h n a b ha hb, hv] at hu
    cases hu
    rfl
  · obtain ⟨ds, hds⟩ := hdir es
    obtain ⟨ds', hds'⟩ := hdir fs
    rw [hds] at hu
    rw [hds'] at hv
    cases hu
    cases hv
    rfl
  · rw [hsame] at hu hv
    rw [hu] at hv
    cases hv
    rfl

end CronWrap.FileTree
