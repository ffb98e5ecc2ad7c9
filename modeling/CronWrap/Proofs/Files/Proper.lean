import CronWrap.Proofs.Files.WithDir
import CronWrap.Proofs.Path.Segments

/-! Trees as a file system keeps them: the names of a directory are names, each of one entry. Of such a
tree the listing has what is at the places. -/
namespace CronWrap

theorem mem_setField {α : Type} {fields : List (String × α)} {key : String} {a : α}
    {f : String × α} (h : f ∈ setField fields key a) : f = (key, a) ∨ f ∈ fields := by
  fun_induction setField fields key a with
  | case1 => simpa using h
  | case2 v rest =>
    rcases List.mem_cons.mp h with h | h
    · exact .inl h
    · exact .inr (List.mem_cons_of_mem _ h)
  | case3 l v rest hl ih =>
    rcases List.mem_cons.mp h with h | h
    · exact .inr (h ▸ List.mem_cons_self)
    · exact (ih h).imp_right (List.mem_cons_of_mem _)

theorem nodup_setField {α : Type} {fields : List (String × α)} (h : (fields.map (·.1)).Nodup)
    (key : String) (a : α) : ((setField fields key a).map (·.1)).Nodup := by
  fun_induction setField fields key a with
  | case1 => simp
  | case2 v rest => simpa using h
  | case3 l v rest hl ih =>
    rw [List.map_cons, List.nodup_cons] at h ⊢
    refine ⟨fun hmem => ?_, ih h.2⟩
    obtain ⟨f, hf, hkey⟩ := List.mem_map.mp hmem
    rcases mem_setField hf with rfl | hf
    · exact hl hkey.symm
    · exact h.1 (List.mem_map.mpr ⟨f, hf, hkey⟩)

theorem mem_iff_lookup_of_nodup {α : Type} {fields : List (String × α)}
    (h : (fields.map (·.1)).Nodup) {key : String} {a : α} :
    (key, a) ∈ fields ↔ fields.lookup key = some a := by
  induction fields with
  | nil => simp
  | cons f rest ih =>
    obtain ⟨k, v⟩ := f
    rw [List.map_cons, List.nodup_cons] at h
    by_cases hk : key = k
    · subst hk
      have hrest : (key, a) ∉ rest := fun hmem => h.1 (List.mem_map.mpr ⟨_, hmem, rfl⟩)
      simp [hrest, eq_comm]
    · simp [List.lookup_cons, beq_eq_false_iff_ne.2 hk, hk, ih h.2]

namespace FileTree

/-- A name that an entry of a directory may have. -/
def IsName (n : String) : Prop := Path.IsSegment n ∧ n ≠ ".."

instance : DecidablePred IsName := fun n => inferInstanceAs (Decidable (Path.IsSegment n ∧ n ≠ ".."))

/-- In each directory of the tree the entries have names, and no two the same. -/
def Proper (t : FileTree) : Prop :=
  ∀ p es, t.get? p = some (.dir es) → (es.map (·.1)).Nodup ∧ ∀ e ∈ es, IsName e.1

variable {t new : FileTree} {p q : Place} {es : List (String × FileTree)}

theorem Proper.get? (h : Proper t) {u : FileTree} (hu : t.get? p = some u) : Proper u := by
  intro q es hes
  refine h (p ++ q) es ?_
  rw [get?_append, hu]
  exact hes

theorem Proper.nodup (h : Proper (.dir es)) : (es.map (·.1)).Nodup := (h [] es rfl).1

theorem Proper.entry (h : Proper (.dir es)) {e : String × FileTree} (he : e ∈ es) :
    IsName e.1 ∧ Proper e.2 := by
  refine ⟨(h [] es rfl).2 e he, h.get? (p := [e.1]) ?_⟩
  simp [(mem_iff_lookup_of_nodup h.nodup).mp he]

theorem proper_dir (hnodup : (es.map (·.1)).Nodup) (hes : ∀ e ∈ es, IsName e.1 ∧ Proper e.2) :
    Proper (.dir es) := by
  intro q fs hfs
  cases q with
  | nil =>
    cases hfs
    exact ⟨hnodup, fun e he => (hes e he).1⟩
  | cons n q =>
    rw [get?_cons, Option.bind_eq_bind, Option.bind_eq_some_iff] at hfs
    obtain ⟨u, hu, hfs⟩ := hfs
    exact (hes _ ((mem_iff_lookup_of_nodup hnodup).mpr hu)).2 q fs hfs

theorem proper_file (content : Text.Bytes) : Proper (.file content) := by
  intro q es hes
  cases q with
  | nil => cases hes
  | cons n q => simp [entries] at hes

theorem proper_link (target : String) : Proper (.link target) := by
  intro q es hes
  cases q with
  | nil => cases hes
  | cons n q => simp [entries] at hes

theorem proper_empty : Proper empty := proper_dir (by simp) (by simp)

theorem proper_entries (h : Proper t) : Proper (.dir t.entries) := by
  cases t with
  | dir es => exact h
  | file content => exact proper_dir (by simp [entries]) (by simp [entries])
  | link target => exact proper_dir (by simp [entries]) (by simp [entries])

theorem Proper.set (h : Proper t) (hnew : Proper new) (hp : ∀ n ∈ p, IsName n) :
    Proper (t.set new p) := by
  induction p generalizing t with
  | nil => exact hnew
  | cons n p ih =>
    have hes := proper_entries h
    rw [set_cons]
    refine proper_dir (nodup_setField hes.nodup _ _) fun e he => ?_
    rcases mem_setField he with rfl | he
    · refine ⟨hp n List.mem_cons_self, ih ?_ fun m hm => hp m (List.mem_cons_of_mem _ hm)⟩
      cases hn : t.entries.lookup n with
      | none => exact proper_dir (by simp) (by simp)
      | some u => exact hes.get? (p := [n]) (by simp [hn])
    · exact hes.entry he

theorem Proper.append (h : Proper (.dir es)) {x : String} {u : FileTree} (hx : es.lookup x = none)
    (hname : IsName x) (hu : Proper u) : Proper (.dir (es ++ [(x, u)])) := by
  have hset := h.set (p := [x]) hu (by simpa using hname)
  rw [set_cons, entries_dir, setField_of_lookup_eq_none hx] at hset
  exact hset

theorem Proper.entriesAt (h : Proper t) (p : Place) : Proper (.dir (t.entriesAt p)) := by
  cases hp : t.get? p with
  | none =>
    rw [FileTree.entriesAt, hp]
    exact proper_dir (by simp) (by simp)
  | some u =>
    rw [FileTree.entriesAt, hp]
    exact proper_entries (h.get? hp)

theorem Proper.isName (h : Proper t) (hp : (t.get? p).isSome) : ∀ n ∈ p, IsName n := by
  induction p generalizing t with
  | nil => simp
  | cons n p ih =>
    rw [get?_cons, Option.bind_eq_bind] at hp
    cases hn : t.entries.lookup n with
    | none => simp [hn] at hp
    | some u =>
      have hes := proper_entries h
      have hentry := hes.entry ((mem_iff_lookup_of_nodup hes.nodup).mpr hn)
      rw [hn] at hp
      exact List.forall_mem_cons.mpr ⟨hentry.1, ih hentry.2 hp⟩

/-! ## Listings -/

theorem mem_listingAll {e : Place × FileTree} :
    e ∈ listingAll es ↔
      ∃ n u, (n, u) ∈ es ∧ (e = ([n], u) ∨ ∃ f ∈ u.listing, e = (n :: f.1, f.2)) := by
  induction es with
  | nil => simp [listingAll]
  | cons f rest ih =>
    obtain ⟨n, u⟩ := f
    rw [listingAll, List.mem_append, List.mem_cons, List.mem_map, ih]
    constructor
    · rintro ((he | ⟨f, hf, he⟩) | ⟨m, v, hm, he⟩)
      · exact ⟨n, u, List.mem_cons_self, .inl he⟩
      · exact ⟨n, u, List.mem_cons_self, .inr ⟨f, hf, he.symm⟩⟩
      · exact ⟨m, v, List.mem_cons_of_mem _ hm, he⟩
    · rintro ⟨m, v, hm, he⟩
      rcases List.mem_cons.mp hm with hm | hm
      · cases hm
        exact .inl (he.imp_right fun ⟨f, hf, he⟩ => ⟨f, hf, he.symm⟩)
      · exact .inr ⟨m, v, hm, he⟩

theorem mem_listing_cons {n : String} {u : FileTree} :
    (n :: q, u) ∈ t.listing ↔
      ∃ v, (n, v) ∈ t.entries ∧ (q = [] ∧ u = v ∨ (q, u) ∈ v.listing) := by
  cases t with
  | dir es =>
    rw [listing, mem_listingAll, entries_dir]
    constructor
    · rintro ⟨m, v, hm, he | ⟨f, hf, he⟩⟩
      · cases he
        exact ⟨u, hm, .inl ⟨rfl, rfl⟩⟩
      · cases he
        exact ⟨v, hm, .inr hf⟩
    · rintro ⟨v, hv, ⟨rfl, rfl⟩ | h⟩
      · exact ⟨n, u, hv, .inl rfl⟩
      · exact ⟨n, v, hv, .inr ⟨_, h, rfl⟩⟩
  | file content => simp [listing, entries]
  | link target => simp [listing, entries]

/-- The listing has everything below the top. -/
theorem Proper.mem_listing_iff (h : Proper t) {u : FileTree} :
    (q, u) ∈ t.listing ↔ q ≠ [] ∧ t.get? q = some u := by
  induction q generalizing t with
  | nil =>
    cases t with
    | dir es => simp [listing, mem_listingAll]
    | file content => simp [listing]
    | link target => simp [listing]
  | cons n q ih =>
    have hes := proper_entries h
    rw [mem_listing_cons, get?_cons, Option.bind_eq_bind, Option.bind_eq_some_iff]
    simp only [mem_iff_lookup_of_nodup hes.nodup, ne_eq, reduceCtorEq, not_false_eq_true, true_and]
    refine exists_congr fun v => and_congr_right fun hv => ?_
    rw [ih (hes.get? (p := [n]) (by simp [hv]))]
    cases q with
    | nil => simp [eq_comm]
    | cons m q => simp

end FileTree

namespace Session

open FileTree

variable {t : FileTree} {p q : Path}

theorem mem_pathsBelow_iff (ht : Proper t) :
    q ∈ pathsBelow t p ↔ q.anchor = p.anchor ∧
      ∃ r, r ≠ [] ∧ q.segments = p.segments ++ r ∧ (t.get? q.segments).isSome := by
  obtain ⟨anchor, segs⟩ := q
  unfold pathsBelow
  constructor
  · intro h
    obtain ⟨e, he, hq⟩ := List.mem_map.mp h
    cases hq
    cases hu : t.get? p.segments with
    | none => simp [hu] at he
    | some u =>
      rw [hu] at he
      obtain ⟨hne, hget⟩ := ((ht.get? hu).mem_listing_iff (u := e.2)).mp he
      refine ⟨rfl, e.1, hne, rfl, ?_⟩
      rw [get?_append, hu]
      simp [hget]
  · rintro ⟨rfl, r, hne, rfl, hsome⟩
    rw [get?_append] at hsome
    cases hu : t.get? p.segments with
    | none => simp [hu] at hsome
    | some u =>
      rw [hu] at hsome
      obtain ⟨v, hv⟩ := Option.isSome_iff_exists.mp hsome
      exact List.mem_map.mpr ⟨(r, v), ((ht.get? hu).mem_listing_iff).mpr ⟨hne, hv⟩, rfl⟩

theorem no_parent_of_mem_pathsBelow (ht : Proper t)
    (h : q ∈ pathsBelow t p) : ".." ∉ q.segments := by
  obtain ⟨-, r, -, -, hsome⟩ := (mem_pathsBelow_iff ht).mp h
  exact fun hup => (ht.isName hsome _ hup).2 rfl

end Session

end CronWrap
