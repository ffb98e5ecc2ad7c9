import CronWrap.Proofs.Files.Edit
import Mathlib.Tactic.Common

/-! The way along a path, and what changes of the tree do to it. -/
namespace CronWrap.FileTree

/-! ## Steps of walks -/

section Steps

variable {t : FileTree} {last : Bool} {links : Nat} {trouble : Option FileCause} {q : Place}
  {name : String} {target : Path} {rest : List String}

theorem walk_up : t.walk last links trouble q (".." :: rest) =
    t.walk last links (trouble <|> t.obstacle q "..") q.dropLast rest := by
  cases links <;> rfl

theorem walk_down (hname : name ≠ "..") (hlink : t.linkAt? q name = none) :
    t.walk last links trouble q (name :: rest) =
      t.walk last links (trouble <|> t.obstacle q name) (q ++ [name]) rest := by
  cases links <;> simp [walk, walkBy, hname, hlink]

/-- A link at the end is not followed. -/
theorem walk_stop (hname : name ≠ "..") (hlink : t.linkAt? q name = some target) :
    t.walk false links trouble q [name] = ⟨q ++ [name], trouble <|> t.obstacle q name⟩ := by
  cases links <;> simp [walk, walkBy, hname, hlink]

theorem walk_lost (hname : name ≠ "..") (hlink : t.linkAt? q name = some target)
    (hgo : rest ≠ [] ∨ last = true) :
    t.walk last 0 trouble q (name :: rest) =
      ⟨q ++ name :: rest, (trouble <|> t.obstacle q name) <|> some .tooManyLinks⟩ := by
  have hgo' : ¬ (rest = [] ∧ last = false) := by
    rintro ⟨rfl, rfl⟩
    simp at hgo
  simp [walk, walkBy, hname, hlink, hgo']

theorem walk_link (hname : name ≠ "..") (hlink : t.linkAt? q name = some target)
    (hgo : rest ≠ [] ∨ last = true) :
    t.walk last (links + 1) trouble q (name :: rest) =
      t.walk last links (trouble <|> t.obstacle q name) (if target.isAbsolute then [] else q)
        (target.segments ++ rest) := by
  have hgo' : ¬ (rest = [] ∧ last = false) := by
    rintro ⟨rfl, rfl⟩
    simp at hgo
  simp [walk, walkBy, hname, hlink, hgo']

end Steps

/-- Induction along a walk: on the links that may be followed, and between two on the segments. -/
@[elab_as_elim]
theorem walk_induction (t : FileTree) (last : Bool)
    {motive : Nat → Option FileCause → Place → List String → Prop}
    (nil : ∀ k trouble q, motive k trouble q [])
    (up : ∀ k trouble q rest, motive k (trouble <|> t.obstacle q "..") q.dropLast rest →
      motive k trouble q (".." :: rest))
    (down : ∀ k trouble q name rest, name ≠ ".." → t.linkAt? q name = none →
      motive k (trouble <|> t.obstacle q name) (q ++ [name]) rest →
      motive k trouble q (name :: rest))
    (stop : ∀ k trouble q name target, name ≠ ".." → t.linkAt? q name = some target →
      last = false → motive k trouble q [name])
    (lost : ∀ trouble q name rest target, name ≠ ".." → t.linkAt? q name = some target →
      (rest ≠ [] ∨ last = true) → motive 0 trouble q (name :: rest))
    (link : ∀ k trouble q name rest target, name ≠ ".." → t.linkAt? q name = some target →
      (rest ≠ [] ∨ last = true) →
      motive k (trouble <|> t.obstacle q name) (if target.isAbsolute then [] else q)
        (target.segments ++ rest) →
      motive (k + 1) trouble q (name :: rest))
    (k : Nat) (trouble : Option FileCause) (q : Place) (segs : List String) :
    motive k trouble q segs := by
  have hsegs : ∀ k, (∀ trouble q name rest target, name ≠ ".." → t.linkAt? q name = some target →
      (rest ≠ [] ∨ last = true) → motive k trouble q (name :: rest)) →
      ∀ trouble q segs, motive k trouble q segs := by
    intro k hfollow trouble q segs
    induction segs generalizing trouble q with
    | nil => exact nil k trouble q
    | cons name rest ih =>
      by_cases hname : name = ".."
      · subst hname
        exact up k trouble q rest (ih _ _)
      · cases hlink : t.linkAt? q name with
        | none => exact down k trouble q name rest hname hlink (ih _ _)
        | some target =>
          by_cases hend : rest = [] ∧ last = false
          · obtain ⟨rfl, hlast⟩ := hend
            exact stop k trouble q name target hname hlink hlast
          · refine hfollow trouble q name rest target hname hlink ?_
            rwa [Classical.not_and_iff_not_or_not, Bool.not_eq_false] at hend
  induction k generalizing trouble q segs with
  | zero => exact hsegs 0 lost trouble q segs
  | succ k ih =>
    exact hsegs (k + 1) (fun trouble q name rest target hname hlink hgo =>
      link k trouble q name rest target hname hlink hgo (ih _ _ _)) trouble q segs

/-! ## Ways -/

/-- From a place, with so many links to spare, the segments lead on to a place, with so many links
left. Every segment is gone by in a directory, and every link is followed. -/
inductive Leads (t : FileTree) : Nat → Place → List String → Nat → Place → Prop
  | stay (k : Nat) (q : Place) : Leads t k q [] k q
  | up {k k' : Nat} {q q' : Place} {rest : List String} (hfree : t.obstacle q ".." = none)
      (h : Leads t k q.dropLast rest k' q') : Leads t k q (".." :: rest) k' q'
  | down {k k' : Nat} {q q' : Place} {name : String} {rest : List String} (hname : name ≠ "..")
      (hfree : t.obstacle q name = none) (hlink : t.linkAt? q name = none)
      (h : Leads t k (q ++ [name]) rest k' q') : Leads t k q (name :: rest) k' q'
  | link {k k' : Nat} {q q' : Place} {name : String} {target : Path} {rest : List String}
      (hname : name ≠ "..") (hfree : t.obstacle q name = none)
      (hlink : t.linkAt? q name = some target)
      (h : Leads t k (if target.isAbsolute then [] else q) (target.segments ++ rest) k' q') :
      Leads t (k + 1) q (name :: rest) k' q'

theorem dir_of_obstacle_eq_none {t : FileTree} {q : Place} {name : String}
    (h : t.obstacle q name = none) : ∃ es, t.get? q = some (.dir es) := by
  unfold obstacle at h
  split at h
  · exact ⟨_, ‹_›⟩
  · cases h
  · cases h

theorem isSome_of_obstacle_eq_none {t : FileTree} {q : Place} {name : String}
    (h : t.obstacle q name = none) : (t.get? q).isSome := by
  obtain ⟨es, hes⟩ := dir_of_obstacle_eq_none h
  rw [hes]
  rfl

theorem obstacle_eq_of_dir {a b : FileTree} {q : Place} {es fs : List (String × FileTree)}
    (ha : a.get? q = some (.dir es)) (hb : b.get? q = some (.dir fs)) (name : String) :
    a.obstacle q name = b.obstacle q name := by
  simp [obstacle, ha, hb]

namespace Leads

variable {t : FileTree} {k k' : Nat} {q q' : Place} {segs : List String}

theorem append {k'' : Nat} {q'' : Place} {more : List String} (h : Leads t k q segs k' q')
    (h' : Leads t k' q' more k'' q'') : Leads t k q (segs ++ more) k'' q'' := by
  induction h with
  | stay k q => exact h'
  | up hfree _ ih => exact .up hfree (ih h')
  | down hname hfree hlink _ ih => exact .down hname hfree hlink (ih h')
  | link hname hfree hlink _ ih =>
    have hmore := ih h'
    rw [List.append_assoc] at hmore
    exact .link hname hfree hlink hmore

/-- What is at the start of a way to something is not nothing. -/
theorem isSome_start (h : Leads t k q segs k' q') (hend : (t.get? q').isSome) :
    (t.get? q).isSome := by
  cases h with
  | stay => exact hend
  | up hfree _ => exact isSome_of_obstacle_eq_none hfree
  | down _ hfree _ _ => exact isSome_of_obstacle_eq_none hfree
  | link _ hfree _ _ => exact isSome_of_obstacle_eq_none hfree

theorem obstacle_eq_none_of_common {a b c : FileTree} (hcommon : ExtendsCommon a b c) {name : String}
    (ha : a.obstacle q name = none) (hb : b.obstacle q name = none) : c.obstacle q name = none := by
  obtain ⟨es, hes⟩ := dir_of_obstacle_eq_none ha
  obtain ⟨fs, hfs⟩ := dir_of_obstacle_eq_none hb
  obtain ⟨w, hw, -, hdir⟩ := hcommon _ _ _ hes hfs
  cases w with
  | dir gs => rwa [← obstacle_eq_of_dir hes hw]
  | file content => cases hdir rfl
  | link target => cases hdir rfl

/-- In trees that agree a path leads to one place, if it leads to something in both. To this place it
also leads in a tree that has what both have. -/
theorem common {a b c : FileTree} (hagree : Agrees a b) (hcommon : ExtendsCommon a b c)
    (h : Leads a k q segs k' q') (hend : (a.get? q').isSome) {m : Nat} {r : Place}
    (h' : Leads b k q segs m r) (hend' : (b.get? r).isSome) :
    (m = k' ∧ r = q') ∧ Leads c k q segs k' q' := by
  induction h generalizing m r with
  | stay k q =>
    cases h'
    exact ⟨⟨rfl, rfl⟩, .stay k q⟩
  | up hfree _ ih =>
    cases h' with
    | up hfree' h' =>
      obtain ⟨heq, hc⟩ := ih hend h' hend'
      exact ⟨heq, .up (obstacle_eq_none_of_common hcommon hfree hfree') hc⟩
    | down hname => exact absurd rfl hname
    | link hname => exact absurd rfl hname
  | @down k k₁ q q₁ name rest hname hfree hlink h ih =>
    obtain ⟨u, hu⟩ := Option.isSome_iff_exists.mp (h.isSome_start hend)
    rw [linkAt?_eq, hu] at hlink
    cases h' with
    | up => exact absurd rfl hname
    | down _ hfree' _ h' =>
      obtain ⟨v, hv⟩ := Option.isSome_iff_exists.mp (h'.isSome_start hend')
      obtain ⟨w, hw, hsame, -⟩ := hcommon _ _ _ hu hv
      obtain ⟨heq, hc⟩ := ih hend h' hend'
      refine ⟨heq, .down hname (obstacle_eq_none_of_common hcommon hfree hfree') ?_ hc⟩
      rw [linkAt?_eq, hw, Option.bind_some, hsame]
      exact hlink
    | link _ _ hlink' _ =>
      -- A link in the one tree would be something else in the other.
      rw [linkAt?_eq, Option.bind_eq_some_iff] at hlink'
      obtain ⟨v, hv, htarget⟩ := hlink'
      have hsame := hagree _ u v hu hv
      rw [htarget] at hsame
      rw [Option.bind_some, hsame] at hlink
      cases hlink
  | @link k k₁ q q₁ name target rest hname hfree hlink h ih =>
    rw [linkAt?_eq, Option.bind_eq_some_iff] at hlink
    obtain ⟨u, hu, htarget⟩ := hlink
    cases h' with
    | up => exact absurd rfl hname
    | down _ _ hlink' h' =>
      obtain ⟨v, hv⟩ := Option.isSome_iff_exists.mp (h'.isSome_start hend')
      have hsame := hagree _ u v hu hv
      rw [linkAt?_eq, hv, Option.bind_some, ← hsame, htarget] at hlink'
      cases hlink'
    | link _ hfree' hlink' h' =>
      rw [linkAt?_eq, Option.bind_eq_some_iff] at hlink'
      obtain ⟨v, hv, htarget'⟩ := hlink'
      have hsame := hagree _ u v hu hv
      rw [htarget, htarget'] at hsame
      cases hsame
      obtain ⟨w, hw, hsame, -⟩ := hcommon _ _ _ hu hv
      obtain ⟨heq, hc⟩ := ih hend h' hend'
      refine ⟨heq, .link hname (obstacle_eq_none_of_common hcommon hfree hfree') ?_ hc⟩
      rw [linkAt?_eq, hw, Option.bind_some, hsame, htarget]

theorem unique {a b : FileTree} (hagree : Agrees a b) (h : Leads a k q segs k' q')
    (hend : (a.get? q').isSome) {m : Nat} {r : Place} (h' : Leads b k q segs m r)
    (hend' : (b.get? r).isSome) : m = k' ∧ r = q' :=
  (h.common hagree (fun _ u _ hu _ => ⟨u, hu, rfl, id⟩) hend h' hend').1

/-- A way to something stays a way when the tree only grows. -/
theorem extend {a b : FileTree} (hext : Extends a b) (h : Leads a k q segs k' q')
    (hend : (a.get? q').isSome) : Leads b k q segs k' q' :=
  (h.common (.refl a) (fun p u _ hu _ => hext p u hu) hend h hend).2

/-- A way is gone by every walk that goes on behind it. -/
theorem walk_append (h : Leads t k q segs k' q') {last : Bool} {rest : List String}
    (hrest : rest ≠ [] ∨ last = true) :
    t.walk last k none q (segs ++ rest) = t.walk last k' none q' rest := by
  induction h with
  | stay => rfl
  | up hfree _ ih =>
    rw [List.cons_append, walk_up, hfree]
    exact ih
  | down hname hfree hlink _ ih =>
    rw [List.cons_append, walk_down hname hlink, hfree]
    exact ih
  | @link k k₁ q q₁ name target more hname hfree hlink _ ih =>
    have hgo : more ++ rest ≠ [] ∨ last = true :=
      hrest.imp_left fun hne hnil => hne (List.append_eq_nil_iff.mp hnil).2
    rw [List.cons_append, walk_link hname hlink hgo, hfree, ← List.append_assoc]
    exact ih

end Leads

end CronWrap.FileTree
