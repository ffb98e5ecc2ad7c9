import CronWrap.Proofs.Files.Beside

/-! Operations inside a directory without links that was made beside others. -/
namespace CronWrap

namespace FileTree

def NoLinks (t : FileTree) : Prop := ∀ p u, t.get? p = some u → u.target? = none

theorem noLinks_file (content : Text.Bytes) : NoLinks (file content) := by
  intro p u hu
  cases p with
  | nil =>
    cases hu
    rfl
  | cons name p => simp [entries] at hu

theorem noLinks_empty : NoLinks empty := by
  intro p u hu
  cases p with
  | nil =>
    cases hu
    rfl
  | cons name p => simp [empty] at hu

theorem NoLinks.set {t new : FileTree} (ht : NoLinks t) (hnew : NoLinks new) (p : Place) :
    NoLinks (t.set new p) := by
  intro q u hu
  rcases get?_set_cases t new p q with ⟨r, -, hr⟩ | ⟨-, -, es, hes⟩ | ⟨-, hsame⟩
  · rw [hr] at hu
    exact hnew r u hu
  · rw [hes] at hu
    cases hu
    rfl
  · rw [hsame] at hu
    exact ht q u hu

end FileTree

namespace Session

open FileTree

section Inside

variable {b d : FileTree} {p : Place} {es : List (String × FileTree)} {anchor : Anchor}
  {dir : List String} {x : String} {n : Nat}

/-- A new entry is none of those that were there. -/
theorem eq_of_lookup_setField (hx : es.lookup x = none) (d : FileTree) :
    ∀ n u v, es.lookup n = some u → (setField es x d).lookup n = some v → u = v := by
  intro n u v hu hv
  rw [lookup_setField] at hv
  split at hv
  · rename_i he
    rw [he, hx] at hu
    cases hu
  · rw [hu] at hv
    exact Option.some.inj hv

/-- A path into a directory without links leads straight down there. -/
theorem find_inside (hreach : Reaches (b.withEntries p es) dir p) (hx : es.lookup x = none)
    (hd : NoLinks d) {names : List String} (hup : ".." ∉ x :: names) {last : Bool} {place : Place}
    {found : Option FileTree}
    (h : (b.withEntries p (setField es x d)).find last ⟨anchor, dir ++ x :: names⟩ =
      .ok (place, found)) :
    place = p ++ x :: names ∧ found = d.get? names := by
  have hlookup : (setField es x d).lookup x = some d := by simp
  have hlink : ∀ r, r <+: x :: names → r ≠ [] → (r ≠ x :: names ∨ last = true) →
      ∀ u, (b.withEntries p (setField es x d)).get? (p ++ r) = some u → u.target? = none := by
    intro r hr hne _ u hu
    cases r with
    | nil => exact absurd rfl hne
    | cons first r =>
      obtain ⟨rfl, -⟩ := List.cons_prefix_cons.mp hr
      rw [get?_withEntries_cons, hlookup] at hu
      exact hd r u hu
  obtain ⟨rfl, hfound, -⟩ := hreach.find (agrees_withEntries (eq_of_lookup_setField hx d)) h
    (by simp) hup hlink
  rw [get?_withEntries_cons, hlookup] at hfound
  exact ⟨rfl, hfound⟩

theorem set_inside (d new : FileTree) (names : Place) :
    (b.withEntries p (setField es x d)).set new (p ++ x :: names) =
      b.withEntries p (setField es x (d.set new names)) := by
  have hlookup : (setField es x d).lookup x = some d := by simp
  rw [withEntries_set_append hlookup, setField_setField]

theorem triple_write_inside (hreach : Reaches (b.withEntries p es) dir p)
    (hx : es.lookup x = none) (hd : NoLinks d) {names : List String} (hup : ".." ∉ x :: names)
    (content : Text.Bytes) :
    Triple (Holds (b.withEntries p (setField es x d)) n)
      (write ⟨anchor, dir ++ x :: names⟩ content)
      (fun _ => Holds (b.withEntries p (setField es x (d.set (.file content) names))) n)
      (Holds (b.withEntries p (setField es x d)) n) := by
  refine triple_of_at fun failed hn => (triple_write _ _ _ failed).weaken (fun _ h => h) ?_
    fun _ => .of_failed hn
  rintro _ s ⟨place, found, hfind, -, hs⟩
  obtain ⟨rfl, -⟩ := find_inside hreach hx hd hup hfind
  rw [set_inside] at hs
  exact .of_at hn hs

theorem triple_makeDir_inside (hreach : Reaches (b.withEntries p es) dir p)
    (hx : es.lookup x = none) (hd : NoLinks d) {names : List String} (hup : ".." ∉ x :: names) :
    Triple (Holds (b.withEntries p (setField es x d)) n) (makeDir ⟨anchor, dir ++ x :: names⟩)
      (fun _ s => d.get? names = none ∧
        Holds (b.withEntries p (setField es x (d.set .empty names))) n s)
      (Holds (b.withEntries p (setField es x d)) n) := by
  refine triple_of_at fun failed hn => (triple_makeDir _ _ failed).weaken (fun _ h => h) ?_
    fun _ => .of_failed hn
  rintro _ s ⟨place, hfind, hs⟩
  obtain ⟨rfl, hfound⟩ := find_inside hreach hx hd hup hfind
  rw [set_inside] at hs
  exact ⟨hfound.symm, .of_at hn hs⟩

end Inside

end Session

end CronWrap
