import CronWrap.Proofs.Files.Direct
import CronWrap.Proofs.Files.Inside

/-! In a tree without links every path leads straight down. -/
namespace CronWrap.FileTree

variable {t : FileTree} {p : Path}

/-- Below whatever has no links there is nothing to follow. -/
theorem NoLinks.straight {u : FileTree} {q : Place} (hu : NoLinks u) (hq : t.get? q = some u)
    (last : Bool) (names : List String) : Straight t last q names := by
  intro r _ _ _ v hv
  rw [get?_append, hq] at hv
  exact hu r v hv

theorem NoLinks.straight_top (h : NoLinks t) (last : Bool) (names : List String) :
    Straight t last [] names := h.straight (get?_nil t) last names

theorem NoLinks.find? (h : NoLinks t) (hup : ".." ∉ p.segments) (hknown : Known t p)
    (last : Bool) :
    t.find? last p = if p.Fits then .ok (t.get? p.segments) else .error .nameTooLong :=
  (h.straight_top last _).find? hup hknown

theorem NoLinks.of_find (h : NoLinks t) (hup : ".." ∉ p.segments) {last : Bool} {place : Place}
    {found : Option FileTree} (hfind : t.find last p = .ok (place, found)) :
    place = p.segments ∧ found = t.get? p.segments ∧ p.Fits ∧
      (p.segments ≠ [] → t.isDirAt p.segments.dropLast) :=
  (h.straight_top last _).of_find hup hfind

theorem NoLinks.find (h : NoLinks t) (hup : ".." ∉ p.segments) (hfits : p.Fits)
    (hparent : p.segments ≠ [] → t.isDirAt p.segments.dropLast) (last : Bool) :
    t.find last p = .ok (p.segments, t.get? p.segments) :=
  (h.straight_top last _).find hup hfits hparent

theorem NoLinks.find_of_isSome (h : NoLinks t) (hup : ".." ∉ p.segments)
    (hsome : (t.get? p.segments).isSome) (last : Bool) :
    t.find last p =
      if p.Fits then .ok (p.segments, t.get? p.segments) else .error .nameTooLong :=
  (h.straight_top last _).find_of_isSome hup hsome

theorem NoLinks.resolve (h : NoLinks t) (hup : ".." ∉ p.segments) :
    t.resolve p = ⟨.root, p.segments⟩ := (h.straight_top true _).resolve hup

end CronWrap.FileTree
