import CronWrap.Proofs.Files.NoLinks
import CronWrap.Proofs.Files.Sees
import CronWrap.Proofs.Text.Utf8

/-! What the looks at paths tell in a tree without links. -/
namespace CronWrap.Session

open Workspace FileTree
open Text (Bytes)

variable {t : FileTree} {p : Path}

theorem sees_get {α : Type} {t : FileTree} {f : SessionState → Session α} {r : Except Failure α}
    (h : ∀ s, s.tree = t → Sees t (f s) r) : Sees t (getThe SessionState >>= f) r := by
  intro s hs
  exact h s hs s hs

theorem sees_find? (t : FileTree) (last : Bool) (p : Path) :
    Sees t (find? last p) ((t.find? last p).mapError fun cause => .file ⟨cause, p⟩) := by
  refine sees_get fun s hs => ?_
  subst hs
  cases s.tree.find? last p with
  | ok found => exact sees_pure _ found
  | error cause => exact sees_throw _ _

theorem sees_find (t : FileTree) (last : Bool) (p : Path) :
    Sees t (find last p) ((t.find last p).mapError fun cause => .file ⟨cause, p⟩) := by
  refine sees_get fun s hs => ?_
  subst hs
  cases s.tree.find last p with
  | ok found => exact sees_pure _ found
  | error cause => exact sees_throw _ _

theorem sees_resolve (t : FileTree) (p : Path) :
    Sees t (resolve p : Session _) (.ok (t.resolve p)) :=
  sees_get fun _ hs => hs ▸ sees_pure _ _

/-! ## Actions that only look -/

/-- What the action tells is a matter of the tree. -/
def Looks {α : Type} (x : Session α) : Prop := ∀ t, Steady t t x

section Looks

variable {α β γ : Type} {x : Session α} {f : α → Session β}

theorem looks_of_sees {r : FileTree → Except Failure α} (h : ∀ t, Sees t x (r t)) : Looks x :=
  fun t => ⟨r t, h t, h t⟩

theorem looks_pure (a : α) : Looks (pure a : Session α) := fun _ => steady_pure a

theorem looks_throw (e : Failure) : Looks (throw e : Session α) := fun _ => steady_throw e

theorem looks_note (entry : LogEntry) : Looks (note entry : Session Unit) :=
  fun _ => steady_note entry

theorem Looks.bind (hx : Looks x) (hf : ∀ a, Looks (f a)) : Looks (x >>= f) :=
  fun t => (hx t).bind fun a _ => hf a t

theorem Looks.handled {h : Failure → Session α} (hx : Looks x) (hh : ∀ e, Looks (h e)) :
    Looks (tryCatch x h) :=
  fun t => (hx t).handled fun e => hh e t

theorem looks_mapM {g : γ → Session β} (hg : ∀ c, Looks (g c)) (l : List γ) : Looks (l.mapM g) :=
  fun t => steady_mapM fun c _ => hg c t

theorem looks_filterM {g : γ → Session Bool} (hg : ∀ c, Looks (g c)) (l : List γ) :
    Looks (l.filterM g) :=
  fun t => steady_filterM fun c _ => hg c t

theorem Sees.of_bind_looks {t : FileTree} {b : β} (hx : Looks x) (hf : ∀ a, Looks (f a))
    (h : Sees t (x >>= f) (.ok b)) : ∃ a, Sees t x (.ok a) ∧ Sees t (f a) (.ok b) :=
  h.of_bind (hx t) fun a _ => hf a t

theorem looks_find? (last : Bool) (p : Path) : Looks (find? last p) :=
  looks_of_sees fun t => sees_find? t last p

theorem looks_find (last : Bool) (p : Path) : Looks (find last p) :=
  looks_of_sees fun t => sees_find t last p

theorem looks_kind? (p : Path) : Looks (kind? p : Session _) :=
  (looks_find? true p).bind fun found => by
    cases found with
    | none => exact looks_pure _
    | some u => cases u <;> exact looks_pure _

theorem looks_isDir (p : Path) : Looks (isDir p : Session _) :=
  (looks_kind? p).bind fun _ => looks_pure _

theorem looks_isFile (p : Path) : Looks (isFile p : Session _) :=
  (looks_kind? p).bind fun _ => looks_pure _

theorem looks_exists? (p : Path) : Looks (exists? p : Session _) :=
  (looks_kind? p).bind fun _ => looks_pure _

theorem looks_isLink (p : Path) : Looks (isLink p : Session _) :=
  (looks_find? false p).bind fun _ => looks_pure _

theorem looks_below (p : Path) : Looks (below p : Session _) :=
  (looks_find? true p).bind fun found => by
    cases found <;> exact looks_pure _

theorem looks_read (p : Path) : Looks (Workspace.read p : Session _) := by
  refine (looks_find true p).bind fun found => ?_
  split
  · exact looks_pure _
  · exact looks_throw _
  · exact looks_throw _

theorem looks_readText (p : Path) : Looks (readText p : Session _) := by
  refine (looks_read p).bind fun content => ?_
  split
  · exact looks_pure _
  · exact looks_throw _

end Looks

/-! ## Files that are the same -/

/-- In both trees the same file is seen at the path, or none. -/
structure SameFile (t t' : FileTree) (p : Path) : Prop where
  isFile : Steady t t' (isFile p : Session _)
  readText : Sees t (Workspace.isFile p : Session _) (.ok true) → Steady t t' (readText p : Session _)

theorem sameFile_self (t : FileTree) (p : Path) : SameFile t t p :=
  ⟨looks_isFile p t, fun _ => looks_readText p t⟩

/-- What is done with the file if there is one. -/
theorem SameFile.steady_bind {α : Type} {t' : FileTree} (h : SameFile t t' p) {f : Bool → Session α}
    (hfile : Steady t t' (Workspace.readText p : Session _) → Steady t t' (f true))
    (hnone : Steady t t' (f false)) : Steady t t' (Workspace.isFile p >>= f) :=
  h.isFile.bind fun found hfound => by
    cases found with
    | false => exact hnone
    | true => exact hfile (h.readText hfound)

/-! ## Where there are no links -/

/-- The failure of a look at a path that does not fit. -/
def tooLong (p : Path) : Failure := .file ⟨.nameTooLong, p⟩

/-- What a look at a path tells where what it tells is known. -/
theorem sees_find?_of_known (ht : NoLinks t) (hup : ".." ∉ p.segments) (hknown : Known t p)
    (last : Bool) :
    Sees t (find? last p) (if p.Fits then .ok (t.get? p.segments) else .error (tooLong p)) := by
  have h := sees_find? t last p
  rw [ht.find? hup hknown] at h
  split
  · rwa [if_pos ‹_›] at h
  · rwa [if_neg ‹_›] at h

theorem Sees.map_ite {α β : Type} {t : FileTree} {x : Session α} {q : Prop} [Decidable q] {a : α}
    {e : Failure} (h : Sees t x (if q then .ok a else .error e)) (f : α → β) :
    Sees t (do return f (← x)) (if q then .ok (f a) else .error e) := by
  split
  · rw [if_pos ‹_›] at h
    exact h.bind (sees_pure t _)
  · rw [if_neg ‹_›] at h
    exact h.bind_error

/-- What is told of the kind of a thing. -/
def kindOf : Option FileTree → Option FileKind
  | some (.dir _) => some .dir
  | some (.file _) => some .file
  | _ => none

theorem isDirAt_eq_kindOf (t : FileTree) (q : Place) :
    t.isDirAt q = decide (kindOf (t.get? q) = some .dir) := by
  unfold isDirAt
  cases t.get? q with
  | none => rfl
  | some u => cases u <;> rfl

theorem isFileAt_eq_kindOf (t : FileTree) (q : Place) :
    t.isFileAt q = decide (kindOf (t.get? q) = some .file) := by
  unfold isFileAt
  cases t.get? q with
  | none => rfl
  | some u => cases u <;> rfl

theorem sees_kind? (ht : NoLinks t) (hup : ".." ∉ p.segments) (hknown : Known t p) :
    Sees t (kind? p : Session _)
      (if p.Fits then .ok (kindOf (t.get? p.segments)) else .error (tooLong p)) :=
  (sees_find?_of_known ht hup hknown true).map_ite kindOf

theorem sees_isDir (ht : NoLinks t) (hup : ".." ∉ p.segments) (hknown : Known t p) :
    Sees t (isDir p : Session _)
      (if p.Fits then .ok (t.isDirAt p.segments) else .error (tooLong p)) := by
  rw [isDirAt_eq_kindOf]
  exact (sees_kind? ht hup hknown).map_ite fun kind => decide (kind = some .dir)

theorem sees_isFile (ht : NoLinks t) (hup : ".." ∉ p.segments) (hknown : Known t p) :
    Sees t (isFile p : Session _)
      (if p.Fits then .ok (t.isFileAt p.segments) else .error (tooLong p)) := by
  rw [isFileAt_eq_kindOf]
  exact (sees_kind? ht hup hknown).map_ite fun kind => decide (kind = some .file)

theorem of_sees_isFile (ht : NoLinks t) (hup : ".." ∉ p.segments) (hknown : Known t p) {found : Bool}
    (h : Sees t (isFile p : Session _) (.ok found)) : p.Fits ∧ t.isFileAt p.segments = found := by
  have hfile := h.unique (sees_isFile ht hup hknown)
  split at hfile
  · cases hfile
    exact ⟨‹_›, rfl⟩
  · cases hfile

theorem sees_exists? (ht : NoLinks t) (hup : ".." ∉ p.segments) (hknown : Known t p) :
    Sees t (exists? p : Session _)
      (if p.Fits then .ok (t.get? p.segments).isSome else .error (tooLong p)) := by
  have hkind : (t.get? p.segments).isSome = (kindOf (t.get? p.segments)).isSome := by
    cases hu : t.get? p.segments with
    | none => rfl
    | some u =>
      cases u with
      | dir es => rfl
      | file content => rfl
      | link target => exact absurd (ht _ _ hu) (by simp [target?])
  rw [hkind]
  exact (sees_kind? ht hup hknown).map_ite Option.isSome

theorem sees_isLink (ht : NoLinks t) (hup : ".." ∉ p.segments) (hknown : Known t p) :
    Sees t (isLink p : Session _) (if p.Fits then .ok false else .error (tooLong p)) := by
  have hlink : false = (t.get? p.segments).any (·.isLink) := by
    cases hu : t.get? p.segments with
    | none => rfl
    | some u =>
      cases u with
      | dir es => rfl
      | file content => rfl
      | link target => exact absurd (ht _ _ hu) (by simp [target?])
  rw [hlink]
  exact (sees_find?_of_known ht hup hknown false).map_ite fun found => found.any (·.isLink)

/-- The paths of all that is below a path. -/
def pathsBelow (t : FileTree) (p : Path) : List Path :=
  ((t.get? p.segments).elim [] FileTree.listing).map fun e => ⟨p.anchor, p.segments ++ e.1⟩

theorem below_eq (p : Path) : (below p : Session _) = (do
    let found ← Session.find? true p
    return (found.elim [] FileTree.listing).map fun e => ⟨p.anchor, p.segments ++ e.1⟩) := by
  refine bind_congr fun found => ?_
  cases found <;> rfl

theorem sees_below (ht : NoLinks t) (hup : ".." ∉ p.segments) (hknown : Known t p) :
    Sees t (below p : Session _)
      (if p.Fits then .ok (pathsBelow t p) else .error (tooLong p)) := by
  rw [below_eq]
  exact (sees_find?_of_known ht hup hknown true).map_ite _

/-- The text in a file, or what is wrong with it. -/
def textOf (content : Bytes) : Except Failure (List Char) :=
  match Text.decodeUtf8 content with
  | .ok cs => .ok (Text.unifyLineEnds cs)
  | .error e => .error (.encoding e)

theorem sees_read_of_find {place : Place} {content : Bytes}
    (h : t.find true p = .ok (place, some (.file content))) :
    Sees t (Workspace.read p : Session _) (.ok content) := by
  have hfind := sees_find t true p
  rw [h] at hfind
  exact hfind.bind (sees_pure t content)

theorem sees_readText_of_read {content : Bytes}
    (h : Sees t (Workspace.read p : Session _) (.ok content)) :
    Sees t (readText p : Session _) (textOf content) := by
  refine h.bind ?_
  unfold textOf
  cases Text.decodeUtf8 content with
  | ok cs => exact sees_pure t _
  | error e => exact sees_throw t _

theorem sees_readText_of_encoded {place : Place} {cs : List Char}
    (h : t.find true p = .ok (place, some (.file (Text.encodeUtf8 cs)))) :
    Sees t (readText p : Session _) (.ok (Text.unifyLineEnds cs)) := by
  have htext := sees_readText_of_read (sees_read_of_find h)
  rwa [textOf, Text.decodeUtf8_encodeUtf8] at htext

theorem sees_read (ht : NoLinks t) (hup : ".." ∉ p.segments) {content : Bytes}
    (hfile : t.get? p.segments = some (.file content)) :
    Sees t (Workspace.read p : Session _) (if p.Fits then .ok content else .error (tooLong p)) := by
  have h := ht.find_of_isSome hup (by simp [hfile]) true
  split
  · rw [if_pos ‹_›, hfile] at h
    exact sees_read_of_find h
  · rw [if_neg ‹_›] at h
    have hfind := sees_find t true p
    rw [h] at hfind
    exact hfind.bind_error

theorem sees_readText (ht : NoLinks t) (hup : ".." ∉ p.segments) {content : Bytes}
    (hfile : t.get? p.segments = some (.file content)) :
    Sees t (readText p : Session _) (if p.Fits then textOf content else .error (tooLong p)) := by
  have h := sees_read ht hup hfile
  split
  · rw [if_pos ‹_›] at h
    exact sees_readText_of_read h
  · rw [if_neg ‹_›] at h
    exact h.bind_error

end CronWrap.Session
