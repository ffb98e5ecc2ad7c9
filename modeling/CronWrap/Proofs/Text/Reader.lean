import Mathlib.Data.List.Basic
import Mathlib.Data.Option.Defs
import Mathlib.Order.Defs.Unbundled
import CronWrap.Text.Reader

/-! Two ways to speak about readers: how what a reader leaves over stands to the text it was given,
and that a reader cannot tell two texts apart. Both pass through every way of putting readers
together. -/
namespace CronWrap.Text.Reader

variable {α β : Type}

theorem bind_apply (r : Reader α) (f : α → Reader β) (cs : List Char) :
    (r >>= f) cs = (r cs).bind fun x => f x.1 x.2 := rfl

theorem orElse_apply (r s : Reader α) (cs : List Char) : (r <|> s) cs = (r cs <|> s cs) := rfl

theorem seqRight_eq (r : Reader α) (s : Reader β) : r *> s = r >>= fun _ => s := rfl

theorem seqLeft_eq (r : Reader α) (s : Reader β) : r <* s = r >>= fun a => s >>= fun _ => pure a :=
  rfl

theorem map_eq (f : α → β) (r : Reader α) : f <$> r = r >>= fun a => pure (f a) :=
  rfl

theorem bind_eq_some_iff {r : Reader α} {f : α → Reader β} {cs rest : List Char} {b : β} :
    (r >>= f) cs = some (b, rest) ↔ ∃ a ds, r cs = some (a, ds) ∧ f a ds = some (b, rest) := by
  rw [bind_apply, Option.bind_eq_some_iff]
  exact Prod.exists

theorem one_eq_some_iff {p : Char → Bool} {cs rest : List Char} {c : Char} :
    one p cs = some (c, rest) ↔ cs = c :: rest ∧ p c := by
  cases cs with
  | nil => simp [one]
  | cons d ds => grind [one]

theorem char_eq (c : Char) : char c = one (· = c) >>= fun _ => pure () := rfl

theorem char_eq_some_iff {c : Char} {cs rest : List Char} :
    char c cs = some ((), rest) ↔ cs = c :: rest := by
  rw [char_eq, bind_eq_some_iff]
  constructor
  · rintro ⟨d, ds, hd, h⟩
    cases h
    obtain ⟨rfl, hc⟩ := one_eq_some_iff.mp hd
    rw [of_decide_eq_true hc]
  · rintro rfl
    exact ⟨c, rest, one_eq_some_iff.mpr ⟨rfl, decide_eq_true rfl⟩, rfl⟩

theorem exactly_eq_some_iff {word cs rest : List Char} :
    exactly word cs = some ((), rest) ↔ cs = word ++ rest := by
  simp [exactly, List.isPrefixOf?_eq_some_iff_append_eq, eq_comm]

theorem exactly_cons (c d : Char) (word cs : List Char) :
    exactly (c :: word) (d :: cs) = if c = d then exactly word cs else none := by
  by_cases h : c = d <;> simp [exactly, List.isPrefixOf?, h]

theorem accept_eq_some {word cs rest : List Char} {b : Bool} (h : accept word cs = some (b, rest)) :
    cs = word ++ rest ∨ rest = cs := by
  rw [accept, orElse_apply] at h
  cases hword : exactly word cs with
  | none =>
    simp only [seqRight_eq, bind_apply, hword] at h
    cases h
    exact .inr rfl
  | some x =>
    simp only [seqRight_eq, bind_apply, hword] at h
    cases h
    exact .inl (exactly_eq_some_iff.mp hword)

theorem takeWhile1_eq_some {p : Char → Bool} {cs run rest : List Char}
    (h : takeWhile1 p cs = some (run, rest)) : ∃ c ds, cs = c :: ds ∧ p c := by
  obtain ⟨as, ds, htake, hrun⟩ := bind_eq_some_iff.mp h
  cases htake
  cases cs with
  | nil => cases hrun
  | cons c cs =>
    cases hc : p c with
    | true => exact ⟨c, cs, rfl, hc⟩
    | false =>
      simp only [List.takeWhile_cons, hc] at hrun
      cases hrun

/-! ## What is left over -/

/-- Whenever the reader takes something, what it leaves over is related to the text before. -/
def Leaves (R : List Char → List Char → Prop) (r : Reader α) : Prop :=
  ∀ cs a rest, r cs = some (a, rest) → R cs rest

namespace Leaves

variable {R S : List Char → List Char → Prop} {r s : Reader α} {f : α → Reader β}

theorem mono (h : ∀ cs rest, R cs rest → S cs rest) (hr : Leaves R r) : Leaves S r :=
  fun cs a rest hcs => h cs rest (hr cs a rest hcs)

theorem failure : Leaves R (failure : Reader α) := fun _ _ _ h => nomatch h

theorem one {p : Char → Bool} (h : ∀ c rest, p c → R (c :: rest) rest) : Leaves R (one p) := by
  intro cs c rest hcs
  obtain ⟨rfl, hp⟩ := one_eq_some_iff.mp hcs
  exact h c rest hp

theorem exactly {word : List Char} (h : ∀ rest, R (word ++ rest) rest) :
    Leaves R (exactly word) := by
  intro cs _ rest hcs
  rw [exactly_eq_some_iff.mp hcs]
  exact h rest

theorem peek?_bind {f : Option Char → Reader α}
    (h : ∀ head, Leaves (fun cs rest => cs.head? = head → R cs rest) (f head)) :
    Leaves R (peek? >>= f) := by
  intro cs a rest hcs
  exact h cs.head? cs a rest hcs rfl

theorem orElse (hr : Leaves R r) (hs : Leaves R s) : Leaves R (r <|> s) := by
  intro cs a rest hcs
  rw [orElse_apply] at hcs
  cases h : r cs with
  | none => exact hs cs a rest (by simpa [h] using hcs)
  | some x => exact hr cs a rest (by simpa [h] using hcs)

section Preorder

variable [IsPreorder (List Char) R]

theorem pure (a : α) : Leaves R (pure a : Reader α) := by
  intro cs b rest hcs
  cases hcs
  exact refl_of R cs

theorem bind (hr : Leaves R r) (hf : ∀ a, Leaves R (f a)) : Leaves R (r >>= f) := by
  intro cs b rest hcs
  obtain ⟨a, ds, ha, hb⟩ := bind_eq_some_iff.mp hcs
  exact trans_of R (hr cs a ds ha) (hf a ds b rest hb)

theorem map (hr : Leaves R r) (g : α → β) : Leaves R (g <$> r) := by
  rw [map_eq]
  exact hr.bind fun a => pure (g a)

theorem seqRight {t : Reader β} (hr : Leaves R r) (ht : Leaves R t) : Leaves R (r *> t) :=
  hr.bind fun _ => ht

theorem accept {word : List Char} (h : ∀ rest, R (word ++ rest) rest) : Leaves R (accept word) :=
  ((exactly h).seqRight (pure true)).orElse (pure false)

theorem many (hr : Leaves R r) : Leaves R (many r) := by
  have upTo : ∀ bound, Leaves R (manyUpTo r bound) := by
    intro bound
    induction bound with
    | zero => exact pure []
    | succ bound ih => exact (hr.bind fun a => ih.bind fun as => pure (a :: as)).orElse (pure [])
  exact fun cs => upTo (cs.length + 1) cs

theorem sepBy {separator : Reader Unit} (hr : Leaves R r) (hs : Leaves R (separator *> r)) :
    Leaves R (sepBy r separator) :=
  hr.bind fun a => hs.many.bind fun as => pure (a :: as)

end Preorder

end Leaves

/-! ## Texts that a reader cannot tell apart -/

/-- On two texts that `P` relates the reader refuses both, or it takes the same from both and leaves
texts over that `Q` relates. -/
def Agrees (P Q : List Char → List Char → Prop) (r : Reader α) : Prop :=
  ∀ cs ds, P cs ds → Option.Rel (fun x y => x.1 = y.1 ∧ Q x.2 y.2) (r cs) (r ds)

/-- Items that take at least one character are never cut off by the bound. -/
theorem manyUpTo_eq_many {item : Reader α}
    (h : Leaves (fun cs rest => rest.length < cs.length) item) {bound : Nat} {cs : List Char}
    (hbound : cs.length < bound) : manyUpTo item bound cs = many item cs := by
  have enough : ∀ (m n : Nat) (cs : List Char), cs.length < m → cs.length < n →
      manyUpTo item m cs = manyUpTo item n cs := by
    intro m
    induction m with
    | zero => intro n cs hm; omega
    | succ m ih =>
      intro n cs hm hn
      obtain _ | n := n
      · omega
      cases hcs : item cs with
      | none => simp [manyUpTo, orElse_apply, bind_apply, hcs]
      | some x =>
        have hlt := h cs x.1 x.2 hcs
        simp only [manyUpTo, orElse_apply, bind_apply, hcs, Option.bind_some]
        rw [ih n x.2 (by omega) (by omega)]
  exact enough bound (cs.length + 1) cs hbound (by omega)

namespace Agrees

variable {P Q S : List Char → List Char → Prop} {r s : Reader α} {f : α → Reader β}

theorem mono {P' Q' : List Char → List Char → Prop} (hr : Agrees P Q r)
    (hP : ∀ cs ds, P' cs ds → P cs ds) (hQ : ∀ cs ds, Q cs ds → Q' cs ds) : Agrees P' Q' r := by
  intro cs ds h
  have := hr cs ds (hP cs ds h)
  revert this
  generalize r cs = x, r ds = y
  rintro (⟨ha, hq⟩ | _)
  · exact .some ⟨ha, hQ _ _ hq⟩
  · exact .none

theorem peek?_bind {f : Option Char → Reader α} (hhead : ∀ cs ds, P cs ds → cs.head? = ds.head?)
    (h : ∀ head, Agrees (fun cs ds => P cs ds ∧ cs.head? = head) Q (f head)) :
    Agrees P Q (peek? >>= f) := by
  intro cs ds hP
  change Option.Rel _ (f cs.head? cs) (f ds.head? ds)
  rw [← hhead cs ds hP]
  exact h cs.head? cs ds ⟨hP, rfl⟩

theorem failure : Agrees P Q (failure : Reader α) := fun _ _ _ => .none

theorem pure (a : α) : Agrees P P (pure a : Reader α) := fun _ _ h => .some ⟨rfl, h⟩

theorem bind (hr : Agrees P Q r) (hf : ∀ a, Agrees Q S (f a)) : Agrees P S (r >>= f) := by
  intro cs ds h
  have := hr cs ds h
  rw [bind_apply, bind_apply]
  revert this
  generalize r cs = x, r ds = y
  rintro (⟨ha, hq⟩ | _)
  · rw [Option.bind_some, Option.bind_some, ha]
    exact hf _ _ _ hq
  · exact .none

theorem map (hr : Agrees P Q r) (g : α → β) : Agrees P Q (g <$> r) := by
  rw [map_eq]
  exact hr.bind fun a => pure (g a)

theorem seqRight {t : Reader β} (hr : Agrees P Q r) (ht : Agrees Q S t) : Agrees P S (r *> t) :=
  hr.bind fun _ => ht

theorem seqLeft {t : Reader β} (hr : Agrees P Q r) (ht : Agrees Q S t) : Agrees P S (r <* t) :=
  hr.bind fun a => ht.bind fun _ => pure a

theorem orElse (hr : Agrees P Q r) (hs : Agrees P Q s) : Agrees P Q (r <|> s) := by
  intro cs ds h
  have hrel := hr cs ds h
  rw [orElse_apply, orElse_apply]
  revert hrel
  generalize r cs = x, r ds = y
  rintro (hx | _)
  · exact .some hx
  · exact hs cs ds h

theorem accept {word : List Char} (h : Agrees P P (exactly word)) : Agrees P P (accept word) :=
  (h.seqRight (pure true)).orElse (pure false)

/-- The two texts may differ in length: the bounds do, but neither is reached. -/
theorem many (hr : Agrees P P r) (hlt : Leaves (fun cs rest => rest.length < cs.length) r) :
    Agrees P P (many r) := by
  have upTo : ∀ bound, Agrees P P (manyUpTo r bound) := by
    intro bound
    induction bound with
    | zero => exact pure []
    | succ bound ih => exact (hr.bind fun a => ih.bind fun as => pure (a :: as)).orElse (pure [])
  intro cs ds h
  have hrel := upTo (max cs.length ds.length + 1) cs ds h
  rwa [manyUpTo_eq_many hlt (by omega), manyUpTo_eq_many hlt (by omega)] at hrel

theorem sepBy {separator : Reader Unit} (hr : Agrees P Q r) (hs : Agrees Q Q (separator *> r))
    (hlt : Leaves (fun cs rest => rest.length < cs.length) (separator *> r)) :
    Agrees P Q (sepBy r separator) :=
  hr.bind fun a => (hs.many hlt).bind fun as => pure (a :: as)

end Agrees

end CronWrap.Text.Reader
