import CronWrap.Proofs.Text.Reader
import CronWrap.Toml.Document

/-! What the readers of TOML leave over is the end of the text that they were given. -/
namespace CronWrap.Toml

open Text Text.Reader

/-- What is left over is the end of the text. -/
def IsRest (cs rest : List Char) : Prop := rest <:+ cs

instance : IsPreorder (List Char) IsRest where
  refl := List.suffix_refl
  trans _ _ _ h h' := h'.trans h

/-- The reader takes what it reads off the front of the text. -/
class Takes {α : Type} (r : Reader α) : Prop where
  leaves : Leaves IsRest r

namespace Takes

variable {α β : Type} {r : Reader α} {s : Reader β}

theorem bind [hr : Takes r] {f : α → Reader β} (hf : ∀ a, Takes (f a)) : Takes (r >>= f) :=
  ⟨hr.leaves.bind fun a => (hf a).leaves⟩

instance {f : α → Reader β} [Takes r] [hf : ∀ a, Takes (f a)] : Takes (r >>= f) := bind hf

instance {a : α} : Takes (pure a : Reader α) := ⟨Leaves.pure a⟩

instance : Takes (failure : Reader α) := ⟨Leaves.failure⟩

instance {r' : Reader α} [hr : Takes r] [hr' : Takes r'] : Takes (r <|> r') :=
  ⟨hr.leaves.orElse hr'.leaves⟩

instance {f : α → β} [hr : Takes r] : Takes (f <$> r) := ⟨hr.leaves.map f⟩

instance [hr : Takes r] : Takes (discard r) := ⟨hr.leaves.map fun _ => ()⟩

instance [hr : Takes r] [hs : Takes s] : Takes (r *> s) := ⟨hr.leaves.seqRight hs.leaves⟩

instance [Takes r] [Takes s] : Takes (r <* s) :=
  inferInstanceAs (Takes (r >>= fun a => s >>= fun _ => pure a))

instance {c : Prop} [Decidable c] {r' : Reader α} [hr : Takes r] [hr' : Takes r'] :
    Takes (if c then r else r') := by
  split
  · exact hr
  · exact hr'

instance {c : Prop} [Decidable c] : Takes (guard c : Reader Unit) :=
  inferInstanceAs (Takes (if c then pure () else failure))

instance {p : Char → Bool} : Takes (one p) := ⟨Leaves.one fun c rest _ => List.suffix_cons c rest⟩

instance {c : Char} : Takes (char c) := inferInstanceAs (Takes (discard (one _)))

instance {word : List Char} : Takes (exactly word) :=
  ⟨Leaves.exactly fun rest => List.suffix_append word rest⟩

instance {word : List Char} : Takes (accept word) :=
  inferInstanceAs (Takes (exactly word *> pure true <|> pure false))

instance {p : Char → Bool} : Takes (takeWhile p) := by
  refine ⟨fun cs run rest h => ?_⟩
  cases h
  exact List.dropWhile_suffix p

instance {p : Char → Bool} : Takes (takeWhile1 p) := by
  unfold takeWhile1
  infer_instance

instance {p : Char → Bool} : Takes (skipWhile p) := by
  refine ⟨fun cs _ rest h => ?_⟩
  cases h
  exact List.dropWhile_suffix p

instance : Takes peek? := by
  refine ⟨fun cs head rest h => ?_⟩
  cases h
  exact List.suffix_refl cs

instance : Takes atEnd := by
  refine ⟨fun cs b rest h => ?_⟩
  cases h
  exact List.suffix_refl cs

instance [hr : Takes r] : Takes (many r) := ⟨hr.leaves.many⟩

instance {separator : Reader Unit} [hr : Takes r] [hs : Takes separator] :
    Takes (sepBy r separator) :=
  ⟨hr.leaves.sepBy (hs.leaves.seqRight hr.leaves)⟩

instance {f : β → Reader α} [h : ∀ b, Takes (f b)] {l : List β} : Takes (l.mapM f) := by
  induction l with
  | nil =>
    rw [List.mapM_nil]
    infer_instance
  | cons b l ih =>
    rw [List.mapM_cons]
    infer_instance

instance {r : Reader Unit} : Takes (not r) := by
  refine ⟨fun cs _ rest h => ?_⟩
  unfold not at h
  split at h
  · cases h
  · cases h
    exact List.suffix_refl cs

/-! ## Literals -/

instance : Takes skipGap := inferInstanceAs (Takes (skipWhile isGap))

instance : Takes comment := by
  unfold comment
  infer_instance

instance {digits : Nat} : Takes (codePoint digits) := by
  unfold codePoint
  infer_instance

instance : Takes escaped := by
  refine bind fun c => ?_
  split <;> infer_instance

instance : Takes lineJoin := by
  unfold lineJoin
  infer_instance

instance : Takes basicString := by
  unfold basicString
  infer_instance

instance : Takes literalString := by
  unfold literalString
  infer_instance

instance {q : Char} : Takes (tripled q) := inferInstanceAs (Takes (exactly _))

instance {q : Char} {piece : Reader (List Char)} [Takes piece] :
    Takes (multilineString q piece) := by
  unfold multilineString
  infer_instance

instance : Takes multilineBasicPiece := by
  unfold multilineBasicPiece
  infer_instance

instance : Takes string := by
  refine bind fun head => ?_
  split <;> infer_instance

instance {p : Char → Bool} : Takes (digits p) := by
  unfold digits
  infer_instance

instance : Takes basedInteger := by
  have hbase : Takes (do
      match ← one fun _ => true with
      | 'x' => return (16, isHexDigit)
      | 'o' => return (8, fun c => '0' ≤ c && c ≤ '7')
      | 'b' => return (2, fun c => c = '0' || c = '1')
      | _ => failure : Reader (Nat × (Char → Bool))) := by
    refine bind fun c => ?_
    split <;> infer_instance
  exact bind fun _ => @bind _ _ _ hbase _ fun _ => inferInstance

instance : Takes sign := by
  unfold sign
  infer_instance

instance : Takes fraction := by
  unfold fraction
  infer_instance

instance : Takes exponent := by
  unfold exponent
  infer_instance

instance : Takes wholePart := by
  unfold wholePart
  infer_instance

instance : Takes specialFloat := by
  unfold specialFloat
  infer_instance

instance {count low high : Nat} : Takes (fixedNumber count low high) := by
  unfold fixedNumber
  infer_instance

instance : Takes timeOfDay :=
  bind fun _ => bind fun _ => bind fun _ => inferInstance

instance : Takes timeOffset := by
  unfold timeOffset
  infer_instance

instance : Takes date :=
  bind fun _ => bind fun _ => bind fun _ => bind fun _ => bind fun _ => inferInstance

instance : Takes moment := by
  unfold moment
  infer_instance

/-! ## Keys and lines -/

instance : Takes keyPart := by
  refine bind fun head => ?_
  split <;> infer_instance

instance : Takes key := by
  unfold key
  infer_instance

instance : Takes skipArrayGap := by
  unfold skipArrayGap
  infer_instance

instance : Takes lineEnd := by
  unfold lineEnd
  infer_instance

end Takes

end CronWrap.Toml
