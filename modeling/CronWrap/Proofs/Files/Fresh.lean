import CronWrap.Files.Session
import CronWrap.Proofs.Path.Segments
import CronWrap.Text.Reader
import Mathlib.Data.Nat.Digits.Defs
import Mathlib.Data.List.Nodup
import Mathlib.Data.List.Perm.Subperm

/-! A fresh name is fresh. -/
namespace CronWrap.Session

open Text

theorem digitValue_digitChar {d : Nat} (h : d < 16) : digitValue d.digitChar = d := by
  have hall : ∀ d < 16, digitValue (Nat.digitChar d) = d := by decide
  exact hall d h

theorem ofDigits_append (as : List Char) (c : Char) :
    ofDigits 16 (as ++ [c]) = ofDigits 16 as * 16 + digitValue c := by
  simp [ofDigits]

theorem ofDigits_zeros_append (n : Nat) (cs : List Char) :
    ofDigits 16 (List.replicate n '0' ++ cs) = ofDigits 16 cs := by
  induction n with
  | zero => rfl
  | succ n ih =>
    have hzero : (0 : Nat) * 16 + digitValue '0' = 0 := by decide
    rw [← ih, ofDigits, List.replicate_succ, List.cons_append, List.foldl_cons, hzero]
    rfl

theorem ofDigits_toDigits (n : Nat) : ofDigits 16 (Nat.toDigits 16 n) = n := by
  induction n using Nat.strongRecOn with
  | ind n ih =>
    by_cases h : n < 16
    · rw [Nat.toDigits_of_lt_base h]
      simp [ofDigits, digitValue_digitChar h]
    · rw [Nat.toDigits_of_base_le (by omega) (by omega), ofDigits_append, ih _ (by omega),
        digitValue_digitChar (Nat.mod_lt _ (by omega))]
      omega

theorem serial_injective : Function.Injective serial := by
  intro m n h
  have hvalue : ∀ n, ofDigits 16 (serial n).toList = n := by
    intro n
    rw [serial, String.toList_ofList, ofDigits_zeros_append, ofDigits_toDigits]
  rw [← hvalue m, ← hvalue n, h]

theorem serialName_injective (head : String) :
    Function.Injective fun n => head ++ serial n := by
  intro m n h
  have hl := congrArg String.toList h
  simp only [String.toList_append, List.append_cancel_left_eq] at hl
  exact serial_injective (String.toList_inj.mp hl)

theorem freshName_not_mem (head : String) (taken : List String) :
    freshName head taken ∉ taken := by
  unfold freshName
  cases hfind : (List.range taken.length).find? fun n => !taken.contains (head ++ serial n) with
  | some n => simpa using List.find?_some hfind
  | none =>
    intro hlast
    rw [List.find?_eq_none] at hfind
    -- One more name than there are taken ones would be among these.
    have hsub : (List.range (taken.length + 1)).map (fun n => head ++ serial n) ⊆ taken := by
      intro s hs
      obtain ⟨n, hn, rfl⟩ := List.mem_map.mp hs
      rw [List.mem_range] at hn
      by_cases he : n = taken.length
      · rw [he]
        exact hlast
      · have hmem := hfind n (List.mem_range.mpr (by omega))
        simpa using hmem
    have hlength := (List.subperm_of_subset
      (List.nodup_range.map (serialName_injective head)) hsub).length_le
    rw [List.length_map, List.length_range] at hlength
    omega

theorem mem_toDigits {n : Nat} {c : Char} (h : c ∈ Nat.toDigits 16 n) :
    ∃ d, d < 16 ∧ c = d.digitChar := by
  induction n using Nat.strongRecOn with
  | ind n ih =>
    by_cases hn : n < 16
    · rw [Nat.toDigits_of_lt_base hn, List.mem_singleton] at h
      exact ⟨n, hn, h⟩
    · rw [Nat.toDigits_of_base_le (by omega) (by omega), List.mem_append, List.mem_singleton] at h
      rcases h with h | h
      · exact ih _ (by omega) h
      · exact ⟨n % 16, Nat.mod_lt _ (by omega), h⟩

theorem mem_serial {n : Nat} {c : Char} (h : c ∈ (serial n).toList) :
    ∃ d, d < 16 ∧ c = d.digitChar := by
  rw [serial, String.toList_ofList, List.mem_append] at h
  rcases h with h | h
  · exact ⟨0, by omega, List.eq_of_mem_replicate h⟩
  · exact mem_toDigits h

theorem utf8ByteSize_ofList_of_ascii {cs : List Char} (h : ∀ c ∈ cs, c.utf8Size = 1) :
    (String.ofList cs).utf8ByteSize = cs.length := by
  induction cs with
  | nil => rfl
  | cons c cs ih =>
    rw [List.forall_mem_cons] at h
    rw [String.ofList_cons, String.utf8ByteSize_append, String.utf8ByteSize_singleton, h.1, ih h.2,
      List.length_cons]
    omega

theorem utf8ByteSize_serial (n : Nat) : (serial n).utf8ByteSize = (serial n).toList.length := by
  have hsize : ∀ c ∈ (serial n).toList, c.utf8Size = 1 := by
    intro c hc
    obtain ⟨d, hd, rfl⟩ := mem_serial hc
    have hall : ∀ d < 16, (Nat.digitChar d).utf8Size = 1 := by decide
    exact hall d hd
  have h := utf8ByteSize_ofList_of_ascii hsize
  rwa [String.ofList_toList] at h

theorem length_serial (n : Nat) : 8 ≤ (serial n).toList.length := by
  rw [serial, String.toList_ofList, List.length_append, List.length_replicate]
  omega

/-- Numbers of up to so many digits do not make a name longer. -/
theorem length_serial_le {n k : Nat} (hk : 8 ≤ k) (hn : n < 16 ^ k) :
    (serial n).toList.length ≤ k := by
  have hdigits := Nat.toDigits_length 16 n k (by omega) hn
  rw [serial, String.toList_ofList, List.length_append, List.length_replicate]
  omega

/-- A fresh name has the least number that is free. -/
theorem freshName_least (head : String) (taken : List String) :
    ∃ n, freshName head taken = head ++ serial n ∧ ∀ m < n, head ++ serial m ∈ taken := by
  unfold freshName
  cases hfind : (List.range taken.length).find? fun n => !taken.contains (head ++ serial n) with
  | some n =>
    rw [List.find?_range_eq_some] at hfind
    exact ⟨n, rfl, fun m hm => by simpa using hfind.2.2 m hm⟩
  | none =>
    rw [List.find?_eq_none] at hfind
    exact ⟨taken.length, rfl, fun m hm => by simpa using hfind m (List.mem_range.mpr hm)⟩

/-- Only the names that start like the fresh one matter. -/
theorem freshName_congr {head : String} {taken taken' : List String}
    (h : ∀ n, head ++ serial n ∈ taken ↔ head ++ serial n ∈ taken') :
    freshName head taken = freshName head taken' := by
  obtain ⟨n, hn, hleast⟩ := freshName_least head taken
  obtain ⟨n', hn', hleast'⟩ := freshName_least head taken'
  have hfree : head ++ serial n ∉ taken := hn ▸ freshName_not_mem head taken
  have hfree' : head ++ serial n' ∉ taken' := hn' ▸ freshName_not_mem head taken'
  have heq : n = n' := by
    rcases Nat.lt_trichotomy n n' with hlt | heq | hlt
    · exact absurd ((h n).mpr (hleast' n hlt)) hfree
    · exact heq
    · exact absurd ((h n').mp (hleast n' hlt)) hfree'
  rw [hn, hn', heq]

/-- The number of a fresh name is at most that of the names that start like it. -/
theorem freshName_bound (head : String) (taken : List String) :
    ∃ n, freshName head taken = head ++ serial n ∧
      n ≤ taken.countP fun s => head.toList.isPrefixOf s.toList := by
  obtain ⟨n, hn, hleast⟩ := freshName_least head taken
  refine ⟨n, hn, ?_⟩
  have hsub : (List.range n).map (fun m => head ++ serial m) ⊆
      taken.filter fun s => head.toList.isPrefixOf s.toList := by
    intro s hs
    obtain ⟨m, hm, rfl⟩ := List.mem_map.mp hs
    refine List.mem_filter.mpr ⟨hleast m (List.mem_range.mp hm), ?_⟩
    rw [List.isPrefixOf_iff_prefix, String.toList_append]
    exact List.prefix_append _ _
  have hlength := (List.subperm_of_subset
    (List.nodup_range.map (serialName_injective head)) hsub).length_le
  rwa [List.length_map, List.length_range, ← List.countP_eq_length_filter] at hlength

theorem exists_freshName (head : String) (taken : List String) :
    ∃ n, freshName head taken = head ++ serial n := ⟨_, rfl⟩

theorem isSegment_freshName {head : String} (h : '/' ∉ head.toList) (taken : List String) :
    Path.IsSegment (freshName head taken) := by
  obtain ⟨n, hn⟩ := exists_freshName head taken
  have hlength := length_serial n
  have hlong : 8 ≤ (freshName head taken).toList.length := by
    rw [hn, String.toList_append, List.length_append]
    omega
  refine ⟨fun he => ?_, fun he => ?_, fun hc => ?_⟩
  · simp [he] at hlong
  · simp [he] at hlong
  · rw [hn, String.toList_append, List.mem_append] at hc
    rcases hc with hc | hc
    · exact h hc
    · obtain ⟨d, hd, he⟩ := mem_serial hc
      have hall : ∀ d < 16, '/' ≠ Nat.digitChar d := by decide
      exact hall d hd he

theorem freshName_ne_of_length {head s : String} (h : s.toList.length < head.toList.length + 8)
    (taken : List String) : freshName head taken ≠ s := by
  obtain ⟨n, hn⟩ := exists_freshName head taken
  have hlength := length_serial n
  rintro rfl
  rw [hn, String.toList_append, List.length_append] at h
  omega

/-- A fresh name starts as it should. -/
theorem prefix_freshName (head : String) (taken : List String) :
    head.toList <+: (freshName head taken).toList := by
  rw [freshName, String.toList_append]
  exact List.prefix_append _ _

end CronWrap.Session
