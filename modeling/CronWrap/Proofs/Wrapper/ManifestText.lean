import CronWrap.Proofs.Files.Proper
import CronWrap.Proofs.Json.Written
import CronWrap.Proofs.Text.Utf8
import CronWrap.Wrapper.Generate
import Mathlib.Data.List.Induction

/-! A manifest is read back from its text. -/
namespace CronWrap

open Text Text.Reader

/-! ## The last of each key -/

theorem collectFields_concat {α : Type} (fields : List (String × α)) (f : String × α) :
    collectFields (fields ++ [f]) = setField (collectFields fields) f.1 f.2 := by
  rw [collectFields, List.foldl_append]
  rfl

theorem lookup_collectFields {α : Type} (fields : List (String × α)) (key : String) :
    (collectFields fields).lookup key = fields.reverse.lookup key := by
  induction fields using List.reverseRecOn with
  | nil => rfl
  | append_singleton fields f ih =>
    rw [collectFields_concat, lookup_setField, List.reverse_concat, List.lookup_cons, ih]
    by_cases h : key = f.1
    · simp [h]
    · simp [beq_eq_false_iff_ne.2 h, h]

theorem nodup_collectFields {α : Type} (fields : List (String × α)) :
    ((collectFields fields).map (·.1)).Nodup := by
  induction fields using List.reverseRecOn with
  | nil => exact List.nodup_nil
  | append_singleton fields f ih =>
    rw [collectFields_concat]
    exact nodup_setField ih _ _

theorem collectFields_of_nodup {α : Type} {fields : List (String × α)}
    (h : (fields.map (·.1)).Nodup) : collectFields fields = fields := by
  induction fields using List.reverseRecOn with
  | nil => rfl
  | append_singleton fields f ih =>
    rw [List.map_append, List.nodup_append] at h
    have hnew : fields.lookup f.1 = none := by
      rw [List.lookup_eq_none_iff]
      intro g hg
      rw [bne_iff_ne]
      exact (h.2.2 g.1 (List.mem_map_of_mem hg) f.1 (by simp)).symm
    rw [collectFields_concat, ih h.1, setField_of_lookup_eq_none hnew]

namespace Manifest

/-! ## Its text -/

/-- A field of an entry, or an entry: its key, and the text of its value. -/
def fieldText (key : String) (value : List Char) : List Char :=
  (quote key).toList ++ (':' :: [' '] ++ value)

/-- An object over several lines, with its fields indented. -/
def objectText {γ : Type} (indent close : List Char) (texts : γ → List Char) (c : γ) (cs : List γ) :
    List Char :=
  ['\x7b'] ++ (('\n' :: indent) ++ texts c ++ (cs.flatMap fun d => ',' :: ('\n' :: indent) ++ texts d) ++
    ('\n' :: close) ++ ['\x7d'])

/-- The two fields of an entry. -/
def entryChars (e : ManifestEntry) : List Char :=
  objectText "    ".toList "  ".toList
    (fun f : String × String => fieldText f.1 (quote f.2).toList) ("containerDir", e.directory)
    [("wrapperName", e.wrapperName)]

theorem toList_entryText (function : String) (e : ManifestEntry) :
    (entryText function e).toList = "  ".toList ++ fieldText function (entryChars e) := by
  have htoString : ∀ s : String, toString s = s := fun _ => rfl
  have hdirectory : (quote "containerDir").toList = "\"containerDir\"".toList := by decide
  have hname : (quote "wrapperName").toList = "\"wrapperName\"".toList := by decide
  simp only [entryText, entryChars, objectText, fieldText, htoString, String.toList_append,
    hdirectory, hname, List.flatMap_cons, List.flatMap_nil, List.append_assoc]
  rfl

theorem text_of_sorted_cons {m : Manifest} {f : String × ManifestEntry} {fs : Manifest}
    (h : m.sorted = f :: fs) :
    m.text.toList = objectText "  ".toList [] (fun f => fieldText f.1 (entryChars f.2)) f fs ++
      ['\n'] := by
  have hne : m.isEmpty = false := by
    cases m with
    | nil => simp [sorted] at h
    | cons => rfl
  have hlist : ∀ (l : List Char) (ls : List (List Char)), ",\n".toList.intercalate (l :: ls) =
      l ++ ls.flatMap fun d => ",\n".toList ++ d := by
    intro l ls
    induction ls generalizing l with
    | nil => simp
    | cons l' ls ih =>
      rw [List.intercalate_cons_cons, ih, List.flatMap_cons]
      simp only [List.append_assoc]
  rw [text, hne, h]
  simp only [Bool.false_eq_true, if_false, String.toList_append, String.toList_intercalate,
    List.map_cons, List.map_map, hlist, List.flatMap_map, Function.comp_def, toList_entryText]
  simp only [objectText, List.append_assoc]
  rfl

/-! ## What is read -/

/-- The value that an entry is written as. -/
def entryValue (e : ManifestEntry) : Value :=
  .record [("containerDir", .text e.directory), ("wrapperName", .text e.wrapperName)]

theorem isSolid_fieldText (key : String) (value : List Char) : Json.IsSolid (fieldText key value) := by
  obtain ⟨c, cs, hkey, hc⟩ := Json.isSolid_quote key
  exact ⟨c, cs ++ (':' :: [' '] ++ value), by rw [fieldText, hkey]; rfl, hc⟩

/-- A field as it is written, with one blank behind its colon. -/
theorem takes_fieldText {depth : Nat} {v : Value} {text : List Char}
    (h : Takes (Json.value depth) text v) (hsolid : Json.IsSolid text) (key : String) :
    Takes (Json.field depth) (fieldText key text) (key, v) := by
  have hgap : ∀ c ∈ [' '], Json.isSpace c := List.all_eq_true.mp rfl
  exact Json.takes_field h hsolid hgap key

theorem isSolid_entryChars (e : ManifestEntry) : Json.IsSolid (entryChars e) := ⟨'\x7b', _, rfl, rfl⟩

theorem takes_entryChars (depth : Nat) (e : ManifestEntry) :
    Takes (Json.value (depth + 1)) (entryChars e) (entryValue e) := by
  have hfields : collectFields [("containerDir", Value.text e.directory),
      ("wrapperName", .text e.wrapperName)] =
        [("containerDir", .text e.directory), ("wrapperName", .text e.wrapperName)] :=
    collectFields_of_nodup (by simp)
  have hgap : ∀ c ∈ '\n' :: "    ".toList, Json.isSpace c := List.all_eq_true.mp rfl
  have hgap' : ∀ c ∈ '\n' :: "  ".toList, Json.isSpace c := List.all_eq_true.mp rfl
  have hfield : ∀ f : String × String,
      Takes (Json.field depth) (fieldText f.1 (quote f.2).toList) (f.1, .text f.2) :=
    fun f => takes_fieldText (Json.takes_text depth f.2) (Json.isSolid_quote f.2) f.1
  have h := Json.takes_record hgap hgap' hfield (fun f => isSolid_fieldText f.1 _)
    ("containerDir", e.directory) [("wrapperName", e.wrapperName)]
  rw [List.map_singleton, hfields] at h
  exact h

theorem ofValue?_record (m : Manifest) :
    ofValue? (.record (m.map fun f => (f.1, entryValue f.2))) = some m := by
  rw [ofValue?]
  induction m with
  | nil => rfl
  | cons f fs ih =>
    rw [List.map_cons, List.mapM_cons, ih]
    rfl

theorem sorted_perm (m : Manifest) : m.sorted.Perm m := List.mergeSort_perm m _

theorem nodup_sorted {m : Manifest} (h : (m.map (·.1)).Nodup) : (m.sorted.map (·.1)).Nodup :=
  ((sorted_perm m).map _).nodup_iff.mpr h

theorem lookup_sorted {m : Manifest} (h : (m.map (·.1)).Nodup) (key : String) :
    m.sorted.lookup key = m.lookup key := by
  ext e
  rw [← mem_iff_lookup_of_nodup (nodup_sorted h), ← mem_iff_lookup_of_nodup h,
    (sorted_perm m).mem_iff]

theorem parse?_text {m : Manifest} (h : (m.map (·.1)).Nodup) :
    Json.parse? m.text.toList = some (.record (m.sorted.map fun f => (f.1, entryValue f.2))) := by
  cases hsorted : m.sorted with
  | nil =>
    obtain rfl : m = [] := (hsorted ▸ sorted_perm m).nil_eq.symm
    rw [Json.parse?, all, Json.token_apply, Json.maxDepth, Json.value.eq_def]
    rfl
  | cons f fs =>
    have hkeys : ((f.1, entryValue f.2) :: fs.map fun f => (f.1, entryValue f.2)).map (·.1) =
        m.sorted.map (·.1) := by simp [hsorted, Function.comp_def]
    have hgap : ∀ c ∈ '\n' :: "  ".toList, Json.isSpace c := List.all_eq_true.mp rfl
    have hgap' : ∀ c ∈ ['\n'], Json.isSpace c := List.all_eq_true.mp rfl
    have hfield : ∀ f : String × ManifestEntry,
        Takes (Json.field 1023) (fieldText f.1 (entryChars f.2)) (f.1, entryValue f.2) :=
      fun f => takes_fieldText (takes_entryChars 1022 f.2) (isSolid_entryChars f.2) f.1
    have hread := Json.takes_record hgap hgap' hfield (fun f => isSolid_fieldText f.1 _) f fs
    rw [collectFields_of_nodup (hkeys ▸ nodup_sorted h)] at hread
    have hnone : ∀ c ∈ ([] : List Char), Json.isSpace c := by simp
    have htoken : Json.token (Json.value Json.maxDepth) (objectText "  ".toList []
        (fun f => fieldText f.1 (entryChars f.2)) f fs ++ ['\n']) =
          some (.record ((f.1, entryValue f.2) :: fs.map fun f => (f.1, entryValue f.2)), []) :=
      Json.token_eq_some hread ⟨'\x7b', _, rfl, rfl⟩ hnone ['\n']
    rw [text_of_sorted_cons hsorted, Json.parse?, all, htoken]
    rfl

/-- A manifest is read back as it was written, in the order of its names. -/
theorem ofBytes?_text {m : Manifest} (h : (m.map (·.1)).Nodup) :
    ofBytes? (encodeUtf8 m.text.toList) = some m.sorted := by
  rw [ofBytes?, decodeUtf8_encodeUtf8]
  change (Json.parse? m.text.toList).bind ofValue? = _
  rw [parse?_text h]
  exact ofValue?_record m.sorted

end Manifest

end CronWrap
