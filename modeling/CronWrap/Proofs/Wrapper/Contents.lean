import CronWrap.Proofs.Text.Utf8
import CronWrap.Proofs.Wrapper.Place
import CronWrap.Proofs.Wrapper.PlanShape
import CronWrap.Proofs.Wrapper.Replace
import CronWrap.Wrapper.Generate

/-! The tree that a generation writes. -/
namespace CronWrap

open FileTree Session Workspace

def FileTree.ofText (s : String) : FileTree := .file (Text.encodeUtf8 s.toList)

theorem FileTree.ofText_inj {s s' : String} : ofText s = ofText s' ↔ s = s' := by
  rw [ofText, ofText, file.injEq, Text.encodeUtf8_inj, String.toList_inj]

namespace Wrapper

/-- The directory of a wrapper with its module. -/
def entry (settings : Settings) (w : Wrapper) : String × FileTree :=
  (w.directory, .dir [(Layout.moduleFile Layout.schedulerModule, .ofText (w.schedulerText settings))])

/-- The module of the wrapper is where its function's is looked for, and that is one step down. -/
structure IsPlaced (w : Wrapper) : Prop where
  directory_eq : w.directory = Layout.triggerDir w.functionName
  name_eq : w.modulePath.name = Layout.moduleFile Layout.schedulerModule
  no_slash : '/' ∉ w.functionName.toList

theorem isPlaced_ofSite (container : Path) (table : AliasTable) {c : CallSite}
    (h : '/' ∉ c.functionName.toList) : (ofSite container table c).IsPlaced where
  directory_eq := rfl
  name_eq := by rw [modulePath_ofSite, Staging.name_entry]
  no_slash := h

theorem IsPlaced.toList_directory {w : Wrapper} (h : w.IsPlaced) :
    w.directory.toList = "trigger-".toList ++ w.functionName.toList := by
  rw [h.directory_eq, Layout.triggerDir, String.toList_append, Layout.triggerPrefix]

theorem IsPlaced.isSegment {w : Wrapper} (h : w.IsPlaced) : Path.IsSegment w.directory := by
  rw [h.directory_eq]
  exact Layout.isSegment_triggerDir h.no_slash

/-- The paths that are written for a wrapper, in the tree under a name. -/
theorem IsPlaced.div_directory {w : Wrapper} (h : w.IsPlaced) (anchor : Anchor) (dir : List String)
    (x : String) :
    Path.mk anchor (dir ++ [x]) / w.directory = ⟨anchor, dir ++ x :: [w.directory]⟩ := by
  rw [Path.div_of_isSegment _ h.isSegment, List.append_assoc]
  rfl

theorem IsPlaced.div_module {w : Wrapper} (h : w.IsPlaced) (anchor : Anchor) (dir : List String)
    (x : String) :
    Path.mk anchor (dir ++ x :: [w.directory]) / w.modulePath.name =
      ⟨anchor, dir ++ x :: [w.directory, Layout.moduleFile Layout.schedulerModule]⟩ := by
  rw [h.name_eq, Path.div_of_isSegment _ (by decide), List.append_assoc]
  rfl

theorem IsPlaced.ne {w : Wrapper} (h : w.IsPlaced) {s : String}
    (hs : ¬ "trigger-".toList <+: s.toList) : w.directory ≠ s := by
  rintro rfl
  rw [h.toList_directory] at hs
  exact hs (List.prefix_append _ _)

end Wrapper

namespace Generation

/-- All that belongs to the wrappers. -/
def contents (settings : Settings) (ws : List Wrapper) : FileTree :=
  .dir ((Layout.gitignoreFile, .ofText Layout.gitignoreContent) :: ws.map (Wrapper.entry settings) ++
    [(Layout.manifestFile, .ofText (Manifest.ofWrappers ws).text),
      (Layout.moduleFile Layout.discoveryModule, .ofText (Wrapper.discoveryText ws))])

theorem set_last {ds : List (String × FileTree)} {name : String} (h : ds.lookup name = none)
    (new : FileTree) : (FileTree.dir ds).set new [name] = .dir (ds ++ [(name, new)]) := by
  rw [set_cons, entries_dir, setField_of_lookup_eq_none h]
  rfl

theorem set_entry {ds : List (String × FileTree)} {w : Wrapper} (h : ds.lookup w.directory = none)
    (settings : Settings) :
    ((FileTree.dir ds).set .empty [w.directory]).set (.ofText (w.schedulerText settings))
      [w.directory, Layout.moduleFile Layout.schedulerModule] = .dir (ds ++ [w.entry settings]) := by
  rw [set_cons, set_cons, entries_dir, entries_dir, setField_setField,
    setField_of_lookup_eq_none h, lookup_setField, if_pos rfl]
  rfl

/-- There is a directory without links under a name, with these entries so far. -/
def Progress (b : FileTree) (p : Place) (es : List (String × FileTree)) (x : String)
    (ds : List (String × FileTree)) (s : SessionState) : Prop :=
  NoLinks (.dir ds) ∧ Holds (b.withEntries p (setField es x (.dir ds))) 0 s

/-- There is something under a name, and elsewhere nothing has changed. -/
def Begun (b : FileTree) (p : Place) (es : List (String × FileTree)) (x : String)
    (s : SessionState) : Prop :=
  ∃ d, Holds (b.withEntries p (setField es x d)) 0 s

section Contents

variable {b : FileTree} {p : Place} {es ds : List (String × FileTree)} {anchor : Anchor}
  {dir : List String} {x name : String} (hreach : Reaches (b.withEntries p es) dir p)
  (hx : es.lookup x = none) (hup : x ≠ "..")

include hreach hx hup

theorem triple_writeText (hname : Path.IsSegment name) (hne : name ≠ "..")
    (hnew : ds.lookup name = none) (text : String) :
    Triple (Progress b p es x ds) (writeText (Path.mk anchor (dir ++ [x]) / name) text.toList)
      (fun _ => Progress b p es x (ds ++ [(name, .ofText text)])) (Begun b p es x) := by
  refine triple_of_forall fun hd => ?_
  have hpath : Path.mk anchor (dir ++ [x]) / name = ⟨anchor, dir ++ x :: [name]⟩ := by
    rw [Path.div_of_isSegment _ hname, List.append_assoc]
    rfl
  have hlinks := hd.set (noLinks_file (Text.encodeUtf8 text.toList)) [name]
  rw [hpath]
  refine (triple_write_inside hreach hx hd (by simp [Ne.symm hup, Ne.symm hne]) _).weaken
    (fun _ h => h) (fun _ s hs => ?_) fun s hs => ⟨_, hs⟩
  rw [Progress, ← set_last hnew]
  exact ⟨hlinks, hs⟩

theorem triple_writeWrapper {settings : Settings} {w : Wrapper} (hw : w.IsPlaced) :
    Triple (Progress b p es x ds) (writeWrapper settings ⟨anchor, dir ++ [x]⟩ w)
      (fun _ => Progress b p es x (ds ++ [w.entry settings])) (Begun b p es x) := by
  refine triple_of_forall fun hd => ?_
  have hne : w.directory ≠ ".." := hw.ne (by decide)
  simp only [writeWrapper, hw.div_directory, hw.div_module]
  have hparents : ".." ∉ x :: [w.directory] := by simp [Ne.symm hup, Ne.symm hne]
  have hdeep : ".." ∉ x :: [w.directory, Layout.moduleFile Layout.schedulerModule] := by
    have hmodule : ".." ≠ Layout.moduleFile Layout.schedulerModule := by decide
    simp [Ne.symm hup, Ne.symm hne, hmodule]
  refine ((triple_makeDir_inside hreach hx hd hparents).weaken (fun _ h => h) (fun _ _ h => h)
    fun s hs => ⟨_, hs⟩).bind fun _ => triple_of_forall fun hnew => ?_
  have hd' := hd.set noLinks_empty [w.directory]
  have hlookup : ds.lookup w.directory = none := by
    rw [get?_cons, entries_dir] at hnew
    cases hl : ds.lookup w.directory with
    | none => rfl
    | some u => simp [hl] at hnew
  have hlinks := hd'.set (noLinks_file (Text.encodeUtf8 (w.schedulerText settings).toList))
    [w.directory, Layout.moduleFile Layout.schedulerModule]
  refine (triple_write_inside hreach hx hd' hdeep _).weaken (fun _ h => h) (fun _ s hs => ?_)
    fun s hs => ⟨_, hs⟩
  rw [Progress, ← set_entry hlookup]
  exact ⟨hlinks, hs⟩

theorem triple_writeWrappers {settings : Settings} {ws : List Wrapper}
    (hws : ∀ w ∈ ws, w.IsPlaced) :
    Triple (Progress b p es x ds) (ws.forM (writeWrapper settings ⟨anchor, dir ++ [x]⟩))
      (fun _ => Progress b p es x (ds ++ ws.map (Wrapper.entry settings))) (Begun b p es x) := by
  induction ws generalizing ds with
  | nil =>
    rw [List.map_nil, List.append_nil]
    exact triple_pure _ fun _ h => h
  | cons w ws ih =>
    have happ : ds ++ (w :: ws).map (Wrapper.entry settings) =
        ds ++ [w.entry settings] ++ ws.map (Wrapper.entry settings) := by simp
    rw [happ]
    exact (triple_writeWrapper hreach hx hup (hws w List.mem_cons_self)).bind fun _ =>
      ih fun v hv => hws v (List.mem_cons_of_mem _ hv)

end Contents

/-- Of what is written first nothing has a name that is not the start's nor a wrapper's. -/
theorem lookup_start (settings : Settings) {ws : List Wrapper} (hws : ∀ w ∈ ws, w.IsPlaced)
    (name : String) (htrigger : ¬ "trigger-".toList <+: name.toList)
    (hne : name ≠ Layout.gitignoreFile) :
    List.lookup name ((Layout.gitignoreFile, FileTree.ofText Layout.gitignoreContent) ::
      ws.map (Wrapper.entry settings)) = none := by
  rw [List.lookup_eq_none_iff]
  intro e he
  rcases List.mem_cons.mp he with rfl | he
  · simpa using hne
  · obtain ⟨w, hw, rfl⟩ := List.mem_map.mp he
    rw [bne_iff_ne]
    exact ((hws w hw).ne htrigger).symm

/-- Writing makes the whole tree, or fails with a part of it. -/
theorem builds_writeTree {settings : Settings} {ws : List Wrapper} (hws : ∀ w ∈ ws, w.IsPlaced) :
    Staging.Builds (writeTree settings ws) (contents settings ws) := by
  intro b p es anchor dir x hreach hx hup
  have hother := lookup_start settings hws
  unfold writeTree
  have hstart : ∀ s, Holds (b.withEntries p (setField es x .empty)) 0 s → Progress b p es x [] s :=
    fun s hs => ⟨noLinks_empty, hs⟩
  refine ((triple_writeText hreach hx hup (by decide) (by decide) rfl _).weaken hstart
    (fun _ _ h => h) fun _ h => h).bind fun _ => ?_
  refine (triple_writeWrappers hreach hx hup hws).bind fun _ => ?_
  refine (triple_writeText hreach hx hup (by decide) (by decide)
    (hother _ (by decide) (by decide)) _).bind fun _ => ?_
  refine (triple_writeText hreach hx hup (by decide) (by decide) ?_ _).weaken (fun _ h => h) ?_
    fun _ h => h
  · rw [List.lookup_append, hother _ (by decide) (by decide)]
    rfl
  · rintro _ s ⟨-, hs⟩
    rw [List.append_assoc] at hs
    exact hs

end Generation

end CronWrap
