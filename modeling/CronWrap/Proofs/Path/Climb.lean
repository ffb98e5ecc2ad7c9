import CronWrap.Proofs.Path.Specifier

/-! A relative specifier leads back to its target, and goes up only at its start. -/
namespace CronWrap.Path

/-- The way goes up to where the paths part and then down the rest of the target. -/
theorem exists_steps (target base : List String) :
    ∃ n down, steps target base = List.replicate n ".." ++ down ∧ down <:+ target := by
  fun_induction steps target base with
  | case1 target d base ih =>
    obtain ⟨n, down, hsteps, hdown⟩ := ih
    exact ⟨n, down, hsteps, hdown.trans (List.suffix_cons d target)⟩
  | case2 t target d base hne =>
    refine ⟨base.length + 1, t :: target, ?_, List.suffix_rfl⟩
    simp [List.replicate_succ, List.map_const']
  | case3 target base hne =>
    refine ⟨base.length, target, ?_, List.suffix_rfl⟩
    simp [List.map_const']

/-! ## The names in a specifier -/

/-- What stands between the slashes of a specifier, dots and empty names included. -/
def namesIn (s : String) : List String := (s.toList.splitOn '/').map String.ofList

/-- The `..` of a specifier all stand at its start. -/
def ClimbsFirst (s : String) : Prop :=
  ∃ n down, namesIn s = List.replicate n ".." ++ down ∧ ".." ∉ down

theorem namesIn_intercalate {s : String} {rest : List String} (h : ∀ t ∈ s :: rest, IsSegment t) :
    namesIn (String.intercalate "/" (s :: rest)) = s :: rest := by
  have hslash : ∀ cs ∈ (s :: rest).map String.toList, '/' ∉ cs := by
    intro cs hcs
    obtain ⟨t, ht, rfl⟩ := List.mem_map.mp hcs
    exact (h t ht).no_slash
  have hsep : "/".toList = ['/'] := rfl
  rw [namesIn, String.toList_intercalate, hsep,
    List.splitOn_intercalate '/' hslash (List.cons_ne_nil _ _), List.map_map]
  simp

theorem namesIn_dot_slash (s : String) : namesIn ("./" ++ s) = "." :: namesIn s := by
  have hdot : ['.'].splitOn '/' = [['.']] := List.splitOn_eq_singleton (by decide)
  have hsplit : ('.' :: '/' :: s.toList).splitOn '/' = ['.'] :: s.toList.splitOn '/' := by
    rw [← List.singleton_append, List.splitOn_append_cons_self, hdot, List.singleton_append]
  rw [namesIn, toList_dot_slash, hsplit, List.map_cons]
  rfl

/-- A way that goes up needs no `./` in front. -/
theorem isRelativeSpecifier_of_parent (rest : List String) :
    isRelativeSpecifier (String.intercalate "/" (".." :: rest)) := by
  cases rest with
  | nil => decide
  | cons t rest => simp [isRelativeSpecifier, List.isPrefixOf]

theorem climbsFirst_relativeSpecifier {target base : Path} (ht : target.IsPlain)
    (hb : base.IsPlain) : ClimbsFirst (relativeSpecifier target base) := by
  have hsegment := fun s => isSegment_of_mem_way ht base (s := s)
  obtain ⟨n, down, hway, hdown⟩ := exists_steps target.normalize.segments base.normalize.segments
  have hnone : ".." ∉ down := fun h => no_parent_normalize ht.isAbsolute (hdown.subset h)
  rw [relativeSpecifier, relative_of_root ht.anchor_eq hb.anchor_eq]
  generalize steps target.normalize.segments base.normalize.segments = way at hsegment hway
  cases way with
  | nil => exact ⟨0, ["."], by decide, by decide⟩
  | cons s rest =>
    have hnames := namesIn_intercalate fun t h => (hsegment t h).1
    simp only [posix_of_here fun t h => (hsegment t h).2]
    split
    case isTrue => exact ⟨n, down, by rw [hnames, hway], hnone⟩
    case isFalse hrelative =>
      -- Only a way that does not go up is written behind `./`.
      cases n with
      | zero =>
        refine ⟨0, "." :: down, ?_, by simp [hnone]⟩
        rw [namesIn_dot_slash, hnames, hway]
        rfl
      | succ n =>
        obtain ⟨rfl, -⟩ := List.cons.inj (hway.trans (by rw [List.replicate_succ]; rfl))
        exact absurd (isRelativeSpecifier_of_parent rest) hrelative

/-! ## There and back -/

/-- The specifier that is written for a target is relative, leads to the target from the directory
it was written for, and goes up only at its start. This holds for any two texts of paths below `/`,
with the dots and the repeated slashes that may be in them. -/
theorem relativeSpecifier_leads_back {target directory : String}
    (ht : anchorOf target.toList = .root) (hts : '\\' ∉ target.toList)
    (hd : anchorOf directory.toList = .root) (hds : '\\' ∉ directory.toList) :
    let r := relativeSpecifier (parse target) (parse directory)
    isRelativeSpecifier r ∧ (parse directory / r).normalize = (parse target).normalize ∧
      ClimbsFirst r := by
  have htarget := isPlain_parse ht hts
  have hdirectory := isPlain_parse hd hds
  refine ⟨isRelativeSpecifier_relativeSpecifier _ _, ?_, ?_⟩
  · exact normalize_div_relativeSpecifier htarget hdirectory
  · exact climbsFirst_relativeSpecifier htarget hdirectory

theorem relativeSpecifier_leads_back_to_hidden :
    let r := relativeSpecifier (parse "/p/./lib//x/../..foo/.hidden") (parse "/p/src/../lib/a/")
    r = "../..foo/.hidden" ∧ isRelativeSpecifier r ∧
      (parse "/p/src/../lib/a/" / r).normalize =
        (parse "/p/./lib//x/../..foo/.hidden").normalize ∧
      ClimbsFirst r := by
  intro r
  refine ⟨by decide, ?_⟩
  exact relativeSpecifier_leads_back (by decide) (by decide) (by decide) (by decide)

/-- Names that merely begin with dots are no steps up. -/
example : namesIn (relativeSpecifier (parse "/..foo") (parse "/")) = [".", "..foo"] := by decide

example : relativeSpecifier (parse "//") (parse "/") = "." := by decide

end CronWrap.Path
