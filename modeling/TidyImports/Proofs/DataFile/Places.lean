-- SUMMARY: Which data file a specifier addresses, and where its replacement leads.
import TidyImports.DataFile
import TidyImports.Proofs.Path.Way

/-!
# The places of data files

A specifier addresses one place, and its verdict depends on what is there. When
it is exchanged, the new specifier leads to that place from the directory of the
file it stands in, as long as both are absolute or neither is. The place is below
the data directory as long as what follows the shorthand is relative.
-/

namespace TidyImports

open Component (IsNormal)

/-- Does a path go down from another by at least one name? -/
def Path.IsBelow (p base : Path) : Prop :=
  ∃ names : List String, names ≠ [] ∧ (∀ name ∈ names, Path.IsName name) ∧
    p.components = base.components ++ names.map .normal

namespace DataDirectory

variable {d : DataDirectory} {isFile : Path → Bool} {fileDir file target : Path}
  {specifier remainder new old : String}

-- ---------------------------------------------------------------------------
-- The place that a specifier addresses
-- ---------------------------------------------------------------------------

/-- The place of the data file that a specifier addresses. -/
def dataFile? (d : DataDirectory) (isFile : Path → Bool) (fileDir : Path) (specifier : String) :
    Option Path :=
  (d.remainder? isFile fileDir specifier).bind fun remainder =>
    if remainder.isEmpty || (slashPieces remainder).contains ".." then none
    else some (d.root.join ⟨remainder⟩).normalize

theorem dataFile?_eq_some_iff :
    d.dataFile? isFile fileDir specifier = some target ↔
      ∃ remainder, d.remainder? isFile fileDir specifier = some remainder ∧ remainder ≠ "" ∧
        ".." ∉ slashPieces remainder ∧ (d.root.join ⟨remainder⟩).normalize = target := by
  simp [dataFile?, Option.bind_eq_some_iff, and_assoc]

/-- What becomes of a specifier depends on what is where it leads. -/
theorem verdict_eq_match (d : DataDirectory) (isFile : Path → Bool) (fileDir : Path)
    (specifier : String) :
    d.verdict isFile fileDir specifier =
      match d.dataFile? isFile fileDir specifier with
      | none => .keep
      | some target =>
        if !isFile target then .missing target
        else match Path.relativeSpecifier? target fileDir with
          | none => .keep
          | some new => if new = specifier then .keep else .retarget new := by
  rw [verdict, dataFile?]
  cases d.remainder? isFile fileDir specifier with
  | none => rfl
  | some remainder =>
    simp only [Option.bind_some]
    -- the two sides ask the same of the place; `rfl` must not compute it
    generalize (d.root.join ⟨remainder⟩).normalize = target
    split <;> rfl

theorem verdict_of_isFile (h : d.dataFile? isFile fileDir specifier = some target)
    (hfile : isFile target) :
    d.verdict isFile fileDir specifier =
      match Path.relativeSpecifier? target fileDir with
      | none => .keep
      | some new => if new = specifier then .keep else .retarget new := by
  rw [verdict_eq_match, h]
  simp only [hfile, Bool.not_true, Bool.false_eq_true, if_false]

theorem verdict_of_not_isFile (h : d.dataFile? isFile fileDir specifier = some target)
    (hfile : isFile target = false) : d.verdict isFile fileDir specifier = .missing target := by
  rw [verdict_eq_match, h]
  simp only [hfile, Bool.not_false, if_true]

theorem verdict_eq_retarget_iff :
    d.verdict isFile fileDir specifier = .retarget new ↔
      ∃ target, d.dataFile? isFile fileDir specifier = some target ∧ isFile target ∧
        Path.relativeSpecifier? target fileDir = some new ∧ new ≠ specifier := by
  constructor
  · intro h
    cases htarget : d.dataFile? isFile fileDir specifier with
    | none =>
      rw [verdict_eq_match, htarget] at h
      cases h
    | some target =>
      cases hfile : isFile target with
      | false =>
        rw [verdict_of_not_isFile htarget hfile] at h
        cases h
      | true =>
        refine ⟨target, rfl, hfile, ?_⟩
        rw [verdict_of_isFile htarget hfile] at h
        split at h
        · cases h
        · next way hway =>
          split at h
          · cases h
          · next hne =>
            cases h
            exact ⟨hway, hne⟩
  · rintro ⟨target, htarget, hfile, hnew, hne⟩
    rw [verdict_of_isFile htarget hfile, hnew]
    exact if_neg hne

theorem verdict_eq_missing_iff :
    d.verdict isFile fileDir specifier = .missing target ↔
      d.dataFile? isFile fileDir specifier = some target ∧ isFile target = false := by
  refine ⟨fun h => ?_, fun h => verdict_of_not_isFile h.1 h.2⟩
  cases hplace : d.dataFile? isFile fileDir specifier with
  | none =>
    rw [verdict_eq_match, hplace] at h
    cases h
  | some place =>
    cases hfile : isFile place with
    | false =>
      rw [verdict_of_not_isFile hplace hfile] at h
      cases h
      exact ⟨rfl, hfile⟩
    | true =>
      rw [verdict_of_isFile hplace hfile] at h
      split at h
      · cases h
      · split at h <;> cases h

theorem exists_specifier_of_mem_retargeted {s : Script}
    (h : (old, new) ∈ (d.retargetScript isFile file s).retargeted) :
    (∃ tok ∈ s.specifiers, old = String.ofList (tok.contents?.getD [])) ∧
      d.verdict isFile (d.directoryOf file) old = .retarget new := by
  obtain ⟨⟨tok, specifier, verdict⟩, hmem, heq⟩ := List.mem_filterMap.1 h
  obtain ⟨tok', htok, hverdict⟩ := List.mem_map.1 hmem
  cases hverdict
  simp only at heq
  split at heq
  · next hv =>
    cases heq
    exact ⟨⟨tok, htok, rfl⟩, hv⟩
  · cases heq

-- ---------------------------------------------------------------------------
-- Where files and data files are
-- ---------------------------------------------------------------------------

theorem isNormal_root (d : DataDirectory) : IsNormal d.root.components := by
  rw [root, Path.components_normalize]
  exact Path.isNormal_normalize _

theorem isAbsolute_root (h : d.projectRoot.isAbsolute) : d.root.isAbsolute := by
  rw [root, Path.isAbsolute_normalize]
  exact Path.isAbsolute_join h

theorem isNormal_dataFile (h : d.dataFile? isFile fileDir specifier = some target) :
    IsNormal target.components ∧ target.normalize = target := by
  obtain ⟨remainder, -, -, -, rfl⟩ := dataFile?_eq_some_iff.1 h
  rw [Path.normalize_normalize, Path.components_normalize]
  exact ⟨Path.isNormal_normalize _, rfl⟩

theorem isAbsolute_dataFile (hroot : d.projectRoot.isAbsolute)
    (h : d.dataFile? isFile fileDir specifier = some target) : target.isAbsolute := by
  obtain ⟨remainder, -, -, -, rfl⟩ := dataFile?_eq_some_iff.1 h
  rw [Path.isAbsolute_normalize]
  exact Path.isAbsolute_join (isAbsolute_root hroot)

/-- The directory of a file is normal, unless the file is said to be a root. -/
theorem isNormal_directoryOf (h : (d.projectRoot.join file).normalize.parent?.isSome) :
    IsNormal (d.directoryOf file).components := by
  obtain ⟨q, hq⟩ := Option.isSome_iff_exists.1 h
  have hnormal : IsNormal (d.projectRoot.join file).normalize.components := by
    rw [Path.components_normalize]
    exact Path.isNormal_normalize _
  obtain ⟨-, -, hdir, -⟩ := Path.components_of_parent? hnormal hq
  rw [directoryOf, hq]
  exact hdir

/-- The directory of a file goes down from the root, when the paths that lead to it do. -/
theorem directoryOf_of_not_climbing (hroot : d.projectRoot.isAbsolute)
    (hrootclimb : .parent ∉ d.projectRoot.components) (hfileclimb : .parent ∉ file.components) :
    (d.directoryOf file).isAbsolute ∧ .parent ∉ (d.directoryOf file).components := by
  have habsolute : (d.projectRoot.join file).isAbsolute := Path.isAbsolute_join hroot
  have hclimb : .parent ∉ (d.projectRoot.join file).components := by
    rw [Path.parent_mem_components] at hrootclimb hfileclimb ⊢
    by_cases hfile : file.isAbsolute
    · rwa [Path.join, if_pos hfile]
    · have hinner := Path.inner_join (p := d.projectRoot) (q := file) (by simpa using hfile)
      rw [← Path.parent_mem_inner, hinner, List.mem_append, Path.parent_mem_inner,
        Path.parent_mem_inner]
      exact not_or.2 ⟨hrootclimb, hfileclimb⟩
  have hnormal := Path.isNormal_of_not_climbing habsolute hclimb
  have hcomponents : (d.projectRoot.join file).normalize.components =
      (d.projectRoot.join file).components := by
    rw [Path.components_normalize, hnormal.normalize_eq]
  rw [directoryOf]
  cases hparent : (d.projectRoot.join file).normalize.parent? with
  | none => exact ⟨hroot, hrootclimb⟩
  | some q =>
    rw [← hcomponents] at hnormal hclimb
    obtain ⟨c, hc, -, hq⟩ := Path.components_of_parent? hnormal hparent
    rw [Path.isAbsolute_normalize] at hq
    refine ⟨hq.trans habsolute, fun hmem => hclimb ?_⟩
    rw [hc]
    exact List.mem_append_left _ hmem

-- ---------------------------------------------------------------------------
-- Where new specifiers lead
-- ---------------------------------------------------------------------------

/-- A specifier is exchanged for one that leads to the place it addresses. -/
theorem normalize_join_of_retarget (hdir : IsNormal fileDir.components)
    (hnames : ∀ p, isFile p → p.fileName?.isSome)
    (h : d.verdict isFile fileDir specifier = .retarget new) :
    ∃ target, d.dataFile? isFile fileDir specifier = some target ∧ isFile target ∧
      (target.isAbsolute = fileDir.isAbsolute → (fileDir.join ⟨new⟩).normalize = target) := by
  obtain ⟨target, htarget, hfile, hnew, -⟩ := verdict_eq_retarget_iff.1 h
  refine ⟨target, htarget, hfile, fun hsame => ?_⟩
  obtain ⟨hnormal, hself⟩ := isNormal_dataFile htarget
  rw [Path.normalize_join_relativeSpecifier? hnormal hdir hsame (fun _ => hnames target hfile) hnew,
    hself]

/-- In a project at an absolute place, new specifiers lead to the places that the old addressed. -/
theorem normalize_join_of_not_climbing (hroot : d.projectRoot.isAbsolute)
    (hdir : fileDir.isAbsolute) (hclimb : .parent ∉ fileDir.components)
    (htarget : d.dataFile? isFile fileDir specifier = some target)
    (hnew : Path.relativeSpecifier? target fileDir = some new) :
    (fileDir.join ⟨new⟩).normalize = target := by
  obtain ⟨hnormal, hself⟩ := isNormal_dataFile htarget
  have hsame : target.isAbsolute = fileDir.isAbsolute := by
    rw [isAbsolute_dataFile hroot htarget, hdir]
  rw [Path.normalize_join_relativeSpecifier? hnormal (Path.isNormal_of_not_climbing hdir hclimb)
    hsame (fun h => absurd h hclimb) hnew, hself]

/-- Exchanged specifiers lead to existing data files. -/
theorem normalize_join_of_mem_retargeted {s : Script}
    (hfile : (d.projectRoot.join file).normalize.parent?.isSome)
    (hnames : ∀ p, isFile p → p.fileName?.isSome)
    (h : (old, new) ∈ (d.retargetScript isFile file s).retargeted) :
    ∃ target, d.dataFile? isFile (d.directoryOf file) old = some target ∧ isFile target ∧
      (target.isAbsolute = (d.directoryOf file).isAbsolute →
        ((d.directoryOf file).join ⟨new⟩).normalize = target) :=
  normalize_join_of_retarget (isNormal_directoryOf hfile) hnames
    (exists_specifier_of_mem_retargeted h).2

/-- Where only the data file is at an absolute place, its path is written out as a relative one. -/
example :
    DataDirectory.verdict ⟨⟨"proj"⟩, ⟨"/data"⟩, "@/data/"⟩ (· == ⟨"/data/x.json"⟩) ⟨"proj/app"⟩
      "@/data/x.json" = .retarget ".///data/x.json" := by
  decide +kernel

-- ---------------------------------------------------------------------------
-- Below the data directory
-- ---------------------------------------------------------------------------

/-- A relative remainder goes down from the data directory by names. -/
theorem components_dataFile (hremainder : d.remainder? isFile fileDir specifier = some remainder)
    (hrelative : (Path.mk remainder).isAbsolute = false)
    (h : d.dataFile? isFile fileDir specifier = some target) :
    ∃ names : List String, (∀ name ∈ names, Path.IsName name) ∧
      target.components = d.root.components ++ names.map .normal := by
  obtain ⟨remainder', hremainder', -, hclimb, rfl⟩ := dataFile?_eq_some_iff.1 h
  obtain rfl := Option.some.inj (hremainder.symm.trans hremainder')
  refine ⟨(slashPieces remainder).filter (!Path.isVoid ·),
    Path.isName_of_mem_filter (fun _ => not_mem_of_mem_slashPieces) hclimb, ?_⟩
  rw [Path.components_normalize, Component.normalize, Path.foldl_push_join hrelative,
    ← Path.foldl_push_inner hrelative, Path.inner_of_not_mem hclimb,
    d.isNormal_root.foldl_push, Component.foldl_push_names, List.reverse_append,
    List.reverse_reverse, List.reverse_reverse]

/-- Such a place is the data directory itself or below it. -/
theorem isBelow_dataFile (hremainder : d.remainder? isFile fileDir specifier = some remainder)
    (hrelative : (Path.mk remainder).isAbsolute = false)
    (h : d.dataFile? isFile fileDir specifier = some target) (hne : target ≠ d.root) :
    target.IsBelow d.root := by
  obtain ⟨names, hnames, hcomponents⟩ := components_dataFile hremainder hrelative h
  refine ⟨names, ?_, hnames, hcomponents⟩
  rintro rfl
  have hself : d.root.normalize = d.root := Path.normalize_normalize _
  refine hne ?_
  rw [← (isNormal_dataFile h).2, ← hself, Path.normalize_eq_iff, hcomponents, List.map_nil,
    List.append_nil]

/-- In a project at an absolute place, exchanged specifiers lead below the data directory, when
what follows the shorthand is relative. -/
theorem isBelow_of_mem_retargeted {s : Script} (hroot : d.projectRoot.isAbsolute)
    (hrootclimb : .parent ∉ d.projectRoot.components) (hfileclimb : .parent ∉ file.components)
    (hdirectory : isFile d.root = false)
    (hrelative : ∀ remainder, d.remainder? isFile (d.directoryOf file) old = some remainder →
      (Path.mk remainder).isAbsolute = false)
    (h : (old, new) ∈ (d.retargetScript isFile file s).retargeted) :
    ((d.directoryOf file).join ⟨new⟩).normalize.IsBelow d.root := by
  obtain ⟨habsolute, hclimb⟩ := directoryOf_of_not_climbing hroot hrootclimb hfileclimb
  obtain ⟨target, htarget, hfile, hnew, -⟩ :=
    verdict_eq_retarget_iff.1 (exists_specifier_of_mem_retargeted h).2
  obtain ⟨remainder, hremainder, -⟩ := dataFile?_eq_some_iff.1 htarget
  rw [normalize_join_of_not_climbing hroot habsolute hclimb htarget hnew]
  refine isBelow_dataFile hremainder (hrelative _ hremainder) htarget ?_
  rintro rfl
  rw [hdirectory] at hfile
  cases hfile

/-- A project with its data files in one directory. -/
def sample : DataDirectory := ⟨⟨"/proj"⟩, ⟨"data"⟩, "@/data/"⟩

/-- An absolute remainder stands for itself, wherever the data directory is. -/
example :
    sample.verdict (· == ⟨"/secret.json"⟩) ⟨"/proj/app"⟩ "@/data//secret.json" =
      .retarget "../../secret.json" := by
  decide +kernel

end DataDirectory

end TidyImports
