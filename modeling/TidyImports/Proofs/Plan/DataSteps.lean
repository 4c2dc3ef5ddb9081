-- SUMMARY: What the steps of data files and of specifiers do to the reading of a script.
import TidyImports.Proofs.DataFile.Places
import TidyImports.Proofs.Edits.Retarget
import TidyImports.Proofs.Plan.Steps

/-!
# The steps of data files

The step of a data rule adds one import of a name that nothing binds. The step
of the specifiers exchanges those that address a data file; no other specifier
is touched, and no specifier becomes one of another module.
-/

namespace TidyImports

open Text Lexer Edit

-- ---------------------------------------------------------------------------
-- Specifiers that are kept
-- ---------------------------------------------------------------------------

namespace DataDirectory

variable {d : DataDirectory} {isFile : Path → Bool} {fileDir : Path} {specifier new : String}

/-- Can a specifier address a data file? -/
def Addresses (d : DataDirectory) (specifier : String) : Prop :=
  d.shorthand.toList <+: specifier.toList ∨ Path.isRelativeSpecifier specifier

instance (d : DataDirectory) (specifier : String) : Decidable (d.Addresses specifier) :=
  inferInstanceAs (Decidable (_ ∨ _))

theorem verdict_keep (h : ¬ d.Addresses specifier) : d.verdict isFile fileDir specifier = .keep := by
  have hnone : d.remainder? isFile fileDir specifier = none := by
    rw [remainder?]
    split
    · next rest hrest =>
      exact absurd (.inl ⟨rest, List.isPrefixOf?_eq_some_iff_append_eq.1 hrest⟩) h
    · rw [if_pos]
      simpa using fun hrelative => h (.inr hrelative)
  rw [verdict, hnone]

/-- A specifier is exchanged for a relative one, and neither is empty. -/
theorem verdict_retarget (h : d.verdict isFile fileDir specifier = .retarget new) :
    d.Addresses specifier ∧ specifier ≠ "" ∧ Path.isRelativeSpecifier new := by
  refine ⟨?_, ?_, ?_⟩
  · by_cases haddresses : d.Addresses specifier
    · exact haddresses
    · rw [verdict_keep haddresses] at h
      cases h
  · rintro rfl
    obtain ⟨target, htarget, -⟩ := verdict_eq_retarget_iff.1 h
    obtain ⟨remainder, hremainder, hne, -⟩ := dataFile?_eq_some_iff.1 htarget
    rw [remainder?] at hremainder
    split at hremainder
    · next rest hrest =>
      have hnil := List.append_eq_nil_iff.1 (List.isPrefixOf?_eq_some_iff_append_eq.1 hrest)
      cases hremainder
      rw [hnil.2] at hne
      exact hne rfl
    · rw [if_pos (by decide)] at hremainder
      cases hremainder
  · obtain ⟨target, -, -, hnew, -⟩ := verdict_eq_retarget_iff.1 h
    exact Path.isRelativeSpecifier_relativeSpecifier? hnew

theorem substantial_target? : Substantial (d.target? isFile fileDir) := by
  intro old new h
  rw [target?] at h
  split at h
  · next new' hv =>
    cases h
    obtain ⟨-, hold, hnew⟩ := verdict_retarget hv
    constructor
    · rintro rfl
      exact hold rfl
    · intro hnil
      rw [String.toList_eq_nil_iff.1 hnil] at hnew
      exact absurd hnew (by decide)
  · cases h

end DataDirectory

/-- The specifier of another module is not touched, and none becomes it. -/
theorem Declaration.specifier_retarget_eq {d : DataDirectory} {isFile : Path → Bool}
    {fileDir : Path} {module : String} (h : ¬ d.Addresses module) (k : Declaration) :
    (k.retarget (d.target? isFile fileDir)).specifier = module ↔ k.specifier = module := by
  rw [Declaration.retarget]
  cases hnew : d.target? isFile fileDir k.specifier.toList with
  | none => rfl
  | some new =>
    rw [DataDirectory.target?, String.ofList_toList] at hnew
    split at hnew
    · next new' hv =>
      cases hnew
      obtain ⟨haddresses, -, hrelative⟩ := DataDirectory.verdict_retarget hv
      simp only [Option.map_some, Option.getD_some, String.ofList_toList]
      constructor
      · rintro rfl
        exact absurd (.inr hrelative) h
      · rintro rfl
        exact absurd haddresses h
    · cases hnew

-- ---------------------------------------------------------------------------
-- Data rules
-- ---------------------------------------------------------------------------

namespace Reading

/-- Is the name used, and bound by nothing? -/
def Unbound (r : Reading) (name : String) : Prop :=
  (∃ use ∈ r.uses, use.name = name) ∧ ¬ r.binds name

/-- The declaration of a data file. -/
def dataDeclaration (specifier binding : String) : Declaration where
  specifier := specifier
  span := ⟨0, 0⟩
  default? := some binding

/-- What becomes of a script when a data file is imported where it is due. -/
inductive Supplies (due : Prop) (specifier binding : String) (r : Reading) : Reading → Prop
  | idle (h : due → ¬ r.Unbound binding) : Supplies due specifier binding r r
  | added {r' : Reading} (hdue : due) (hunbound : r.Unbound binding)
      (h : r.Updates r' [] [dataDeclaration specifier binding]) :
      Supplies due specifier binding r r'

end Reading

/-- Is a rule's data file to be imported by files of a path, where its name is used unbound? -/
def DataRule.Due (data : DataDirectory) (isFile : Path → Bool) (path : Path) (r : DataRule) : Prop :=
  r.matchesPath path.text ∧ isFile (data.root.join ⟨r.file⟩)

section

variable {data : DataDirectory} {isFile : Path → Bool} {path file : Path} {rule : DataRule}
  {eol t : Text}

/-- The step of a data rule imports its file where it is due. -/
theorem dataStep_supplies {v : Vocabulary} (hv : v.Plain) (hrule : rule ∈ v.data.rules)
    (hdata : data.shorthand = v.data.shorthand) (he : IsLineBreak eol)
    (hclear : AllClear t (Sorting.sort Edit.before
      (dataStep data isFile path rule eol (Script.parse t)).edits)) :
    (Script.parse t).reading.Supplies (rule.Due data isFile path) (data.shorthand ++ rule.file)
      rule.binding (Script.parse (Edit.applyAll
        (dataStep data isFile path rule eol (Script.parse t)).edits t)).reading := by
  rw [dataStep] at hclear ⊢
  split
  · next hcond =>
    refine .idle fun hdue hunbound => ?_
    rw [hdue.1, Script.hasUnbound_iff.2 hunbound] at hcond
    cases hcond
  · next hcond =>
    rw [if_neg hcond] at hclear
    simp only [Bool.or_eq_true, Bool.not_eq_true', not_or, Bool.not_eq_false] at hcond
    obtain ⟨hpath, hname⟩ := hcond
    have hunbound := Script.hasUnbound_iff.1 hname
    obtain ⟨use, huse, hused⟩ := hunbound.1
    simp only at hclear ⊢
    split
    · next hfile =>
      refine .idle fun hdue _ => ?_
      rw [hdue.2] at hfile
      cases hfile
    · next hfile =>
      rw [if_neg hfile] at hclear
      simp only [Bool.not_eq_true', Bool.not_eq_false] at hfile
      refine .added ⟨hpath, hfile⟩ hunbound ?_
      let c : Canonical := ⟨data.shorthand ++ rule.file, some rule.binding, ∅⟩
      have hwritable : c.Writable := {
        default := fun name h => by
          cases h
          refine ⟨hused ▸ Script.isWord_of_mem_uses huse, fun hfrom => hv.binding rule hrule ?_⟩
          rw [← String.ofList_toList (s := rule.binding), hfrom]
          rfl
        named := fun item h => absurd h (SortedSet.not_mem_empty _)
        specifier := by
          rw [String.toList_append, isPlain, List.all_append, hdata]
          exact Bool.and_eq_true_iff.2 ⟨hv.shorthand, hv.file rule hrule⟩
        binds := .inl rfl }
      have hr : c.render? {} = some ("import " ++ rule.binding ++ " from \"" ++
          (data.shorthand ++ rule.file) ++ "\";").toList := by
        simp [Canonical.render?, Canonical.clause?, c, SortedSet.isEmpty, EmptyCollection.emptyCollection,
          Quote.char]
      have hholds := Exchange.holds_insertLine (t := t) hwritable hr he
      have hall := Exchange.applyAll (t := t) fun x hx => by
        rw [List.mem_singleton.1 hx]
        exact hholds
      exact hall hclear

/-- The step of the specifiers exchanges specifiers. -/
theorem specifierStep_retargets
    (hplain : ∀ p ∈ (data.retargetScript isFile file (Script.parse t)).retargeted,
      '\n' ∉ p.1.toList ∧ isPlain p.2.toList)
    (hclear : AllClear t (Sorting.sort Edit.before
      (specifierStep data isFile file (Script.parse t)).edits)) :
    (Script.parse (Edit.applyAll (specifierStep data isFile file (Script.parse t)).edits
        t)).reading =
        (Script.parse t).reading.retarget (data.target? isFile (data.directoryOf file)) ∧
      Part.allFlags false (Edit.applyAll
        (specifierStep data isFile file (Script.parse t)).edits t).parts =
          (Part.allFlags false t.parts).map fun z =>
            (retarget (data.target? isFile (data.directoryOf file)) z, z.2) := by
  obtain ⟨hsorted, happly⟩ := data.applyAll_retargetScript isFile file t
  have hedits : (specifierStep data isFile file (Script.parse t)).edits =
      (data.retargetScript isFile file (Script.parse t)).edits := rfl
  rw [hedits, hsorted] at hclear
  rw [hedits, happly]
  exact reading_retarget DataDirectory.substantial_target?
    (DataDirectory.exchangeable_of_plain hplain) hclear

end

end TidyImports
