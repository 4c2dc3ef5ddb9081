-- SUMMARY: The paths a plan asks a view about, and that its answers elsewhere do not matter.
import TidyImports.Plan

/-!
# Questions

A plan asks whether some paths lead to files: the targets of the data rules, and
what the specifiers of the text lead to. Two views that answer these questions
alike make the same plan.
-/

namespace TidyImports

namespace DataDirectory

variable (d : DataDirectory) (isFile : Path → Bool) (fileDir : Path) (specifier : String)

/-- The data file that the part of a specifier below the data directory leads to. -/
def target (remainder : String) : Path := (d.root.join ⟨remainder⟩).normalize

/-- What a relative specifier names below the data directory, wherever it leads. -/
def relativeRemainder? : Option String :=
  if !Path.isRelativeSpecifier specifier || (⟨specifier⟩ : Path).extension?.isNone then none
  else do
    let name ← d.root.fileName?
    let below ← afterLastPiece? name (slashPieces specifier)
    some (ofSlashPieces below)

/-- The paths a specifier makes a plan ask about. -/
def questions : List Path :=
  match d.shorthand.toList.isPrefixOf? specifier.toList with
  | some rest => [d.target (String.ofList rest)]
  | none =>
    match d.relativeRemainder? specifier with
    | none => []
    | some remainder =>
      let here := (fileDir.join ⟨specifier⟩).normalize
      here :: if isFile here then [] else [d.target remainder]

end DataDirectory

namespace Project

variable (p : Project) (isFile : Path → Bool) (file : Path) (t : Text)

/-- Where a data rule expects its file. -/
def dataTarget (r : DataRule) : Path := p.data.root.join ⟨r.file⟩

/-- The text that the specifiers are looked up in: all other steps have been taken. -/
def imported : Plan :=
  ((p.vocabulary.sortedModules.map fun m => moduleStep p.vocabulary m (lineBreakOf t)) ++
    (p.vocabulary.data.rules.map fun r =>
      dataStep p.data isFile (file.relativeTo p.root) r (lineBreakOf t))).foldl
        Plan.advance { text := t }

/-- The paths a plan asks about. -/
def questions : List Path :=
  p.vocabulary.data.rules.map p.dataTarget ++
    (Script.parse (p.imported isFile file t).text).specifiers.flatMap fun tok =>
      p.data.questions isFile (p.data.directoryOf file) (String.ofList (tok.contents?.getD []))

end Project

-- ---------------------------------------------------------------------------
-- Answers
-- ---------------------------------------------------------------------------

variable {isFile isFile' : Path → Bool} {file : Path} {t : Text}

namespace DataDirectory

variable {d : DataDirectory} {fileDir : Path} {specifier : String}

theorem remainder?_eq_some {rest : List Char}
    (h : d.shorthand.toList.isPrefixOf? specifier.toList = some rest) :
    d.remainder? isFile fileDir specifier = some (String.ofList rest) := by
  rw [remainder?, h]

theorem remainder?_eq (isFile : Path → Bool) (fileDir : Path)
    (h : d.shorthand.toList.isPrefixOf? specifier.toList = none) :
    d.remainder? isFile fileDir specifier =
      if isFile (fileDir.join ⟨specifier⟩).normalize then none
      else d.relativeRemainder? specifier := by
  rw [remainder?, h, relativeRemainder?]
  simp only [Bool.or_eq_true, Bool.not_eq_true']
  cases Path.isRelativeSpecifier specifier <;> cases (Path.mk specifier).extension?.isNone <;> simp

theorem verdict_eq_keep (h : d.remainder? isFile fileDir specifier = none) :
    d.verdict isFile fileDir specifier = .keep := by
  rw [verdict, h]

theorem verdict_congr_target {remainder : String}
    (h : d.remainder? isFile fileDir specifier = some remainder)
    (h' : d.remainder? isFile' fileDir specifier = some remainder)
    (htarget : isFile' (d.target remainder) = isFile (d.target remainder)) :
    d.verdict isFile' fileDir specifier = d.verdict isFile fileDir specifier := by
  rw [target] at htarget
  simp only [verdict, h, h', htarget]

theorem verdict_congr
    (h : ∀ q ∈ d.questions isFile fileDir specifier, isFile' q = isFile q) :
    d.verdict isFile' fileDir specifier = d.verdict isFile fileDir specifier := by
  rw [questions] at h
  cases hstarts : d.shorthand.toList.isPrefixOf? specifier.toList with
  | some rest =>
    rw [hstarts] at h
    exact verdict_congr_target (remainder?_eq_some hstarts) (remainder?_eq_some hstarts)
      (h _ (List.mem_singleton_self _))
  | none =>
    have hr := remainder?_eq isFile fileDir hstarts
    have hr' := remainder?_eq isFile' fileDir hstarts
    rw [hstarts] at h
    cases hbelow : d.relativeRemainder? specifier with
    | none =>
      rw [hbelow, ite_self] at hr hr'
      rw [verdict_eq_keep hr, verdict_eq_keep hr']
    | some remainder =>
      simp only [hbelow, List.mem_cons, forall_eq_or_imp] at h hr hr'
      obtain ⟨hhere, htarget⟩ := h
      rw [hhere] at hr'
      cases hfile : isFile (fileDir.join ⟨specifier⟩).normalize with
      | true =>
        rw [hfile, if_pos rfl] at hr hr'
        rw [verdict_eq_keep hr, verdict_eq_keep hr']
      | false =>
        rw [hfile, if_neg Bool.false_ne_true] at hr hr' htarget
        exact verdict_congr_target hr hr' (htarget _ (List.mem_singleton_self _))

end DataDirectory

theorem Project.imported_congr {p : Project}
    (h : ∀ r ∈ p.vocabulary.data.rules, isFile' (p.dataTarget r) = isFile (p.dataTarget r)) :
    p.imported isFile' file t = p.imported isFile file t := by
  have hsteps : (p.vocabulary.data.rules.map fun r =>
      dataStep p.data isFile' (file.relativeTo p.root) r (lineBreakOf t)) =
        p.vocabulary.data.rules.map fun r =>
          dataStep p.data isFile (file.relativeTo p.root) r (lineBreakOf t) :=
    List.map_congr_left fun r hr => by
      funext s
      have hanswer := h r hr
      rw [dataTarget] at hanswer
      simp only [dataStep, hanswer]
  rw [imported, hsteps, imported]

theorem Project.plan_eq (p : Project) :
    p.plan isFile file t =
      (p.imported isFile file t).advance (specifierStep p.data isFile file) := by
  rw [plan, steps, List.foldl_append]
  rfl

theorem specifierStep_congr {data : DataDirectory} {s : Script}
    (h : ∀ tok ∈ s.specifiers, ∀ q ∈ data.questions isFile (data.directoryOf file)
      (String.ofList (tok.contents?.getD [])), isFile' q = isFile q) :
    specifierStep data isFile' file s = specifierStep data isFile file s := by
  have hverdicts : data.verdicts isFile' (data.directoryOf file) s =
      data.verdicts isFile (data.directoryOf file) s :=
    List.map_congr_left fun tok htok => by simp only [DataDirectory.verdict_congr (h tok htok)]
  rw [specifierStep, DataDirectory.retargetScript, hverdicts]
  rfl

/-- Views that answer the questions of a plan alike make the same plan. -/
theorem Project.plan_congr {p : Project}
    (h : ∀ q ∈ p.questions isFile file t, isFile' q = isFile q) :
    p.plan isFile' file t = p.plan isFile file t := by
  have himported : p.imported isFile' file t = p.imported isFile file t :=
    imported_congr fun r hr => h _ (List.mem_append_left _ (List.mem_map_of_mem hr))
  have hstep : specifierStep p.data isFile' file (Script.parse (p.imported isFile file t).text) =
      specifierStep p.data isFile file (Script.parse (p.imported isFile file t).text) :=
    specifierStep_congr fun tok htok q hq =>
      h q (List.mem_append_right _ (List.mem_flatMap.2 ⟨tok, htok, hq⟩))
  rw [plan_eq, plan_eq, himported, Plan.advance, Plan.advance, hstep]

end TidyImports
