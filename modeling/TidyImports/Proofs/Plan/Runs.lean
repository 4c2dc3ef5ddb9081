-- SUMMARY: A plan whose edits are clear, as a run of steps from reading to reading.
import TidyImports.Proofs.Plan.DataSteps

/-!
# Runs

A plan is a run of its steps. When the edits of each step are clear, the run can
be told by readings alone: the modules are normalized one after the other, then
data files are imported, and last the specifiers are exchanged.
-/

namespace TidyImports

open Text Lexer Edit

-- ---------------------------------------------------------------------------
-- Clear plans
-- ---------------------------------------------------------------------------

/-- Are the edits of each step clear, in the text that the steps before it leave? -/
def Plan.Clear (p : Plan) : List (Script → Step) → Prop
  | [] => True
  | step :: steps =>
    AllClear p.text (Sorting.sort Edit.before (step (Script.parse p.text)).edits) ∧
      Clear (p.advance step) steps

instance Plan.decidableClear (p : Plan) : (steps : List (Script → Step)) → Decidable (p.Clear steps)
  | [] => isTrue trivial
  | step :: steps =>
    have := decidableClear (p.advance step) steps
    inferInstanceAs (Decidable (_ ∧ _))

/-- Specifiers are exchanged for others that can stand between quotes. -/
def Plan.RetargetsPlainly (p : Plan) : Prop :=
  ∀ c ∈ p.changes, c.kind = .retargeted → '\n' ∉ c.module.toList ∧ isPlain c.detail.toList

instance (p : Plan) : Decidable p.RetargetsPlainly :=
  inferInstanceAs (Decidable (∀ c ∈ p.changes, _ → _ ∧ _))

/-- Does the plan for a file put in, take out and exchange text only where that leaves what stands
around it as it is read? -/
structure Project.Clear (p : Project) (isFile : Path → Bool) (file : Path) (t : Text) : Prop where
  edits : ({ text := t } : Plan).Clear (p.steps isFile file (lineBreakOf t))
  specifiers : (p.plan isFile file t).RetargetsPlainly

instance (p : Project) (isFile : Path → Bool) (file : Path) (t : Text) :
    Decidable (p.Clear isFile file t) :=
  decidable_of_iff (_ ∧ _) ⟨fun h => ⟨h.1, h.2⟩, fun h => ⟨h.edits, h.specifiers⟩⟩

namespace Project

def sample : Project := { root := ⟨"/proj"⟩ }

/-- The data file of the sample. -/
def sampleData (path : Path) : Bool := path.text == "/proj/data/s.json"

/-- A page with two imports of one module and a data specifier. -/
def samplePage : Text :=
  ("import Link, \x7b a \x7d from 'next/link';\nimport \x7b b \x7d from 'next/link';\n" ++
    "import s from '@/data/s.json';\nLink();\n").toList

/-- The imports are merged below the last import, and the specifier leads to the data file. -/
def samplePlan : Plan where
  text := ("import s from './data/s.json';\nimport Link, \x7b a, b \x7d from 'next/link';\n" ++
    "Link();\n").toList
  changes :=
    [⟨.merged, "next/link", "2 declarations -> import Link, \x7b a, b \x7d from 'next/link';"⟩,
     ⟨.retargeted, "@/data/s.json", "./data/s.json"⟩]

theorem plan_sample : sample.plan sampleData ⟨"a.js"⟩ samplePage = samplePlan := by
  decide +kernel

/-- Nothing is in the way of its edits. -/
theorem clear_sample : sample.Clear sampleData ⟨"a.js"⟩ samplePage := by
  decide +kernel

end Project

theorem Plan.Clear.append {p : Plan} {as bs : List (Script → Step)} (h : p.Clear (as ++ bs)) :
    p.Clear as ∧ (as.foldl Plan.advance p).Clear bs := by
  induction as generalizing p with
  | nil => exact ⟨trivial, h⟩
  | cons a as ih =>
    obtain ⟨h₁, h₂⟩ := ih h.2
    exact ⟨⟨h.1, h₁⟩, h₂⟩

theorem Plan.mem_warnings_foldl {p : Plan} {w : Warning} (h : w ∈ p.warnings)
    (steps : List (Script → Step)) : w ∈ (steps.foldl Plan.advance p).warnings := by
  induction steps generalizing p with
  | nil => exact h
  | cons step steps ih => exact ih (List.mem_append_left _ h)

-- ---------------------------------------------------------------------------
-- Runs
-- ---------------------------------------------------------------------------

namespace Reading

/-- Modules are normalized one after the other, with their warnings. -/
inductive Modules (v : Vocabulary) : List ModuleRule → Reading → List Warning → Reading → Prop
  | nil {r : Reading} : Modules v [] r [] r
  | cons {m : ModuleRule} {ms : List ModuleRule} {r r' r'' : Reading} {ws ws' : List Warning}
      (h : r.Normalizes v m.specifier ws r') (hs : Modules v ms r' ws' r'') :
      Modules v (m :: ms) r (ws ++ ws') r''

/-- Data files are imported one after the other. -/
inductive Data (data : DataDirectory) (isFile : Path → Bool) (path : Path) :
    List DataRule → Reading → Reading → Prop
  | nil {r : Reading} : Data data isFile path [] r r
  | cons {rule : DataRule} {rules : List DataRule} {r r' r'' : Reading}
      (h : r.Supplies (rule.Due data isFile path) (data.shorthand ++ rule.file) rule.binding r')
      (hs : Data data isFile path rules r' r'') : Data data isFile path (rule :: rules) r r''

end Reading

theorem modules_of_clear {v : Vocabulary} {eol : Text} {p : Plan} {ms : List ModuleRule}
    (hms : ∀ m ∈ ms, m ∈ v.modules) (hv : v.Plain) (he : IsLineBreak eol)
    (hc : p.Clear (ms.map fun m => moduleStep v m eol)) :
    ∃ ws, Reading.Modules v ms (Script.parse p.text).reading ws
        (Script.parse ((ms.map fun m => moduleStep v m eol).foldl Plan.advance p).text).reading ∧
      ((ms.map fun m => moduleStep v m eol).foldl Plan.advance p).warnings = p.warnings ++ ws := by
  induction ms generalizing p with
  | nil => exact ⟨[], .nil, (List.append_nil _).symm⟩
  | cons m ms ih =>
    have hstep := moduleStep_normalizes (hms m (List.mem_cons_self ..)) hv he hc.1
    obtain ⟨ws, hrun, hws⟩ := ih (fun k hk => hms k (List.mem_cons_of_mem _ hk)) hc.2
    refine ⟨_, .cons hstep hrun, ?_⟩
    rw [List.map_cons, List.foldl_cons, hws]
    exact List.append_assoc ..

theorem data_of_clear {v : Vocabulary} {data : DataDirectory} {isFile : Path → Bool} {path : Path}
    {eol : Text} {p : Plan} {rules : List DataRule} (hrules : ∀ r ∈ rules, r ∈ v.data.rules)
    (hdata : data.shorthand = v.data.shorthand) (hv : v.Plain) (he : IsLineBreak eol)
    (hc : p.Clear (rules.map fun r => dataStep data isFile path r eol)) :
    Reading.Data data isFile path rules (Script.parse p.text).reading (Script.parse
      ((rules.map fun r => dataStep data isFile path r eol).foldl Plan.advance p).text).reading := by
  induction rules generalizing p with
  | nil => exact .nil
  | cons r rules ih =>
    exact .cons (dataStep_supplies hv (hrules r (List.mem_cons_self ..)) hdata he hc.1)
      (ih (fun k hk => hrules k (List.mem_cons_of_mem _ hk)) hc.2)

/-- A clear plan, told by readings: of the text, when its modules are normalized, when its data
files are imported, and of the result. -/
structure Project.Runs (p : Project) (isFile : Path → Bool) (file : Path) (t : Text)
    (r₁ r₂ : Reading) (ws : List Warning) : Prop where
  modules : Reading.Modules p.vocabulary p.vocabulary.sortedModules (Script.parse t).reading ws r₁
  data : Reading.Data p.data isFile (file.relativeTo p.root) p.vocabulary.data.rules r₁ r₂
  specifiers : (Script.parse (p.plan isFile file t).text).reading =
    r₂.retarget (p.data.target? isFile (p.data.directoryOf file))
  warnings : ∀ w ∈ ws, w ∈ (p.plan isFile file t).warnings

/-- The plan for a file before its specifiers are exchanged. -/
def Project.planOfImports (p : Project) (isFile : Path → Bool) (file : Path) (t : Text) : Plan :=
  ((p.vocabulary.sortedModules.map fun m => moduleStep p.vocabulary m (lineBreakOf t)) ++
    p.vocabulary.data.rules.map fun r =>
      dataStep p.data isFile (file.relativeTo p.root) r (lineBreakOf t)).foldl Plan.advance
        { text := t }

theorem Project.plan_eq_advance (p : Project) (isFile : Path → Bool) (file : Path) (t : Text) :
    p.plan isFile file t =
      (p.planOfImports isFile file t).advance (specifierStep p.data isFile file) := by
  rw [plan, steps, List.foldl_append]
  rfl

namespace Project.Clear

variable {p : Project} {isFile : Path → Bool} {file : Path} {t : Text}

/-- The edits of the specifiers are clear. -/
theorem allClear (h : p.Clear isFile file t) :
    AllClear (p.planOfImports isFile file t).text (Sorting.sort Edit.before (specifierStep p.data
      isFile file (Script.parse (p.planOfImports isFile file t).text)).edits) :=
  h.edits.append.2.1

/-- Specifiers are exchanged for others that can stand between quotes. -/
theorem plain_retargeted (h : p.Clear isFile file t) : ∀ q ∈ (p.data.retargetScript isFile file
      (Script.parse (p.planOfImports isFile file t).text)).retargeted,
    '\n' ∉ q.1.toList ∧ isPlain q.2.toList := by
  intro q hq
  refine h.specifiers ⟨.retargeted, q.1, q.2⟩ ?_ rfl
  rw [plan_eq_advance]
  exact List.mem_append_right _ (List.mem_map.2 ⟨q, hq, rfl⟩)

theorem runs (hv : p.vocabulary.Plain) (h : p.Clear isFile file t) :
    ∃ r₁ r₂ ws, p.Runs isFile file t r₁ r₂ ws := by
  have he := isLineBreak_lineBreakOf t
  obtain ⟨hms, hdata⟩ := h.edits.append.1.append
  have hsorted : ∀ m ∈ p.vocabulary.sortedModules, m ∈ p.vocabulary.modules := fun m hm =>
    Sorting.mem_sort.1 hm
  obtain ⟨ws, hrun, hws⟩ := modules_of_clear hsorted hv he hms
  have hsupplies := data_of_clear (fun r hr => hr) rfl hv he hdata
  rw [← List.foldl_append] at hsupplies
  refine ⟨_, _, ws, hrun, hsupplies, ?_, fun w hw => ?_⟩
  · rw [plan_eq_advance]
    exact (specifierStep_retargets h.plain_retargeted h.allClear).1
  · rw [plan_eq_advance]
    refine List.mem_append_left _ ?_
    rw [planOfImports, List.foldl_append]
    refine Plan.mem_warnings_foldl ?_ _
    rw [hws]
    exact List.mem_append_right _ hw

end Project.Clear

-- ---------------------------------------------------------------------------
-- The declarations of one module along a run
-- ---------------------------------------------------------------------------

namespace Reading

variable {v : Vocabulary} {module other : String} {ws : List Warning} {r r' : Reading}

theorem mem_declarationsOf {d : Declaration} :
    d ∈ r.declarationsOf module ↔ d ∈ r.declarations ∧ d.specifier = module := by
  rw [declarationsOf, List.mem_filter, beq_iff_eq]

theorem Updates.declarationsOf {removed added : List Declaration} (h : r.Updates r' removed added)
    (module : String) :
    (r'.declarationsOf module ++ removed.filter (·.specifier == module)).Perm
      (r.declarationsOf module ++ added.filter (·.specifier == module)) := by
  have := h.declarations.filter (·.specifier == module)
  rwa [List.filter_append, List.filter_append] at this

theorem filter_declarationsOf (r : Reading) (module other : String) :
    (r.declarationsOf module).filter (·.specifier == other) =
      if module = other then r.declarationsOf module else [] := by
  split
  · next heq =>
    subst heq
    exact List.filter_eq_self.2 fun d hd => beq_iff_eq.2 (mem_declarationsOf.1 hd).2
  · next hne =>
    refine List.filter_eq_nil_iff.2 fun d hd => ?_
    rw [(mem_declarationsOf.1 hd).2, beq_iff_eq]
    exact hne

namespace Normalizes

theorem uses (h : r.Normalizes v module ws r') : r'.uses = r.uses := by
  cases h with
  | idle => rfl
  | merged _ _ _ h => exact h.uses

/-- The declarations of another module stay. -/
theorem declarationsOf_other (h : r.Normalizes v other ws r') (hne : other ≠ module) :
    (r'.declarationsOf module).Perm (r.declarationsOf module) := by
  cases h with
  | idle => exact List.Perm.refl _
  | @merged _ c style us hus hc haccounts h =>
    have hperm := h.declarationsOf module
    have hspec : ((c.declaration style).specifier == module) = false :=
      beq_eq_false_iff_ne.2 fun heq => hne (hc.specifier.symm.trans heq)
    rwa [filter_declarationsOf, if_neg hne, List.append_nil, List.filter_cons, hspec,
      if_neg Bool.false_ne_true, List.filter_nil, List.append_nil] at hperm

/-- The module has one declaration then, or what it has binds nothing. -/
theorem declarationsOf_self (h : r.Normalizes v module ws r') :
    (r' = r ∧ (∀ d ∈ r.declarationsOf module, d.default? = none ∧ d.named = []) ∧
        ∀ u, r.Uses v u → u.module ≠ module) ∨
      ∃ (c : Canonical) (style : Style) (us : List Usage), (∀ u, u ∈ us ↔ r.Uses v u ∧ u.module = module) ∧
        c.Merges module (r.declarationsOf module) us ∧
        r'.declarationsOf module = [c.declaration style] ∧
        ∀ d ∈ r.declarationsOf module, ∀ name, d.default? = some name →
          c.default? = some name ∨ ∃ kept, .defaultConflict module kept name ∈ ws := by
  cases h with
  | idle hbinds huses => exact .inl ⟨rfl, hbinds, huses⟩
  | @merged _ c style us hus hc haccounts h =>
    have hperm := h.declarationsOf module
    have hspec : ((c.declaration style).specifier == module) = true := beq_iff_eq.2 hc.specifier
    rw [filter_declarationsOf, if_pos rfl, List.filter_cons, hspec, if_pos rfl,
      List.filter_nil] at hperm
    have hcanonical := (List.perm_append_right_iff _).1 (hperm.trans List.perm_append_comm)
    exact .inr ⟨c, style, us, hus, hc, List.perm_singleton.1 hcanonical, haccounts⟩

end Normalizes

theorem Supplies.declarationsOf {due : Prop} {specifier binding : String}
    (h : r.Supplies due specifier binding r') (hne : specifier ≠ module) :
    (r'.declarationsOf module).Perm (r.declarationsOf module) := by
  cases h with
  | idle => exact List.Perm.refl _
  | added hdue hunbound h =>
    have hperm := h.declarationsOf module
    have hspec : ((dataDeclaration specifier binding).specifier == module) = false :=
      beq_eq_false_iff_ne.2 hne
    rwa [List.filter_nil, List.append_nil, List.filter_cons, hspec, if_neg Bool.false_ne_true,
      List.filter_nil, List.append_nil] at hperm

/-- Data files are imported beside the declarations of a module. -/
theorem Data.declarationsOf {data : DataDirectory} {isFile : Path → Bool} {path : Path}
    {rules : List DataRule} (h : Data data isFile path rules r r')
    (hmodule : ¬ data.Addresses module) :
    (r'.declarationsOf module).Perm (r.declarationsOf module) := by
  induction h with
  | nil => exact List.Perm.refl _
  | @cons rule rules r r' r'' h hs ih =>
    refine ih.trans (h.declarationsOf ?_)
    rintro rfl
    exact hmodule (.inl ⟨rule.file.toList, by rw [String.toList_append]⟩)

theorem declarationsOf_retarget {data : DataDirectory} {isFile : Path → Bool} {fileDir : Path}
    (hmodule : ¬ data.Addresses module) :
    (r.retarget (data.target? isFile fileDir)).declarationsOf module =
      (r.declarationsOf module).map (Declaration.retarget (data.target? isFile fileDir)) := by
  rw [Reading.declarationsOf, Reading.declarationsOf, Reading.retarget, List.filter_map]
  congr 2
  funext d
  rw [Function.comp_apply, Bool.eq_iff_iff, beq_iff_eq, beq_iff_eq]
  exact Declaration.specifier_retarget_eq hmodule d

end Reading

namespace Project.Runs

variable {p : Project} {isFile : Path → Bool} {file : Path} {t : Text} {r₁ r₂ : Reading}
  {ws : List Warning} {module : String}

/-- What the declarations of a module are in the result, once modules are normalized. -/
theorem declarationsOf (h : p.Runs isFile file t r₁ r₂ ws) (hmodule : ¬ p.data.Addresses module) :
    ((Script.parse (p.plan isFile file t).text).reading.declarationsOf module).Perm
      ((r₁.declarationsOf module).map
        (Declaration.retarget (p.data.target? isFile (p.data.directoryOf file)))) := by
  rw [h.specifiers, Reading.declarationsOf_retarget hmodule]
  exact (h.data.declarationsOf hmodule).map _

end Project.Runs

end TidyImports
