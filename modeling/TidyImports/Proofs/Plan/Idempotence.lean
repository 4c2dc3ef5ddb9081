-- SUMMARY: A clear plan of a text that is a plan already changes nothing.
import TidyImports.Proofs.Plan.Normal

/-!
# Plans are idempotent

In the text of a clear plan each module is normal, each data file that is due is
bound, and each specifier leads where it should. So the steps of a second plan
do nothing, as long as no discarded default set a symbol of an earlier module
free, and no specifier was exchanged for one that is exchanged again.
-/

namespace TidyImports

open Text Lexer Edit

namespace Reading

variable {v : Vocabulary} {module specifier binding name : String} {due : Prop} {r r' : Reading}
  {data : DataDirectory} {isFile : Path → Bool} {path fileDir : Path} {rules : List DataRule}

-- ---------------------------------------------------------------------------
-- Data files
-- ---------------------------------------------------------------------------

/-- Does a reading use the same names as another, and bind at least those that the other binds? -/
structure Extends (r' r : Reading) : Prop where
  uses : r'.uses = r.uses
  itself (name : String) : r.bindsItself name → r'.bindsItself name
  declarations : ∀ d ∈ r.declarations, d ∈ r'.declarations

theorem Updates.extends {added : List Declaration} (h : r.Updates r' [] added) : r'.Extends r where
  uses := h.uses
  itself _ := h.bindsItself_iff.2
  declarations d hd := by
    have := h.declarations.mem_iff.2 (List.mem_append_left added hd)
    rwa [List.append_nil] at this

theorem Supplies.extends (h : r.Supplies due specifier binding r') : r'.Extends r := by
  cases h with
  | idle => exact ⟨rfl, fun _ h => h, fun _ h => h⟩
  | added hdue hunbound h => exact h.extends

theorem Extends.not_unbound (h : r'.Extends r) (hr : ¬ r.Unbound name) : ¬ r'.Unbound name := by
  rintro ⟨huses, hbinds⟩
  refine hr ⟨h.uses ▸ huses, fun hbound => hbinds ?_⟩
  rcases hbound with hitself | ⟨d, hd, hd'⟩
  · exact .inl (h.itself name hitself)
  · exact .inr ⟨d, h.declarations d hd, hd'⟩

/-- Once a data rule is done, its file is not to be imported again. -/
theorem Supplies.not_unbound (h : r.Supplies due specifier binding r') (hdue : due) :
    ¬ r'.Unbound binding := by
  cases h with
  | idle h => exact h hdue
  | added _ _ h =>
    rintro ⟨-, hbinds⟩
    refine hbinds (.inr ⟨dataDeclaration specifier binding, ?_, ?_⟩)
    · have := h.declarations.mem_iff.2
        (List.mem_append_right _ (List.mem_singleton_self (dataDeclaration specifier binding)))
      rwa [List.append_nil] at this
    · exact Declaration.mem_localNames.2 (.inl rfl)

theorem Data.not_unbound_of_not_unbound (h : Data data isFile path rules r r')
    (hr : ¬ r.Unbound name) : ¬ r'.Unbound name := by
  induction h with
  | nil => exact hr
  | cons h hs ih => exact ih (h.extends.not_unbound hr)

theorem Data.not_unbound (h : Data data isFile path rules r r') :
    ∀ rule ∈ rules, rule.Due data isFile path → ¬ r'.Unbound rule.binding := by
  induction h with
  | nil => exact fun rule hrule => by cases hrule
  | cons h hs ih =>
    intro rule hrule hdue
    rcases List.mem_cons.1 hrule with rfl | hrule
    · exact hs.not_unbound_of_not_unbound (h.not_unbound hdue)
    · exact ih rule hrule hdue

/-- Importing data files leaves a module normal that is none of them. -/
theorem Data.isNormal (h : Data data isFile path rules r r') (hmodule : ¬ data.Addresses module)
    (hr : r.IsNormal v module) : r'.IsNormal v module := by
  have hextends : r'.Extends r := by
    clear hr
    induction h with
    | nil => exact ⟨rfl, fun _ h => h, fun _ h => h⟩
    | cons h hs ih =>
      have h₁ := h.extends
      exact ⟨ih.uses.trans h₁.uses, fun name hname => ih.itself name (h₁.itself name hname),
        fun d hd => ih.declarations d (h₁.declarations d hd)⟩
  refine hr.perm (h.declarationsOf hmodule) fun u hu _ => ?_
  refine hu.of_bindsElsewhere hextends.uses ?_
  rintro (hitself | ⟨d, hd, hne, hname⟩)
  · exact .inl (hextends.itself _ hitself)
  · exact .inr ⟨d, hextends.declarations d hd, hne, hname⟩

-- ---------------------------------------------------------------------------
-- Specifiers
-- ---------------------------------------------------------------------------

theorem not_unbound_retarget {g : Text → Option Text} (hr : ¬ r.Unbound name) :
    ¬ (r.retarget g).Unbound name := by
  rintro ⟨huses, hbinds⟩
  refine hr ⟨huses, fun hbound => hbinds (hbound.imp_right ?_)⟩
  rintro ⟨d, hd, hname⟩
  exact ⟨d.retarget g, List.mem_map_of_mem hd, hname⟩

/-- Exchanging the specifiers of data files leaves a module normal. -/
theorem isNormal_retarget (hmodule : ¬ data.Addresses module) (hr : r.IsNormal v module) :
    (r.retarget (data.target? isFile fileDir)).IsNormal v module := by
  have huses : ∀ u, (r.retarget (data.target? isFile fileDir)).Uses v u → u.module = module →
      r.Uses v u := fun u hu heq => by
    refine hu.of_bindsElsewhere rfl fun hbound => hbound.imp_right ?_
    rintro ⟨d, hd, hne, hname⟩
    refine ⟨d.retarget _, List.mem_map_of_mem hd, ?_, hname⟩
    rw [heq] at hne ⊢
    rwa [ne_eq, Declaration.specifier_retarget_eq hmodule]
  rw [IsNormal, declarationsOf_retarget hmodule]
  rcases hr with ⟨hbinds, hnone⟩ | ⟨d, hd, hascending, hcovers⟩
  · refine .inl ⟨fun d hd => ?_, fun u hu heq => hnone u (huses u hu heq) heq⟩
    obtain ⟨k, hk, rfl⟩ := List.mem_map.1 hd
    exact hbinds k hk
  · refine .inr ⟨d.retarget _, by rw [hd, List.map_singleton], hascending, fun u hu heq => ?_⟩
    exact hcovers u (huses u hu heq) heq

end Reading

/-- Once specifiers are exchanged the step has nothing to do, unless some new one is to be exchanged
again. -/
theorem specifierStep_idle {data : DataDirectory} {isFile : Path → Bool} {file : Path} {t : Text}
    (hplain : ∀ p ∈ (data.retargetScript isFile file (Script.parse t)).retargeted,
      '\n' ∉ p.1.toList ∧ isPlain p.2.toList)
    (hkept : ∀ p ∈ (data.retargetScript isFile file (Script.parse t)).retargeted,
      data.target? isFile (data.directoryOf file) p.2.toList = none)
    (hclear : AllClear t (Sorting.sort Edit.before
      (specifierStep data isFile file (Script.parse t)).edits)) :
    (specifierStep data isFile file (Script.parse (Edit.applyAll
      (specifierStep data isFile file (Script.parse t)).edits t))).IsIdle := by
  obtain ⟨-, hflags⟩ := specifierStep_retargets hplain hclear
  have hedits : (data.retargetScript isFile file (Script.parse (Edit.applyAll
      (specifierStep data isFile file (Script.parse t)).edits t))).edits = [] := by
    rw [DataDirectory.edits_retargetScript, hflags]
    refine retargetEdits_eq_nil (fun w hw => ?_) _
    obtain ⟨z, hz, rfl⟩ := List.mem_map.1 hw
    have hp := Part.proper_of_mem_allFlags hz
    refine retargeted?_retarget hp fun new hnew => ?_
    obtain ⟨q, old, -, -, -, hold, -, -, -⟩ := retarget_eq_some hp hnew
    have := hkept _ (DataDirectory.mem_retargeted hz hold hnew)
    rwa [String.toList_ofList] at this
  refine ⟨hedits, ?_⟩
  rw [specifierStep, DataDirectory.retargeted_eq_nil hedits]
  rfl

-- ---------------------------------------------------------------------------
-- Plans
-- ---------------------------------------------------------------------------

/-- The step of a data rule does nothing where its file is not due, or its name is not unbound. -/
theorem dataStep_idle {data : DataDirectory} {isFile : Path → Bool} {path : Path} {rule : DataRule}
    {eol t : Text}
    (h : rule.Due data isFile path → ¬ (Script.parse t).reading.Unbound rule.binding) :
    (dataStep data isFile path rule eol (Script.parse t)).IsIdle := by
  rw [dataStep]
  split
  · exact ⟨rfl, rfl⟩
  · next hcond =>
    simp only [Bool.or_eq_true, Bool.not_eq_true', not_or, Bool.not_eq_false] at hcond
    obtain ⟨hpath, hname⟩ := hcond
    simp only
    split
    · exact ⟨rfl, rfl⟩
    · next hfile =>
      simp only [Bool.not_eq_true', Bool.not_eq_false] at hfile
      exact absurd (Script.hasUnbound_iff.1 hname) (h ⟨hpath, hfile⟩)

/-- Modules of different specifiers are taken in the strict order of these. -/
theorem Vocabulary.pairwise_sortedModules {v : Vocabulary}
    (h : (v.modules.map ModuleRule.specifier).Nodup) :
    v.sortedModules.Pairwise fun a b => a.specifier < b.specifier := by
  have hdistinct : v.sortedModules.Pairwise fun a b => a.specifier ≠ b.specifier :=
    List.pairwise_map.1 (((Sorting.sort_perm _ v.modules).map ModuleRule.specifier).nodup_iff.2 h)
  have hsorted : v.sortedModules.Pairwise fun a b => decide (a.specifier ≤ b.specifier) :=
    Sorting.pairwise_sort
      (fun a b c hab hbc => decide_eq_true
        (String.le_trans (of_decide_eq_true hab) (of_decide_eq_true hbc)))
      fun a b => (String.le_total a.specifier b.specifier).imp decide_eq_true decide_eq_true
  exact (hsorted.and hdistinct).imp fun {a b} ⟨hle, hne⟩ =>
    String.not_le.1 fun hge => hne (String.le_antisymm (of_decide_eq_true hle) hge)

/-- Does no default that a plan discards set a symbol of an earlier module free? -/
def Plan.FreesNoSymbol (p : Plan) (v : Vocabulary) : Prop :=
  ∀ other kept name, .defaultConflict other kept name ∈ p.warnings →
    ∀ module, module < other → ¬ v.HasSymbol module name

/-- Is no specifier exchanged for one that is to be exchanged again? -/
def Plan.RetargetsForGood (p : Plan) (data : DataDirectory) (isFile : Path → Bool)
    (file : Path) : Prop :=
  ∀ c ∈ p.changes, c.kind = .retargeted →
    data.target? isFile (data.directoryOf file) c.detail.toList = none

instance (p : Plan) (data : DataDirectory) (isFile : Path → Bool) (file : Path) :
    Decidable (p.RetargetsForGood data isFile file) :=
  inferInstanceAs (Decidable (∀ c ∈ p.changes, _ → _ = none))

/-- The plan of a text that comes of a clear plan changes nothing. -/
theorem Project.plan_plan {p : Project} {isFile : Path → Bool} {file : Path} {t : Text}
    (hv : p.vocabulary.Plain) (hc : p.Clear isFile file t)
    (hdistinct : (p.vocabulary.modules.map ModuleRule.specifier).Nodup)
    (hmodules : ∀ m ∈ p.vocabulary.modules, ¬ p.data.Addresses m.specifier)
    (hfrees : (p.plan isFile file t).FreesNoSymbol p.vocabulary)
    (hretargets : (p.plan isFile file t).RetargetsForGood p.data isFile file) :
    (p.plan isFile file (p.plan isFile file t).text).text = (p.plan isFile file t).text ∧
      (p.plan isFile file (p.plan isFile file t).text).isNoop := by
  have hstill : ∀ step ∈ p.steps isFile file (lineBreakOf (p.plan isFile file t).text),
      (step (Script.parse (p.plan isFile file t).text)).IsIdle := by
    obtain ⟨r₁, r₂, ws, hrun⟩ := hc.runs hv
    have hnormal := hrun.modules.isNormal (Vocabulary.pairwise_sortedModules hdistinct)
      fun other kept name hw => hfrees other kept name (hrun.warnings _ hw)
    intro step hstep
    rw [steps, List.mem_append, List.mem_append] at hstep
    rcases hstep with (hstep | hstep) | hstep
    · obtain ⟨m, hm, rfl⟩ := List.mem_map.1 hstep
      have hmodule := hmodules m (Sorting.mem_sort.1 hm)
      refine moduleStep_idle hv ?_
      rw [hrun.specifiers]
      exact Reading.isNormal_retarget hmodule (hrun.data.isNormal hmodule (hnormal m hm))
    · obtain ⟨r, hr, rfl⟩ := List.mem_map.1 hstep
      refine dataStep_idle fun hdue => ?_
      rw [hrun.specifiers]
      exact Reading.not_unbound_retarget (hrun.data.not_unbound r hr hdue)
    · cases List.mem_singleton.1 hstep
      rw [plan_eq_advance]
      refine specifierStep_idle hc.plain_retargeted (fun q hq => ?_) hc.allClear
      refine hretargets ⟨.retargeted, q.1, q.2⟩ ?_ rfl
      rw [plan_eq_advance]
      exact List.mem_append_right _ (List.mem_map.2 ⟨q, hq, rfl⟩)
  obtain ⟨htext, hchanges⟩ := Plan.advance_idle (p := { text := (p.plan isFile file t).text }) hstill
  exact ⟨htext, List.isEmpty_iff.2 hchanges⟩

/-- Imports that are merged stay merged, and a specifier that leads to a data file stays. -/
theorem Project.plan_plan_sample :
    let planned := sample.plan sampleData ⟨"a.js"⟩ samplePage
    sample.vocabulary.Plain ∧ sample.Clear sampleData ⟨"a.js"⟩ samplePage ∧
      (sample.vocabulary.modules.map ModuleRule.specifier).Nodup ∧
      (∀ m ∈ sample.vocabulary.modules, ¬ sample.data.Addresses m.specifier) ∧
      planned.FreesNoSymbol sample.vocabulary ∧
      planned.RetargetsForGood sample.data sampleData ⟨"a.js"⟩ ∧ planned.text ≠ samplePage ∧
      (sample.plan sampleData ⟨"a.js"⟩ planned.text).text = planned.text ∧
      (sample.plan sampleData ⟨"a.js"⟩ planned.text).isNoop := by
  intro planned
  have hplanned : planned = samplePlan := plan_sample
  have hdistinct : (sample.vocabulary.modules.map ModuleRule.specifier).Nodup := by decide
  have hmodules : ∀ m ∈ sample.vocabulary.modules, ¬ sample.data.Addresses m.specifier := by
    decide +kernel
  have hfrees : planned.FreesNoSymbol sample.vocabulary := by
    rw [hplanned]
    intro other kept name hw
    cases hw
  have hretargets : planned.RetargetsForGood sample.data sampleData ⟨"a.js"⟩ := by
    rw [hplanned]
    decide +kernel
  have hchanged : planned.text ≠ samplePage := by
    rw [hplanned]
    decide
  exact ⟨Vocabulary.plain_builtin, clear_sample, hdistinct, hmodules, hfrees, hretargets, hchanged,
    plan_plan Vocabulary.plain_builtin clear_sample hdistinct hmodules hfrees hretargets⟩

end TidyImports
