-- SUMMARY: A plan that records no change leaves the text as it is.
import TidyImports.Plan

/-!
# Quiet steps

Each step records a change with its edits. So a plan without changes has made
no edit, and a run that skips it skips nothing.
-/

namespace TidyImports

variable {v : Vocabulary} {m : ModuleRule} {eol : Text} {s : Script}

/-- The step of a module does nothing, or writes the import that its declarations and the uses of
its symbols call for. -/
theorem moduleStep_cases (v : Vocabulary) (m : ModuleRule) (eol : Text) (s : Script) :
    (moduleStep v m eol s).edits = [] ∧ (moduleStep v m eol s).changes = [] ∨
      ∃ canonical rendered,
        (synthesize m.specifier (s.declarationsOf m.specifier) (s.usages v)).render? =
          some rendered ∧
        (s.declarationsOf m.specifier = [] → (s.usages v).ofModule m.specifier ≠ []) ∧
        (moduleStep v m eol s).edits =
          (canonicalStep v m eol s (s.declarationsOf m.specifier) canonical rendered).edits ∧
        (moduleStep v m eol s).changes =
          (canonicalStep v m eol s (s.declarationsOf m.specifier) canonical rendered).changes := by
  rw [moduleStep]
  split
  · exact .inl ⟨rfl, rfl⟩
  · next hused =>
    simp only
    split
    · next canonical rendered hcanonical hrendered =>
      refine .inr ⟨canonical, rendered, hrendered, fun hnone => ?_, rfl, rfl⟩
      simpa [hnone] using hused
    · exact .inl ⟨rfl, rfl⟩

/-- The edits of a module's step: the client directive, the import on a line of its own, the import
in place of the one that is there, and the removal of those that are there. -/
inductive ModuleEdit (v : Vocabulary) (m : ModuleRule) (eol : Text) (s : Script) (rendered : Text) :
    Edit → Prop
  | directive : ModuleEdit v m eol s rendered (.insertion s.text.directiveOffset
      ('\'' :: v.clientDirective.toList ++ ['\'', ';'] ++ eol ++ eol))
  | line : ModuleEdit v m eol s rendered (insertLine s.text s.insertionOffset rendered eol)
  | rewrite {d : Declaration} (hd : d ∈ s.declarationsOf m.specifier) :
      ModuleEdit v m eol s rendered ⟨d.span, rendered⟩
  | removal {d : Declaration} (hd : d ∈ s.declarationsOf m.specifier) :
      ModuleEdit v m eol s rendered (removeDeclaration s.text d)

/-- Does a change put a line in? -/
def Change.PutsLine (c : Change) : Prop := c.kind = .inserted ∨ c.kind = .merged

instance (c : Change) : Decidable c.PutsLine := inferInstanceAs (Decidable (_ ∨ _))

/-- A module's step does nothing, rewrites the one import of the module, or puts in a line. -/
theorem moduleStep_edits (v : Vocabulary) (m : ModuleRule) (eol : Text) (s : Script) :
    (moduleStep v m eol s).edits = [] ∧ (moduleStep v m eol s).changes = [] ∨ ∃ rendered,
      (synthesize m.specifier (s.declarationsOf m.specifier) (s.usages v)).render? = some rendered ∧
      (∀ e ∈ (moduleStep v m eol s).edits, ModuleEdit v m eol s rendered e) ∧
      (insertLine s.text s.insertionOffset rendered eol ∈ (moduleStep v m eol s).edits ∧
          (∃ c ∈ (moduleStep v m eol s).changes, c.PutsLine) ∨
        ∃ d, s.declarationsOf m.specifier = [d] ∧
          (moduleStep v m eol s).edits = [⟨d.span, rendered⟩] ∧
          (moduleStep v m eol s).changes = [⟨.patched, m.specifier, String.ofList rendered⟩]) := by
  rcases moduleStep_cases v m eol s with hnone | ⟨canonical, rendered, hr, -, hedits, hchanges⟩
  · exact .inl hnone
  rw [hedits, hchanges, canonicalStep.eq_def]
  generalize hds : s.declarationsOf m.specifier = ds at hr ⊢
  match ds with
  | [] =>
    refine .inr ⟨rendered, hr, fun e he => ?_, .inl ⟨List.mem_append_right _
      (List.mem_cons_self ..), _, List.mem_singleton_self _, .inl rfl⟩⟩
    rcases List.mem_append.1 he with he | he
    · rw [directiveEdits] at he
      split at he
      · rw [List.mem_singleton.1 he]
        exact .directive
      · cases he
    · rw [List.mem_singleton.1 he]
      exact .line
  | [d] =>
    simp only
    split
    · exact .inl ⟨rfl, rfl⟩
    · refine .inr ⟨rendered, hr, fun e he => ?_, .inr ⟨d, rfl, rfl, rfl⟩⟩
      rw [List.mem_singleton.1 he]
      exact .rewrite (hds ▸ List.mem_singleton_self d)
  | d :: d' :: more =>
    refine .inr ⟨rendered, hr, fun e he => ?_, .inl ⟨List.mem_cons_self .., _,
      List.mem_singleton_self _, .inr rfl⟩⟩
    rcases List.mem_cons.1 he with rfl | he
    · exact .line
    · obtain ⟨k, hk, rfl⟩ := List.mem_map.1 he
      exact .removal (hds ▸ hk)

theorem moduleStep_quiet (h : (moduleStep v m eol s).changes = []) :
    (moduleStep v m eol s).edits = [] := by
  rcases moduleStep_edits v m eol s with ⟨hnone, -⟩ | ⟨_, -, -, ⟨-, c, hc, -⟩ | ⟨d, -, -, hpatched⟩⟩
  · exact hnone
  · rw [h] at hc
    cases hc
  · rw [h] at hpatched
    cases hpatched

/-- The step of a data rule does nothing, or puts in a line. -/
theorem dataStep_edits (data : DataDirectory) (isFile : Path → Bool) (path : Path) (r : DataRule)
    (eol : Text) (s : Script) :
    let line := "import " ++ r.binding ++ " from \"" ++ (data.shorthand ++ r.file) ++ "\";"
    (dataStep data isFile path r eol s).edits = [] ∧
        (dataStep data isFile path r eol s).changes = [] ∨
      (dataStep data isFile path r eol s).edits =
          [insertLine s.text s.insertionOffset line.toList eol] ∧
        (dataStep data isFile path r eol s).changes =
          [⟨.inserted, data.shorthand ++ r.file, line⟩] := by
  intro line
  rw [dataStep]
  split
  · exact .inl ⟨rfl, rfl⟩
  · simp only
    split
    · exact .inl ⟨rfl, rfl⟩
    · exact .inr ⟨rfl, rfl⟩

theorem dataStep_quiet {data : DataDirectory} {isFile : Path → Bool} {path : Path} {r : DataRule}
    (h : (dataStep data isFile path r eol s).changes = []) :
    (dataStep data isFile path r eol s).edits = [] := by
  rcases dataStep_edits data isFile path r eol s with ⟨hnone, -⟩ | ⟨-, hinserted⟩
  · exact hnone
  · rw [h] at hinserted
    cases hinserted

theorem specifierStep_quiet {data : DataDirectory} {isFile : Path → Bool} {file : Path}
    (h : (specifierStep data isFile file s).changes = []) :
    (specifierStep data isFile file s).edits = [] := by
  rw [specifierStep, List.map_eq_nil_iff, DataDirectory.retargetScript] at h
  rw [specifierStep, DataDirectory.retargetScript]
  simp only [List.filterMap_eq_nil_iff] at h ⊢
  rintro ⟨tok, old, verdict⟩ hz
  have hnone := h ⟨tok, old, verdict⟩ hz
  cases verdict with
  | keep => rfl
  | missing target => rfl
  | retarget new => cases hnone

theorem Project.quiet_of_mem_steps {p : Project} {isFile : Path → Bool} {file : Path}
    {step : Script → Step} (hstep : step ∈ p.steps isFile file eol) (h : (step s).changes = []) :
    (step s).edits = [] := by
  rw [steps, List.mem_append, List.mem_append] at hstep
  rcases hstep with (hstep | hstep) | hstep
  · obtain ⟨m, -, rfl⟩ := List.mem_map.1 hstep
    exact moduleStep_quiet h
  · obtain ⟨r, -, rfl⟩ := List.mem_map.1 hstep
    exact dataStep_quiet h
  · cases List.mem_singleton.1 hstep
    exact specifierStep_quiet h

/-- What each step keeps of a plan, steps in a row keep. -/
theorem Plan.foldl_keeps {P : Plan → Prop} {steps : List (Script → Step)}
    (h : ∀ step ∈ steps, ∀ plan : Plan, P plan → P (plan.advance step)) {p : Plan} (hp : P p) :
    P (steps.foldl advance p) := by
  induction steps generalizing p with
  | nil => exact hp
  | cons step steps ih =>
    exact ih (fun next hnext => h next (List.mem_cons_of_mem _ hnext))
      (h step (List.mem_cons_self ..) p hp)

theorem Plan.text_foldl_quiet {p : Plan} {steps : List (Script → Step)}
    (hsteps : ∀ step ∈ steps, ∀ s, (step s).changes = [] → (step s).edits = [])
    (h : (steps.foldl advance p).changes = []) : (steps.foldl advance p).text = p.text := by
  have hgrows : ∀ (steps : List (Script → Step)) (p : Plan),
      p.changes <+: (steps.foldl advance p).changes := by
    intro steps
    induction steps with
    | nil => exact fun p => List.prefix_refl _
    | cons step steps ih => exact fun p => (List.prefix_append ..).trans (ih (p.advance step))
  induction steps generalizing p with
  | nil => rfl
  | cons step steps ih =>
    have hnone : (p.advance step).changes = [] := by
      have := hgrows steps (p.advance step)
      rw [List.foldl_cons] at h
      rw [h] at this
      exact List.prefix_nil.1 this
    have hquiet := hsteps step (List.mem_cons_self ..) (Script.parse p.text)
      (List.append_eq_nil_iff.1 hnone).2
    rw [List.foldl_cons, ih (fun s hs => hsteps s (List.mem_cons_of_mem _ hs)) h, advance, hquiet]
    rfl

/-- A plan without changes has its text from the file. -/
theorem Project.text_plan_of_isNoop {p : Project} {isFile : Path → Bool} {file : Path} {t : Text}
    (h : (p.plan isFile file t).isNoop) : (p.plan isFile file t).text = t :=
  Plan.text_foldl_quiet (fun _ hstep _ => quiet_of_mem_steps hstep) (List.isEmpty_iff.1 h)

end TidyImports
