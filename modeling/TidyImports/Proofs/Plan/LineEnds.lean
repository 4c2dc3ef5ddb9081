-- SUMMARY: A plan keeps the line breaks of a text with carriage returns, and brings none into others.
import TidyImports.Proofs.DataFile.Effects
import TidyImports.Proofs.Edits.Breaks
import TidyImports.Proofs.Plan.Characters
import TidyImports.Proofs.Plan.Frame

/-!
# Line ends of a plan

The lines that a plan puts in end as those of the text do, and no edit ends
between a carriage return and its line feed. So a plan keeps to the convention of
the text. It takes all line breaks away if one import holds them all, the plan
rewrites it on one line and puts no line in. Else it keeps one, for a step that
puts a line in ends it, and where an import is rewritten a line break above it or
below it stays.
-/

namespace TidyImports

open Text Lexer Edit

section

variable {t eol : Text}

-- ---------------------------------------------------------------------------
-- Places of edits
-- ---------------------------------------------------------------------------

namespace Text.IsCrlf

theorem splitsNoBreak_markSize (ht : t.IsCrlf) : t.SplitsNoBreak t.markSize := by
  obtain ⟨mark, htext, hsize, -⟩ := t.exists_body
  rw [← hsize]
  refine ht.splitsNoBreak htext ?_
  rcases eq_mark htext with rfl | rfl <;> decide

theorem splitsNoBreak_insertionOffset (ht : t.IsCrlf) :
    t.SplitsNoBreak (Script.parse t).insertionOffset := by
  rcases Script.isLineEdge_insertionOffset t with hedge | hmark
  · exact ht.splitsNoBreak_of_isLineEdge hedge
  · rw [hmark]
    exact ht.splitsNoBreak_markSize

theorem splitsNoBreak_directiveOffset (ht : t.IsCrlf) : t.SplitsNoBreak t.directiveOffset := by
  rcases Script.isLineEdge_directiveOffset t with hmark | hedge
  · rw [hmark]
    exact ht.splitsNoBreak_markSize
  · exact ht.splitsNoBreak_of_isLineEdge hedge

theorem splitsNoBreak_removal {d : Declaration} (ht : t.IsCrlf)
    (hd : d ∈ (Script.parse t).declarations) :
    t.SplitsNoBreak (removeDeclaration t d).span.stop := by
  rcases removeDeclaration_cases t d with hspan | ⟨hspan, -⟩
  · rw [hspan]
    exact Script.splitsNoBreak_stop ht hd
  · rw [hspan]
    exact ht.splitsNoBreak_of_isLineEdge
      (isLineEdge_nextLine (Script.standsIn_of_mem hd).isCut_stop)

/-- No edit of a module's step ends between a carriage return and its line feed. -/
theorem splitsNoBreak_moduleStep {v : Vocabulary} {m : ModuleRule} (ht : t.IsCrlf) :
    ∀ e ∈ (moduleStep v m eol (Script.parse t)).edits, t.SplitsNoBreak e.span.stop := by
  rcases moduleStep_edits v m eol (Script.parse t) with ⟨hnone, -⟩ | ⟨rendered, -, hedits, -⟩
  · rw [hnone]
    exact fun e he => by cases he
  intro e he
  cases hedits e he with
  | directive => exact ht.splitsNoBreak_directiveOffset
  | line => exact ht.splitsNoBreak_insertionOffset
  | rewrite hd => exact Script.splitsNoBreak_stop ht (List.mem_filter.1 hd).1
  | removal hd => exact ht.splitsNoBreak_removal (List.mem_filter.1 hd).1

end Text.IsCrlf

theorem Text.composes_isCrlf : Composes IsCrlf :=
  ⟨isCrlf_nil, fun _ _ ha hb => ha.append hb⟩

-- ---------------------------------------------------------------------------
-- Written imports
-- ---------------------------------------------------------------------------

/-- A written import opens with its keyword and ends with its quote or a `;`. -/
theorem Canonical.exists_end {c : Canonical} {style : Style} {rendered : Text}
    (h : c.render? style = some rendered) :
    ∃ rest k, rendered = "import ".toList ++ (rest ++ [k]) ∧ k ∈ closing := by
  rw [render?] at h
  obtain ⟨clause, -, rfl⟩ := Option.map_eq_some_iff.1 h
  have hquote : style.quote.char ∈ closing := by cases style.quote <;> decide
  by_cases hsemicolon : style.semicolon
  · refine ⟨clause ++ " from ".toList ++ style.quote.char ::
      (c.specifier.toList ++ [style.quote.char]), ';', ?_, by decide⟩
    simp [hsemicolon]
  · refine ⟨clause ++ " from ".toList ++ style.quote.char :: c.specifier.toList,
      style.quote.char, ?_, hquote⟩
    simp [hsemicolon]

/-- A line that is put in leaves a line break: its own. -/
theorem freeBreak_insertLine {t' x y line : Text} {offset : Nat} {k : Char}
    (heol : IsLineBreak eol) (hline : ∃ front, line = front ++ [k]) (hk : k ∈ closing)
    (ht' : t' = x ++ ((insertLine t offset line eol).replacement ++ y)) : t'.FreeBreak := by
  obtain ⟨front, hline⟩ := hline
  obtain ⟨lead, hlead⟩ : ∃ lead : Text,
      (insertLine t offset line eol).replacement = lead ++ line ++ eol := ⟨_, rfl⟩
  refine .ended (x := x ++ lead ++ front) (y := eol ++ y) ?_ hk (List.mem_append_left _ heol.mem)
  rw [ht', hlead, hline]
  simp

-- ---------------------------------------------------------------------------
-- Steps
-- ---------------------------------------------------------------------------

variable {v : Vocabulary} {m : ModuleRule}

/-- A module's step keeps to line breaks with carriage returns. -/
theorem isCrlf_moduleStep (hv : v.Avoids '\n') (hm : m ∈ v.modules) (heol : eol.IsCrlf)
    (ht : t.IsCrlf) : (applyAll (moduleStep v m eol (Script.parse t)).edits t).IsCrlf := by
  have hw : '\n' ∉ writtenCharacters := by decide
  refine (moduleStep_touchOnly v m eol t).separate.isCrlf ht ht.splitsNoBreak_moduleStep ?_
  refine composes_isCrlf.moduleStep heol (isCrlf_of_not_mem (not_mem_directive hw hv))
    fun rendered hr => isCrlf_of_not_mem (not_mem_rendered hw hv hm (fun d hd => ?_) hr)
  exact Script.not_mem_names (by decide) hw (List.mem_filter.1 hd).1

/-- What a step makes of the line breaks of a text. It does nothing, or leaves a line break that no
declaration holds, its own if none was there, or writes a declaration that holds all line breaks on
one line. -/
inductive Step.Breaks (v : Vocabulary) (t : Text) (step : Step) : Prop
  | idle (edits : step.edits = []) (changes : step.changes = [])
  | leaves (text : (applyAll step.edits t).LeavesBreak)
      (source : t.LeavesBreak ∨ ∃ c ∈ step.changes, c.PutsLine)
  | rewrites {m : ModuleRule} {d : Declaration} {detail : String} (module : m ∈ v.modules)
      (mem : d ∈ (Script.parse t).declarationsOf m.specifier) (holds : ¬ d.LeavesBreak t)
      (text : '\n' ∉ applyAll step.edits t)
      (changes : step.changes = [⟨.patched, m.specifier, detail⟩])

theorem moduleStep_breaks (hv : v.Avoids '\n') (hm : m ∈ v.modules) (heol : IsLineBreak eol)
    (ht : t.IsCrlf) (ht' : (applyAll (moduleStep v m eol (Script.parse t)).edits t).IsCrlf) :
    (moduleStep v m eol (Script.parse t)).Breaks v t := by
  rcases moduleStep_edits v m eol (Script.parse t) with ⟨hnone, hquiet⟩ | ⟨rendered, hr, -, hedits⟩
  · exact .idle hnone hquiet
  obtain ⟨canonical, -, hrender⟩ := Option.bind_eq_some_iff.1 hr
  obtain ⟨rest, k, hrendered, hk⟩ := Canonical.exists_end hrender
  rcases hedits with ⟨hline, hputs⟩ | ⟨d, hone, hedits, hchanges⟩
  · obtain ⟨x, y, hx⟩ := (moduleStep_touchOnly v m eol t).separate.exists_put hline
    have hfree := freeBreak_insertLine heol ⟨"import ".toList ++ rest, by simp [hrendered]⟩ hk hx
    exact .leaves (hfree.leavesBreak ht') (.inr hputs)
  have hof : d ∈ (Script.parse t).declarationsOf m.specifier := hone ▸ List.mem_singleton_self d
  have hd : d ∈ (Script.parse t).declarations := (List.mem_filter.1 hof).1
  by_cases hleaves : d.LeavesBreak t
  · have hfree := @freeBreak_of_rewrite t d rest k ht hd hleaves hk
    rw [← hrendered, ← hedits] at hfree
    exact .leaves (hfree.leavesBreak ht')
      (.inl ((freeBreak_of_leavesBreak hd hleaves).leavesBreak ht))
  · refine .rewrites hm hof hleaves (hedits ▸ not_mem_rewrite hd hleaves ?_) hchanges
    exact not_mem_rendered (by decide) hv hm
      (fun k hk => Script.not_mem_names (by decide) (by decide) (List.mem_filter.1 hk).1) hr

variable {data : DataDirectory} {isFile : Path → Bool} {path file : Path} {r : DataRule}

/-- A data rule's step keeps to line breaks with carriage returns. -/
theorem isCrlf_dataStep (hv : v.Avoids '\n') (hr : r ∈ v.data.rules)
    (hdata : data.shorthand = v.data.shorthand) (heol : eol.IsCrlf) (ht : t.IsCrlf) :
    (applyAll (dataStep data isFile path r eol (Script.parse t)).edits t).IsCrlf := by
  have hputs : ∀ e ∈ (dataStep data isFile path r eol (Script.parse t)).edits,
      e.replacement.IsCrlf :=
    composes_isCrlf.dataStep heol (isCrlf_of_not_mem (not_mem_dataLine (by decide) hv hr hdata))
  refine (dataStep_touchOnly data isFile path r eol t).separate.isCrlf ht (fun e he => ?_) hputs
  rcases dataStep_edits data isFile path r eol (Script.parse t) with ⟨hedits, -⟩ | ⟨hedits, -⟩
  · rw [hedits] at he
    cases he
  · rw [hedits, List.mem_singleton] at he
    rw [he]
    exact ht.splitsNoBreak_insertionOffset

theorem dataStep_breaks (heol : IsLineBreak eol)
    (ht' : (applyAll (dataStep data isFile path r eol (Script.parse t)).edits t).IsCrlf) :
    (dataStep data isFile path r eol (Script.parse t)).Breaks v t := by
  rcases dataStep_edits data isFile path r eol (Script.parse t) with
    ⟨hnone, hquiet⟩ | ⟨hline, hchanges⟩
  · exact .idle hnone hquiet
  · obtain ⟨x, y, hx⟩ := (dataStep_touchOnly data isFile path r eol t).separate.exists_put
      (hline ▸ List.mem_singleton_self _)
    have hfree := @freeBreak_insertLine t eol _ x y _ _ ';' heol ⟨("import " ++ r.binding ++
      " from \"" ++ (data.shorthand ++ r.file) ++ "\"").toList, by simp⟩ (by decide) hx
    exact .leaves (hfree.leavesBreak ht') (.inr ⟨_, hchanges ▸ List.mem_singleton_self _, .inl rfl⟩)

-- ---------------------------------------------------------------------------
-- Specifiers
-- ---------------------------------------------------------------------------

/-- The contents of strings hold no line break, so exchanging them keeps all line breaks, if what is
put in holds none either. -/
theorem isCrlf_retarget {g : Text → Option Text} {zs : List (Mark × Bool)} {a tail : Text}
    (hzs : ∀ z ∈ zs, z.1.Proper ∧ (z.1.kind = .string true → ∃ q x, (q = '\'' ∨ q = '"') ∧
      z.1.text = q :: (x ++ [q]) ∧ IsQuotable q x))
    (hg : ∀ old new, g old = some new → '\n' ∉ old → '\n' ∉ new)
    (h : IsCrlf (a ++ (Mark.sources (zs.map Prod.fst) ++ tail))) :
    IsCrlf (a ++ (Mark.sources (zs.map (retarget g)) ++ tail)) ∧
      ('\n' ∈ a ++ (Mark.sources (zs.map Prod.fst) ++ tail) →
        '\n' ∈ a ++ (Mark.sources (zs.map (retarget g)) ++ tail)) := by
  induction zs generalizing a with
  | nil => exact ⟨h, id⟩
  | cons z zs ih =>
    obtain ⟨⟨hproper, hquotable⟩, hzs⟩ := List.forall_mem_cons.1 hzs
    have hcons : ∀ (m : Mark) (ms : List Mark), a ++ (Mark.sources (m :: ms) ++ tail) =
        a ++ m.source ++ (Mark.sources ms ++ tail) := fun m ms => by simp [Mark.source]
    rw [List.map_cons, List.map_cons, hcons, hcons] at *
    cases hnew : retargeted? g z with
    | none =>
      rw [retarget_eq_none hnew]
      exact ih hzs h
    | some new =>
      obtain ⟨q, old, hq, -, hkind, -, hold, htext, heq⟩ := retarget_eq_some hproper hnew
      have hquoted : IsQuotable q old := by
        obtain ⟨k, x, -, hx, hquoted⟩ := hquotable hkind
        rw [htext] at hx
        obtain ⟨rfl, hx⟩ := List.cons.inj hx
        obtain ⟨rfl, -⟩ := List.append_inj' hx rfl
        exact hquoted
      have hown : a ++ z.1.source = a ++ z.1.gap ++ (q :: old ++ [q]) := by
        simp [Mark.source, htext]
      have hput : a ++ (retarget g z).source = a ++ z.1.gap ++ (q :: new ++ [q]) := by
        simp [Mark.source, heq]
      rw [hown] at h
      rw [hown, hput]
      obtain ⟨hcrlf, hmem⟩ := h.requote hq hquoted (hg old new hold)
      obtain ⟨hcrlf, hmem'⟩ := ih hzs hcrlf
      exact ⟨hcrlf, hmem' ∘ hmem⟩

/-- The specifier step writes no other characters than those of the text, of the path of the data
directory, and of paths. -/
theorem specifierStep_not_mem {c : Char} (hslash : c ≠ '/') (hdot : c ≠ '.')
    (hroot : c ∉ data.root.text.toList) (ht : c ∉ t) :
    c ∉ applyAll (specifierStep data isFile file (Script.parse t)).edits t := by
  obtain ⟨mark, tail, htext, happly⟩ := data.exists_sources isFile file t
  rw [htext, List.mem_append, List.mem_append, not_or, not_or] at ht
  obtain ⟨hmark, hsources, htail⟩ := ht
  refine fun hmem => ?_
  rw [specifierStep, happly, List.mem_append, List.mem_append] at hmem
  refine hmem.elim hmark fun hmem => hmem.elim (fun hmem => ?_) htail
  obtain ⟨k, hk, hmem⟩ := List.mem_flatMap.1 hmem
  obtain ⟨z, hz, rfl⟩ := List.mem_map.1 hk
  have hown : c ∉ z.1.source := fun hmem =>
    hsources (List.mem_flatMap.2 ⟨z.1, List.mem_map_of_mem hz, hmem⟩)
  cases hnew : retargeted? (data.target? isFile (data.directoryOf file)) z with
  | none => exact hown (retarget_eq_none hnew ▸ hmem)
  | some new =>
    obtain ⟨q, old, -, -, -, -, hold, htext, heq⟩ :=
      retarget_eq_some (Part.proper_of_mem_allFlags hz) hnew
    rw [Mark.source, htext] at hown
    simp only [List.mem_append, List.mem_cons, List.not_mem_nil, or_false, not_or] at hown
    have hnot := DataDirectory.not_mem_of_retarget hslash hdot hroot (by simpa using hown.2.1.2)
      (DataDirectory.verdict_of_target? hold)
    rw [Mark.source, heq] at hmem
    simp only [List.mem_append, List.mem_cons, List.not_mem_nil, or_false] at hmem
    rw [String.toList_ofList] at hnot
    rcases hmem with hmem | (hmem | hmem) | hmem
    · exact hown.1 hmem
    · exact hown.2.1.1 hmem
    · exact hnot hmem
    · exact hown.2.2 hmem

/-- The specifier step keeps all line breaks with carriage returns. -/
theorem specifierStep_keeps (hroot : '\n' ∉ data.root.text.toList) (ht : t.IsCrlf) :
    (applyAll (specifierStep data isFile file (Script.parse t)).edits t).IsCrlf ∧
      ('\n' ∈ t → '\n' ∈ applyAll (specifierStep data isFile file (Script.parse t)).edits t) := by
  obtain ⟨mark, tail, htext, happly⟩ := data.exists_sources isFile file t
  have hzs : ∀ z ∈ Part.allFlags false t.parts, z.1.Proper ∧ (z.1.kind = .string true →
      ∃ q x, (q = '\'' ∨ q = '"') ∧ z.1.text = q :: (x ++ [q]) ∧ IsQuotable q x) := by
    refine fun z hz => ⟨Part.proper_of_mem_allFlags hz, quotable_top (t := t.body) ?_⟩
    rw [t.top_body_allFlags.1]
    exact List.mem_map_of_mem hz
  have hg : ∀ old new, data.target? isFile (data.directoryOf file) old = some new →
      '\n' ∉ old → '\n' ∉ new := fun old new hold hline => by
    have hnot := DataDirectory.not_mem_of_retarget (by decide) (by decide) hroot
      (by simpa using hline) (DataDirectory.verdict_of_target? hold)
    simpa using hnot
  have hkeeps := isCrlf_retarget hzs hg (htext ▸ ht)
  rw [← htext, ← happly] at hkeeps
  exact hkeeps

end

-- ---------------------------------------------------------------------------
-- Plans
-- ---------------------------------------------------------------------------

/-- Does a plan rewrite the import of a module where one holds all line breaks of the text, and put
no line in? -/
def Plan.RewritesBreaks (v : Vocabulary) (t : Text) (plan : Plan) : Prop :=
  (∀ c ∈ plan.changes, ¬ c.PutsLine) ∧
    ∃ m ∈ v.modules, ∃ d ∈ (Script.parse t).declarationsOf m.specifier, ¬ d.LeavesBreak t ∧
      ∃ c ∈ plan.changes, c.kind = .patched ∧ c.module = m.specifier

instance (v : Vocabulary) (t : Text) (plan : Plan) : Decidable (plan.RewritesBreaks v t) :=
  inferInstanceAs (Decidable ((∀ c ∈ _, _) ∧ ∃ m ∈ _, ∃ d ∈ _, ¬ _ ∧ ∃ c ∈ _, _ ∧ _))

/-- What becomes of the line breaks of a text in its plan: it is still that text, or it leaves a
line break that was there or was put in, or it has none, for an import that held all was
rewritten. -/
inductive Plan.Breaks (v : Vocabulary) (t : Text) (plan : Plan) : Prop
  | same (text : plan.text = t) (changes : plan.changes = [])
  | leaves (text : plan.text.LeavesBreak)
      (source : t.LeavesBreak ∨ ∃ c ∈ plan.changes, c.PutsLine)
  | rewrites (text : '\n' ∉ plan.text) (changes : plan.RewritesBreaks v t)

/-- The line feeds of a plan's text follow carriage returns, as those of the text do. -/
structure Plan.KeepsBreaks (v : Vocabulary) (t : Text) (plan : Plan) : Prop where
  isCrlf : plan.text.IsCrlf
  breaks : plan.Breaks v t

namespace Plan

variable {v : Vocabulary} {t : Text} {plan : Plan}

/-- A line break that is there or was put in is not rewritten. -/
theorem not_rewritesBreaks (h : t.LeavesBreak ∨ ∃ c ∈ plan.changes, c.PutsLine) :
    ¬ plan.RewritesBreaks v t := by
  rintro ⟨hnone, m, -, d, hd, hholds, -⟩
  rcases h with hleaves | ⟨c, hc, hputs⟩
  · exact hholds (hleaves.2 d (List.mem_filter.1 hd).1)
  · exact hnone c hc hputs

/-- Changes that neither put a line in nor rewrite an import in place do not count. -/
theorem rewritesBreaks_iff_of_quiet {after : Plan} {more : List Change}
    (hchanges : after.changes = plan.changes ++ more)
    (hmore : ∀ c ∈ more, ¬ c.PutsLine ∧ c.kind ≠ .patched) :
    after.RewritesBreaks v t ↔ plan.RewritesBreaks v t := by
  rw [RewritesBreaks, RewritesBreaks, hchanges]
  constructor
  · rintro ⟨hnone, m, hm, d, hd, hholds, c, hc, hkind⟩
    refine ⟨fun c hc => hnone c (List.mem_append_left _ hc), m, hm, d, hd, hholds, c, ?_, hkind⟩
    exact (List.mem_append.1 hc).resolve_right fun hc => (hmore c hc).2 hkind.1
  · rintro ⟨hnone, m, hm, d, hd, hholds, c, hc, hkind⟩
    refine ⟨fun c hc => ?_, m, hm, d, hd, hholds, c, List.mem_append_left _ hc, hkind⟩
    exact (List.mem_append.1 hc).elim (hnone c) fun hc => (hmore c hc).1

/-- Each step carries on what became of the line breaks. -/
theorem Breaks.advance {step : Script → Step} (h : plan.Breaks v t)
    (hstep : (step (Script.parse plan.text)).Breaks v plan.text) :
    (plan.advance step).Breaks v t := by
  cases hstep with
  | idle hedits hchanges =>
    have hsame : plan.advance step = { plan with
        warnings := plan.warnings ++ (step (Script.parse plan.text)).warnings } := by
      rw [Plan.advance, hedits, hchanges, List.append_nil]
      rfl
    rw [hsame]
    cases h with
    | same htext hnone => exact .same htext hnone
    | leaves htext hsource => exact .leaves htext hsource
    | rewrites htext hrewrites => exact .rewrites htext hrewrites
  | leaves htext' hsource' =>
    refine .leaves htext' ?_
    rcases hsource' with hleaves | ⟨c, hc, hputs⟩
    · cases h with
      | same htext => exact .inl (htext ▸ hleaves)
      | leaves _ hsource =>
        rcases hsource with hleaves | ⟨c, hc, hputs⟩
        · exact .inl hleaves
        · exact .inr ⟨c, List.mem_append_left _ hc, hputs⟩
      | rewrites htext => exact absurd hleaves.1 htext
    · exact .inr ⟨c, List.mem_append_right _ hc, hputs⟩
  | @rewrites m d detail hm hd hholds htext' hpatched =>
    have hchanges : (plan.advance step).changes = plan.changes ++ [⟨.patched, m.specifier, detail⟩] :=
      congrArg (plan.changes ++ ·) hpatched
    have hnone (hplan : ∀ c ∈ plan.changes, ¬ c.PutsLine) :
        ∀ c ∈ (plan.advance step).changes, ¬ c.PutsLine := by
      rw [hchanges, List.forall_mem_append, List.forall_mem_singleton]
      exact ⟨hplan, by simp [Change.PutsLine]⟩
    refine .rewrites htext' ?_
    cases h with
    | same htext hquiet =>
      rw [htext] at hd hholds
      refine ⟨hnone (by simp [hquiet]), m, hm, d, hd, hholds,
        ⟨.patched, m.specifier, detail⟩, ?_, rfl, rfl⟩
      rw [hchanges]
      exact List.mem_append_right _ (List.mem_singleton_self _)
    | leaves htext => exact absurd (htext.2 d (List.mem_filter.1 hd).1) hholds
    | rewrites _ hrewrites =>
      obtain ⟨hplan, m, hm, d, hd, hholds, c, hc, hkind⟩ := hrewrites
      exact ⟨hnone hplan, m, hm, d, hd, hholds, c, List.mem_append_left _ hc, hkind⟩

end Plan

namespace Project

variable {p : Project} {isFile : Path → Bool} {file : Path} {t : Text}

/-- A text without carriage returns gets none. -/
theorem not_mem_plan (hv : p.vocabulary.Avoids '\r') (hroot : '\r' ∉ p.data.root.text.toList)
    (ht : '\r' ∉ t) : '\r' ∉ (p.plan isFile file t).text := by
  have hw : '\r' ∉ writtenCharacters := by decide
  have heol : '\r' ∉ lineBreakOf t := by
    rw [lineBreakOf, if_neg fun hinfix => ht (mem_of_lineBreak hinfix)]
    decide
  refine Plan.foldl_keeps (P := fun plan => '\r' ∉ plan.text) (fun step hstep plan hplan => ?_) ht
  rw [steps, List.mem_append, List.mem_append] at hstep
  rcases hstep with (hstep | hstep) | hstep
  · obtain ⟨m, hm, rfl⟩ := List.mem_map.1 hstep
    exact not_mem_applyAll hplan (moduleStep_not_mem hw hv (Sorting.mem_sort.1 hm) heol hplan)
  · obtain ⟨r, hr, rfl⟩ := List.mem_map.1 hstep
    exact not_mem_applyAll hplan (dataStep_not_mem hw hv hr rfl heol)
  · obtain rfl := List.mem_singleton.1 hstep
    exact specifierStep_not_mem (by decide) (by decide) hroot hplan

/-- The steps before the last keep the line breaks of a text with carriage returns, all but those
of an import that they rewrite. -/
theorem keepsBreaks_steps (hv : p.vocabulary.Avoids '\n') (ht : t.IsCrlf)
    (hbreak : t.hasInfix ['\r', '\n']) :
    (((p.vocabulary.sortedModules.map fun m => moduleStep p.vocabulary m (lineBreakOf t)) ++
      p.vocabulary.data.rules.map fun r =>
        dataStep p.data isFile (file.relativeTo p.root) r (lineBreakOf t)).foldl Plan.advance
          { text := t }).KeepsBreaks p.vocabulary t := by
  have heol := isLineBreak_lineBreakOf t
  have hcrlf : IsCrlf (lineBreakOf t) := by
    rw [lineBreakOf, if_pos hbreak]
    decide
  refine Plan.foldl_keeps (fun step hstep plan hplan => ?_) ⟨ht, .same rfl rfl⟩
  rcases List.mem_append.1 hstep with hstep | hstep
  · obtain ⟨m, hm, rfl⟩ := List.mem_map.1 hstep
    have hcrlf' := isCrlf_moduleStep hv (Sorting.mem_sort.1 hm) hcrlf hplan.isCrlf
    exact ⟨hcrlf', hplan.breaks.advance
      (moduleStep_breaks hv (Sorting.mem_sort.1 hm) heol hplan.isCrlf hcrlf')⟩
  · obtain ⟨r, hr, rfl⟩ := List.mem_map.1 hstep
    have hcrlf' := @isCrlf_dataStep _ _ _ p.data isFile (file.relativeTo p.root) r hv hr rfl hcrlf
      hplan.isCrlf
    exact ⟨hcrlf', hplan.breaks.advance (dataStep_breaks heol hcrlf')⟩

/-- If each line feed of a text follows a carriage return, each of its plan's text does. Some line
break stays, except where one import holds them all and is rewritten, and no line is put in. A text
without carriage returns gets none. -/
theorem plan_keeps_line_ends (hr : p.vocabulary.Avoids '\r') (hn : p.vocabulary.Avoids '\n')
    (hroot : '\r' ∉ p.data.root.text.toList ∧ '\n' ∉ p.data.root.text.toList) :
    let planned := p.plan isFile file t
    (t.hasInfix ['\r', '\n'] → t.IsCrlf → planned.text.IsCrlf ∧
        (planned.text.hasInfix ['\r', '\n'] ↔ ¬ planned.RewritesBreaks p.vocabulary t)) ∧
      ('\r' ∉ t → '\r' ∉ planned.text) := by
  refine ⟨fun hbreak ht => ?_, not_mem_plan hr hroot.1⟩
  have hmem : '\n' ∈ t := ht.hasInfix_iff.1 hbreak
  have hsteps := @keepsBreaks_steps p isFile file t hn ht hbreak
  obtain ⟨hcrlf, hkept⟩ := @specifierStep_keeps _ p.data isFile file hroot.2 hsteps.isCrlf
  rw [plan, steps, List.foldl_append, List.foldl_cons, List.foldl_nil]
  generalize List.foldl Plan.advance _ _ = plan at hsteps hcrlf hkept ⊢
  refine ⟨hcrlf, hcrlf.hasInfix_iff.trans ?_⟩
  have hmore : ∀ c ∈ (specifierStep p.data isFile file (Script.parse plan.text)).changes,
      ¬ c.PutsLine ∧ c.kind ≠ .patched := fun c hc => by
    obtain ⟨_, -, rfl⟩ := List.mem_map.1 hc
    simp [Change.PutsLine]
  rw [Plan.rewritesBreaks_iff_of_quiet rfl hmore]
  cases hsteps.breaks with
  | same htext hquiet =>
    refine iff_of_true (hkept (htext ▸ hmem)) ?_
    rintro ⟨-, -, -, -, -, -, c, hc, -⟩
    rw [hquiet] at hc
    cases hc
  | leaves htext hsource => exact iff_of_true (hkept htext.1) (Plan.not_rewritesBreaks hsource)
  | rewrites htext hrewrites =>
    exact iff_of_false (specifierStep_not_mem (by decide) (by decide) hroot.2 htext)
      (not_not_intro hrewrites)

/-- An import on two lines is the whole text. -/
theorem plan_keeps_line_ends_one_import :
    let p : Project := { root := ⟨"/proj"⟩ }
    let t : Text := "import \x7b b,\r\n a \x7d from 'react'".toList
    let planned := (p.plan (fun _ => false) ⟨"a.js"⟩ t).text
    p.vocabulary.Avoids '\r' ∧ p.vocabulary.Avoids '\n' ∧
      ('\r' ∉ p.data.root.text.toList ∧ '\n' ∉ p.data.root.text.toList) ∧
      t.hasInfix ['\r', '\n'] ∧ t.IsCrlf ∧
      ¬ (planned.hasInfix ['\r', '\n'] ∧ planned.IsCrlf) := by
  refine ⟨?_, ?_, by decide +kernel, by decide +kernel, by decide +kernel, by decide +kernel⟩ <;>
    constructor <;> decide

/-- A hook that is not imported, in a text with carriage returns. -/
theorem plan_keeps_line_ends_hook :
    let p : Project := { root := ⟨"/proj"⟩ }
    let t : Text := "import \x7b b,\r\n a \x7d from 'react'\r\nLink();".toList
    let planned := p.plan (fun _ => false) ⟨"a.js"⟩ t
    p.vocabulary.Avoids '\r' ∧ p.vocabulary.Avoids '\n' ∧
      ('\r' ∉ p.data.root.text.toList ∧ '\n' ∉ p.data.root.text.toList) ∧
      t.hasInfix ['\r', '\n'] ∧ t.IsCrlf ∧ ¬ planned.RewritesBreaks p.vocabulary t ∧
      planned.text.IsCrlf ∧ planned.text.hasInfix ['\r', '\n'] ∧
      '\r' ∉ (p.plan (fun _ => false) ⟨"a.js"⟩ "Link();\n".toList).text := by
  intro p t planned
  have hr : p.vocabulary.Avoids '\r' := by constructor <;> decide
  have hn : p.vocabulary.Avoids '\n' := by constructor <;> decide
  have hroot : '\r' ∉ p.data.root.text.toList ∧ '\n' ∉ p.data.root.text.toList := by decide +kernel
  have hbreak : t.hasInfix ['\r', '\n'] := by decide
  have ht : t.IsCrlf := by decide
  obtain ⟨hcrlf, hkept⟩ := (@plan_keeps_line_ends p (fun _ => false) ⟨"a.js"⟩ t hr hn hroot).1
    hbreak ht
  have hrewrites : ¬ planned.RewritesBreaks p.vocabulary t := by decide +kernel
  exact ⟨hr, hn, hroot, hbreak, ht, hrewrites, hcrlf, hkept.2 hrewrites,
    (@plan_keeps_line_ends p (fun _ => false) ⟨"a.js"⟩ _ hr hn hroot).2 (by decide)⟩

end Project

end TidyImports
