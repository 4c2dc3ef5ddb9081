-- SUMMARY: A plan behind a byte order mark is the same plan, with the mark in front of its text.
import Mathlib.Data.List.Basic
import TidyImports.Proofs.OrderMark.Layout
import TidyImports.Proofs.Outline.Specifiers
import TidyImports.Proofs.Plan.Characters

/-!
# Plans behind a byte order mark

Each step answers a text behind a byte order mark with the edits it has for the
text alone, three bytes further on, and with the same changes and warnings. The
edits leave the mark where it is, so the next step meets a marked text again.
-/

namespace TidyImports

open Text

-- ---------------------------------------------------------------------------
-- Edits
-- ---------------------------------------------------------------------------

namespace Edit

theorem before_shift (n : Nat) (a b : Edit) : before (a.shift n) (b.shift n) = before a b := by
  rw [Bool.eq_iff_iff]
  simp [before, shift]

theorem applyInOrder_shift (n offset : Nat) (es : List Edit) (rest : Text) :
    applyInOrder (offset + n) (es.map (shift n)) rest = applyInOrder offset es rest := by
  induction es generalizing offset rest with
  | nil => rfl
  | cons e es ih =>
    have hstart : max (e.span.start + n) (offset + n) = max e.span.start offset + n :=
      Nat.add_max_add_right ..
    have hstop : max (e.span.stop + n) (max e.span.start offset + n) =
        max e.span.stop (max e.span.start offset) + n := Nat.add_max_add_right ..
    simp only [List.map_cons, applyInOrder, shift, Span.start_shift, Span.stop_shift, hstart, hstop,
      Nat.add_sub_add_right, ih]

/-- Edits of a text leave the mark before it alone. -/
theorem applyAll_marked (es : List Edit) (t : Text) :
    applyAll (es.map (shift 3)) (byteOrderMark :: t) = byteOrderMark :: applyAll es t := by
  have hsort : Sorting.sort before (es.map (shift 3)) = (Sorting.sort before es).map (shift 3) := by
    rw [← Sorting.map_sort]
    simp only [before_shift]
  have hmark : ∀ e ∈ ((Sorting.sort before es).map (shift 3)).head?,
      0 + size [byteOrderMark] ≤ e.span.start := by
    intro e he
    obtain ⟨k, -, rfl⟩ := List.mem_map.1 (List.mem_of_mem_head? he)
    exact Nat.le_add_left 3 _
  calc
    applyAll (es.map (shift 3)) (byteOrderMark :: t)
    _ = applyInOrder 0 ((Sorting.sort before es).map (shift 3)) ([byteOrderMark] ++ t) := by
      rw [applyAll, hsort]
      rfl
    _ = byteOrderMark :: applyInOrder (0 + 3) ((Sorting.sort before es).map (shift 3)) t :=
      applyInOrder_append hmark
    _ = byteOrderMark :: applyAll es t := by rw [applyInOrder_shift, applyAll]

end Edit

-- ---------------------------------------------------------------------------
-- Synthesis
-- ---------------------------------------------------------------------------

/-- A canonical import does not depend on where its declarations stand. -/
theorem synthesize_shift (n : Nat) (module : String) (ds : List Declaration) (us : UsageSet) :
    synthesize module (ds.map (Declaration.shift n)) us = synthesize module ds us := by
  have hbefore : ∀ a b : Declaration,
      Declaration.before (a.shift n) (b.shift n) = Declaration.before a b := fun a b =>
    Edit.before_shift n ⟨a.span, []⟩ ⟨b.span, []⟩
  have hsort : Sorting.sort Declaration.before
      ((ds.map (Declaration.shift n)).filter (·.specifier == module)) =
        (Sorting.sort Declaration.before (ds.filter (·.specifier == module))).map
          (Declaration.shift n) := by
    rw [List.filter_map, ← Sorting.map_sort]
    simp only [hbefore]
    rfl
  have hdraft : ∀ (ds : List Declaration) (draft : Synthesis.Draft),
      (ds.map (Declaration.shift n)).foldl (Synthesis.Draft.addDeclaration module) draft =
        ds.foldl (Synthesis.Draft.addDeclaration module) draft := fun ds draft => List.foldl_map
  have hstyle : ∀ ds : List Declaration,
      (ds.map (Declaration.shift n)).head?.map (·.style) = ds.head?.map (·.style) := fun ds => by
    cases ds <;> rfl
  simp only [synthesize, hsort, hdraft, hstyle]

-- ---------------------------------------------------------------------------
-- Steps
-- ---------------------------------------------------------------------------

/-- A step whose edits stand further on. -/
def Step.shift (n : Nat) (s : Step) : Step := { s with edits := s.edits.map (Edit.shift n) }

section

variable {t eol : Text} {v : Vocabulary} {m : ModuleRule}

theorem Script.parse_nil : parse [] = ⟨[], [], []⟩ := by
  have htokens : tokenize [] = [] := by
    have hrun : tokenize [] = Lexer.run {} 0 [] := rfl
    rw [hrun, Lexer.run]
  rw [parse, htokens, Statement.scan]

theorem lineBreakOf_marked (t : Text) : lineBreakOf (byteOrderMark :: t) = lineBreakOf t := rfl

theorem insertLine_marked (hne : t ≠ []) (offset : Nat) (line eol : Text) :
    insertLine (byteOrderMark :: t) (offset + 3) line eol = (insertLine t offset line eol).shift 3 := by
  obtain ⟨c, cs, rfl⟩ := List.exists_cons_of_ne_nil hne
  have hsize : (offset + 3 == size (byteOrderMark :: c :: cs)) = (offset == size (c :: cs)) := by
    have hmark : size (byteOrderMark :: c :: cs) = size (c :: cs) + 3 := Nat.add_comm ..
    rw [hmark, Bool.eq_iff_iff, beq_iff_eq, beq_iff_eq, Nat.add_right_cancel_iff]
  simp only [insertLine, hsize, List.getLast?_cons_cons, List.isEmpty_cons]
  rfl

theorem usages_marked (h : t.head? ≠ some byteOrderMark) (v : Vocabulary) :
    (Script.parse (byteOrderMark :: t)).usages v = (Script.parse t).usages v :=
  Script.usages_congr (Script.reading_marked h) v

theorem removeDeclaration_marked (h : t.head? ≠ some byteOrderMark) {d : Declaration}
    (hd : d ∈ (Script.parse t).declarations) :
    removeDeclaration (byteOrderMark :: t) (d.shift 3) = (removeDeclaration t d).shift 3 := by
  obtain ⟨-, pre, rest, ht, hstart⟩ := Script.exists_keyword hd
  have hline : max (lineStart (byteOrderMark :: t) (d.span.start + 3)) 3 =
      t.lineStart d.span.start + 3 := by
    rw [lineStart_marked ⟨pre, 'i' :: rest, ht, hstart.symm⟩, max_markedLine]
  have hbefore := slice_marked ⟨t.lineStart d.span.start, d.span.start⟩ t
  have hafter := slice_marked ⟨d.span.stop, t.nextLine d.span.stop⟩ t
  simp only [Span.shift] at hbefore hafter
  simp only [removeDeclaration, Declaration.shift, Span.start_shift, Span.stop_shift,
    markSize_marked, markSize_eq_zero h, Nat.max_zero, hline, nextLine_marked, hbefore, hafter]
  split <;> rfl

theorem directiveEdits_marked (h : t.head? ≠ some byteOrderMark) (hne : t ≠ []) :
    directiveEdits v m eol (Script.parse (byteOrderMark :: t)) =
      (directiveEdits v m eol (Script.parse t)).map (Edit.shift 3) := by
  have htext : ∀ u, (Script.parse u).text = u := fun _ => rfl
  rw [directiveEdits, directiveEdits, Script.hasDirective_marked h hne, htext, htext,
    directiveOffset_marked h]
  split <;> rfl

theorem canonicalStep_marked (h : t.head? ≠ some byteOrderMark) (hne : t ≠ [])
    {ds : List Declaration} (hds : ∀ d ∈ ds, d ∈ (Script.parse t).declarations)
    (canonical : Canonical) (rendered : Text) :
    canonicalStep v m eol (Script.parse (byteOrderMark :: t)) (ds.map (Declaration.shift 3))
        canonical rendered =
      (canonicalStep v m eol (Script.parse t) ds canonical rendered).shift 3 := by
  have htext : ∀ u, (Script.parse u).text = u := fun _ => rfl
  have hline : insertLine (byteOrderMark :: t)
      (Script.parse (byteOrderMark :: t)).insertionOffset rendered eol =
        (insertLine t (Script.parse t).insertionOffset rendered eol).shift 3 := by
    rw [Script.insertionOffset_marked h hne, insertLine_marked hne]
  match ds with
  | [] =>
    simp only [List.map_nil, canonicalStep, htext, hline, directiveEdits_marked h hne, Step.shift,
      List.map_append, List.map_cons]
  | [d] =>
    have hmatches : canonical.matches? (d.shift 3) = canonical.matches? d := rfl
    simp only [List.map_cons, List.map_nil, canonicalStep, hmatches]
    split <;> rfl
  | d :: d' :: more =>
    have hremovals : ((d :: d' :: more).map (Declaration.shift 3)).map
        (removeDeclaration (byteOrderMark :: t)) =
          ((d :: d' :: more).map (removeDeclaration t)).map (Edit.shift 3) := by
      rw [List.map_map, List.map_map]
      exact List.map_congr_left fun k hk => removeDeclaration_marked h (hds k hk)
    simp only [List.map_cons, canonicalStep, htext, hline, Step.shift, List.length_cons,
      List.length_map] at hremovals ⊢
    rw [hremovals]

theorem moduleStep_marked (h : t.head? ≠ some byteOrderMark) :
    moduleStep v m eol (Script.parse (byteOrderMark :: t)) =
      (moduleStep v m eol (Script.parse t)).shift 3 := by
  rw [moduleStep, moduleStep, Script.declarationsOf_marked h, usages_marked h]
  simp only [List.isEmpty_map, synthesize_shift]
  split
  · rfl
  · next hc =>
    have hne : t ≠ [] := by
      rintro rfl
      rw [Script.parse_nil] at hc
      exact hc rfl
    have hds : ∀ d ∈ (Script.parse t).declarationsOf m.specifier,
        d ∈ (Script.parse t).declarations := fun d hd => (List.mem_filter.1 hd).1
    simp only [canonicalStep_marked h hne hds]
    split <;> rfl

theorem dataStep_marked {data : DataDirectory} {isFile : Path → Bool} {path : Path} {r : DataRule}
    (h : t.head? ≠ some byteOrderMark) :
    dataStep data isFile path r eol (Script.parse (byteOrderMark :: t)) =
      (dataStep data isFile path r eol (Script.parse t)).shift 3 := by
  have htext : ∀ u, (Script.parse u).text = u := fun _ => rfl
  rw [dataStep, dataStep, Script.hasUnbound_congr (Script.reading_marked h)]
  split
  · rfl
  · next hc =>
    have hne : t ≠ [] := by
      rintro rfl
      rw [Script.parse_nil, Bool.or_eq_true, not_or] at hc
      exact hc.2 rfl
    simp only [htext, Script.insertionOffset_marked h hne, insertLine_marked hne]
    split <;> rfl

-- ---------------------------------------------------------------------------
-- Specifiers
-- ---------------------------------------------------------------------------

namespace Script

theorem specifierTokens_shift (n offset : Nat) (zs : List (Mark × Bool)) :
    specifierTokens (offset + n) zs = (specifierTokens offset zs).map (Token.shift n) := by
  induction zs generalizing offset with
  | nil => rfl
  | cons z zs ih =>
    have hplaced : z.1.placed (offset + n) = (z.1.placed offset).shift n := by
      rw [Mark.placed, Nat.add_right_comm]
      rfl
    rw [specifierTokens, specifierTokens, Nat.add_right_comm, ih, hplaced, List.map_append]
    split <;> rfl

theorem specifiersFrom_sublist (statements : List Statement) (previous? : Option (Nat × Token))
    (index : Nat) (ts : List Token) :
    (specifiersFrom statements previous? index ts).Sublist ts := by
  induction ts generalizing previous? index with
  | nil => exact List.Sublist.refl _
  | cons tok ts ih =>
    simp only [specifiersFrom]
    split
    · exact (ih _ _).cons_cons tok
    · exact (ih _ _).cons tok

theorem specifiers_marked (h : t.head? ≠ some byteOrderMark) :
    (parse (byteOrderMark :: t)).specifiers = (parse t).specifiers.map (Token.shift 3) := by
  rw [specifiers_parse, specifiers_parse, parts_marked h, markSize_marked, markSize_eq_zero h,
    ← specifierTokens_shift, Nat.zero_add]

end Script

theorem verdicts_marked (data : DataDirectory) (isFile : Path → Bool) (fileDir : Path)
    (h : t.head? ≠ some byteOrderMark) :
    data.verdicts isFile fileDir (Script.parse (byteOrderMark :: t)) =
      (data.verdicts isFile fileDir (Script.parse t)).map fun (tok, old, verdict) =>
        (tok.shift 3, old, verdict) := by
  rw [DataDirectory.verdicts, Script.specifiers_marked h, List.map_map, DataDirectory.verdicts,
    List.map_map]
  rfl

theorem specifierStep_marked {data : DataDirectory} {isFile : Path → Bool} {file : Path}
    (h : t.head? ≠ some byteOrderMark) :
    specifierStep data isFile file (Script.parse (byteOrderMark :: t)) =
      (specifierStep data isFile file (Script.parse t)).shift 3 := by
  have hstop : ∀ tok ∈ (Script.parse t).specifiers, 0 < tok.stop := fun tok htok =>
    stop_pos_of_mem_tokenize ((Script.specifiersFrom_sublist ..).subset htok)
  have hmem : ∀ z ∈ data.verdicts isFile (data.directoryOf file) (Script.parse t), 0 < z.1.stop := by
    intro z hz
    obtain ⟨tok, htok, rfl⟩ := List.mem_map.1 hz
    exact hstop tok htok
  simp only [specifierStep, DataDirectory.retargetScript, verdicts_marked _ _ _ h, List.filterMap_map, Step.shift,
    List.map_filterMap]
  congr 1
  refine List.filterMap_congr fun z hz => ?_
  obtain ⟨tok, old, verdict⟩ := z
  have hpos : 0 < tok.stop := hmem _ hz
  have hshift : tok.stop + 3 - 1 = tok.stop - 1 + 3 := by omega
  cases verdict with
  | retarget new =>
    simp only [Function.comp_apply, Token.start_shift, Token.stop_shift, hshift,
      Nat.add_right_comm tok.start]
    rfl
  | keep => rfl
  | missing target => rfl

end

-- ---------------------------------------------------------------------------
-- Plans
-- ---------------------------------------------------------------------------

/-- A plan with a byte order mark in front of its text. -/
def Plan.marked (p : Plan) : Plan := { p with text := byteOrderMark :: p.text }

namespace Plan

theorem advance_marked {p : Plan} {step : Script → Step}
    (h : step (Script.parse (byteOrderMark :: p.text)) = (step (Script.parse p.text)).shift 3) :
    p.marked.advance step = (p.advance step).marked := by
  simp only [advance, marked, h, Step.shift, Edit.applyAll_marked]

/-- Steps that do the same behind a mark and write none do the same in a row. -/
theorem foldl_marked {steps : List (Script → Step)}
    (hsteps : ∀ step ∈ steps, ∀ t, byteOrderMark ∉ t →
      step (Script.parse (byteOrderMark :: t)) = (step (Script.parse t)).shift 3 ∧
        ∀ e ∈ (step (Script.parse t)).edits, byteOrderMark ∉ e.replacement)
    {p : Plan} (hp : byteOrderMark ∉ p.text) :
    steps.foldl advance p.marked = (steps.foldl advance p).marked ∧
      byteOrderMark ∉ (steps.foldl advance p).text := by
  induction steps generalizing p with
  | nil => exact ⟨rfl, hp⟩
  | cons step steps ih =>
    obtain ⟨hstep, hwrites⟩ := hsteps step (List.mem_cons_self ..) p.text hp
    rw [List.foldl_cons, List.foldl_cons, advance_marked hstep]
    exact ih (fun s hs => hsteps s (List.mem_cons_of_mem _ hs)) (Edit.not_mem_applyAll hp hwrites)

end Plan

theorem Text.head?_ne_of_not_mem {t : Text} {c : Char} (h : c ∉ t) : t.head? ≠ some c :=
  fun hc => h (List.mem_of_mem_head? hc)

namespace Project

variable {p : Project} {isFile : Path → Bool} {file : Path} {t : Text}

/-- A byte order mark in front of a text changes nothing in its plan but to stand there. -/
theorem plan_byteOrderMark (hv : p.vocabulary.Avoids byteOrderMark) (ht : byteOrderMark ∉ t) :
    p.plan isFile file (byteOrderMark :: t) =
      { p.plan isFile file t with text := byteOrderMark :: (p.plan isFile file t).text } := by
  have hw : byteOrderMark ∉ writtenCharacters := by decide
  have heol : byteOrderMark ∉ lineBreakOf t := by
    rw [lineBreakOf]
    split <;> decide
  have hsteps : ∀ step ∈ (p.vocabulary.sortedModules.map fun m =>
      moduleStep p.vocabulary m (lineBreakOf t)) ++ (p.vocabulary.data.rules.map fun r =>
        dataStep p.data isFile (file.relativeTo p.root) r (lineBreakOf t)),
      ∀ u, byteOrderMark ∉ u →
        step (Script.parse (byteOrderMark :: u)) = (step (Script.parse u)).shift 3 ∧
          ∀ e ∈ (step (Script.parse u)).edits, byteOrderMark ∉ e.replacement := by
    intro step hstep u hu
    have hhead := head?_ne_of_not_mem hu
    rcases List.mem_append.1 hstep with hstep | hstep
    · obtain ⟨m, hm, rfl⟩ := List.mem_map.1 hstep
      exact ⟨moduleStep_marked hhead,
        moduleStep_not_mem hw hv (Sorting.mem_sort.1 hm) heol hu⟩
    · obtain ⟨r, hr, rfl⟩ := List.mem_map.1 hstep
      exact ⟨dataStep_marked hhead, dataStep_not_mem hw hv hr rfl heol⟩
  obtain ⟨hfold, hclean⟩ := Plan.foldl_marked hsteps (p := { text := t }) ht
  have hsplit : ∀ q : Plan, (p.steps isFile file (lineBreakOf t)).foldl Plan.advance q =
      Plan.advance (List.foldl Plan.advance q ((p.vocabulary.sortedModules.map fun m =>
        moduleStep p.vocabulary m (lineBreakOf t)) ++ (p.vocabulary.data.rules.map fun r =>
          dataStep p.data isFile (file.relativeTo p.root) r (lineBreakOf t))))
            (specifierStep p.data isFile file) := fun q => by
    rw [steps, List.foldl_append, List.foldl_cons, List.foldl_nil]
  have hstart : ({ text := byteOrderMark :: t } : Plan) = Plan.marked { text := t } := rfl
  rw [plan, plan, lineBreakOf_marked, hsplit, hsplit, hstart, hfold]
  exact Plan.advance_marked (specifierStep_marked (head?_ne_of_not_mem hclean))

/-- With the built-in vocabulary, a directive and a line are put in below a `#!` line behind a
mark. -/
theorem plan_byteOrderMark_interpreter :
    let t := "#!node\nuseRef(0);\n".toList
    let p : Project := { root := ⟨"/p"⟩ }
    let line := "import \x7b useRef \x7d from \"react\";"
    p.vocabulary.Avoids byteOrderMark ∧ byteOrderMark ∉ t ∧
      p.plan (fun _ => false) ⟨"/p/a.js"⟩ (byteOrderMark :: t) =
        { text := byteOrderMark ::
            ("#!node\n'use client';\n\n" ++ line ++ "\nuseRef(0);\n").toList
          changes := [⟨.inserted, "react", line⟩] } := by
  intro t p line
  have hv : p.vocabulary.Avoids byteOrderMark := by
    constructor <;> decide
  have ht : byteOrderMark ∉ t := by decide
  refine ⟨hv, ht, (plan_byteOrderMark hv ht).trans ?_⟩
  decide +kernel

end Project

end TidyImports
