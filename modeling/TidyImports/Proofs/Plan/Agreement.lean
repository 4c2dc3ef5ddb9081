-- SUMMARY: What a step records and what it does to the text agree.
import TidyImports.Proofs.DataFile.Effects
import TidyImports.Proofs.Edits.Written
import TidyImports.Proofs.Plan.Frame
import TidyImports.Proofs.Plan.Quiet
import TidyImports.Proofs.Plan.Roundtrip

/-!
# Agreement of changes and text

A run passes over a file whose plan records no change, and a patch writes
nothing when the texts are the same. The two agree step by step. A step without
changes makes no edit. With changes, a new line makes the text longer; several
declarations hold more quotes than the one that takes their place; a declaration
that is rewritten is not canonical, so it was not written as the canonical import
is; and exchanged specifiers are others at the place of the first.
-/

namespace TidyImports

open Text Lexer Edit

/-- A step records no change and leaves the text as it is, or it records some and leaves another
text. -/
def Step.Agrees (t : Text) (step : Step) : Prop :=
  (step.changes = [] ∧ applyAll step.edits t = t) ∨
    (step.changes ≠ [] ∧ applyAll step.edits t ≠ t)

theorem Step.agrees_of {t : Text} {step : Step} (hquiet : step.changes = [] → step.edits = [])
    (heffect : step.changes ≠ [] → applyAll step.edits t ≠ t) : step.Agrees t := by
  by_cases h : step.changes = []
  · refine .inl ⟨h, ?_⟩
    rw [hquiet h]
    rfl
  · exact .inr ⟨h, heffect h⟩

-- ---------------------------------------------------------------------------
-- New lines
-- ---------------------------------------------------------------------------

theorem Text.slice_self (t : Text) (n : Nat) : t.slice ⟨n, n⟩ = [] := by
  rw [slice, Nat.sub_self]
  cases t.dropBytes n <;> rfl

/-- Something that is put in makes a text longer when nothing is taken out. -/
theorem Edit.Separate.applyAll_ne_of_insertions {t : Text} {es : List Edit} {e : Edit}
    (h : Separate t es) (hspans : ∀ e ∈ es, ∃ n, e.span = ⟨n, n⟩) (he : e ∈ es)
    (hne : e.replacement ≠ []) : applyAll es t ≠ t := by
  intro hsame
  have hmeasure := h.measure (f := List.length) fun _ _ => List.length_append
  have hcut : (es.map fun e => (t.slice e.span).length).sum = 0 := by
    rw [List.sum_eq_zero_iff_forall_eq_nat]
    refine List.forall_mem_map.2 fun e he => ?_
    obtain ⟨n, hspan⟩ := hspans e he
    rw [hspan, slice_self]
    rfl
  have hput : e.replacement.length ≤ (es.map fun e => e.replacement.length).sum := by
    obtain ⟨front, back, rfl⟩ := List.append_of_mem he
    rw [List.map_append, List.map_cons, List.sum_append, List.sum_cons]
    omega
  have hpos := List.length_pos_of_ne_nil hne
  rw [hsame, hcut] at hmeasure
  omega

-- ---------------------------------------------------------------------------
-- Quotes
-- ---------------------------------------------------------------------------

/-- How many quotes stand in a text. -/
def Text.quotes (t : Text) : Nat := t.countP fun c => c == '\'' || c == '"'

namespace Text

@[simp] theorem quotes_nil : quotes [] = 0 := rfl

@[simp] theorem quotes_append (a b : Text) : quotes (a ++ b) = quotes a + quotes b :=
  List.countP_append

theorem quotes_eq_zero {t : Text} (h : '\'' ∉ t ∧ '"' ∉ t) : quotes t = 0 := by
  refine List.countP_eq_zero.2 fun c hc hquote => ?_
  simp only [Bool.or_eq_true, beq_iff_eq] at hquote
  rcases hquote with rfl | rfl
  · exact h.1 hc
  · exact h.2 hc

theorem quotes_mono {a b : Text} (h : a <:+: b) : quotes a ≤ quotes b :=
  h.sublist.countP_le

theorem quotes_quoted {q : Char} (hq : q = '\'' ∨ q = '"') (x : Text) :
    quotes (q :: x ++ [q]) = quotes x + 2 := by
  rw [List.cons_append, ← List.singleton_append, quotes_append, quotes_append]
  rcases hq with rfl | rfl
  · rw [show quotes ['\''] = 1 from rfl]
    omega
  · rw [show quotes ['"'] = 1 from rfl]
    omega

end Text

theorem IsLineBreak.quotes_eq_zero {eol : Text} (h : IsLineBreak eol) : eol.quotes = 0 := by
  rcases h with rfl | rfl <;> rfl

theorem Lexer.quotes_of_isWord {w : Text} (h : isWord w) : w.quotes = 0 :=
  Text.quotes_eq_zero ⟨not_mem_of_isWord h (by decide), not_mem_of_isWord h (by decide)⟩

/-- A written import has the quotes around its specifier, and those within. -/
theorem Canonical.quotes_render? {c : Canonical} {style : Style} {rendered : Text}
    (hdefault : ∀ d ∈ c.default?, isWord d.toList) (hnamed : ∀ item ∈ c.named, Item.Spelled item)
    (h : c.render? style = some rendered) : rendered.quotes = quotes c.specifier.toList + 2 := by
  have hclause : ∀ ms : List Mark, (∀ m ∈ ms, IsClauseMark (fun w => isWord w) m) →
      (Mark.sources ms).quotes = 0 := by
    intro ms hms
    induction ms with
    | nil => rfl
    | cons m ms ih =>
      obtain ⟨hm, hms⟩ := List.forall_mem_cons.1 hms
      rw [Mark.sources_cons, quotes_append, quotes_append, ih hms]
      rcases hm with ⟨w, hw, rfl⟩ | ⟨gap, ch, rfl | rfl, rfl | rfl | rfl, rfl⟩
      · rw [Mark.word, quotes_of_isWord hw]
        rfl
      all_goals rfl
  have hmarks := isClauseMark_of_mem hdefault fun item hitem =>
    Item.isWord_of_mem_words (hnamed item hitem)
  have htail : (Mark.sources (if style.semicolon then [Mark.punct [] ';'] else [])).quotes = 0 := by
    split <;> rfl
  have htext : rendered = "import".toList ++ (Mark.sources c.clauseMarks ++ (" from ".toList ++
      (style.quote.char :: c.specifier.toList ++ [style.quote.char] ++
        Mark.sources (if style.semicolon then [Mark.punct [] ';'] else [])))) := by
    rw [sources_bodyMarks h, bodyMarks]
    simp [Mark.word, Mark.string]
  calc rendered.quotes
      = quotes "import".toList + ((Mark.sources c.clauseMarks).quotes + (quotes " from ".toList +
          (quotes (style.quote.char :: c.specifier.toList ++ [style.quote.char]) +
            (Mark.sources (if style.semicolon then [Mark.punct [] ';'] else [])).quotes))) := by
        rw [htext, quotes_append, quotes_append, quotes_append, quotes_append]
    _ = 0 + (0 + (0 + (quotes c.specifier.toList + 2 + 0))) := by
        rw [hclause _ hmarks, htail, quotes_quoted (quote_char style.quote)]
        rfl
    _ = quotes c.specifier.toList + 2 := by omega

/-- A declaration has the quotes around its specifier, and those within. -/
theorem Script.quotes_le_of_mem {t : Text} {d : Declaration} (h : d ∈ (parse t).declarations) :
    quotes d.specifier.toList + 2 ≤ (t.slice d.span).quotes := by
  obtain ⟨ps, head, body, at?, qs, x, y, z, hfound⟩ := found_of_mem h
  obtain ⟨i, specifier, -, hspecifier, hcontents⟩ := hfound.exists_specifier
  have hmem : specifier ∈ body := List.mem_of_getElem? hspecifier
  obtain ⟨q, hq, -, htext⟩ := Mark.text_of_contents?
    (hfound.proper specifier (by simp [hmem])) hcontents
  rw [hfound.slice_span, ← quotes_quoted hq, ← htext]
  refine quotes_mono ?_
  obtain ⟨front, back, rfl⟩ := List.append_of_mem hmem
  have hy := hfound.text
  rw [Mark.sources_cons, List.append_assoc, List.append_cancel_left_eq] at hy
  rw [hy, Mark.sources_append, Mark.sources_cons]
  exact ⟨head.text ++ Mark.sources front ++ specifier.gap, Mark.sources back, by simp⟩

-- ---------------------------------------------------------------------------
-- Steps of modules
-- ---------------------------------------------------------------------------

theorem insertLine_ne_nil {t line eol : Text} {offset : Nat} (h : line ≠ []) :
    (insertLine t offset line eol).replacement ≠ [] := by
  rw [insertLine, insertion]
  simp [h]

theorem quotes_insertLine {t line eol : Text} {offset : Nat} (he : IsLineBreak eol) :
    (insertLine t offset line eol).replacement.quotes = line.quotes := by
  have hlead : ∀ b : Bool, (if b then eol else []).quotes = 0 := by
    intro b
    cases b with
    | true => exact he.quotes_eq_zero
    | false => rfl
  rw [insertLine, insertion]
  simp only
  rw [quotes_append, quotes_append, he.quotes_eq_zero, hlead]
  omega

section

variable {t eol : Text} {v : Vocabulary} {m : ModuleRule} {c : Canonical} {style : Style}
  {rendered : Text} {ds : List Declaration}

/-- What is synthesized from a script is spelled as it spells its names. -/
theorem Canonical.Merges.spelled {module : String} {us : List Usage} (h : c.Merges module ds us)
    (hds : ∀ d ∈ ds, d ∈ (Script.parse t).declarations) (hus : ∀ u ∈ us, isWord u.name.toList) :
    (∀ name ∈ c.default?, isWord name.toList) ∧ ∀ item ∈ c.named, Item.Spelled item := by
  constructor
  · intro name hname
    rcases h.default?_origin hname with ⟨d, hd, hdefault⟩ | ⟨-, u, hu, rfl⟩
    · exact ((Script.names_of_mem_declarations (hds d hd)).1 name hdefault).1
    · exact hus u hu
  · intro item hitem
    rcases h.mem_named.1 hitem with ⟨d, hd, hi⟩ | ⟨u, hu, -, rfl⟩
    · exact ((Script.names_of_mem_declarations (hds d hd)).2 item hi).spelled
    · exact .inl (hus u hu)

/-- A declaration that does not match the canonical import was not written as that is. -/
theorem applyAll_rewrite_ne {d : Declaration} (hd : d ∈ (Script.parse t).declarations)
    (hc : c.SpelledIn d.style.quote) (hr : c.render? d.style = some rendered)
    (hmatch : ¬ c.matches? d) : applyAll [⟨d.span, rendered⟩] t ≠ t := by
  intro hsame
  obtain ⟨ps, head, body, at?, qs, x, y, z, hfound⟩ := Script.found_of_mem hd
  obtain ⟨mark, ht, hspan, -, -⟩ := hfound.exists_around
  have happly := applyAll_around ht hspan rendered
  have hy : y = rendered := by
    rw [hsame] at happly
    rw [ht, List.append_cancel_left_eq, List.append_cancel_right_eq] at happly
    exact happly
  have hmatches : c.matches? (c.declaration d.style) := c.matches?_declaration d.style ⟨0, 0⟩
  rw [← Script.bare_of_slice hd hc hr (hfound.slice_span.trans hy)] at hmatches
  exact hmatch hmatches

/-- Several declarations hold more quotes than the one that takes their place. -/
theorem applyAll_merge_ne {d d' : Declaration} {more : List Declaration}
    (hds : ∀ k ∈ d :: d' :: more, k ∈ (Script.parse t).declarations)
    (hpair : (d :: d' :: more).Pairwise fun a b => a.span.stop ≤ b.span.start)
    (hown : ∀ k ∈ d :: d' :: more, k.specifier = c.specifier) (he : IsLineBreak eol)
    (hquotes : rendered.quotes = quotes c.specifier.toList + 2) :
    applyAll (insertLine t (Script.parse t).insertionOffset rendered eol ::
      (d :: d' :: more).map (removeDeclaration t)) t ≠ t := by
  intro hsame
  have hmeasure := (separate_merge hds hpair rendered eol).measure quotes_append
  have hcut : ∀ k ∈ d :: d' :: more,
      quotes c.specifier.toList + 2 ≤ (t.slice (removeDeclaration t k).span).quotes := by
    intro k hk
    have haround := around_removeDeclaration (hds k hk)
    obtain ⟨-, hlt, hstart, hstop⟩ := Script.standsIn_of_mem (hds k hk)
    have hinside := haround.isCut_start.slice_inside hstart hstop haround.isCut_stop
      haround.start_le (Nat.le_of_lt hlt) haround.stop_ge
    exact hown k hk ▸ Nat.le_trans (Script.quotes_le_of_mem (hds k hk)) (quotes_mono hinside)
  have hput : (((d :: d' :: more).map (removeDeclaration t)).map fun e =>
      e.replacement.quotes).sum = 0 := by
    rw [List.sum_eq_zero_iff_forall_eq_nat]
    exact List.forall_mem_map.2 (List.forall_mem_map.2 fun _ _ => rfl)
  have hfirst := hcut d (by simp)
  have hsecond := hcut d' (by simp)
  have hline : t.slice (insertLine t (Script.parse t).insertionOffset rendered eol).span = [] :=
    slice_self t _
  rw [hsame, List.map_cons (a := insertLine ..), List.map_cons (a := insertLine ..), List.sum_cons,
    List.sum_cons, hput, hline, quotes_insertLine he, hquotes, quotes_nil] at hmeasure
  simp only [List.map_cons, List.sum_cons] at hmeasure
  omega

theorem canonicalStep_ne (hds : ∀ d ∈ ds, d ∈ (Script.parse t).declarations)
    (hpair : ds.Pairwise fun a b => a.span.stop ≤ b.span.start)
    (hown : ∀ d ∈ ds, d.specifier = c.specifier)
    (hspelled : (∀ name ∈ c.default?, isWord name.toList) ∧ ∀ item ∈ c.named, Item.Spelled item)
    (hbinds : c.default?.isSome ∨ c.named.isEmpty = false) (he : IsLineBreak eol)
    (hr : c.render? style = some rendered) (hstyle : ∀ d, ds = [d] → style = d.style)
    (h : (canonicalStep v m eol (Script.parse t) ds c rendered).changes ≠ []) :
    applyAll (canonicalStep v m eol (Script.parse t) ds c rendered).edits t ≠ t := by
  have hquotes := Canonical.quotes_render? hspelled.1 hspelled.2 hr
  match ds with
  | [] =>
    refine (separate_insert v m rendered eol).applyAll_ne_of_insertions
      (fun e he => (span_of_mem_insert he).imp fun _ hspan => hspan.1)
      (List.mem_append_right _ (List.mem_singleton_self _)) (insertLine_ne_nil fun hempty => ?_)
    rw [hempty, quotes_nil] at hquotes
    omega
  | [d] =>
    rw [canonicalStep] at h ⊢
    split at h
    · exact absurd rfl h
    · next hmatch =>
      rw [if_neg hmatch]
      have hd := hds d (List.mem_singleton_self d)
      have hspecifier := hown d (List.mem_singleton_self d)
      have hc : c.SpelledIn d.style.quote :=
        ⟨hspelled.1, hspelled.2, hspecifier ▸ Script.quotable_of_mem_declarations hd, hbinds⟩
      exact applyAll_rewrite_ne hd hc (hstyle d rfl ▸ hr) hmatch
  | d :: d' :: more => exact applyAll_merge_ne hds hpair hown he hquotes

/-- The step of a module records what it does. -/
theorem moduleStep_agrees (he : IsLineBreak eol) :
    (moduleStep v m eol (Script.parse t)).Agrees t := by
  refine Step.agrees_of moduleStep_quiet fun h => ?_
  have hsorted := Script.pairwise_declarationsOf t m.specifier
  have hown : ∀ d ∈ (Script.parse t).declarationsOf m.specifier, d.specifier = m.specifier :=
    fun d hd => Script.specifier_of_mem_declarationsOf hd
  have hds : ∀ d ∈ (Script.parse t).declarationsOf m.specifier,
      d ∈ (Script.parse t).declarations := fun d hd => (List.mem_filter.1 hd).1
  have hus : ∀ u ∈ ((Script.parse t).usages v).ofModule m.specifier, isWord u.name.toList := by
    intro u hu
    obtain ⟨_, -, _, -, rfl, -, use, huse, hname, -⟩ := (Script.mem_usages_ofModule.1 hu).1
    exact hname ▸ Script.isWord_of_mem_uses huse
  rw [moduleStep] at h ⊢
  split at h
  · exact absurd rfl h
  · next hused =>
    rw [if_neg hused]
    simp only at h ⊢
    split at h
    · next c rendered hc hrender =>
      have hmerges := synthesize_some hsorted hown
        (fun u hu => Item.alias?_of_isWord (hus u hu)) hc
      rw [Synthesis.render?, hc] at hrender
      refine canonicalStep_ne hds ((Script.pairwise_stop_declarations t).sublist
        List.filter_sublist) (fun d hd => (hown d hd).trans hmerges.specifier.symm)
        (hmerges.spelled hds hus) hmerges.binds he hrender (fun d hd => ?_) h
      rw [synthesize_eq hsorted hown, hd]
      rfl
    · exact absurd rfl h

end

-- ---------------------------------------------------------------------------
-- All steps
-- ---------------------------------------------------------------------------

section

variable {data : DataDirectory} {isFile : Path → Bool} {file path : Path} {eol t : Text}

/-- The step of a data rule records what it does. -/
theorem dataStep_agrees {r : DataRule} :
    (dataStep data isFile path r eol (Script.parse t)).Agrees t := by
  refine Step.agrees_of dataStep_quiet fun h => ?_
  have hcut := Script.isCut_insertionOffset t
  rw [dataStep] at h ⊢
  split at h
  · exact absurd rfl h
  · next hdue =>
    rw [if_neg hdue]
    simp only at h ⊢
    split at h
    · exact absurd rfl h
    · next hfile =>
      rw [if_neg hfile]
      refine (separate_singleton ⟨Nat.le_refl _, hcut, hcut⟩).applyAll_ne_of_insertions
        (fun e he => ⟨_, congrArg Edit.span (List.mem_singleton.1 he)⟩)
        (List.mem_singleton_self _) (insertLine_ne_nil ?_)
      simp

/-- The exchange of specifiers records what it does. -/
theorem specifierStep_agrees (hroot : '\'' ∉ data.root.text.toList ∧ '"' ∉ data.root.text.toList) :
    (specifierStep data isFile file (Script.parse t)).Agrees t := by
  refine Step.agrees_of specifierStep_quiet fun h => ?_
  exact data.applyAll_retargetScript_ne hroot fun hnone => h (congrArg (List.map _) hnone)

end

/-- When no quote is in the path of the data directory, each step of a plan records no change and
leaves the text it is given, or records some and leaves another. A plan that records none leaves the
text of the file. -/
theorem Project.steps_agree (p : Project) (isFile : Path → Bool) (file : Path) (t : Text)
    (hroot : '\'' ∉ p.data.root.text.toList ∧ '"' ∉ p.data.root.text.toList) :
    (∀ step ∈ p.steps isFile file (lineBreakOf t), ∀ u : Text,
      (step (Script.parse u)).Agrees u) ∧
    ((p.plan isFile file t).changes = [] → (p.plan isFile file t).text = t) := by
  refine ⟨fun step hstep u => ?_, fun h => text_plan_of_isNoop (List.isEmpty_iff.2 h)⟩
  rw [steps, List.mem_append, List.mem_append] at hstep
  rcases hstep with (hstep | hstep) | hstep
  · obtain ⟨m, -, rfl⟩ := List.mem_map.1 hstep
    exact moduleStep_agrees (isLineBreak_lineBreakOf t)
  · obtain ⟨r, -, rfl⟩ := List.mem_map.1 hstep
    exact dataStep_agrees
  · cases List.mem_singleton.1 hstep
    exact specifierStep_agrees hroot

/-- Two specifiers exchanged in one step make another text. -/
theorem Project.steps_agree_moved :
    let p : Project := { root := ⟨"/proj"⟩ }
    let isFile : Path → Bool := fun f => f == ⟨"/proj/data/a.json"⟩ || f == ⟨"/proj/data/b.json"⟩
    let t : Text := "import a from '@/data/a.json';\nimport b from '../../data/b.json';\n".toList
    let step := specifierStep p.data isFile ⟨"app/page.js"⟩ (Script.parse t)
    step.changes = [⟨.retargeted, "@/data/a.json", "../data/a.json"⟩,
        ⟨.retargeted, "../../data/b.json", "../data/b.json"⟩] ∧
      applyAll step.edits t ≠ t := by
  intro p isFile t step
  have hchanges : step.changes = [⟨.retargeted, "@/data/a.json", "../data/a.json"⟩,
      ⟨.retargeted, "../../data/b.json", "../data/b.json"⟩] := by decide +kernel
  obtain ⟨hsteps, -⟩ := p.steps_agree isFile ⟨"app/page.js"⟩ t (by decide +kernel)
  rcases hsteps (specifierStep p.data isFile ⟨"app/page.js"⟩)
    (List.mem_append_right _ (List.mem_singleton_self _)) t with ⟨hnone, -⟩ | ⟨-, hne⟩
  · exact absurd (hchanges.symm.trans hnone) (List.cons_ne_nil _ _)
  · exact ⟨hchanges, hne⟩

end TidyImports
