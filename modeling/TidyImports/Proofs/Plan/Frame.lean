-- SUMMARY: The edits of an import step: where they lie, and that they leave the rest as it is.
import TidyImports.Proofs.Text.Splicing
import TidyImports.Proofs.Edits.Lines
import TidyImports.Proofs.Plan.Steps

/-!
# What import steps leave alone

A step takes out declarations of its module, alone or with their lines, and puts
lines in. The lines go below the prologue or below the line on which some
statement ends, so none of them falls in what is taken out, and all the rest of
the text is still there, in its order.
-/

namespace TidyImports

open Text

namespace Edit

-- ---------------------------------------------------------------------------
-- Separate edits, one kind after the other
-- ---------------------------------------------------------------------------

variable {t : Text}

theorem separate_nil (t : Text) : Separate t [] := ⟨by simp, List.Pairwise.nil⟩

theorem Separate.cons {e : Edit} {es : List Edit} (h : Separate t es)
    (hin : e.span.start ≤ e.span.stop ∧ t.IsCut e.span.start ∧ t.IsCut e.span.stop)
    (hapart : ∀ e' ∈ es, e.span.stop ≤ e'.span.start ∨ e'.span.stop ≤ e.span.start) :
    Separate t (e :: es) :=
  ⟨List.forall_mem_cons.2 ⟨hin, h.inside⟩, List.Pairwise.cons hapart h.apart⟩

theorem separate_singleton {e : Edit}
    (hin : e.span.start ≤ e.span.stop ∧ t.IsCut e.span.start ∧ t.IsCut e.span.stop) :
    Separate t [e] := (separate_nil t).cons hin (by simp)

end Edit

open Edit

-- ---------------------------------------------------------------------------
-- Places of the edits
-- ---------------------------------------------------------------------------

section

variable {t : Text} {ds : List Declaration}

theorem markSize_le_directiveOffset (t : Text) : t.markSize ≤ t.directiveOffset := by
  rw [directiveOffset]
  split
  · exact Nat.le_add_right ..
  · exact Nat.le_refl _

/-- Removals of declarations do not meet. -/
theorem separate_removals (hds : ∀ d ∈ ds, d ∈ (Script.parse t).declarations)
    (hpair : ds.Pairwise fun a b => a.span.stop ≤ b.span.start) :
    Separate t (ds.map (removeDeclaration t)) := by
  constructor
  case inside =>
    intro e he
    obtain ⟨d, hd, rfl⟩ := List.mem_map.1 he
    have haround := around_removeDeclaration (hds d hd)
    have hle := Nat.le_of_lt (Script.standsIn_of_mem (hds d hd)).start_lt
    exact ⟨Nat.le_trans haround.start_le (Nat.le_trans hle haround.stop_ge), haround.isCut_start,
      haround.isCut_stop⟩
  case apart =>
    refine List.pairwise_map.2 (hpair.imp_of_mem fun {a b} ha hb hab => .inl ?_)
    obtain ⟨st, hst, hspan⟩ := Script.exists_statement (hds a ha)
    calc (removeDeclaration t a).span.stop
        ≤ t.nextLine a.span.stop := (around_removeDeclaration (hds a ha)).stop_le
      _ ≤ t.edge b.span.start := by
        rw [← hspan] at hab ⊢
        exact Script.nextLine_le_edge hst (hds b hb) hab
      _ ≤ (removeDeclaration t b).span.start := (around_removeDeclaration (hds b hb)).start_ge

/-- A new line falls in no removal. -/
theorem separate_merge (hds : ∀ d ∈ ds, d ∈ (Script.parse t).declarations)
    (hpair : ds.Pairwise fun a b => a.span.stop ≤ b.span.start) (line eol : Text) :
    Separate t (insertLine t (Script.parse t).insertionOffset line eol ::
      ds.map (removeDeclaration t)) := by
  have hcut := Script.isCut_insertionOffset t
  refine (separate_removals hds hpair).cons ⟨Nat.le_refl _, hcut, hcut⟩ fun e he => ?_
  obtain ⟨d, hd, rfl⟩ := List.mem_map.1 he
  have haround := around_removeDeclaration (hds d hd)
  exact (Script.insertionOffset_apart (hds d hd)).imp
    (fun habove => Nat.le_trans habove haround.start_ge)
    fun hbelow => Nat.le_trans haround.stop_le hbelow

/-- A directive and a new line are put in behind the byte order mark, and take nothing out. -/
theorem span_of_mem_insert {v : Vocabulary} {m : ModuleRule} {line eol : Text} {e : Edit}
    (h : e ∈ directiveEdits v m eol (Script.parse t) ++
      [insertLine t (Script.parse t).insertionOffset line eol]) :
    ∃ n, e.span = ⟨n, n⟩ ∧ t.markSize ≤ n := by
  rcases List.mem_append.1 h with h | h
  · rw [directiveEdits] at h
    split at h
    · rw [List.mem_singleton.1 h]
      exact ⟨t.directiveOffset, rfl, markSize_le_directiveOffset t⟩
    · cases h
  · rw [List.mem_singleton.1 h]
    exact ⟨_, rfl, Script.markSize_le_insertionOffset t⟩

/-- A directive goes above a new line. -/
theorem separate_insert (v : Vocabulary) (m : ModuleRule) (line eol : Text) :
    Separate t (directiveEdits v m eol (Script.parse t) ++
      [insertLine t (Script.parse t).insertionOffset line eol]) := by
  have hcut := Script.isCut_insertionOffset t
  have hline : Separate t [insertLine t (Script.parse t).insertionOffset line eol] :=
    separate_singleton ⟨Nat.le_refl _, hcut, hcut⟩
  have hdirective : t.IsCut t.directiveOffset := by
    rcases Script.isLineEdge_directiveOffset t with hmark | hedge
    · rw [hmark]
      exact isCut_markSize t
    · exact hedge.isCut
  rw [directiveEdits]
  split
  · refine hline.cons ⟨Nat.le_refl _, hdirective, hdirective⟩ fun e he => .inl ?_
    rw [List.mem_singleton.1 he]
    exact Script.directiveOffset_le_insertionOffset t
  · exact hline

end

-- ---------------------------------------------------------------------------
-- What a step touches
-- ---------------------------------------------------------------------------

namespace Edit

/-- What edits about some declarations of a text do to it and what they do not do. -/
structure TouchOnly (t : Text) (ds : List Declaration) (es : List Edit) : Prop where
  separate : Separate t es
  /-- As they are applied, none starts before the one ahead of it is over. -/
  ascending : (Sorting.sort before es).Pairwise fun a b => a.span.stop ≤ b.span.start
  behindMark : ∀ e ∈ es, t.markSize ≤ e.span.start
  /-- What is taken out is a declaration, alone or with its lines. -/
  spans : ∀ e ∈ es, e.span.start < e.span.stop →
    ∃ d ∈ ds, e.span = d.span ∨ d.OwnsLines t e.span
  /-- All else is still there. -/
  rest : KeepsRest t es

theorem Separate.touchOnly {t : Text} {ds : List Declaration} {es : List Edit} (h : Separate t es)
    (hmark : ∀ e ∈ es, t.markSize ≤ e.span.start)
    (hspans : ∀ e ∈ es, e.span.start < e.span.stop →
      ∃ d ∈ ds, e.span = d.span ∨ d.OwnsLines t e.span) : TouchOnly t ds es :=
  ⟨h, h.ascending, hmark, hspans, h.keepsRest⟩

end Edit

section

variable {t : Text}

theorem touchOnly_nil (t : Text) (ds : List Declaration) : TouchOnly t ds [] :=
  (separate_nil t).touchOnly (by simp) (by simp)

/-- Insertions behind the byte order mark take nothing out. -/
theorem Edit.Separate.touchOnly_of_insertions {es : List Edit} (h : Separate t es)
    (hes : ∀ e ∈ es, ∃ n, e.span = ⟨n, n⟩ ∧ t.markSize ≤ n) (ds : List Declaration) :
    TouchOnly t ds es := by
  refine h.touchOnly (fun e he => ?_) fun e he hlt => ?_
  · obtain ⟨n, hspan, hmark⟩ := hes e he
    rw [hspan]
    exact hmark
  · obtain ⟨n, hspan, -⟩ := hes e he
    rw [hspan] at hlt
    exact absurd hlt (Nat.lt_irrefl _)

theorem canonicalStep_touchOnly {v : Vocabulary} {m : ModuleRule} {eol : Text}
    {ds : List Declaration} {c : Canonical} {rendered : Text}
    (hds : ∀ d ∈ ds, d ∈ (Script.parse t).declarations)
    (hpair : ds.Pairwise fun a b => a.span.stop ≤ b.span.start) :
    TouchOnly t ds (canonicalStep v m eol (Script.parse t) ds c rendered).edits := by
  match ds with
  | [] =>
    exact (separate_insert v m rendered eol).touchOnly_of_insertions
      (fun _ he => span_of_mem_insert he) []
  | [d] =>
    have hd := hds d (List.mem_singleton_self d)
    rw [canonicalStep]
    split
    · exact touchOnly_nil t [d]
    · obtain ⟨hmark, hlt, hstart, hstop⟩ := Script.standsIn_of_mem hd
      refine (separate_singleton (e := ⟨d.span, rendered⟩)
        ⟨Nat.le_of_lt hlt, hstart, hstop⟩).touchOnly (fun e he => ?_)
        fun e he _ => ⟨d, List.mem_singleton_self d, ?_⟩
      · rw [List.mem_singleton.1 he]
        exact hmark
      · rw [List.mem_singleton.1 he]
        exact .inl rfl
  | d :: d' :: more =>
    refine (separate_merge hds hpair rendered eol).touchOnly (fun e he => ?_) fun e he hlt => ?_
    · rcases List.mem_cons.1 he with rfl | he
      · exact Script.markSize_le_insertionOffset t
      · obtain ⟨k, hk, rfl⟩ := List.mem_map.1 he
        exact Nat.le_trans (Nat.le_max_right ..) (around_removeDeclaration (hds k hk)).start_ge
    · rcases List.mem_cons.1 he with rfl | he
      · exact absurd hlt (Nat.lt_irrefl _)
      · obtain ⟨k, hk, rfl⟩ := List.mem_map.1 he
        exact ⟨k, hk, removeDeclaration_cases t k⟩

theorem moduleStep_touchOnly (v : Vocabulary) (m : ModuleRule) (eol t : Text) :
    TouchOnly t ((Script.parse t).declarationsOf m.specifier)
      (moduleStep v m eol (Script.parse t)).edits := by
  rw [moduleStep]
  split
  · exact touchOnly_nil t _
  · simp only
    split
    · exact canonicalStep_touchOnly (fun d hd => (List.mem_filter.1 hd).1)
        ((Script.pairwise_stop_declarations t).sublist List.filter_sublist)
    · exact touchOnly_nil t _

theorem dataStep_touchOnly (data : DataDirectory) (isFile : Path → Bool) (path : Path)
    (r : DataRule) (eol t : Text) :
    TouchOnly t [] (dataStep data isFile path r eol (Script.parse t)).edits := by
  have hcut := Script.isCut_insertionOffset t
  rw [dataStep]
  split
  · exact touchOnly_nil t []
  · simp only
    split
    · exact touchOnly_nil t []
    · refine (separate_singleton ⟨Nat.le_refl _, hcut, hcut⟩).touchOnly_of_insertions
        (fun e he => ?_) []
      rw [List.mem_singleton.1 he]
      exact ⟨_, rfl, Script.markSize_le_insertionOffset t⟩

end

/-- The steps that write imports touch nothing but declarations of their module and the blanks on
their lines. -/
theorem importSteps_touchOnly (eol t : Text) :
    (∀ (v : Vocabulary) (m : ModuleRule), TouchOnly t
      ((Script.parse t).declarationsOf m.specifier) (moduleStep v m eol (Script.parse t)).edits) ∧
    ∀ (data : DataDirectory) (isFile : Path → Bool) (path : Path) (r : DataRule),
      TouchOnly t [] (dataStep data isFile path r eol (Script.parse t)).edits :=
  ⟨fun v m => moduleStep_touchOnly v m eol t,
    fun data isFile path r => dataStep_touchOnly data isFile path r eol t⟩

end TidyImports
