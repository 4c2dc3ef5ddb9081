-- SUMMARY: A declaration that is synthesized alone and written is read back in canonical order.
import TidyImports.Proofs.Plan.Normal

/-!
# Writing a declaration again

What is read in a declaration can be written: its names are identifiers other
than `from`, and what stands between its quotes can stand between the same
quotes anywhere. So the import that synthesis makes of one declaration, written
in the declaration's own style, is read as one declaration that fills its text.
-/

namespace TidyImports

open Text Lexer

-- ---------------------------------------------------------------------------
-- A written import alone
-- ---------------------------------------------------------------------------

namespace Canonical

variable {c : Canonical} {style : Style} {rendered : Text}

theorem head?_render (hr : c.render? style = some rendered) : rendered.head? = some 'i' := by
  obtain ⟨clause, -, rfl⟩ := Option.map_eq_some_iff.1 hr
  rfl

/-- A text that is one written import has one part. -/
theorem parts_rendered (hc : c.WritableIn style.quote) (hr : c.render? style = some rendered) :
    rendered.parts = [c.part style []] := by
  have hhead := head?_render hr
  have hbody : rendered.body = rendered := body_eq_self (by rw [hhead]; decide)
  have hshebang : ∀ rest, rendered ≠ '#' :: '!' :: rest := by
    rintro rest rfl
    exact absurd hhead (by simp)
  have houtline : outline 0 false (marks {} true [] (rendered ++ [])) = _ :=
    outline_rendered hc hr fun _ => by rw [marks]; rfl
  rw [List.append_nil, marks, outline] at houtline
  rw [Text.parts, hbody, top_of_not_shebang hshebang, houtline]

theorem spanAt_part (hr : c.render? style = some rendered) (offset : Nat) (gap : Text) :
    (c.part style gap).spanAt offset =
      ⟨offset + gap.size, offset + gap.size + rendered.size⟩ := by
  rw [sources_bodyMarks hr]
  simp [part, Part.spanAt, Part.marks, head, Nat.add_assoc]

/-- A text that is one written import declares what the import binds, from its start to its
end. -/
theorem declarations_rendered (hc : c.WritableIn style.quote)
    (hr : c.render? style = some rendered) :
    (Script.parse rendered).declarations =
      [{ c.declaration style with span := ⟨0, rendered.size⟩ }] := by
  have hmark : rendered.markSize = 0 := markSize_eq_zero (by rw [head?_render hr]; decide)
  have hspan : (c.part style []).spanAt 0 = ⟨0, rendered.size⟩ := by
    simpa using spanAt_part hr 0 []
  rw [Script.declarations_parse, parts_rendered hc hr, hmark]
  simp [Part.declarationsFrom, declaration?_part hc.spelledIn, hspan]

end Canonical

-- ---------------------------------------------------------------------------
-- One declaration
-- ---------------------------------------------------------------------------

/-- The second declaration says what the first says, with each item once and in ascending order. -/
structure Declaration.Ordered (d d' : Declaration) : Prop where
  specifier : d'.specifier = d.specifier
  default : d'.default? = d.default?
  style : d'.style = d.style
  ascending : d'.named.Pairwise (· < ·)
  named : ∀ item, item ∈ d'.named ↔ item ∈ d.named

section

variable {d : Declaration}

/-- One declaration without usages is synthesized as it is, in its own style. -/
theorem synthesize_singleton (h : d.default?.isSome ∨ d.named ≠ []) :
    ∃ c, (synthesize d.specifier [d] ∅).canonical? = some c ∧
      (synthesize d.specifier [d] ∅).style = d.style ∧
      (c.default?.isSome ∨ c.named.isEmpty = false) ∧ d.Ordered (c.declaration d.style) := by
  have hsorted : [d].Pairwise fun a b => Declaration.before a b := List.pairwise_singleton _ _
  have hown : ∀ d' ∈ [d], d'.specifier = d.specifier := by simp
  cases hc : (synthesize d.specifier [d] ∅).canonical? with
  | none =>
    obtain ⟨hnone, -⟩ := synthesize_none hsorted hown hc
    obtain ⟨hdefault, hnamed⟩ := hnone d (List.mem_singleton_self d)
    simp [hdefault, hnamed] at h
  | some c =>
    have hnone : SortedSet.ofModule (∅ : UsageSet) d.specifier = [] := rfl
    have hmerges : c.Merges d.specifier [d] [] :=
      hnone ▸ synthesize_some hsorted hown (by simp [hnone]) hc
    refine ⟨c, rfl, by rw [synthesize_eq hsorted hown]; rfl, hmerges.binds, ?_⟩
    constructor
    case specifier => exact hmerges.specifier
    case default =>
      change c.default? = d.default?
      cases hdefault : d.default? with
      | some name => exact hmerges.kept (by simp [hdefault])
      | none =>
        cases hc' : c.default? with
        | none => rfl
        | some name =>
          obtain ⟨⟨u, hu, -⟩, -⟩ := hmerges.claimed (by simp [hdefault]) hc'
          cases hu
    case style => rfl
    case ascending => exact c.named.toList_ascending
    case named =>
      intro item
      exact hmerges.mem_named.trans (by simp)

/-- A canonical import matches what it is read back as. -/
theorem Canonical.matches?_declaration (c : Canonical) (style : Style) (span : Span) :
    c.matches? { c.declaration style with span } := by
  rw [matches?, Declaration.namedAscending_of_pairwise c.named.toList_ascending]
  simp [declaration]

variable {t : Text}

/-- The specifier of a declaration can stand between its quotes anywhere. -/
theorem Script.quotable_of_mem_declarations (h : d ∈ (parse t).declarations) :
    IsQuotable d.style.quote.char d.specifier.toList := by
  obtain ⟨clause, word, specifier, tail, hreads, hmem⟩ := reads_of_mem h
  have hkind : specifier.kind = .string true := Token.kind_of_contents? hreads.contents
  obtain ⟨q, x, -, htext, hquotable⟩ := quotable_top (hmem specifier (by simp)) hkind
  have hq : d.style.quote.char = q := by
    have := hreads.quote
    rw [htext] at this
    exact (Option.some.inj this).symm
  have hx : d.specifier.toList = x := by
    simpa [Token.contents?, Mark.token, hkind, htext] using hreads.contents.symm
  rw [hq, hx]
  exact hquotable

/-- A declaration that binds a name, synthesized alone and written in its style, is read back as
one declaration from the start of the text to its end, and the canonical import matches it. -/
theorem Script.declarations_of_synthesize (hd : d ∈ (parse t).declarations)
    (hbinds : d.default?.isSome ∨ d.named ≠ []) :
    ∃ out c d', (synthesize d.specifier [d] ∅).render? = some out ∧
      (synthesize d.specifier [d] ∅).canonical? = some c ∧
      (parse out).declarations = [d'] ∧ d'.span = ⟨0, out.size⟩ ∧ d.Ordered d' ∧ c.matches? d' := by
  obtain ⟨c, hc, hstyle, hcbinds, hordered⟩ := synthesize_singleton hbinds
  obtain ⟨hdefault, hnamed⟩ := names_of_mem_declarations hd
  have hwritable : c.WritableIn d.style.quote := by
    constructor
    case default => exact fun name hname => hdefault name (hordered.default ▸ hname)
    case named => exact fun item hitem => hnamed item ((hordered.named item).1 hitem)
    case specifier =>
      have hspecifier : c.specifier = d.specifier := hordered.specifier
      rw [hspecifier]
      exact quotable_of_mem_declarations hd
    case binds => exact hcbinds
  obtain ⟨out, hout, -⟩ := c.exists_render hwritable.binds d.style
  refine ⟨out, c, _, ?_, hc, Canonical.declarations_rendered hwritable hout, rfl, ?_,
    c.matches?_declaration _ _⟩
  · rw [Synthesis.render?, hc, hstyle]
    exact hout
  · exact ⟨hordered.specifier, hordered.default, hordered.style, hordered.ascending,
      hordered.named⟩

/-- Contextual keywords, repeated items, an escaped quote and an escaped line feed are written
again. -/
theorem Script.declarations_of_synthesize_escaped :
    let t : Text := "0;\n  import as, \x7b as as as, é, as, as as as, \x7d from 'm\\'s\\\nq' ;\n".toList
    let out : Text := "import as, \x7b as, as as as, é \x7d from 'm\\'s\\\nq';".toList
    ∃ d ∈ (parse t).declarations, d.default?.isSome ∧
      (synthesize d.specifier [d] ∅).render? = some out ∧ ∃ c d',
        (synthesize d.specifier [d] ∅).canonical? = some c ∧ (parse out).declarations = [d'] ∧
          d'.span = ⟨0, out.size⟩ ∧ d.Ordered d' ∧ c.matches? d' := by
  intro t out
  let d : Declaration :=
    { specifier := "m\\'s\\\nq", span := ⟨5, 64⟩, default? := some "as",
      named := ["as as as", "é", "as", "as as as"], style := ⟨.single, true⟩ }
  have hd : d ∈ (parse t).declarations := by decide +kernel
  have hout : (synthesize d.specifier [d] ∅).render? = some out := by decide +kernel
  obtain ⟨out', c, d', hout', hc, hparse, hspan, hordered, hmatches⟩ :=
    declarations_of_synthesize hd (.inl rfl)
  cases hout.symm.trans hout'
  exact ⟨d, hd, rfl, hout, c, d', hc, hparse, hspan, hordered, hmatches⟩

end

end TidyImports
