-- SUMMARY: Where a text can be cut: above, nothing is open; below, nothing looks back.
import TidyImports.Proofs.Outline.Locality

/-!
# Seams

A text stands on its own when it ends a line outside tokens and braces, and no
statement in it is still looking for its specifier. What is put below such a
text leaves its outline alone. What follows a place does not look back
when its first code is read the same whatever stands before it.
-/

namespace TidyImports

open Text Lexer

-- ---------------------------------------------------------------------------
-- Text above
-- ---------------------------------------------------------------------------

/-- Has everything that a script starts come to its end? -/
def Script.Finished (s : Script) : Prop :=
  (∀ tok ∈ s.tokens, tok.stop < s.text.size) ∧
  s.code.foldl Statement.depthAfter 0 = 0 ∧
  (∀ tok ∈ Token.lastCode? s.tokens, tok.isWord "import" = false) ∧
  ∀ st ∈ s.statements, st.specifier?.isSome ∨ ∃ tok ∈ s.tokens.drop (st.first + 1),
    tok.isPunct ';' ∨ (tok.isWord "import" ∧ s.text.firstOnLine tok.start)

instance (s : Script) : Decidable s.Finished :=
  inferInstanceAs (Decidable ((∀ tok ∈ s.tokens, _) ∧ _ ∧ (∀ tok ∈ Token.lastCode? s.tokens, _) ∧
    ∀ st ∈ s.statements, _ ∨ ∃ tok ∈ s.tokens.drop (st.first + 1), _ ∨ (_ ∧ _)))

/-- Text below which other text can be put: nothing but a byte order mark, or whole lines in which
nothing is left open. -/
def Text.Stands (p : Text) : Prop := p.body = [] ∨ (p.EndsLine ∧ (Script.parse p).Finished)

instance (p : Text) : Decidable p.Stands := inferInstanceAs (Decidable (_ ∨ (_ ∧ _)))

namespace Mark

/-- An `import` of a text is first on its line as its mark says. -/
theorem firstOnLine_top {t : Text} {a b : List Mark} {m : Mark}
    (h : top t.body = a ++ m :: b) :
    ((m.placed (t.markSize + (sources a).size)).isWord "import" &&
      t.firstOnLine (m.placed (t.markSize + (sources a).size)).start) = m.leads := by
  obtain ⟨mark, ht, hsize, hblank⟩ := t.exists_body
  have hr := reads_drop a.length (reads_top t.body)
  rw [h, List.take_left, List.drop_left, ← hblank, ← lineBlank_append] at hr
  have htext : t = (mark ++ sources a) ++ sources (m :: b) ++ (leaveTop t.body).2 := by
    have := sources_top_leaveTop t.body
    rw [h, sources_append] at this
    rw [List.append_assoc, List.append_assoc, ← List.append_assoc (sources a), this]
    exact ht
  have := firstOnLine_placed htext hr
  rwa [size_append, hsize] at this

end Mark

theorem Script.Finished.settled {t : Text} (h : (parse t).Finished) : Part.Settled t.parts := by
  obtain ⟨-, -, hlast, hsearch⟩ := h
  have hmarks := t.allMarks_parts.symm
  refine ⟨fun front head body at? back heq => ?_, fun tok htok => ?_⟩
  · have hmem := Part.statementAt_mem t.markSize 0 front back head body at?
    rw [← heq, ← statements_parse, Nat.zero_add] at hmem
    rcases hsearch _ hmem with hs | ⟨tok, htok, hs⟩
    · left
      cases at? with
      | none => cases hs
      | some i => rfl
    · right
      have hsplit : top t.body = (Part.allMarks front ++ [head]) ++ (body ++ Part.allMarks back) := by
        rw [top_of_statement heq]
        simp
      have hlen : (Part.allMarks front).length + 1 = (Part.allMarks front ++ [head]).length := by
        simp
      have hdrop : (parse t).tokens.drop ((Part.allMarks front).length + 1) =
          Mark.place (t.markSize + (Mark.sources (Part.allMarks front ++ [head])).size)
            (body ++ Part.allMarks back) := by
        rw [parse, tokenize_eq_place, ← hmarks, hsplit, Mark.drop_place, hlen, List.take_left,
          List.drop_left]
      change tok ∈ (parse t).tokens.drop ((Part.allMarks front).length + 1) at htok
      rw [hdrop] at htok
      obtain ⟨a, m, b, hab, rfl⟩ := Mark.mem_place htok
      refine ⟨m, by rw [hab]; simp, ?_⟩
      rcases hs with hs | ⟨hw, hf⟩
      · exact .inl hs
      · have hfirst := Mark.firstOnLine_top (t := t) (a := Part.allMarks front ++ [head] ++ a)
          (m := m) (b := b) (by rw [hsplit, hab]; simp)
        rw [Mark.sources_append, size_append, ← Nat.add_assoc, hw] at hfirst
        right
        rw [← hfirst, Bool.true_and]
        exact hf
  · have hbare := Token.lastCode?_map Token.faithful_bare (parse t).tokens
    have htokens : (parse t).tokens.map Token.bare = (Part.allMarks t.parts).map Mark.token := by
      rw [parse, tokenize_eq_place, Mark.map_bare_place]
    rw [htokens, htok] at hbare
    obtain ⟨tok', htok', rfl⟩ := Option.map_eq_some_iff.1 hbare.symm
    exact hlast tok' htok'

-- ---------------------------------------------------------------------------
-- What is put below
-- ---------------------------------------------------------------------------

/-- The first marks of a text on a new line start there. -/
theorem Mark.startsLine_marks {s : State} {blank : Bool} {gap t : Text} (h : '\n' ∈ gap) :
    Mark.StartsLine (marks s blank gap t) := by
  intro m hm
  cases hms : marks s blank gap t with
  | nil => simp [hms] at hm
  | cons k ms =>
    obtain ⟨spaces, c, cs, n, -, -, -, -, hk, -⟩ := marks_eq_cons hms
    rw [hms] at hm
    cases hm
    rw [hk]
    exact List.mem_append_left _ h

/-- Does a text start with none of the characters that mean something at the top of a file? -/
def Fresh (x : Text) : Prop := x.head? ≠ some '#' ∧ x.head? ≠ some byteOrderMark

instance (x : Text) : Decidable (Fresh x) := inferInstanceAs (Decidable (_ ∧ _))

theorem Fresh.spaces_append {w x : Text} (hw : w.all isSpace) (hx : Fresh x) : Fresh (w ++ x) := by
  cases w with
  | nil => exact hx
  | cons c w =>
    rw [List.all_cons, Bool.and_eq_true] at hw
    constructor <;> rintro heq <;> cases heq <;> exact absurd hw.1 (by decide)

/-- A text that stands on its own keeps its outline, whatever is put below. What is below is read
from a state and after white space that are its own. -/
theorem Text.Stands.parts_append {p : Text} (h : p.Stands) :
    ∃ (s : State) (gap : Text) (after : Bool), gap.all isSpace ∧
      p.body = Mark.sources (Part.allMarks p.parts) ++ gap ∧
      ∀ x, Fresh x → (p ++ x).parts = p.parts ++ outline 0 after (marks s true gap x) := by
  by_cases hbody : p.body = []
  · have hparts : p.parts = [] := by
      rw [parts, hbody, top_of_not_shebang (by simp), marks, outline]
    refine ⟨{}, [], false, rfl, by rw [hbody, hparts]; rfl, fun x hx => ?_⟩
    have hshebang : ∀ rest, x ≠ '#' :: '!' :: rest := by
      rintro rest rfl
      exact hx.1 rfl
    rw [hparts, parts, body_append (.inr hx.2), hbody, List.nil_append,
      top_of_not_shebang hshebang, List.nil_append]
  · obtain ⟨hline, hfin⟩ := h.resolve_left hbody
    obtain ⟨mark, hp, hsize, -⟩ := p.exists_body
    have hend : p.body.EndsLine := by
      rw [hp] at hline
      exact hline.of_append hbody
    have hmarks := p.allMarks_parts.symm
    have hgap : (leaveTop p.body).2 ≠ [] := by
      intro hnil
      have hsrc := sources_top_leaveTop p.body
      rw [hnil, List.append_nil] at hsrc
      have hne : top p.body ≠ [] := by
        intro h
        rw [h] at hsrc
        exact hbody hsrc.symm
      obtain ⟨tok, htok, hstop⟩ := Mark.stop_mem_place p.markSize hne
      have hlt := hfin.1 tok (by rw [Script.parse, tokenize_eq_place, ← hmarks]; exact htok)
      rw [hstop, hsrc, ← hsize, ← size_append, ← hp] at hlt
      exact Nat.lt_irrefl _ hlt
    have hdepth : Part.depthAfterAll 0 p.parts = 0 := by
      have := hfin.2.1
      rwa [← Part.foldl_depthAfter_bare, Script.code_parse, Part.foldl_depthAfter_code] at this
    refine ⟨(leaveTop p.body).1, (leaveTop p.body).2, Part.afterSemicolonAll false p.parts,
      leaveTop_isSpace _, ?_, fun x _ => ?_⟩
    · rw [← hmarks, sources_top_leaveTop]
    · have hne : p ≠ [] := by
        rintro rfl
        exact hbody rfl
      rw [parts, body_append (.inl hne), top_append hend hgap,
        outline_append (proper_top _) (Mark.startsLine_marks (mem_leaveTop hend hgap))
          hfin.settled]
      rw [← parts, hdepth]

-- ---------------------------------------------------------------------------
-- What does not look back
-- ---------------------------------------------------------------------------

/-- The first code is the same up to the white space before it. -/
theorem Mark.neutral_of_indent {gap : Text} {ms : List Mark}
    (h : ∀ m, (Mark.indent gap ms).find? (·.token.isCode) = some m → m.Neutral) :
    ∀ m, ms.find? (·.token.isCode) = some m → m.Neutral := by
  intro m hm
  cases ms with
  | nil => cases hm
  | cons k ms =>
    have hk : Token.isCode (Mark.token { k with gap := gap ++ k.gap }) = k.token.isCode := rfl
    rw [Mark.indent] at h
    simp only [List.find?_cons, hk] at h hm
    by_cases hc : k.token.isCode
    · simp only [hc] at h hm
      cases hm
      have hn := h _ rfl
      exact hn
    · simp only [hc] at h hm
      exact h m hm

/-- Text whose first code does not look back has the same outline after other text. -/
theorem outline_follows {s s' : State} {blank blank' after' : Bool} {gap gap' q : Text}
    (after : Bool) (hd : s.depths = s'.depths) (hb : blank → blank')
    (h : ∀ m, (marks s blank gap q).find? (·.token.isCode) = some m → m.Neutral) :
    (outline 0 after' (marks s' blank' gap' q)).map Part.flush =
      (outline 0 after (marks s blank gap q)).map Part.flush := by
  have hgap := marks_indent s blank gap [] q
  have hgap' := marks_indent s' blank' gap' [] q
  rw [List.append_nil] at hgap hgap'
  rw [hgap] at h
  have hn := Mark.neutral_of_indent h
  rw [hgap, hgap', outline_indent, outline_indent, marks_congr hd hb hn,
    outline_congr after after' fun m hm => (hn m hm).2.2]

end TidyImports
