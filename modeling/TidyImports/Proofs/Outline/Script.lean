-- SUMMARY: A script is read off the outline of its text: tokens, statements, code, declarations.
import TidyImports.Proofs.Lexing.Top
import TidyImports.Proofs.Outline.Scan

/-!
# The outline of a script

The parts of a text are the outline of all its marks. What a script knows of its
tokens and statements follows from them, and what it knows without regard to
their place, the reading of a script, follows from parts without white space.
-/

namespace TidyImports

open Text

namespace Text

/-- The outline of a text. -/
def parts (t : Text) : List Part := outline 0 false (Lexer.top t.body)

/-- A text is a byte order mark, if it has one, its marks, and white space. -/
theorem exists_marks (t : Text) :
    ∃ mark tail, t = mark ++ Mark.sources (Lexer.top t.body) ++ tail ∧ mark.size = t.markSize ∧
      Mark.Reads (lineBlank true mark) (Lexer.top t.body) := by
  obtain ⟨mark, ht, hsize, hblank⟩ := t.exists_body
  obtain ⟨tail, htail⟩ := Lexer.sources_top t.body
  refine ⟨mark, tail, ?_, hsize, ?_⟩
  · rw [List.append_assoc, ← htail]
    exact ht
  · rw [hblank]
    exact Lexer.reads_top _

/-- The parts of a text hold all its marks. -/
theorem allMarks_parts (t : Text) : Part.allMarks t.parts = Lexer.top t.body :=
  allMarks_outline ..

theorem top_of_parts {t : Text} {ps qs : List Part} (h : t.parts = ps ++ qs) :
    Lexer.top t.body = Part.allMarks ps ++ Part.allMarks qs := by
  rw [← allMarks_parts, h, Part.allMarks_append]

theorem top_of_statement {t : Text} {ps qs : List Part} {head : Mark} {body : List Mark}
    {at? : Option Nat} (h : t.parts = ps ++ .statement head body at? :: qs) :
    Lexer.top t.body = Part.allMarks ps ++ head :: (body ++ Part.allMarks qs) := by
  rw [top_of_parts h, Part.allMarks_cons]
  rfl

end Text

theorem tokenize_eq_place (t : Text) :
    tokenize t = Mark.place t.markSize (Part.allMarks t.parts) := by
  rw [allMarks_parts, tokenize_eq_place_top]

theorem Mark.place_eq_append {offset : Nat} {ms : List Mark} {a b : List Token}
    (h : place offset ms = a ++ b) :
    ∃ x y, ms = x ++ y ∧ place offset x = a ∧ place (offset + (sources x).size) y = b := by
  refine ⟨ms.take a.length, ms.drop a.length, (List.take_append_drop _ _).symm, ?_, ?_⟩
  · rw [← take_place, h, List.take_left]
  · rw [← drop_place, h, List.drop_left]

/-- Where the tokens of a text are cut, so are the text and its marks. -/
theorem Text.exists_cut {t : Text} {before after : List Token} {head : Token}
    (htokens : tokenize t = before ++ head :: after) :
    ∃ x m q front tail, Lexer.top t.body = x ++ m :: q ∧
      t = front ++ Mark.sources (m :: q) ++ tail ∧
      Mark.Reads (lineBlank true front) (m :: q) ∧ Mark.place t.markSize x = before ∧
      front.size = t.markSize + (Mark.sources x).size ∧
      m.placed front.size = head ∧ Mark.place (front.size + m.source.size) q = after := by
  rw [tokenize_eq_place_top] at htokens
  obtain ⟨x, y, hms, hx, hy⟩ := Mark.place_eq_append htokens
  obtain ⟨m, q, rfl⟩ : ∃ m q, y = m :: q := by
    cases y with
    | nil => cases hy
    | cons m q => exact ⟨m, q, rfl⟩
  obtain ⟨mark, tail, ht, hsize, hr⟩ := t.exists_marks
  rw [hms] at ht hr
  have hfront : (mark ++ Mark.sources x).size = t.markSize + (Mark.sources x).size := by
    rw [size_append, hsize]
  rw [Mark.place_cons, ← hfront] at hy
  obtain ⟨hhead, hafter⟩ := List.cons.inj hy
  refine ⟨x, m, q, mark ++ Mark.sources x, tail, hms, ?_, ?_, hx, hfront, hhead, hafter⟩
  · rw [Mark.sources_append] at ht
    simpa using ht
  · have hreads := Mark.reads_drop x.length hr
    rwa [List.take_left, List.drop_left, ← lineBlank_append] at hreads

namespace Script

theorem statements_parse (t : Text) :
    (parse t).statements = Part.statementsFrom t.markSize 0 t.parts := by
  obtain ⟨mark, tail, ht, hsize, hr⟩ := t.exists_marks
  have hscan := Mark.scan_place ht hr (Lexer.proper_top _) 0 none 0
  rw [hsize] at hscan
  rw [parse, tokenize_eq_place, parts, allMarks_outline]
  exact hscan

/-- The tokens of a part's statement are those of its marks. -/
theorem tokensOf_statementAt {s : Script} {done after : List Token} {offset : Nat} {p : Part}
    (hs : s.tokens = done ++ (Mark.place offset p.marks ++ after)) :
    s.tokensOf (p.statementAt offset done.length) = Mark.place offset p.marks := by
  rw [tokensOf, hs]
  simp [Part.statementAt]

end Script

-- ---------------------------------------------------------------------------
-- Code
-- ---------------------------------------------------------------------------

namespace Part

/-- The code outside statements, as bare tokens. -/
def code (ps : List Part) : List Token :=
  ps.filterMap fun
    | .token m => if m.token.isCode then some m.token else none
    | .statement .. => none

@[simp] theorem code_nil : code [] = [] := rfl

@[simp] theorem code_append (ps qs : List Part) : code (ps ++ qs) = code ps ++ code qs :=
  List.filterMap_append

theorem code_token (m : Mark) (ps : List Part) :
    code (.token m :: ps) = if m.token.isCode then m.token :: code ps else code ps := by
  by_cases h : m.token.isCode <;> simp [code, h]

@[simp] theorem code_statement (head : Mark) (body : List Mark) (at? : Option Nat)
    (ps : List Part) : code (.statement head body at? :: ps) = code ps := rfl

theorem mem_statementsFrom {offset index : Nat} {ps : List Part} :
    ∀ st ∈ statementsFrom offset index ps, index ≤ st.first ∧ st.first < st.past := by
  induction ps generalizing offset index with
  | nil => simp [statementsFrom]
  | cons p ps ih =>
    intro st hst
    cases p with
    | token m =>
      have := ih st hst
      simp only [marks, List.length_singleton] at this
      omega
    | statement head body at? =>
      rcases List.mem_cons.1 hst with rfl | hst
      · simp [statementAt, marks]
      · have := ih st hst
        omega

end Part

namespace Script

/-- Tokens of a statement are no code. -/
theorem codeFrom_inside {st : Statement} {sts : List Statement} {index : Nat}
    {toks more : List Token} (hfirst : st.first ≤ index) (hpast : index + toks.length ≤ st.past) :
    codeFrom index (st :: sts) (toks ++ more) =
      codeFrom (index + toks.length) (st :: sts) more := by
  induction toks generalizing index with
  | nil => rfl
  | cons tok toks ih =>
    simp only [List.length_cons] at hpast
    have hahead : (st :: sts).dropWhile (·.past ≤ index) = st :: sts := by
      rw [List.dropWhile_cons_of_neg]
      simp
      omega
    rw [List.cons_append, codeFrom]
    simp only [hahead, List.head?_cons, Option.any_some, decide_eq_true hfirst, Bool.or_true,
      if_true]
    rw [ih (by omega) (by omega), List.length_cons]
    congr 1
    omega

theorem codeFrom_past {st : Statement} {sts : List Statement} {index : Nat} {toks : List Token}
    (h : st.past ≤ index) : codeFrom index (st :: sts) toks = codeFrom index sts toks := by
  cases toks with
  | nil => rfl
  | cons tok toks =>
    rw [codeFrom, codeFrom, List.dropWhile_cons_of_pos (by simpa using h)]

theorem codeFrom_outside {sts : List Statement} {index : Nat} {tok : Token} {toks : List Token}
    (h : ∀ st ∈ sts, index < st.first ∧ st.first < st.past) :
    codeFrom index sts (tok :: toks) =
      if tok.isComment then codeFrom (index + 1) sts toks
      else tok :: codeFrom (index + 1) sts toks := by
  have hahead : sts.dropWhile (·.past ≤ index) = sts := by
    cases sts with
    | nil => rfl
    | cons st sts =>
      have := h st (List.mem_cons_self ..)
      rw [List.dropWhile_cons_of_neg]
      simp
      omega
  have hhead : sts.head?.any (·.first ≤ index) = false := by
    cases sts with
    | nil => rfl
    | cons st sts =>
      have := h st (List.mem_cons_self ..)
      simp
      omega
  rw [codeFrom]
  simp only [hahead, hhead, Bool.or_false]

/-- The code among the first parts, of which the statements behind them are not asked. -/
theorem codeFrom_place (offset index : Nat) (ps qs : List Part) :
    (codeFrom index (Part.statementsFrom offset index (ps ++ qs))
      (Mark.place offset (Part.allMarks ps))).map Token.bare = Part.code ps := by
  induction ps generalizing offset index with
  | nil => rfl
  | cons p ps ih =>
    cases p with
    | token m =>
      have hrec := ih (offset + m.source.size) (index + 1)
      have hst : Part.statementsFrom offset index (.token m :: ps ++ qs) =
          Part.statementsFrom (offset + m.source.size) (index + 1) (ps ++ qs) := by
        simp [Part.statementsFrom, Part.marks, Mark.source]
      rw [Part.allMarks_cons, Part.marks, List.singleton_append, Mark.place_cons, hst,
        codeFrom_outside fun st h => ⟨(Part.mem_statementsFrom st h).1,
          (Part.mem_statementsFrom st h).2⟩, Part.code_token]
      have hc : (m.placed offset).isComment = !m.token.isCode := (Bool.not_not _).symm
      cases hm : m.token.isCode <;> simp [hc, hm, hrec]
    | statement head body at? =>
      have hrec := ih (offset + (Mark.sources (head :: body)).size) (index + (head :: body).length)
      rw [Part.allMarks_cons, Part.marks, Mark.place_append, List.cons_append, Part.statementsFrom]
      have hfirst : (Part.statementAt offset index (.statement head body at?)).first ≤ index :=
        Nat.le_refl _
      have hpast : index + (Mark.place offset (head :: body)).length =
          (Part.statementAt offset index (.statement head body at?)).past := by
        rw [Mark.length_place]
        rfl
      rw [codeFrom_inside hfirst (Nat.le_of_eq hpast), codeFrom_past (Nat.le_of_eq hpast.symm),
        Mark.length_place]
      exact hrec

theorem code_parse (t : Text) : (parse t).code.map Token.bare = Part.code t.parts := by
  rw [code, statements_parse]
  have hcode := codeFrom_place t.markSize 0 t.parts []
  rw [List.append_nil, ← tokenize_eq_place] at hcode
  exact hcode

end Script

end TidyImports
