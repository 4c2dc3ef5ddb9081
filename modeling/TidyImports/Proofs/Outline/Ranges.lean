-- SUMMARY: Import statements are ranges of tokens that do not meet, so walking past them is exact.
import TidyImports.Proofs.Lexing.Within
import TidyImports.Proofs.Outline.Locality
import TidyImports.Source.Bindings

/-!
# Statements as ranges of tokens

An import statement is a range of tokens that starts with an `import`. The
ranges follow each other, so one walk through the tokens, which leaves a
statement behind when it gets past it, tells the code from the statements.
-/

namespace TidyImports

-- ---------------------------------------------------------------------------
-- Ranges
-- ---------------------------------------------------------------------------

/-- Is the token at an index one of the statement? -/
def Statement.holds (st : Statement) (i : Nat) : Bool := st.first ≤ i && i < st.past

namespace Script

/-- A statement is the range of a script's tokens that its span covers. -/
structure IsRange (s : Script) (st : Statement) : Prop where
  nonempty : st.first < st.past
  inside : st.past ≤ s.tokens.length
  head : ∃ tok, (s.tokensOf st).head? = some tok ∧ tok.isWord "import" ∧
    st.span.start = tok.start
  last : ∃ tok, (s.tokensOf st).getLast? = some tok ∧ st.span.stop = tok.stop
  /-- There is no comment in a declaration. -/
  plain : st.declaration?.isSome → ∀ tok ∈ s.tokensOf st, tok.isCode

theorem isRange_statementAt {s : Script} {done after : List Token} {offset : Nat} {head : Mark}
    {body : List Mark} {at? : Option Nat} (hhead : head.token.isWord "import")
    (hs : s.tokens = done ++ (Mark.place offset (head :: body) ++ after)) :
    s.IsRange ((Part.statement head body at?).statementAt offset done.length) := by
  have htokens : s.tokensOf ((Part.statement head body at?).statementAt offset done.length) =
      Mark.place offset (head :: body) := tokensOf_statementAt hs
  constructor
  case nonempty => simp [Part.statementAt, Part.marks]
  case inside =>
    rw [hs]
    simp [Part.statementAt, Part.marks]
  case head =>
    rw [htokens, Mark.place_cons]
    exact ⟨_, rfl, hhead, rfl⟩
  case last =>
    have hne : Mark.place offset (head :: body) ≠ [] := by simp [Mark.place_cons]
    refine ⟨_, by rw [htokens, List.getLast?_eq_some_getLast hne], ?_⟩
    have hstop := Mark.stop_getLast?_place offset (List.cons_ne_nil head body) default
    rw [List.getLast?_eq_some_getLast hne] at hstop
    exact hstop.symm
  case plain =>
    intro hdeclaration tok htok
    obtain ⟨d, hd⟩ := Option.isSome_iff_exists.1 hdeclaration
    obtain ⟨d', hd', -⟩ := Option.map_eq_some_iff.1 hd
    rw [htokens, Mark.place_cons] at htok
    rcases List.mem_cons.1 htok with rfl | htok
    · exact Mark.isCode_of_isIdent (Bool.and_eq_true_iff.1 hhead).1
    · have hall := (Bool.and_eq_true_iff.1 (Part.leads_and_isCode_of_declaration? hd')).2
      rw [← Mark.all_isCode_place (offset + head.source.size), List.all_eq_true] at hall
      exact hall tok htok

/-- The statements of parts in a row, the first of which starts behind the tokens `done`. -/
theorem isRange_of_mem_statementsFrom {s : Script} {done : List Token} {offset : Nat}
    {ps : List Part} {st : Statement}
    (hheads : ∀ head body at?, Part.statement head body at? ∈ ps → head.token.isWord "import")
    (hs : s.tokens = done ++ Mark.place offset (Part.allMarks ps))
    (h : st ∈ Part.statementsFrom offset done.length ps) : s.IsRange st := by
  obtain ⟨front, head, body, at?, back, rfl, rfl⟩ := Part.exists_of_mem_statementsFrom h
  have hhead := hheads head body at? (List.mem_append_right _ (List.mem_cons_self ..))
  have hlength : done.length + (Part.allMarks front).length =
      (done ++ Mark.place offset (Part.allMarks front)).length := by
    rw [List.length_append, Mark.length_place]
  have htokens : s.tokens = done ++ Mark.place offset (Part.allMarks front) ++
      (Mark.place (offset + (Mark.sources (Part.allMarks front)).size) (head :: body) ++
        Mark.place (offset + (Mark.sources (Part.allMarks front)).size +
          (Mark.sources (head :: body)).size) (Part.allMarks back)) := by
    rw [hs, Part.allMarks_append, Part.allMarks_cons, Part.marks, Mark.place_append,
      Mark.place_append, List.append_assoc]
  rw [hlength]
  exact isRange_statementAt hhead htokens

end Script

/-- Each statement of parts in a row is past before the next one starts. -/
theorem Part.pairwise_statementsFrom (offset index : Nat) (ps : List Part) :
    (statementsFrom offset index ps).Pairwise fun a b => a.past ≤ b.first := by
  induction ps generalizing offset index with
  | nil => exact List.Pairwise.nil
  | cons p ps ih =>
    cases p with
    | token m => exact ih ..
    | statement head body at? =>
      exact List.Pairwise.cons (fun st hst => (mem_statementsFrom st hst).1) (ih ..)

-- ---------------------------------------------------------------------------
-- Code
-- ---------------------------------------------------------------------------

namespace Script

/-- The tokens from `index` on that are no comments and that no statement holds. -/
def outside (statements : List Statement) (index : Nat) (tokens : List Token) : List Token :=
  ((tokens.zipIdx index).filter fun x =>
    x.1.isCode && !statements.any (·.holds x.2)).map Prod.fst

variable {statements : List Statement} {index : Nat}

theorem outside_cons (tok : Token) (tokens : List Token) :
    outside statements index (tok :: tokens) =
      if tok.isCode && !statements.any (·.holds index) then
        tok :: outside statements (index + 1) tokens
      else outside statements (index + 1) tokens := by
  rw [outside, List.zipIdx_cons, List.filter_cons]
  split <;> rfl

/-- A statement holds none of the tokens behind it. -/
theorem any_holds_dropWhile {i : Nat} (h : index ≤ i) :
    (statements.dropWhile (·.past ≤ index)).any (·.holds i) = statements.any (·.holds i) := by
  induction statements with
  | nil => rfl
  | cons st statements ih =>
    by_cases hpast : st.past ≤ index
    · have hbehind : st.holds i = false := by
        simp [Statement.holds]
        omega
      rw [List.dropWhile_cons_of_pos (by simpa using hpast), ih, List.any_cons, hbehind,
        Bool.false_or]
    · rw [List.dropWhile_cons_of_neg (by simpa using hpast)]

theorem outside_dropWhile {i : Nat} (h : index ≤ i) (tokens : List Token) :
    outside (statements.dropWhile (·.past ≤ index)) i tokens = outside statements i tokens := by
  induction tokens generalizing i with
  | nil => rfl
  | cons tok tokens ih =>
    rw [outside_cons, outside_cons, any_holds_dropWhile h, ih (Nat.le_succ_of_le h)]

/-- Of statements in order that lie ahead, only the first can hold a token. -/
theorem head?_dropWhile (h : statements.Pairwise fun a b => a.past ≤ b.first) :
    (statements.dropWhile (·.past ≤ index)).head?.any (·.first ≤ index) =
      statements.any (·.holds index) := by
  rw [← any_holds_dropWhile (Nat.le_refl index)]
  have hsorted := h.sublist (List.dropWhile_sublist (·.past ≤ index))
  have hhead := List.head?_dropWhile_not (fun st : Statement => decide (st.past ≤ index)) statements
  cases hahead : statements.dropWhile (·.past ≤ index) with
  | nil => rfl
  | cons st rest =>
    rw [hahead] at hsorted hhead
    have hpast : index < st.past := by simpa using hhead
    have hrest : rest.any (·.holds index) = false := by
      refine List.any_eq_false.2 fun st' hst' => ?_
      have := List.rel_of_pairwise_cons hsorted hst'
      simp [Statement.holds]
      omega
    rw [List.any_cons, hrest, Bool.or_false, List.head?_cons, Option.any_some, Statement.holds,
      decide_eq_true hpast, Bool.and_true]

/-- The walk past statements finds what is outside of them. -/
theorem codeFrom_eq_outside (h : statements.Pairwise fun a b => a.past ≤ b.first)
    (tokens : List Token) : codeFrom index statements tokens = outside statements index tokens := by
  induction tokens generalizing statements index with
  | nil => rfl
  | cons tok tokens ih =>
    have hrec := @ih (statements.dropWhile (·.past ≤ index)) (index + 1)
      (h.sublist (List.dropWhile_sublist _))
    rw [outside_dropWhile (Nat.le_succ index)] at hrec
    have hcode : tok.isCode = !tok.isComment := rfl
    rw [outside_cons, hcode, codeFrom]
    simp only [head?_dropWhile h, hrec]
    cases tok.isComment <;> cases statements.any (·.holds index) <;> rfl

-- ---------------------------------------------------------------------------
-- Whole scripts
-- ---------------------------------------------------------------------------

/-- What a script knows of its tokens: the statements are ranges that do not meet, the code is what
is outside of them, and the tokens that reach into a line are found by bisection. -/
structure IsExact (s : Script) : Prop where
  ranges : ∀ st ∈ s.statements, s.IsRange st
  ascending : s.statements.Pairwise fun a b => a.past ≤ b.first
  code : s.code = outside s.statements 0 s.tokens
  /-- A line is a range that is not empty. -/
  within (range : Span) : range.start < range.stop →
    s.tokensWithin range = s.tokens.filter fun tok => tok.span.Overlaps range
  bisected (range : Span) : s.tokensWithin range =
    (s.tokens.drop (Bisection.partitionPoint (·.stop ≤ range.start) s.tokens)).takeWhile
      (·.start < range.stop)

theorem isExact_parse (t : Text) : (parse t).IsExact := by
  have hascending : (parse t).statements.Pairwise fun a b => a.past ≤ b.first := by
    rw [statements_parse]
    exact Part.pairwise_statementsFrom ..
  constructor
  case ranges =>
    intro st hst
    rw [statements_parse] at hst
    exact @isRange_of_mem_statementsFrom (parse t) [] _ _ st
      (fun head body at? h => isWord_of_mem_outline h) (tokenize_eq_place t) hst
  case ascending => exact hascending
  case code => exact codeFrom_eq_outside hascending _
  case within => exact fun range h => tokensWithin_eq t h
  case bisected => exact fun range => (bisect_tokensWithin t range).symm

end Script

end TidyImports
