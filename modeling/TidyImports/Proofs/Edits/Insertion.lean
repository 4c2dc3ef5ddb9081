-- SUMMARY: New lines go between lines, behind the prologue and the imports; what they can fall in.
import TidyImports.Proofs.Edits.Places
import TidyImports.Proofs.Lexing.Within

/-!
# Insertion

A new declaration goes to the end of a line: the last one of the prologue, or
the one on which the last import of the block ends. Lines are passed one after
the other and not token by token, so a new line can fall in a token or a
statement that is not over where the line is. It has to be the comment or the
string with which the prologue ends, or to begin behind an import, on its last
line.
-/

namespace TidyImports

open Text Lexer

/-- Does an offset lie strictly between the ends of a span? -/
def Span.Encloses (s : Span) (n : Nat) : Prop := s.start < n ∧ n < s.stop

instance (s : Span) (n : Nat) : Decidable (s.Encloses n) := inferInstanceAs (Decidable (_ ∧ _))

-- ---------------------------------------------------------------------------
-- Tokens on a line
-- ---------------------------------------------------------------------------

namespace Script

variable {t : Text} {st : Statement} {tok : Token} {n : Nat}

/-- Of the code on a line of the prologue, each token is a closed string or a `;`. -/
theorem of_lineKind_ne_code {s : Script} {line : Span} (h : s.lineKind line ≠ .code)
    (htok : tok ∈ s.tokensWithin line) (hcode : tok.isCode) :
    tok.contents?.isSome ∨ tok.isPunct ';' := by
  have hmem : tok ∈ (s.tokensWithin line).filter Token.isCode := List.mem_filter.2 ⟨htok, hcode⟩
  rw [lineKind] at h
  cases hline : (s.tokensWithin line).filter Token.isCode with
  | nil =>
    rw [hline] at hmem
    cases hmem
  | cons first rest =>
    rw [hline] at h hmem
    simp only at h
    cases hcontents : first.contents? with
    | none => simp [hcontents] at h
    | some value =>
      rcases List.mem_cons.1 hmem with rfl | hmem
      · exact .inl (by rw [hcontents]; rfl)
      · rcases rest with _ | ⟨next, _ | ⟨next', more⟩⟩
        · cases hmem
        · rw [List.mem_singleton.1 hmem]
          exact .inr (by simp_all)
        · simp [hcontents] at h

theorem exists_isCode_of_lineKind {s : Script} {line : Span} (h : s.lineKind line = .code) :
    ∃ tok ∈ s.tokensWithin line, tok.isCode := by
  rw [lineKind] at h
  cases hline : (s.tokensWithin line).filter Token.isCode with
  | nil => simp [hline] at h
  | cons tok rest =>
    have hmem : tok ∈ (s.tokensWithin line).filter Token.isCode := by
      rw [hline]
      exact List.mem_cons_self ..
    exact ⟨tok, List.mem_filter.1 hmem⟩

-- ---------------------------------------------------------------------------
-- The prologue
-- ---------------------------------------------------------------------------

/-- Is an offset the top of a script, or the end of a line with nothing but lines of the prologue
above? -/
inductive InPrologue (s : Script) : Nat → Prop
  | top : InPrologue s 0
  | line {n : Nat} : InPrologue s n → s.lineKind ⟨n, s.text.nextLine n⟩ ≠ .code →
      InPrologue s (s.text.nextLine n)

theorem inPrologue_prologueFrom {s : Script} {ls : List Text} (hcut : s.text.IsCut n)
    (hls : lines (s.text.dropBytes n) = ls) (h : s.InPrologue n) :
    let stop := (s.prologueFrom n ls).1
    s.InPrologue stop ∧ (stop < s.text.size → s.lineKind ⟨stop, s.text.nextLine stop⟩ = .code) := by
  induction ls generalizing n with
  | nil =>
    refine ⟨h, fun hlt => ?_⟩
    obtain ⟨a, b, ht, rfl⟩ := hcut
    have hb : b = [] := by rw [← flatten_lines b, ← dropBytes_append a b, ← ht, hls]; rfl
    rw [ht, hb] at hlt
    simp [prologueFrom] at hlt
  | cons line more ih =>
    obtain ⟨hnext, hmore⟩ := lines_dropBytes hcut hls
    have hstep := fun hkind => ih (isLineEdge_nextLine hcut).isCut hmore (h.line hkind)
    rw [hnext] at hstep
    rw [prologueFrom]
    split
    case h_1 hkind => exact hstep (by simp [hkind])
    case h_2 hkind => exact hstep (by simp [hkind])
    case h_3 hkind => exact ⟨h, fun _ => by rw [hnext]; exact hkind⟩

/-- The prologue is as long as its lines allow. -/
theorem inPrologue_prologue (s : Script) :
    s.InPrologue s.prologue.1 ∧ (s.prologue.1 < s.text.size →
      s.lineKind ⟨s.prologue.1, s.text.nextLine s.prologue.1⟩ = .code) :=
  inPrologue_prologueFrom (isCut_zero _) (by rw [dropBytes_zero]) .top

/-- All code that starts in the prologue are closed strings and `;`. -/
theorem InPrologue.token (h : (parse t).InPrologue n) (htok : tok ∈ tokenize t)
    (hcode : tok.isCode) (hlt : tok.start < n) : tok.contents?.isSome ∨ tok.isPunct ';' := by
  induction h with
  | top => exact absurd hlt (Nat.not_lt_zero _)
  | line _ hkind ih =>
    rename_i n _
    by_cases hstart : tok.start < n
    · exact ih hstart
    · refine of_lineKind_ne_code hkind (mem_tokensWithin.2 ⟨htok, ?_, hlt⟩) hcode
      have := (inside_of_mem_tokenize htok).2.1
      exact Nat.lt_of_le_of_lt (Nat.le_of_not_lt hstart) this

/-- Behind the prologue there is a line with code, if there is a line. -/
theorem exists_isCode_prologue (h : (parse t).prologue.1 < t.size) :
    ∃ tok ∈ tokenize t, tok.isCode ∧ (parse t).prologue.1 < tok.stop ∧
      tok.start < t.nextLine (parse t).prologue.1 := by
  obtain ⟨tok, hline, hcode⟩ := exists_isCode_of_lineKind ((inPrologue_prologue (parse t)).2 h)
  obtain ⟨htok, hstop, hstart⟩ := mem_tokensWithin.1 hline
  exact ⟨tok, htok, hcode, hstop, hstart⟩

-- ---------------------------------------------------------------------------
-- The import block
-- ---------------------------------------------------------------------------

/-- A statement starts with its `import`. -/
theorem exists_head (h : st ∈ (parse t).statements) :
    ∃ tok ∈ tokenize t, tok.isWord "import" ∧ tok.start = st.span.start := by
  obtain ⟨front, head, body, at?, back, hparts, hspan⟩ := exists_part h
  have hmem : .statement head body at? ∈ outline 0 false (top t.body) := by
    rw [← Text.parts, hparts]
    exact List.mem_append_right _ (List.mem_cons_self ..)
  refine ⟨head.placed (t.markSize + (Mark.sources (Part.allMarks front)).size), ?_,
    isWord_of_mem_outline hmem, ?_⟩
  · rw [tokenize_eq_place, hparts, Part.allMarks_append, Part.allMarks_cons, Part.marks,
      List.cons_append, Mark.place_append, Mark.place_cons]
    exact List.mem_append_right _ (List.mem_cons_self ..)
  · rw [hspan]
    rfl

theorem markSize_le_start (h : st ∈ (parse t).statements) : t.markSize ≤ st.span.start := by
  obtain ⟨tok, htok, -, hstart⟩ := exists_head h
  exact hstart ▸ (inside_of_mem_tokenize htok).1

/-- No identifier starts in the prologue. -/
theorem prologue_le_of_isIdent (htok : tok ∈ tokenize t) (h : tok.isIdent) :
    (parse t).prologue.1 ≤ tok.start := by
  have hident : tok.kind = .ident := eq_of_beq h
  refine Nat.le_of_not_lt fun hlt => ?_
  rcases (inPrologue_prologue (parse t)).1.token htok (Mark.isCode_of_isIdent h) hlt with
    hstring | hpunct
  · simp [Token.contents?, hident] at hstring
  · simp [Token.isPunct, hident] at hpunct

/-- No statement starts in the prologue. -/
theorem prologue_le_start (h : st ∈ (parse t).statements) :
    (parse t).prologue.1 ≤ st.span.start := by
  obtain ⟨tok, htok, hword, hstart⟩ := exists_head h
  rw [← hstart]
  exact prologue_le_of_isIdent htok (Bool.and_eq_true_iff.1 hword).1

/-- No token reaches over the end of a statement. -/
theorem token_apart_of_stop (h : st ∈ (parse t).statements) (htok : tok ∈ tokenize t) :
    tok.stop ≤ st.span.stop ∨ st.span.stop ≤ tok.start := by
  obtain ⟨front, back, hparts, hstop⟩ := exists_parts_stop h
  rw [tokenize_eq_place, hparts, Part.allMarks_append, Mark.place_append, List.mem_append] at htok
  rw [hstop]
  exact htok.imp Mark.stop_le_of_mem_place Mark.le_start_of_mem_place

/-- Nor does a statement reach over the end of another. -/
theorem statement_apart_of_stop {other : Statement} (h : st ∈ (parse t).statements)
    (hother : other ∈ (parse t).statements) :
    other.span.stop ≤ st.span.stop ∨ st.span.stop ≤ other.span.start := by
  obtain ⟨front, back, hparts, hstop⟩ := exists_parts_stop h
  rw [statements_parse, hparts, Part.statementsFrom_append, List.mem_append] at hother
  rw [hstop]
  exact hother.imp (fun hfront => (Part.bounds_of_mem_statementsFrom hfront).2)
    fun hback => (Part.bounds_of_mem_statementsFrom hback).1

theorem le_blockEnd (s : Script) (offset : Nat) (sts : List Statement) :
    offset ≤ s.blockEnd offset sts := by
  induction sts generalizing offset with
  | nil => exact Nat.le_refl _
  | cons st more ih =>
    have hnext : offset ≤ s.text.nextLine (max st.span.stop offset) :=
      Nat.le_trans (Nat.le_max_right ..) (Nat.le_add_right ..)
    rw [blockEnd]
    split
    · simp only
      split
      · exact Nat.le_trans hnext (Nat.le_trans (Nat.le_add_right ..) (ih _))
      · exact hnext
    · exact ih offset

theorem blockEnd_eq_self {s : Script} {offset : Nat} {sts : List Statement}
    (h : ∀ st ∈ sts, s.lineOf st ≠ offset) : s.blockEnd offset sts = offset := by
  induction sts with
  | nil => rfl
  | cons st more ih =>
    obtain ⟨hst, hmore⟩ := List.forall_mem_cons.1 h
    rw [blockEnd, if_neg hst, ih hmore]

/-- An import block ends with the line on which a statement ends. -/
theorem exists_blockEnd {s : Script} {offset : Nat} {sts : List Statement}
    (h : ∃ st ∈ sts, s.lineOf st = offset) (hspan : ∀ st ∈ sts, st.span.start ≤ st.span.stop) :
    ∃ st ∈ sts, s.blockEnd offset sts = s.text.nextLine st.span.stop := by
  induction sts generalizing offset with
  | nil =>
    obtain ⟨st, hst, -⟩ := h
    cases hst
  | cons st more ih =>
    obtain ⟨hst, hmore⟩ := List.forall_mem_cons.1 hspan
    rw [blockEnd]
    by_cases hline : s.lineOf st = offset
    · have hmax : max st.span.stop offset = st.span.stop := by
        have : s.lineOf st ≤ st.span.start := Nat.sub_le ..
        omega
      rw [if_pos hline, hmax]
      simp only
      split
      · next hahead =>
        obtain ⟨k, hk, hlineOf⟩ := List.any_eq_true.1 hahead
        obtain ⟨last, hlast, hend⟩ := ih ⟨k, hk, eq_of_beq hlineOf⟩ hmore
        exact ⟨last, List.mem_cons_of_mem _ hlast, hend⟩
      · exact ⟨st, List.mem_cons_self .., rfl⟩
    · rw [if_neg hline]
      obtain ⟨k, hk, hlineOf⟩ := h
      rcases List.mem_cons.1 hk with rfl | hk
      · exact absurd hlineOf hline
      · obtain ⟨last, hlast, hend⟩ := ih ⟨k, hk, hlineOf⟩ hmore
        exact ⟨last, List.mem_cons_of_mem _ hlast, hend⟩

/-- A new line goes below the prologue, or below the line on which a statement ends. -/
theorem insertionOffset_cases (t : Text) :
    (parse t).insertionOffset = max (parse t).prologue.1 t.markSize ∨
      ∃ st ∈ (parse t).statements, (parse t).insertionOffset = t.nextLine st.span.stop := by
  by_cases hblock : ∃ st ∈ (parse t).statements, (parse t).lineOf st = (parse t).prologue.1
  · obtain ⟨st, hst, hend⟩ := exists_blockEnd hblock fun st hst => Nat.le_of_lt (isCut_start hst).2
    refine .inr ⟨st, hst, ?_⟩
    have hmark : t.markSize ≤ t.nextLine st.span.stop :=
      Nat.le_trans (markSize_le_start hst)
        (Nat.le_trans (Nat.le_of_lt (isCut_start hst).2) (Nat.le_add_right ..))
    rw [insertionOffset, hend]
    exact Nat.max_eq_left hmark
  · left
    rw [insertionOffset, blockEnd_eq_self fun st hst hline => hblock ⟨st, hst, hline⟩]
    rfl

-- ---------------------------------------------------------------------------
-- Between tokens and statements
-- ---------------------------------------------------------------------------

/-- Does something that starts at an offset start behind a statement, on the line where the
statement ends? -/
def Behind (s : Script) (start : Nat) : Prop :=
  ∃ st ∈ s.statements, st.span.stop ≤ start ∧ start < s.text.nextLine st.span.stop

instance (s : Script) (start : Nat) : Decidable (s.Behind start) :=
  inferInstanceAs (Decidable (∃ st ∈ s.statements, _ ∧ _))

/-- If a new line falls in a token, then the token is a comment with code behind it on the line of
the place, or a directive that reaches over its line, or it starts behind an import. -/
theorem of_encloses_token (htok : tok ∈ tokenize t)
    (h : tok.span.Encloses (parse t).insertionOffset) :
    (tok.isComment ∧ ∃ k ∈ tokenize t, k.isCode ∧ tok.stop ≤ k.start ∧
        k.start < t.nextLine (parse t).insertionOffset) ∨
      tok.contents?.isSome ∨ (parse t).Behind tok.start := by
  obtain ⟨hstart, hstop⟩ := h
  obtain ⟨hmark, -, hsize⟩ := inside_of_mem_tokenize htok
  simp only [Token.span] at hstart hstop
  rcases insertionOffset_cases t with hoffset | ⟨st, hst, hoffset⟩
  · have hprologue : (parse t).insertionOffset = (parse t).prologue.1 := by omega
    rw [hprologue] at hstart hstop ⊢
    by_cases hcode : tok.isCode
    · rcases (inPrologue_prologue (parse t)).1.token htok hcode hstart with hstring | hpunct
      · exact .inr (.inl hstring)
      · -- A `;` has no place inside.
        have hsize : tok.stop = tok.start + 1 := stop_of_isPunct htok hpunct
        omega
    · left
      obtain ⟨k, hk, hkcode, hkstop, hkstart⟩ := exists_isCode_prologue (t := t) (by omega)
      refine ⟨by simpa [Token.isCode] using hcode, k, hk, hkcode, ?_, hkstart⟩
      refine (apart_of_mem_tokenize htok hk ?_).resolve_right (by omega)
      rintro rfl
      exact hcode hkcode
  · rw [hoffset] at hstart hstop
    have hbehind : st.span.stop ≤ t.nextLine st.span.stop := Nat.le_add_right ..
    exact .inr (.inr ⟨st, hst, (token_apart_of_stop hst htok).resolve_left (by omega), hstart⟩)

/-- A comment that opens behind a directive is not over at the end of the prologue. -/
example : ∃ tok ∈ tokenize "'use client'; /*\n*/ x\n".toList, tok.isComment ∧
    tok.span.Encloses (parse "'use client'; /*\n*/ x\n".toList).insertionOffset := by
  decide +kernel

/-- If a new line falls in a statement, then the statement starts behind another. -/
theorem of_encloses_statement (hst : st ∈ (parse t).statements)
    (h : st.span.Encloses (parse t).insertionOffset) : (parse t).Behind st.span.start := by
  obtain ⟨hstart, hstop⟩ := h
  rcases insertionOffset_cases t with hoffset | ⟨last, hlast, hoffset⟩
  · have := prologue_le_start hst
    have := markSize_le_start hst
    omega
  · rw [hoffset] at hstart hstop
    have hbehind : last.span.stop ≤ t.nextLine last.span.stop := Nat.le_add_right ..
    exact ⟨last, hlast, (statement_apart_of_stop hlast hst).resolve_left (by omega), hstart⟩

-- ---------------------------------------------------------------------------
-- Below the directives
-- ---------------------------------------------------------------------------

/-- Nothing but a `#!` line stands above a new directive. -/
theorem directiveOffset_le_of_isCode (htok : tok ∈ tokenize t) (hcode : tok.isCode) :
    t.directiveOffset ≤ tok.start := by
  rw [directiveOffset]
  split
  · next hhash =>
    obtain ⟨rest, hrest⟩ := List.isPrefixOf_iff_prefix.1 hhash
    obtain ⟨line, below, rfl, hline, hbelow⟩ := exists_line rest
    have hbody : t.body = '#' :: '!' :: line ++ below := hrest.symm
    rw [tokenize_eq_place_top, hbody, top_shebang hline hbelow, Mark.place_cons] at htok
    rcases List.mem_cons.1 htok with rfl | htok
    · cases hcode
    · cases below with
      | nil => simp [marks, Mark.place] at htok
      | cons c below =>
        obtain rfl : c = '\n' := hbelow c rfl
        have hfirst : firstLine t.body = '#' :: '!' :: line ++ ['\n'] := by
          rw [hbody]
          exact firstLine_append (by simpa using hline) below
        have hlt := lt_start_of_mem_place htok
        have hsize : size ('#' :: '!' :: line ++ ['\n']) = size ('#' :: '!' :: line) + 1 :=
          size_append _ _
        rw [nextLine, ← body, hfirst, hsize]
        simpa [Mark.source, ← Nat.add_assoc] using Nat.succ_le_of_lt hlt
  · exact (inside_of_mem_tokenize htok).1

theorem isLineEdge_directiveOffset (t : Text) :
    t.directiveOffset = t.markSize ∨ t.IsLineEdge t.directiveOffset := by
  rw [directiveOffset]
  split
  · exact .inr (isLineEdge_nextLine (isCut_markSize t))
  · exact .inl rfl

theorem markSize_le_insertionOffset (t : Text) : t.markSize ≤ (parse t).insertionOffset :=
  Nat.le_max_right ..

theorem prologue_le_insertionOffset (t : Text) :
    (parse t).prologue.1 ≤ (parse t).insertionOffset :=
  Nat.le_trans (le_blockEnd ..) (Nat.le_max_left ..)

/-- A `#!` line is one of the prologue. -/
theorem directiveOffset_le_prologue (h : t.IsLineEdge t.directiveOffset) :
    t.directiveOffset ≤ (parse t).prologue.1 := by
  have hprologue := (isLineEdge_prologue (parse t)).isCut
  by_cases hsize : (parse t).prologue.1 < t.size
  · obtain ⟨tok, htok, hcode, -, hstart⟩ := exists_isCode_prologue hsize
    have hle := directiveOffset_le_of_isCode htok hcode
    exact h.le_of_lt_nextLine hprologue (Nat.lt_of_le_of_lt hle hstart)
  · exact Nat.le_trans h.isCut.le_size (Nat.le_of_not_lt hsize)

/-- New lines go below new directives. -/
theorem directiveOffset_le_insertionOffset (t : Text) :
    t.directiveOffset ≤ (parse t).insertionOffset := by
  rcases isLineEdge_directiveOffset t with hmark | hedge
  · rw [hmark]
    exact markSize_le_insertionOffset t
  · exact Nat.le_trans (directiveOffset_le_prologue hedge) (prologue_le_insertionOffset t)

-- ---------------------------------------------------------------------------
-- Texts laid out line by line
-- ---------------------------------------------------------------------------

/-- Is a script laid out line by line? No code follows a comment on the line where it ends, a closed
string ends on its line, and what starts behind an import ends on that line. -/
structure LineByLine (s : Script) : Prop where
  comment : ∀ tok ∈ s.tokens, tok.isComment → ∀ k ∈ s.tokens, k.isCode → tok.stop ≤ k.start →
    s.text.nextLine tok.stop ≤ k.start
  string : ∀ tok ∈ s.tokens, tok.contents?.isSome → tok.stop ≤ s.text.nextLine tok.start
  token : ∀ tok ∈ s.tokens, s.Behind tok.start → tok.stop ≤ s.text.nextLine tok.start
  statement : ∀ st ∈ s.statements, s.Behind st.span.start →
    st.span.stop ≤ s.text.nextLine st.span.start

/-- A new line falls in nothing that ends on its line. -/
theorem not_encloses_of_stop_le {s : Span} (hcut : t.IsCut s.start) (hmark : t.markSize ≤ s.start)
    (hstop : s.stop ≤ t.nextLine s.start) : ¬ s.Encloses (parse t).insertionOffset := by
  rintro ⟨hlt, hgt⟩
  rcases isLineEdge_insertionOffset t with hedge | heq
  · have := hedge.le_of_lt_nextLine hcut (Nat.lt_of_lt_of_le hgt hstop)
    omega
  · omega

/-- Where a script is laid out line by line, new lines fall in no token and in no statement. -/
theorem LineByLine.not_encloses (h : (parse t).LineByLine) :
    (∀ tok ∈ tokenize t, ¬ tok.span.Encloses (parse t).insertionOffset) ∧
      ∀ st ∈ (parse t).statements, ¬ st.span.Encloses (parse t).insertionOffset := by
  constructor
  case left =>
    intro tok htok hencloses
    have hmark := (inside_of_mem_tokenize htok).1
    obtain ⟨hstart, hstop⟩ := isCut_of_mem_tokenize htok
    rcases of_encloses_token htok hencloses with ⟨hcomment, k, hk, hcode, hbehind, hline⟩ |
      hstring | himport
    · -- The code stands on the line of the place, so on the line where the comment ends.
      have hnext := h.comment tok htok hcomment k hk hcode hbehind
      have hle := (isLineEdge_nextLine hstop).le_of_lt_nextLine (isCut_insertionOffset t)
        (Nat.lt_of_le_of_lt hnext hline)
      exact absurd (Nat.lt_of_lt_of_le hencloses.2 (Nat.le_trans (Nat.le_add_right ..) hle))
        (Nat.lt_irrefl _)
    · exact not_encloses_of_stop_le hstart hmark (h.string tok htok hstring) hencloses
    · exact not_encloses_of_stop_le hstart hmark (h.token tok htok himport) hencloses
  case right =>
    intro st hst hencloses
    have hbehind := of_encloses_statement hst hencloses
    exact not_encloses_of_stop_le (isCut_start hst).1 (markSize_le_start hst)
      (h.statement st hst hbehind) hencloses

example : (parse ("'use client';\n/* a\n */\nimport \x7b b,\n c \x7d from 'd';\n\n" ++
    "b();\n").toList).LineByLine := by
  constructor <;> decide +kernel

end Script

end TidyImports
