-- SUMMARY: Marks: tokens told by the white space before them instead of by their offset.
import TidyImports.Text.Blank
import TidyImports.Proofs.Lexing.Locality

/-!
# Marks

A mark is a token without its offset. In its place stands what a statement
asks of the text around a token: the white space before it, and whether it is
an `import` that is first on its line. The marks of a text and of a longer text
can then be compared as they are, and `run_eq_place` gives the offsets back.
-/

namespace TidyImports

/-- A token with the white space before it. -/
structure Mark where
  gap : Text
  kind : Token.Kind
  text : Text
  /-- Is it an `import` keyword, first on its line? -/
  leads : Bool
  deriving DecidableEq, Repr, Inhabited

namespace Text

/-- Is the line blank at the end of `t`, when it was `blank` before `t`? -/
def lineBlank (blank : Bool) (t : Text) : Bool :=
  t.foldl (fun b c => c == '\n' || (b && (TidyImports.isWhite c || c == byteOrderMark))) blank

@[simp] theorem lineBlank_nil (blank : Bool) : lineBlank blank [] = blank := rfl

@[simp] theorem lineBlank_append (blank : Bool) (a b : Text) :
    lineBlank blank (a ++ b) = lineBlank (lineBlank blank a) b := List.foldl_append

theorem lineBlank_cons (blank : Bool) (c : Char) (t : Text) :
    lineBlank blank (c :: t) = lineBlank (lineBlank blank [c]) t := rfl

/-- A line that is not blank stays so until it ends. -/
theorem lineBlank_false {t : Text} (h : '\n' ∉ t) : lineBlank false t = false := by
  induction t with
  | nil => rfl
  | cons c t ih =>
    simp only [List.mem_cons, not_or] at h
    have hc : lineBlank false [c] = false := by simp [lineBlank, Ne.symm h.1]
    rw [lineBlank_cons, hc, ih h.2]

theorem lineBlank_of_spaces {w : Text} (h : w.all Lexer.isSpace) : lineBlank true w = true := by
  induction w with
  | nil => rfl
  | cons c w ih =>
    simp only [List.all_cons, Bool.and_eq_true] at h
    have hc : lineBlank true [c] = true := by
      have := h.1
      simp only [Lexer.isSpace, Bool.or_eq_true, beq_iff_eq] at this
      rcases this with ((((rfl | rfl) | rfl) | rfl) | rfl) | rfl <;> decide
    rw [lineBlank_cons, hc, ih h.2]

/-- The last character of a line says that the line is not blank. -/
theorem lineBlank_concat {blank : Bool} {t : Text} {c : Char} (hn : c ≠ '\n')
    (hc : isBlank [c] = false) : lineBlank blank (t ++ [c]) = false := by
  rw [lineBlank_append]
  cases lineBlank blank t <;> simp_all [lineBlank, isBlank]

/-- A line that is blank where it was not has ended. -/
theorem mem_of_lineBlank {blank : Bool} {x y : Text} {c : Char} (hn : c ≠ '\n')
    (hc : isBlank [c] = false) (h : lineBlank blank (x ++ c :: y) = true) : '\n' ∈ y := by
  refine Classical.byContradiction fun hy => ?_
  rw [List.append_cons, lineBlank_append, lineBlank_concat hn hc, lineBlank_false hy] at h
  cases h

theorem EndsLine.lineBlank {t : Text} (h : t.EndsLine) (blank : Bool) :
    lineBlank blank t = true := by
  obtain ⟨a, rfl⟩ := h.1
  rw [lineBlank_append]
  rfl

/-- After a line feed, a line is blank as far as what follows the last one is. -/
theorem lineBlank_true (t : Text) : lineBlank true t = isBlank (lastLine t) := by
  have key : ∀ r : Text, r.foldr (fun c b => c == '\n' ||
      (b && (TidyImports.isWhite c || c == byteOrderMark))) true =
      (r.takeWhile (· != '\n')).all fun c => TidyImports.isWhite c || c == byteOrderMark := by
    intro r
    induction r with
    | nil => rfl
    | cons c r ih =>
      by_cases hc : c = '\n'
      · simp [hc]
      · simp [hc, ih, Bool.and_comm]
  have := key t.reverse
  rw [List.foldr_reverse] at this
  rw [lineBlank, this, isBlank, lastLine, List.all_reverse]

end Text

namespace Mark

/-- The token, wherever it stands. -/
def token (m : Mark) : Token := ⟨m.kind, 0, m.text⟩

/-- The characters of a mark. -/
def source (m : Mark) : Text := m.gap ++ m.text

/-- The characters of marks in a row. -/
def sources (ms : List Mark) : Text := ms.flatMap source

@[simp] theorem sources_nil : sources [] = [] := rfl

@[simp] theorem sources_cons (m : Mark) (ms : List Mark) :
    sources (m :: ms) = m.gap ++ m.text ++ sources ms := rfl

@[simp] theorem sources_append (a b : List Mark) : sources (a ++ b) = sources a ++ sources b :=
  List.flatMap_append

/-- White space in front of marks in a row. -/
def indent (gap : Text) : List Mark → List Mark
  | [] => []
  | m :: ms => { m with gap := gap ++ m.gap } :: ms

@[simp] theorem indent_nil (gap : Text) : indent gap [] = [] := rfl

/-- The tokens of marks in a row that starts at `offset`. -/
def place (offset : Nat) : List Mark → List Token
  | [] => []
  | m :: ms =>
    ⟨m.kind, offset + m.gap.size, m.text⟩ :: place (offset + (m.gap.size + m.text.size)) ms

theorem place_append (offset : Nat) (a b : List Mark) :
    place offset (a ++ b) = place offset a ++ place (offset + (sources a).size) b := by
  induction a generalizing offset with
  | nil => simp [place]
  | cons m a ih => simp [place, ih, Nat.add_assoc]

@[simp] theorem length_place (offset : Nat) (ms : List Mark) :
    (place offset ms).length = ms.length := by
  induction ms generalizing offset with
  | nil => rfl
  | cons m ms ih => simp [place, ih]

/-- The token of a mark whose white space starts at `offset`. -/
def placed (offset : Nat) (m : Mark) : Token := ⟨m.kind, offset + m.gap.size, m.text⟩

@[simp] theorem contents?_placed (offset : Nat) (m : Mark) :
    (m.placed offset).contents? = m.token.contents? := rfl

theorem place_cons (offset : Nat) (m : Mark) (ms : List Mark) :
    place offset (m :: ms) = m.placed offset :: place (offset + m.source.size) ms := by
  simp [place, placed, source]

theorem size_source (m : Mark) : m.source.size = m.gap.size + m.text.size :=
  Text.size_append _ _

theorem stop_placed (offset : Nat) (m : Mark) :
    (m.placed offset).stop = offset + m.source.size := by
  simp [Token.stop, placed, size_source, Nat.add_assoc]

theorem mem_place {offset : Nat} {ms : List Mark} {tok : Token} (h : tok ∈ place offset ms) :
    ∃ a m b, ms = a ++ m :: b ∧ tok = m.placed (offset + (sources a).size) := by
  induction ms generalizing offset with
  | nil => cases h
  | cons m ms ih =>
    rw [place_cons] at h
    rcases List.mem_cons.1 h with rfl | h
    · exact ⟨[], m, ms, rfl, rfl⟩
    · obtain ⟨a, m', b, rfl, rfl⟩ := ih h
      refine ⟨m :: a, m', b, rfl, ?_⟩
      simp [source, Nat.add_assoc]

theorem le_start_of_mem_place {offset : Nat} {ms : List Mark} {tok : Token}
    (h : tok ∈ place offset ms) : offset ≤ tok.start := by
  obtain ⟨a, m, b, -, rfl⟩ := mem_place h
  rw [placed]
  simp only
  omega

theorem stop_le_of_mem_place {offset : Nat} {ms : List Mark} {tok : Token}
    (h : tok ∈ place offset ms) : tok.stop ≤ offset + (sources ms).size := by
  obtain ⟨a, m, b, rfl, rfl⟩ := mem_place h
  simp only [stop_placed, sources_append, sources_cons, Text.size_append, size_source]
  omega

theorem stop_mem_place (offset : Nat) {ms : List Mark} (h : ms ≠ []) :
    ∃ tok ∈ place offset ms, tok.stop = offset + (sources ms).size := by
  induction ms generalizing offset with
  | nil => exact absurd rfl h
  | cons m ms ih =>
    rw [place_cons]
    by_cases hms : ms = []
    · subst hms
      exact ⟨_, List.mem_cons_self .., by simp [stop_placed, size_source]⟩
    · obtain ⟨tok, htok, hstop⟩ := ih (offset + m.source.size) hms
      refine ⟨tok, List.mem_cons_of_mem _ htok, ?_⟩
      rw [hstop, sources_cons]
      simp [size_source, Nat.add_assoc]

end Mark

namespace Lexer

open Text

/-- Is a token the keyword `import`? -/
def isImport (kind : Token.Kind) (text : Text) : Bool := kind == .ident && text == "import".toList

/-- The marks of a text, from a given state, on a line that is `blank` so far, after white space
`gap`. -/
def marks (s : State) (blank : Bool) (gap : Text) (t : Text) : List Mark :=
  match t with
  | [] => []
  | c :: cs =>
    if isSpace c then marks s (lineBlank blank [c]) (gap ++ [c]) cs
    else
      let (kind, n) := s.scan c cs
      let text := c :: cs.take n
      ⟨gap, kind, text, blank && isImport kind text⟩ ::
        marks (s.after kind text) (lineBlank blank text) [] (cs.drop n)
termination_by t.length
decreasing_by
  all_goals simp only [List.length_cons, List.length_drop]; omega

/-- The state after marks in a row. -/
def State.afterMarks (s : State) (ms : List Mark) : State :=
  ms.foldl (fun s m => s.after m.kind m.text) s

@[simp] theorem State.afterMarks_nil (s : State) : s.afterMarks [] = s := rfl

@[simp] theorem State.afterMarks_cons (s : State) (m : Mark) (ms : List Mark) :
    s.afterMarks (m :: ms) = (s.after m.kind m.text).afterMarks ms := rfl

@[simp] theorem State.afterMarks_append (s : State) (a b : List Mark) :
    s.afterMarks (a ++ b) = (s.afterMarks a).afterMarks b := List.foldl_append

/-- The state in which a text is left, and the white space at its end. -/
def leave (s : State) (gap : Text) (t : Text) : State × Text :=
  match t with
  | [] => (s, gap)
  | c :: cs =>
    if isSpace c then leave s (gap ++ [c]) cs
    else
      let (kind, n) := s.scan c cs
      let text := c :: cs.take n
      leave (s.after kind text) [] (cs.drop n)
termination_by t.length
decreasing_by
  all_goals simp only [List.length_cons, List.length_drop]; omega

/-- Tokens are marks with their offsets. -/
theorem run_eq_place (s : State) (blank : Bool) (gap : Text) (offset : Nat) (t : Text) :
    run s (offset + gap.size) t = Mark.place offset (marks s blank gap t) := by
  fun_induction marks s blank gap t generalizing offset with
  | case1 => rw [run]; rfl
  | case2 s blank gap c cs hc ih =>
    rw [run, if_pos hc, ← ih]
    simp [Nat.add_assoc]
  | case3 s blank gap c cs hc kind n hscan text ih =>
    rw [run, if_neg hc, hscan]
    simp only [Mark.place]
    rw [← Nat.add_assoc]
    exact congrArg _ (ih _)

/-- Marks of a text that opens with a line feed stand behind it. -/
theorem lt_start_of_mem_place {s : State} {blank : Bool} {offset : Nat} {t : Text} {tok : Token}
    (h : tok ∈ Mark.place offset (marks s blank [] ('\n' :: t))) : offset < tok.start := by
  rw [marks, if_pos (by decide), ← run_eq_place] at h
  rw [← Nat.add_zero (offset + _), ← size_nil, run_eq_place _ (lineBlank blank ['\n'])] at h
  exact Mark.le_start_of_mem_place h

/-- Nothing of a text is lost between its marks and the white space at its end. -/
theorem sources_marks (s : State) (blank : Bool) (gap : Text) (t : Text) :
    Mark.sources (marks s blank gap t) ++ (leave s gap t).2 = gap ++ t := by
  fun_induction marks s blank gap t with
  | case1 => simp [leave]
  | case2 s blank gap c cs hc ih =>
    rw [leave, if_pos hc, ih]
    simp
  | case3 s blank gap c cs hc kind n hscan text ih =>
    rw [leave, if_neg hc, hscan]
    simp only [Mark.sources_cons, List.append_assoc]
    rw [ih]
    simp [text, List.take_append_drop]

theorem leave_isSpace (s : State) (gap : Text) (t : Text) (hg : gap.all isSpace) :
    (leave s gap t).2.all isSpace := by
  fun_induction leave s gap t with
  | case1 => exact hg
  | case2 s gap c cs hc ih => exact ih (by simp_all)
  | case3 s gap c cs hc kind n hscan text ih => exact ih rfl

/-- A text that ends with a line feed outside all tokens is read the same in a longer text. -/
theorem marks_append {s : State} {gap a : Text} (ha : a ≠ [] → a.EndsLine)
    (hg : a ≠ [] → (leave s gap a).2 ≠ []) (blank : Bool) (b : Text) :
    marks s blank gap (a ++ b) =
      marks s blank gap a ++ marks (leave s gap a).1 (lineBlank blank a) (leave s gap a).2 b := by
  fun_induction leave s gap a generalizing blank with
  | case1 => simp [marks]
  | case2 s gap c cs hc ih =>
    rw [List.cons_append, marks, if_pos hc, marks, if_pos hc, lineBlank_cons]
    exact ih (fun hne => (ha (by simp)).of_cons hne) (fun _ => hg (by simp)) _
  | case3 s gap c cs hc kind n hscan text ih =>
    have hl : EndsLine (c :: cs) := ha (by simp)
    have hne : cs.drop n ≠ [] := by
      intro hnil
      rw [hnil] at hg
      exact hg (by simp) (by simp [leave])
    have hn : n < cs.length := by
      rw [Ne, List.drop_eq_nil_iff] at hne
      omega
    have hcs : cs ≠ [] := by rintro rfl; simp at hn
    have hlong : s.scan c (cs ++ b) = (kind, n) := by
      rw [State.scan_append (hl.of_cons hcs) (by rw [hscan]; exact hn), hscan]
    have htail : EndsLine (cs.drop n) := by
      have := hl.of_cons hcs
      rw [← List.take_append_drop n cs] at this
      exact this.of_append hne
    rw [List.cons_append, marks, if_neg hc, hlong, marks, if_neg hc, hscan]
    simp only [List.take_append_of_le_length (Nat.le_of_lt hn),
      List.drop_append_of_le_length (Nat.le_of_lt hn)]
    rw [ih (fun _ => htail) (fun _ => hg (by simp)), List.cons_append]
    congr 2
    rw [← lineBlank_append, List.cons_append, List.take_append_drop]

/-- White space in front of a text goes to its first mark. -/
theorem marks_indent (s : State) (blank : Bool) (gap more t : Text) :
    marks s blank (gap ++ more) t = Mark.indent gap (marks s blank more t) := by
  fun_induction marks s blank more t with
  | case1 => simp [marks]
  | case2 s blank more c cs hc ih =>
    rw [marks, if_pos hc, List.append_assoc, ih]
  | case3 s blank more c cs hc kind n hscan =>
    rw [marks, if_neg hc, hscan]
    rfl

/-- The marks after some of a text are the marks of what is left of it. -/
theorem marks_eq_append {s : State} {blank : Bool} {gap t : Text} {p q : List Mark}
    (h : marks s blank gap t = p ++ q) (hp : p ≠ []) (before : Bool)
    (hb : lineBlank before gap = blank) :
    ∃ rest, gap ++ t = Mark.sources p ++ rest ∧
      q = marks (s.afterMarks p) (lineBlank before (Mark.sources p)) [] rest := by
  fun_induction marks s blank gap t generalizing p before with
  | case1 => simp_all
  | case2 s blank gap c cs hc ih =>
    obtain ⟨rest, hrest, hq⟩ := ih h hp before (by rw [lineBlank_append, hb])
    exact ⟨rest, by simpa using hrest, hq⟩
  | case3 s blank gap c cs hc kind n hscan text =>
    rename_i ih
    cases p with
    | nil => exact absurd rfl hp
    | cons m p =>
      simp only [List.cons_append, List.cons.injEq] at h
      obtain ⟨rfl, h⟩ := h
      have htext : gap ++ c :: cs = gap ++ text ++ cs.drop n := by simp [text]
      have hblank : lineBlank before (gap ++ text) = lineBlank blank text := by
        rw [lineBlank_append, hb]
      by_cases hp' : p = []
      · subst hp'
        refine ⟨cs.drop n, by simp [htext], ?_⟩
        simp only [Mark.sources_cons, Mark.sources_nil, List.append_nil, hblank]
        exact h.symm
      · obtain ⟨rest, hrest, hq⟩ := ih h hp' _ rfl
        refine ⟨rest, ?_, ?_⟩
        · rw [htext, Mark.sources_cons, List.append_assoc _ (Mark.sources p), ← hrest]
          rfl
        · rw [Mark.sources_cons, lineBlank_append, hblank]
          exact hq

-- ---------------------------------------------------------------------------
-- The same text after other text
-- ---------------------------------------------------------------------------

theorem State.scan_congr {s s' : State} {c : Char} {rest : Text} (hd : s.depths = s'.depths)
    (hc : c ≠ '/') : s'.scan c rest = s.scan c rest := by
  have h : s'.closesSubstitution = s.closesSubstitution := by
    rw [State.closesSubstitution, State.closesSubstitution, hd]
  simp only [State.scan, hc, if_false, h]

/-- No state makes a comment of anything else. -/
theorem State.scan_comment {s : State} (s' : State) {c : Char} {rest : Text} {kind : Token.Kind}
    {n : Nat} (h : s.scan c rest = (kind, n)) (hk : kind = .lineComment ∨ kind = .blockComment) :
    s'.scan c rest = (kind, n) := by
  simp only [State.scan] at h ⊢
  split at h
  · next hc =>
    rw [if_pos hc]
    split at h
    · exact h
    · exact h
    · split at h <;> cases h <;> simp at hk
  · repeat' split at h
    all_goals cases h; simp at hk

theorem State.after_comment (s : State) {kind : Token.Kind} (text : Text)
    (hk : kind = .lineComment ∨ kind = .blockComment) : s.after kind text = s := by
  rcases hk with rfl | rfl <;> rfl

theorem State.after_congr {s s' : State} {kind : Token.Kind} {text : Text}
    (hd : s.depths = s'.depths) (hk : ¬(kind = .lineComment ∨ kind = .blockComment)) :
    s'.after kind text = s.after kind text := by
  cases kind <;> simp_all [State.after]

end Lexer

namespace Mark

open Text

/-- A mark that is read the same whatever stands before it: it starts with no `/`, it is not blank,
and an `import` is first on its line. -/
def Neutral (m : Mark) : Prop :=
  m.text.head? ≠ some '/' ∧ isBlank (m.text.take 1) = false ∧
    (Lexer.isImport m.kind m.text → m.leads)

theorem isComment_token {m : Mark} :
    m.token.isComment = true ↔ m.kind = .lineComment ∨ m.kind = .blockComment := by
  obtain ⟨gap, kind, text, leads⟩ := m
  cases kind <;> simp [token, Token.isComment]

end Mark

namespace Lexer

open Text

theorem lineBlank_mono {blank blank' : Bool} (h : blank → blank') (t : Text) :
    lineBlank blank t → lineBlank blank' t := by
  induction t generalizing blank blank' with
  | nil => exact h
  | cons c t ih =>
    rw [lineBlank_cons, lineBlank_cons blank']
    refine ih fun hc => ?_
    cases blank <;> simp_all [lineBlank]

/-- A character that is neither blank nor a line feed settles whether a line is blank. -/
theorem lineBlank_eq_of_not_blank {c : Char} (hc : isBlank [c] = false) (hs : isSpace c = false)
    (blank blank' : Bool) (t : Text) : lineBlank blank (c :: t) = lineBlank blank' (c :: t) := by
  have hn : c ≠ '\n' := by
    rintro rfl
    exact absurd hs (by decide)
  have h : ∀ b, lineBlank b [c] = false := by
    intro b
    simp_all [lineBlank, isBlank]
  rw [lineBlank_cons, lineBlank_cons blank', h, h]

/-- What follows is read the same when the first code in it does not look back. -/
theorem marks_congr {s s' : State} {blank blank' : Bool} {gap t : Text}
    (hd : s.depths = s'.depths) (hb : blank → blank')
    (h : ∀ m, (marks s blank gap t).find? (·.token.isCode) = some m → m.Neutral) :
    marks s' blank' gap t = marks s blank gap t := by
  fun_induction marks s blank gap t generalizing s' blank' with
  | case1 => rw [marks]
  | case2 s blank gap c cs hc ih =>
    rw [marks, if_pos hc]
    exact ih hd (lineBlank_mono hb [c]) h
  | case3 s blank gap c cs hc kind n hscan text =>
    rename_i ih
    rw [marks, if_neg hc]
    by_cases hk : kind = .lineComment ∨ kind = .blockComment
    · have hi : isImport kind text = false := by rcases hk with rfl | rfl <;> rfl
      rw [State.scan_comment s' hscan hk]
      change Mark.mk gap kind text (blank' && isImport kind text) ::
        marks (s'.after kind text) (lineBlank blank' text) [] (cs.drop n) = _
      simp only [State.after_comment _ _ hk, hi, Bool.and_false] at ih h ⊢
      refine congrArg _ (ih hd (lineBlank_mono hb _) fun m hm => h m ?_)
      rw [List.find?_cons, hm]
      rcases hk with rfl | rfl <;> rfl
    · obtain ⟨h₁, h₂, h₃⟩ : (Mark.mk gap kind text (blank && isImport kind text)).Neutral := by
        refine h _ ?_
        rw [List.find?_cons]
        have : Token.isCode (Mark.token ⟨gap, kind, text, blank && isImport kind text⟩) = true := by
          rw [Token.isCode, Bool.not_eq_true', ← Bool.not_eq_true, Mark.isComment_token]
          exact hk
        rw [this]
      have hc' : c ≠ '/' := by simpa [text] using h₁
      have hl : (blank' && isImport kind text) = (blank && isImport kind text) := by
        cases hi : isImport kind text with
        | false => simp
        | true => simp_all
      rw [State.scan_congr hd hc', hscan]
      change Mark.mk gap kind text (blank' && isImport kind text) ::
        marks (s'.after kind text) (lineBlank blank' text) [] (cs.drop n) = _
      rw [State.after_congr hd hk, hl, lineBlank_eq_of_not_blank (by simpa [text] using h₂)
        (by simpa using hc) blank' blank]

-- ---------------------------------------------------------------------------
-- Faithful marks
-- ---------------------------------------------------------------------------

end Lexer

namespace Mark

open Text

/-- Do marks on a line that is `blank` so far say which `import` is first on its line? -/
def Reads (blank : Bool) : List Mark → Prop
  | [] => True
  | m :: ms =>
    m.leads = (lineBlank blank m.gap && Lexer.isImport m.kind m.text) ∧
      Reads (lineBlank blank (m.gap ++ m.text)) ms

end Mark

namespace Lexer

open Text

theorem reads_marks (s : State) (blank before : Bool) (gap t : Text)
    (hb : lineBlank before gap = blank) : Mark.Reads before (marks s blank gap t) := by
  fun_induction marks s blank gap t generalizing before with
  | case1 => trivial
  | case2 s blank gap c cs hc ih => exact ih _ (by rw [lineBlank_append, hb])
  | case3 s blank gap c cs hc kind n hscan text ih =>
    refine ⟨by rw [hb], ih _ ?_⟩
    rw [lineBlank_append, hb]
    rfl

end Lexer

end TidyImports
