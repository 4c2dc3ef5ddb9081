-- SUMMARY: A script behind a byte order mark is the same script, three bytes further on.
import TidyImports.Proofs.Edits.Places
import TidyImports.Proofs.Text.Cutting

/-!
# Scripts behind a byte order mark

A byte order mark belongs to no token, so it only moves what follows it. All
that has a place in the text is shifted by the three bytes of the mark, and what
has none, the reading of the script, stays the same.
-/

namespace TidyImports

open Text

-- ---------------------------------------------------------------------------
-- Shifting
-- ---------------------------------------------------------------------------

def Span.shift (n : Nat) (s : Span) : Span := ⟨s.start + n, s.stop + n⟩

def Token.shift (n : Nat) (tok : Token) : Token := { tok with start := tok.start + n }

def Edit.shift (n : Nat) (e : Edit) : Edit := { e with span := e.span.shift n }

def Declaration.shift (n : Nat) (d : Declaration) : Declaration := { d with span := d.span.shift n }

def Statement.shift (n : Nat) (st : Statement) : Statement :=
  { st with
    span := st.span.shift n
    declaration? := st.declaration?.map (Declaration.shift n) }

@[simp] theorem Span.start_shift (n : Nat) (s : Span) : (s.shift n).start = s.start + n := rfl

@[simp] theorem Span.stop_shift (n : Nat) (s : Span) : (s.shift n).stop = s.stop + n := rfl

@[simp] theorem Token.start_shift (n : Nat) (tok : Token) : (tok.shift n).start = tok.start + n :=
  rfl

@[simp] theorem Token.stop_shift (n : Nat) (tok : Token) : (tok.shift n).stop = tok.stop + n :=
  Nat.add_right_comm ..

theorem Mark.place_shift (n offset : Nat) (ms : List Mark) :
    place (offset + n) ms = (place offset ms).map (Token.shift n) := by
  induction ms generalizing offset with
  | nil => rfl
  | cons m ms ih =>
    rw [place, place, List.map_cons, ← ih, Nat.add_right_comm offset n, Nat.add_right_comm offset n]
    rfl

theorem Part.spanAt_shift (n offset : Nat) (p : Part) :
    p.spanAt (offset + n) = (p.spanAt offset).shift n := by
  rw [spanAt, Nat.add_right_comm offset n, Nat.add_right_comm offset n]
  rfl

theorem Part.statementsFrom_shift (n offset index : Nat) (ps : List Part) :
    statementsFrom (offset + n) index ps = (statementsFrom offset index ps).map (Statement.shift n) := by
  induction ps generalizing offset index with
  | nil => rfl
  | cons p ps ih =>
    cases p with
    | token m => rw [statementsFrom, statementsFrom, ← ih, Nat.add_right_comm]
    | statement head body at? =>
      rw [statementsFrom, statementsFrom, List.map_cons, ← ih, Nat.add_right_comm]
      congr 1
      rw [statementAt, statementAt, Statement.shift, spanAt_shift, Option.map_map]
      rfl

-- ---------------------------------------------------------------------------
-- Texts
-- ---------------------------------------------------------------------------

namespace Text

variable {t : Text} {n : Nat}

@[simp] theorem markSize_marked (t : Text) : markSize (byteOrderMark :: t) = 3 := rfl

@[simp] theorem body_marked (t : Text) : body (byteOrderMark :: t) = t :=
  dropBytes_append [byteOrderMark] t

theorem parts_marked (h : t.head? ≠ some byteOrderMark) : parts (byteOrderMark :: t) = t.parts := by
  rw [parts, parts, body_marked, body_eq_self h]

theorem takeBytes_marked (n : Nat) (t : Text) :
    takeBytes (n + 3) (byteOrderMark :: t) = byteOrderMark :: takeBytes n t := by
  rw [Nat.add_comm]
  exact takeBytes_append_add [byteOrderMark] t n

theorem dropBytes_marked (n : Nat) (t : Text) :
    dropBytes (n + 3) (byteOrderMark :: t) = dropBytes n t := by
  rw [Nat.add_comm]
  exact dropBytes_append_add [byteOrderMark] t n

theorem slice_marked (s : Span) (t : Text) :
    slice (s.shift 3) (byteOrderMark :: t) = slice s t := by
  rw [slice, slice, Span.start_shift, Span.stop_shift, dropBytes_marked, Nat.add_sub_add_right]

theorem nextLine_marked (n : Nat) (t : Text) :
    nextLine (byteOrderMark :: t) (n + 3) = nextLine t n + 3 := by
  rw [nextLine, nextLine, dropBytes_marked, Nat.add_right_comm]

/-- Where a line that starts at `n` starts when a byte order mark is put in front of the text: the
first line starts with the mark. -/
def markedLine (n : Nat) : Nat := if n = 0 then 0 else n + 3

theorem markedLine_pos (h : 0 < n) : markedLine n = n + 3 := if_neg (Nat.ne_of_gt h)

theorem max_markedLine (n : Nat) : max (markedLine n) 3 = n + 3 := by
  rw [markedLine]
  split <;> omega

theorem markedLine_inj {m : Nat} : markedLine m = markedLine n ↔ m = n := by
  rw [markedLine, markedLine]
  split <;> split <;> omega

theorem lineStart_marked (h : t.IsCut n) :
    lineStart (byteOrderMark :: t) (n + 3) = markedLine (lineStart t n) := by
  obtain ⟨a, b, rfl, rfl⟩ := h
  rw [lineStart, lineStart, takeBytes_marked, takeBytes_append]
  by_cases hbreak : '\n' ∈ a
  · -- The mark stands on a line above.
    obtain ⟨above, ha, habove⟩ := exists_lastLine a
    cases above with
    | nil =>
      have hnot := not_mem_lastLine a
      rw [← List.nil_append (lastLine a), ← ha] at hnot
      exact absurd hbreak hnot
    | cons c cs =>
      have hlast : lastLine (byteOrderMark :: a) = lastLine a := by
        have := @lastLine_append (byteOrderMark :: c :: cs) _ (not_mem_lastLine a)
          (.inr (by simpa using habove))
        rwa [List.cons_append, ← ha] at this
      have hsize := congrArg size ha
      have hpos := c.utf8Size_pos
      rw [size_append, size_cons] at hsize
      rw [hlast, markedLine_pos (by omega)]
      omega
  · have hlast : lastLine a = a := by
      have := lastLine_append hbreak (.inl rfl)
      rwa [List.nil_append] at this
    have hfirst : lastLine (byteOrderMark :: a) = byteOrderMark :: a := by
      have := @lastLine_append [] (byteOrderMark :: a) (by simpa [byteOrderMark] using hbreak)
        (.inl rfl)
      rwa [List.nil_append] at this
    have hsize : size (byteOrderMark :: a) = 3 + a.size := rfl
    rw [hlast, hfirst, hsize, Nat.sub_self, Nat.add_comm 3, Nat.sub_self]
    rfl

end Text

-- ---------------------------------------------------------------------------
-- Scripts
-- ---------------------------------------------------------------------------

namespace Script

variable {t : Text}

theorem tokens_marked (h : t.head? ≠ some byteOrderMark) :
    (parse (byteOrderMark :: t)).tokens = (parse t).tokens.map (Token.shift 3) := by
  have : tokenize (byteOrderMark :: t) = (tokenize t).map (Token.shift 3) := by
    rw [tokenize_eq_place, tokenize_eq_place, parts_marked h, markSize_marked, markSize_eq_zero h,
      ← Mark.place_shift, Nat.zero_add]
  exact this

theorem statements_marked (h : t.head? ≠ some byteOrderMark) :
    (parse (byteOrderMark :: t)).statements = (parse t).statements.map (Statement.shift 3) := by
  rw [statements_parse, statements_parse, parts_marked h, markSize_marked, markSize_eq_zero h,
    ← Part.statementsFrom_shift, Nat.zero_add]

theorem reading_marked (h : t.head? ≠ some byteOrderMark) :
    (parse (byteOrderMark :: t)).reading = (parse t).reading := by
  rw [reading_parse, reading_parse, parts_marked h]

theorem declarationsOf_marked (h : t.head? ≠ some byteOrderMark) (specifier : String) :
    (parse (byteOrderMark :: t)).declarationsOf specifier =
      ((parse t).declarationsOf specifier).map (Declaration.shift 3) := by
  have hall : (parse (byteOrderMark :: t)).declarations =
      (parse t).declarations.map (Declaration.shift 3) := by
    rw [declarations, statements_marked h, List.filterMap_map, declarations, List.map_filterMap]
    rfl
  rw [declarationsOf, hall, List.filter_map]
  rfl

end Script

end TidyImports
