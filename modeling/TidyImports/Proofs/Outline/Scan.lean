-- SUMMARY: The scan for import statements finds the statements of the outline.
import TidyImports.Proofs.Outline.Bare
import TidyImports.Proofs.Outline.Basic
import TidyImports.Proofs.Text.Cutting

/-!
# Statements of an outline

Where marks are written out in a text, their outline has the statements that
the scan finds there. The scan asks the text whether an `import` is first on its
line and whether a line ends between two tokens; `Mark.Reads` and the white space
in the marks answer both.
-/

namespace TidyImports

open Text

namespace Mark

-- ---------------------------------------------------------------------------
-- Marks and their tokens
-- ---------------------------------------------------------------------------

@[simp] theorem bare_placed (offset : Nat) (m : Mark) : (m.placed offset).bare = m.token := rfl

@[simp] theorem map_bare_place (offset : Nat) (ms : List Mark) :
    (place offset ms).map Token.bare = ms.map token := by
  induction ms generalizing offset with
  | nil => rfl
  | cons m ms ih => rw [place_cons, List.map_cons, ih]; rfl

theorem take_place (offset n : Nat) (ms : List Mark) :
    (place offset ms).take n = place offset (ms.take n) := by
  induction ms generalizing offset n with
  | nil => simp [place]
  | cons m ms ih => cases n <;> simp [place, ih]

theorem drop_place (offset n : Nat) (ms : List Mark) :
    (place offset ms).drop n = place (offset + (sources (ms.take n)).size) (ms.drop n) := by
  induction ms generalizing offset n with
  | nil => simp [place]
  | cons m ms ih =>
    cases n with
    | zero => simp
    | succ n => simp [place, ih, Nat.add_assoc]

theorem getElem?_place (offset i : Nat) (ms : List Mark) :
    (place offset ms)[i]? =
      ms[i]?.map (placed (offset + (sources (ms.take i)).size)) := by
  have h := congrArg List.head? (drop_place offset i ms)
  rw [List.head?_drop] at h
  rw [h]
  cases hm : ms.drop i with
  | nil =>
    have : ms.length ≤ i := List.drop_eq_nil_iff.1 hm
    simp [place, List.getElem?_eq_none this]
  | cons m rest =>
    have : ms[i]? = some m := by rw [← List.head?_drop, hm]; rfl
    rw [this, place_cons]
    rfl

-- ---------------------------------------------------------------------------
-- The text around a mark
-- ---------------------------------------------------------------------------

theorem firstOnLine_append (a b : Text) : (a ++ b).firstOnLine a.size = lineBlank true a := by
  rw [firstOnLine, takeBytes_append, lineBlank_true]

section

variable {t pre tail : Text} {ms : List Mark}

/-- An `import` is first on its line as its mark says. -/
theorem firstOnLine_placed {m : Mark} (ht : t = pre ++ sources (m :: ms) ++ tail)
    (hr : Reads (lineBlank true pre) (m :: ms)) :
    ((m.placed pre.size).isWord "import" && t.firstOnLine (m.placed pre.size).start) =
      m.leads := by
  have hw : (m.placed pre.size).isWord "import" = Lexer.isImport m.kind m.text := rfl
  have ht' : t = (pre ++ m.gap) ++ (m.text ++ sources ms ++ tail) := by simp [ht]
  have hs : (m.placed pre.size).start = (pre ++ m.gap).size := by simp [placed]
  rw [hw, hs, ht', firstOnLine_append, hr.1, lineBlank_append, Bool.and_comm]

/-- A text as it is seen from the marks that follow the first. -/
theorem text_eq_of_cons {m : Mark} (ht : t = pre ++ sources (m :: ms) ++ tail) :
    t = (pre ++ m.source) ++ sources ms ++ tail := by
  simp [ht, source]

theorem reads_of_cons {m : Mark} (hr : Reads (lineBlank true pre) (m :: ms)) :
    Reads (lineBlank true (pre ++ m.source)) ms := by
  have := hr.2
  rwa [← lineBlank_append] at this

theorem reads_drop {blank : Bool} (n : Nat) (hr : Reads blank ms) :
    Reads (lineBlank blank (sources (ms.take n))) (ms.drop n) := by
  induction ms generalizing n blank with
  | nil => simp [Reads]
  | cons m ms ih =>
    cases n with
    | zero => exact hr
    | succ n => simpa using ih n hr.2

-- ---------------------------------------------------------------------------
-- Looking ahead
-- ---------------------------------------------------------------------------

theorem nextCode?_place (offset : Nat) (ms : List Mark) :
    Token.nextCode? (ms.map token) =
      (Token.nextCode? (place offset ms)).map fun (i, s) => (i, s.bare) := by
  rw [← Token.nextCode?_map Token.faithful_bare, map_bare_place]

theorem fromIndex?_place (ht : t = pre ++ sources ms ++ tail)
    (hr : Reads (lineBlank true pre) ms) :
    Statement.fromIndex? t (place pre.size ms) = fromIndex? ms := by
  induction ms generalizing pre with
  | nil => rfl
  | cons m ms ih =>
    have hfirst := firstOnLine_placed ht hr
    have hrec := ih (text_eq_of_cons ht) (reads_of_cons hr)
    rw [size_append] at hrec
    rw [place_cons, Statement.fromIndex?, hfirst, hrec, fromIndex?,
      nextCode?_place (pre.size + m.source.size)]
    have hp : (m.placed pre.size).isPunct ';' = m.token.isPunct ';' := rfl
    have hw : (m.placed pre.size).isWord "from" = m.token.isWord "from" := rfl
    rw [hp, hw]
    cases Token.nextCode? (place (pre.size + m.source.size) ms) <;> rfl

theorem specifierIndex?_place (ht : t = pre ++ sources ms ++ tail)
    (hr : Reads (lineBlank true pre) ms) :
    Statement.specifierIndex? t (place pre.size ms) = specifierIndex? ms := by
  rw [Statement.specifierIndex?, specifierIndex?, fromIndex?_place ht hr, nextCode?_place pre.size]
  cases Token.nextCode? (place pre.size ms) <;> rfl

theorem lt_of_nextCode? {ms : List Mark} {i : Nat} {tok : Token}
    (h : Token.nextCode? (ms.map token) = some (i, tok)) : i < ms.length := by
  have := (List.getElem?_eq_some_iff.1 (Token.getElem?_of_nextCode? h).1).1
  simpa using this

theorem fromIndex?_lt {ms : List Mark} {i : Nat} (h : fromIndex? ms = some i) :
    i < ms.length := by
  fun_induction fromIndex? ms generalizing i with
  | case1 => cases h
  | case2 => cases h
  | case3 => cases h
  | case4 m rest h₁ h₂ h₃ j s hnext hs =>
    cases h
    have := lt_of_nextCode? hnext
    simpa using this
  | case5 => cases h
  | case6 => cases h
  | case7 m rest h₁ h₂ h₃ ih =>
    obtain ⟨j, hj, rfl⟩ := Option.map_eq_some_iff.1 h
    have := ih hj
    simp only [List.length_cons]
    omega

theorem specifierIndex?_lt {ms : List Mark} {i : Nat} (h : specifierIndex? ms = some i) :
    i < ms.length := by
  rw [specifierIndex?] at h
  split at h
  · cases h
  · next j next hnext =>
    split at h
    · cases h
      exact lt_of_nextCode? hnext
    · exact fromIndex?_lt h

-- ---------------------------------------------------------------------------
-- The end of a line
-- ---------------------------------------------------------------------------

theorem semicolonIndex?_cons (t : Text) (specifier tok : Token) (rest : List Token) :
    Statement.semicolonIndex? t specifier (tok :: rest) =
      if tok.isCode then
        if tok.isPunct ';' && !(t.slice ⟨specifier.stop, tok.start⟩).contains '\n' then some 0
        else none
      else (Statement.semicolonIndex? t specifier rest).map (· + 1) := by
  rw [Statement.semicolonIndex?, Token.nextCode?_cons, Statement.semicolonIndex?]
  by_cases h : tok.isCode
  · rw [if_pos h, if_pos h]
  · rw [if_neg h, if_neg h]
    cases Token.nextCode? rest with
    | none => rfl
    | some p =>
      simp only [Option.map_some]
      split <;> rfl

/-- The `;` that ends a statement, when `x` stands between its specifier and the marks. -/
theorem semicolonIndex?_place_append {specifier : Token} {x : Text}
    (ht : t = pre ++ (x ++ sources ms) ++ tail) (hs : specifier.stop = pre.size) :
    Statement.semicolonIndex? t specifier (place (pre.size + x.size) ms) =
      if '\n' ∈ x then none else semicolonIndex? ms := by
  induction ms generalizing x with
  | nil => simp [place, Statement.semicolonIndex?, semicolonIndex?]
  | cons m ms ih =>
    have hslice : t.slice ⟨specifier.stop, (m.placed (pre.size + x.size)).start⟩ = x ++ m.gap := by
      have := slice_append pre (x ++ m.gap) (m.text ++ sources ms ++ tail)
      rw [hs, ht]
      simpa [placed, Nat.add_assoc] using this
    have hrec := ih (x := x ++ m.source) (by simpa [source] using ht)
    rw [size_append, ← Nat.add_assoc] at hrec
    have hcode : (m.placed (pre.size + x.size)).isCode = m.token.isCode := rfl
    have hpunct : (m.placed (pre.size + x.size)).isPunct ';' = m.token.isPunct ';' := rfl
    rw [place_cons, semicolonIndex?_cons, hslice, hrec, hcode, hpunct, semicolonIndex?]
    by_cases hx : '\n' ∈ x <;> by_cases hg : '\n' ∈ m.gap <;>
      by_cases hm : '\n' ∈ m.text <;> simp [source, hx, hg, hm]

theorem semicolonIndex?_place {specifier : Token} (ht : t = pre ++ sources ms ++ tail)
    (hs : specifier.stop = pre.size) :
    Statement.semicolonIndex? t specifier (place pre.size ms) = semicolonIndex? ms := by
  have := semicolonIndex?_place_append (x := []) (by simpa using ht) hs
  simpa using this

theorem semicolonIndex?_lt {ms : List Mark} {i : Nat} (h : semicolonIndex? ms = some i) :
    i < ms.length := by
  fun_induction semicolonIndex? ms generalizing i with
  | case1 => cases h
  | case2 => cases h
  | case3 => cases h; simp
  | case4 => cases h
  | case5 => cases h
  | case6 m rest h₁ h₂ h₃ ih =>
    obtain ⟨j, hj, rfl⟩ := Option.map_eq_some_iff.1 h
    have := ih hj
    simp only [List.length_cons]
    omega

theorem lineCount_le (ms : List Mark) : lineCount ms ≤ ms.length := by
  fun_induction lineCount ms with
  | case1 => simp
  | case2 => simp
  | case3 => simp
  | case4 m rest h₁ h₂ ih => simpa using ih

theorem extent?_le {n : Nat} {at? : Option Nat} (h : extent? ms = some (n, at?)) :
    n ≤ ms.length := by
  rw [extent?] at h
  repeat' split at h
  · cases h
  · cases h
  · cases h
    exact lineCount_le ms
  · next i hi j hj =>
    cases h
    have := semicolonIndex?_lt hj
    rw [List.length_drop] at this
    omega
  · next i hi _ hj =>
    cases h
    exact specifierIndex?_lt hi

theorem size_takeWhile_lt {x y : Text} (h : '\n' ∈ x) :
    size ((x ++ y).takeWhile (· != '\n')) < size x := by
  induction x with
  | nil => simp at h
  | cons c x ih =>
    have := c.utf8Size_pos
    by_cases hc : c = '\n'
    · subst hc
      simp
      omega
    · have := ih (by simpa [Ne.symm hc] using h)
      simp [hc]
      omega

theorem takeWhile_line {x y : Text} (h : '\n' ∉ x) :
    (x ++ y).takeWhile (· != '\n') = x ++ y.takeWhile (· != '\n') :=
  List.takeWhile_append_of_pos fun c hc => by
    rw [bne_iff_ne]
    rintro rfl
    exact h hc

/-- The tokens that start before the first line feed. -/
theorem takeWhile_place (offset : Nat) (tail : Text) (hp : ∀ m ∈ ms, m.Proper) :
    (place offset ms).takeWhile
        (·.start < offset + size ((sources ms ++ tail).takeWhile (· != '\n'))) =
      place offset (ms.take (lineCount ms)) := by
  induction ms generalizing offset with
  | nil => rfl
  | cons m ms ih =>
    obtain ⟨c, cs, htext, hc⟩ := (hp m (List.mem_cons_self ..)).start
    have hcn : c ≠ '\n' := by
      rintro rfl
      exact absurd hc (by decide)
    have hrest := ih (offset + m.source.size) fun m hm => hp m (List.mem_cons_of_mem _ hm)
    have hsrc : sources (m :: ms) ++ tail = m.gap ++ (m.text ++ (sources ms ++ tail)) := by simp
    rw [place_cons, lineCount, hsrc]
    by_cases hg : '\n' ∈ m.gap
    · have := size_takeWhile_lt (y := m.text ++ (sources ms ++ tail)) hg
      rw [if_pos hg, List.takeWhile_cons_of_neg]
      · rfl
      · simp [placed]
        omega
    · have hstart : 0 < size ((m.text ++ (sources ms ++ tail)).takeWhile (· != '\n')) := by
        have := c.utf8Size_pos
        rw [htext]
        simp [hcn]
        omega
      rw [if_neg hg, takeWhile_line hg, size_append, List.takeWhile_cons_of_pos (by
        simp [placed]; omega)]
      by_cases ht : '\n' ∈ m.text
      · have hlt := size_takeWhile_lt (y := sources ms ++ tail) ht
        have hs := size_source m
        rw [if_pos ht, List.take_succ_cons, List.take_zero, place_cons]
        congr 1
        cases ms with
        | nil => rfl
        | cons m' ms =>
          rw [place_cons, List.takeWhile_cons_of_neg]
          · rfl
          · intro h
            have := of_decide_eq_true h
            simp only [placed] at this
            omega
      · have hs := size_source m
        rw [if_neg ht, takeWhile_line ht, size_append, List.take_succ_cons, place_cons, ← hrest]
        congr 3
        funext tok
        congr 2
        omega

theorem stop_getLast?_place (offset : Nat) (h : ms ≠ []) (tok : Token) :
    ((place offset ms).getLast?.getD tok).stop = offset + (sources ms).size := by
  induction ms generalizing offset tok with
  | nil => exact absurd rfl h
  | cons m ms ih =>
    rw [place_cons]
    cases ms with
    | nil => simp [place, stop_placed, size_source]
    | cons m' ms =>
      have := ih (offset + m.source.size) (by simp) tok
      rw [place_cons] at this ⊢
      rw [List.getLast?_cons_cons, this, sources_cons m]
      simp [size_source, Nat.add_assoc]

end

end Mark

-- ---------------------------------------------------------------------------
-- Statements
-- ---------------------------------------------------------------------------

namespace Part

/-- The span of a part whose first white space starts at `offset`. -/
def spanAt (offset : Nat) (p : Part) : Span :=
  ⟨offset + (p.marks.head?.elim 0 fun m => m.gap.size), offset + (Mark.sources p.marks).size⟩

/-- The statement, placed at `offset` with its first token at `index`. -/
def statementAt (offset index : Nat) (p : Part) : Statement where
  span := p.spanAt offset
  first := index
  past := index + p.marks.length
  specifier? := p.specifier?
  declaration? := p.declaration?.map fun d => { d with span := p.spanAt offset }

/-- The statements among parts in a row. -/
def statementsFrom (offset index : Nat) : List Part → List Statement
  | [] => []
  | p :: ps =>
    let rest := statementsFrom (offset + (Mark.sources p.marks).size) (index + p.marks.length) ps
    match p with
    | .token _ => rest
    | .statement .. => p.statementAt offset index :: rest

theorem statementsFrom_append (offset index : Nat) (front back : List Part) :
    statementsFrom offset index (front ++ back) = statementsFrom offset index front ++
      statementsFrom (offset + (Mark.sources (allMarks front)).size)
        (index + (allMarks front).length) back := by
  induction front generalizing offset index with
  | nil => rfl
  | cons p front ih =>
    have hrec := ih (offset + (Mark.sources p.marks).size) (index + p.marks.length)
    simp only [allMarks_cons, Mark.sources_append, Text.size_append, List.length_append,
      ← Nat.add_assoc]
    cases p with
    | token m => exact hrec
    | statement head body at? => exact congrArg (_ :: ·) hrec

/-- The statement of a part among the statements of parts in a row. -/
theorem statementAt_mem (offset index : Nat) (front back : List Part) (head : Mark)
    (body : List Mark) (at? : Option Nat) :
    (Part.statement head body at?).statementAt (offset + (Mark.sources (allMarks front)).size)
        (index + (allMarks front).length) ∈
      statementsFrom offset index (front ++ .statement head body at? :: back) := by
  rw [statementsFrom_append]
  exact List.mem_append_right _ (List.mem_cons_self ..)

/-- Each statement is that of a part. -/
theorem exists_of_mem_statementsFrom {offset index : Nat} {ps : List Part} {st : Statement}
    (h : st ∈ statementsFrom offset index ps) :
    ∃ front head body at? back, ps = front ++ .statement head body at? :: back ∧
      st = (Part.statement head body at?).statementAt
        (offset + (Mark.sources (allMarks front)).size) (index + (allMarks front).length) := by
  induction ps generalizing offset index with
  | nil => cases h
  | cons p ps ih =>
    have hrest : st ∈ statementsFrom (offset + (Mark.sources p.marks).size)
        (index + p.marks.length) ps → ∃ front head body at? back,
          p :: ps = front ++ .statement head body at? :: back ∧
          st = (Part.statement head body at?).statementAt
            (offset + (Mark.sources (allMarks front)).size) (index + (allMarks front).length) :=
        fun h => by
      obtain ⟨front, head, body, at?, back, rfl, rfl⟩ := ih h
      refine ⟨p :: front, head, body, at?, back, rfl, ?_⟩
      simp only [allMarks_cons, Mark.sources_append, Text.size_append, List.length_append,
        Nat.add_assoc]
    cases p with
    | token m => exact hrest h
    | statement head body at? =>
      rcases List.mem_cons.1 h with rfl | h
      · exact ⟨[], head, body, at?, ps, rfl, rfl⟩
      · exact hrest h

/-- Statements lie in their parts. -/
theorem bounds_of_mem_statementsFrom {offset index : Nat} {ps : List Part} {st : Statement}
    (h : st ∈ statementsFrom offset index ps) :
    offset ≤ st.span.start ∧ st.span.stop ≤ offset + (Mark.sources (allMarks ps)).size := by
  obtain ⟨front, head, body, at?, back, rfl, rfl⟩ := exists_of_mem_statementsFrom h
  simp only [statementAt, spanAt, allMarks_append, allMarks_cons, Mark.sources_append,
    Text.size_append]
  omega

end Part

namespace Mark

variable {t pre tail : Text} {m : Mark} {ms : List Mark}

theorem lineEnd_placed (ht : t = pre ++ sources (m :: ms) ++ tail) (hm : '\n' ∉ m.text) :
    t.lineEnd (m.placed pre.size).start =
      pre.size + m.source.size + size ((sources ms ++ tail).takeWhile (· != '\n')) := by
  have ht' : t = (pre ++ m.gap) ++ (m.text ++ (sources ms ++ tail)) := by simp [ht]
  have hs : (m.placed pre.size).start = (pre ++ m.gap).size := by simp [placed]
  rw [lineEnd, hs, ht', dropBytes_append, takeWhile_line hm, size_append, size_append, size_source]
  omega

theorem all_isCode_place (offset : Nat) (ms : List Mark) :
    (place offset ms).all Token.isCode = (ms.map token).all Token.isCode := by
  rw [← map_bare_place offset, List.all_map]
  rfl

/-- The statement of an `import` whose search for a specifier fails. -/
theorem statementAt_none (index n : Nat) :
    Statement.mk
      ⟨(m.placed pre.size).start,
        max (((place (pre.size + m.source.size) (ms.take n)).getLast?.getD
          (m.placed pre.size)).stop) (m.placed pre.size).stop⟩
      index (index + 1 + (place (pre.size + m.source.size) (ms.take n)).length) none none =
      (Part.statement m (ms.take n) none).statementAt pre.size index := by
  have hstop : max (((place (pre.size + m.source.size) (ms.take n)).getLast?.getD
      (m.placed pre.size)).stop) (m.placed pre.size).stop =
      pre.size + (sources (m :: ms.take n)).size := by
    rw [stop_placed]
    by_cases hline : ms.take n = []
    · simp [hline, place, stop_placed, size_source]
    · rw [stop_getLast?_place _ hline]
      simp [size_source]
      omega
  rw [hstop]
  simp [Part.statementAt, Part.spanAt, Part.marks, Part.specifier?, Part.specifierMark?,
    Part.declaration?, placed]
  omega

/-- The statement of an `import` whose specifier is mark `i` after it. -/
theorem statementAt_some {i n : Nat} {specifier : Mark} (pre : Text) (m : Mark) (index : Nat)
    (hs : ms[i]? = some specifier) (hi : i < n) (hn : n ≤ ms.length) (offset : Nat) :
    Statement.mk
      ⟨(m.placed pre.size).start,
        ((place (pre.size + m.source.size) (ms.take n)).getLast?.getD (m.placed pre.size)).stop⟩
      index (index + 1 + n) (specifier.token.contents?.map String.ofList)
      (if m.leads && (place (pre.size + m.source.size) (ms.take n)).all Token.isCode then
        Statement.readDeclaration?
          ⟨(m.placed pre.size).start,
            ((place (pre.size + m.source.size) (ms.take n)).getLast?.getD
              (m.placed pre.size)).stop⟩
          (place (pre.size + m.source.size) (ms.take i)) (specifier.placed offset)
          (i + 1 < n)
      else none) =
      (Part.statement m (ms.take n) (some i)).statementAt pre.size index := by
  have hline : ms.take n ≠ [] := by
    have : (ms.take n).length = n := List.length_take_of_le hn
    intro h
    simp [h] at this
    omega
  have hbody : (ms.take n)[i]? = some specifier := by rw [List.getElem?_take_of_lt hi, hs]
  have hlen : (ms.take n).length = n := List.length_take_of_le hn
  have htake : (ms.take n).take i = ms.take i := by
    rw [List.take_take, Nat.min_eq_left (Nat.le_of_lt hi)]
  have hspan : (Part.statement m (ms.take n) (some i)).spanAt pre.size =
      ⟨(m.placed pre.size).start,
        ((place (pre.size + m.source.size) (ms.take n)).getLast?.getD
          (m.placed pre.size)).stop⟩ := by
    rw [stop_getLast?_place _ hline]
    simp [Part.spanAt, Part.marks, placed, size_source, Nat.add_assoc]
  rw [Part.statementAt, ← hspan, all_isCode_place]
  congr 1
  · simp [Part.marks, hlen]
    omega
  · simp [Part.specifier?, Part.specifierMark?, hbody]
  · simp only [Part.declaration?, Option.bind_eq_bind, Option.bind_some, hbody, htake, hlen]
    split
    · rw [Statement.readDeclaration?_span, ← Statement.readDeclaration?_map Token.faithful_bare,
        map_bare_place]
      rfl
    · rfl

theorem ofHead?_place (ht : t = pre ++ sources (m :: ms) ++ tail)
    (hr : Reads (lineBlank true pre) (m :: ms)) (hp : ∀ m ∈ ms, m.Proper)
    (hm : m.token.isWord "import") (index : Nat) :
    Statement.ofHead? t index (m.placed pre.size) (place (pre.size + m.source.size) ms) m.leads =
      (extent? ms).map fun (n, at?) =>
        (Part.statement m (ms.take n) at?).statementAt pre.size index := by
  have ht' := text_eq_of_cons ht
  have hspec := specifierIndex?_place ht' (reads_of_cons hr)
  have hnl : '\n' ∉ m.text := by
    have : m.text = "import".toList := by simpa [Token.isWord, token] using (Bool.and_eq_true_iff.1 hm).2
    rw [this]
    decide
  rw [size_append] at hspec
  rw [Statement.ofHead?, hspec, extent?, nextCode?_place (pre.size + m.source.size)]
  cases Token.nextCode? (place (pre.size + m.source.size) ms) with
  | none => rfl
  | some p =>
    obtain ⟨k, next⟩ := p
    simp only [Option.map_some]
    by_cases hcall : (next.isPunct '(' || next.isPunct '.') = true
    · have hbare : (next.bare.isPunct '(' || next.bare.isPunct '.') = true := hcall
      rw [if_pos hcall, if_pos hbare]
      rfl
    have hbare : ¬(next.bare.isPunct '(' || next.bare.isPunct '.') = true := hcall
    rw [if_neg hcall, if_neg hbare]
    cases hi : specifierIndex? ms with
    | none =>
      simp only [Option.bind_none, Option.map_some]
      rw [lineEnd_placed ht hnl, takeWhile_place _ _ hp, statementAt_none]
    | some i =>
      obtain ⟨specifier, hs⟩ : ∃ specifier, ms[i]? = some specifier :=
        ⟨_, List.getElem?_eq_getElem (specifierIndex?_lt hi)⟩
      have hlt := specifierIndex?_lt hi
      have htake : sources (ms.take (i + 1)) = sources (ms.take i) ++ specifier.source := by
        rw [List.take_add_one, hs]
        simp [source]
      have hstop : (specifier.placed (pre.size + m.source.size + (sources (ms.take i)).size)).stop =
          (pre ++ m.source ++ sources (ms.take (i + 1))).size := by
        rw [stop_placed, htake]
        simp [Nat.add_assoc]
      have htext : t = pre ++ m.source ++ sources (ms.take (i + 1)) ++
          sources (ms.drop (i + 1)) ++ tail := by
        rw [ht', List.append_assoc _ (sources (ms.take (i + 1))), ← sources_append,
          List.take_append_drop]
      have hsemi := semicolonIndex?_place htext hstop
      have hdrop : (place (pre.size + m.source.size) ms).drop (i + 1) =
          place (pre ++ m.source ++ sources (ms.take (i + 1))).size (ms.drop (i + 1)) := by
        rw [drop_place]
        simp [Nat.add_assoc]
      simp only [Option.bind_some, getElem?_place, hs, Option.map_some, hdrop, hsemi, take_place]
      cases hj : semicolonIndex? (ms.drop (i + 1)) with
      | none =>
        have := statementAt_some pre m index hs (Nat.lt_succ_self i) hlt
          (pre.size + m.source.size + (sources (ms.take i)).size)
        simpa using this
      | some j =>
        have hle : i + 1 + j + 1 ≤ ms.length := by
          have := semicolonIndex?_lt hj
          rw [List.length_drop] at this
          omega
        have := statementAt_some pre m index hs (by omega : i < i + 1 + j + 1) hle
          (pre.size + m.source.size + (sources (ms.take i)).size)
        rw [decide_eq_true (by omega : i + 1 < i + 1 + j + 1)] at this
        simpa using this

-- ---------------------------------------------------------------------------
-- The scan
-- ---------------------------------------------------------------------------

theorem at?_place (ht : t = pre ++ sources (m :: ms) ++ tail)
    (hr : Reads (lineBlank true pre) (m :: ms)) (hp : ∀ m ∈ ms, m.Proper) (depth : Nat)
    (previous : Option Token) (index : Nat) :
    Statement.at? t depth previous index (m.placed pre.size)
        (place (pre.size + m.source.size) ms) =
      (begin? depth (previous.any (·.isPunct ';')) m ms).map fun (n, at?) =>
        (Part.statement m (ms.take n) at?).statementAt pre.size index := by
  have hword : (m.placed pre.size).isWord "import" = m.token.isWord "import" := rfl
  rw [Statement.at?, begin?, hword]
  by_cases hm : depth = 0 ∧ m.token.isWord "import" = true
  · have hfirst : t.firstOnLine (m.placed pre.size).start = m.leads := by
      have := firstOnLine_placed ht hr
      rwa [hword, hm.2, Bool.true_and] at this
    rw [if_pos hm, hfirst]
    by_cases hl : (m.leads || previous.any (·.isPunct ';')) = true
    · simp only [hl, if_true, hm, true_and]
      exact ofHead?_place ht hr hp hm.2 index
    · simp only [hl, if_false, and_false, Bool.false_eq_true]
      rfl
  · rw [if_neg hm, if_neg (fun h => hm ⟨h.1, h.2.1⟩)]
    rfl

theorem afterSemicolon_place (offset : Nat) (ms : List Mark) (previous : Option Token) :
    ((Token.lastCode? (place offset ms)).or previous).any (·.isPunct ';') =
      match Token.lastCode? (ms.map token) with
      | some tok => tok.isPunct ';'
      | none => previous.any (·.isPunct ';') := by
  rw [← map_bare_place offset, Token.lastCode?_map Token.faithful_bare]
  cases Token.lastCode? (place offset ms) <;> rfl

theorem scan_place (ht : t = pre ++ sources ms ++ tail) (hr : Reads (lineBlank true pre) ms)
    (hp : ∀ m ∈ ms, m.Proper) (depth : Nat) (previous : Option Token) (index : Nat) :
    Statement.scan t depth previous index (place pre.size ms) =
      Part.statementsFrom pre.size index
        (outline depth (previous.any (·.isPunct ';')) ms) := by
  generalize hafter : previous.any (·.isPunct ';') = after
  fun_induction outline depth after ms generalizing pre previous index with
  | case1 => rw [place, Statement.scan]; rfl
  | case2 depth after m rest n at? hb p =>
    rename_i ih
    have hn : n ≤ rest.length := by
      rw [begin?] at hb
      split at hb
      · exact extent?_le hb
      · cases hb
    have hat := at?_place ht hr (fun m hm => hp m (List.mem_cons_of_mem _ hm)) depth previous index
    rw [hafter, hb] at hat
    have htext : t = pre ++ sources (m :: rest.take n) ++ sources (rest.drop n) ++ tail := by
      rw [text_eq_of_cons ht, sources_cons, List.append_assoc _ (sources (rest.drop n))]
      have := congrArg sources (List.take_append_drop n rest)
      rw [sources_append] at this
      simp [source, ← this]
    have hreads : Reads (lineBlank true (pre ++ sources (m :: rest.take n))) (rest.drop n) := by
      have := reads_drop (n + 1) hr
      rwa [List.take_succ_cons, List.drop_succ_cons, ← lineBlank_append] at this
    have hprev := afterSemicolon_place pre.size (m :: rest.take n) previous
    rw [hafter] at hprev
    have hrec := ih htext hreads (fun m hm => hp m (List.mem_cons_of_mem _ (List.mem_of_mem_drop hm)))
      _ (index + p.marks.length) hprev
    have hlen : (rest.take n).length = n := List.length_take_of_le hn
    have hpast : (p.statementAt pre.size index).past - (index + 1) = n := by
      simp [p, Part.statementAt, Part.marks, hlen]
      omega
    have hmarks : p.marks.length = n + 1 := by simp [p, Part.marks, hlen]
    rw [place_cons, Statement.scan, hat]
    simp only [Option.map_some]
    rw [hpast, take_place, ← place_cons, drop_place]
    simp only [Part.statementsFrom, p]
    rw [hmarks] at hrec
    have hsize : (pre ++ sources (m :: rest.take n)).size =
        pre.size + m.source.size + (sources (rest.take n)).size := by
      simp [source]
      omega
    have hsize' : pre.size + (sources p.marks).size =
        pre.size + m.source.size + (sources (rest.take n)).size := by
      rw [← hsize, size_append]
      rfl
    have hindex : index + 1 + n = index + (n + 1) := by omega
    rw [hsize] at hrec
    rw [hindex, hrec, hsize', hmarks]
  | case3 depth after m rest hb p =>
    rename_i ih
    have hat := at?_place ht hr (fun m hm => hp m (List.mem_cons_of_mem _ hm)) depth previous index
    rw [hafter, hb] at hat
    have hprev : (if (m.placed pre.size).isCode then some (m.placed pre.size) else previous).any
        (·.isPunct ';') = p.afterSemicolon after := by
      rw [← hafter]
      have hcode : (m.placed pre.size).isCode = m.token.isCode := rfl
      have hpunct : (m.placed pre.size).isPunct ';' = m.token.isPunct ';' := rfl
      by_cases hm : m.token.isCode <;>
        simp [p, Part.afterSemicolon, Part.marks, Token.lastCode?, hcode, hpunct, hm]
    have hrec := ih (text_eq_of_cons ht) (reads_of_cons hr)
      (fun m hm => hp m (List.mem_cons_of_mem _ hm)) _ (index + 1) hprev
    have hsize : (pre ++ m.source).size = pre.size + (sources p.marks).size := by
      simp [p, Part.marks, source]
    rw [hsize] at hrec
    rw [place_cons, Statement.scan, hat]
    simp only [Option.map_none, Part.statementsFrom, p]
    have hsource : pre.size + m.source.size = pre.size + (sources p.marks).size := by
      simp [p, Part.marks, source]
    rw [hsource]
    exact hrec

end Mark

end TidyImports
