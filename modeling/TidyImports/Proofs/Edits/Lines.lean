-- SUMMARY: Below a statement the next declaration starts on another line; where removals lie.
import TidyImports.Proofs.Lexing.LineEnds
import TidyImports.Proofs.Edits.Several
import TidyImports.Proofs.Edits.Insertion

/-!
# Lines of declarations

A declaration is first on its line, so a statement above it has ended on a line
further up. That keeps three places apart that are computed each in its own way:
the lines that are removed with two declarations, and the line below which a new
declaration goes.
-/

namespace TidyImports

open Text Lexer

-- ---------------------------------------------------------------------------
-- The last mark of a statement
-- ---------------------------------------------------------------------------

namespace Mark

open Token

/-- Where the marks of a line end: a line ends in the last of them or behind it. -/
theorem lineCount_ends {x more : List Mark} {next : Mark}
    (h : lineCount (x ++ next :: more) = x.length) :
    '\n' ∈ next.gap ∨ ∃ m ∈ x.getLast?, '\n' ∈ m.text := by
  induction x with
  | nil =>
    rw [List.nil_append, lineCount] at h
    split at h
    · next hgap => exact .inl hgap
    · split at h <;> cases h
  | cons m x ih =>
    rw [List.cons_append, lineCount, List.length_cons] at h
    split at h
    · cases h
    · split at h
      · next htext =>
        obtain rfl : x = [] := List.length_eq_zero_iff.1 (by omega)
        exact .inr ⟨m, rfl, htext⟩
      · refine (ih (Nat.succ.inj h)).imp id ?_
        rintro ⟨k, hk, htext⟩
        refine ⟨k, ?_, htext⟩
        rw [List.getLast?_cons, Option.mem_def.1 hk]
        rfl

theorem exists_of_nextCode? {ms : List Mark} {j : Nat} {next : Token}
    (h : nextCode? (ms.map token) = some (j, next)) : ∃ m ∈ ms[j]?, m.token = next := by
  obtain ⟨hget, -⟩ := getElem?_of_nextCode? h
  rw [List.getElem?_map, Option.map_eq_some_iff] at hget
  exact hget

theorem isString_of_fromIndex? {ms : List Mark} {i : Nat} (h : fromIndex? ms = some i) :
    ∃ m ∈ ms[i]?, m.token.isString := by
  fun_induction fromIndex? ms generalizing i with
  | case1 => cases h
  | case2 => cases h
  | case3 => cases h
  | case4 m rest h₁ h₂ h₃ j s hnext hs =>
    cases h
    obtain ⟨k, hk, rfl⟩ := exists_of_nextCode? hnext
    exact ⟨k, by simpa using hk, hs⟩
  | case5 => cases h
  | case6 => cases h
  | case7 m rest h₁ h₂ h₃ ih =>
    obtain ⟨j, hj, rfl⟩ := Option.map_eq_some_iff.1 h
    exact ih hj

/-- The specifier is a string. -/
theorem isString_of_specifierIndex? {ms : List Mark} {i : Nat} (h : specifierIndex? ms = some i) :
    ∃ m ∈ ms[i]?, m.token.isString := by
  rw [specifierIndex?] at h
  split at h
  · cases h
  · next j next hnext =>
    split at h
    · next hs =>
      cases h
      obtain ⟨k, hk, rfl⟩ := exists_of_nextCode? hnext
      exact ⟨k, hk, hs⟩
    · exact isString_of_fromIndex? h

theorem isPunct_of_semicolonIndex? {ms : List Mark} {j : Nat} (h : semicolonIndex? ms = some j) :
    ∃ m ∈ ms[j]?, m.token.isPunct ';' := by
  fun_induction semicolonIndex? ms generalizing j with
  | case1 => cases h
  | case2 => cases h
  | case3 m rest h₁ h₂ hp =>
    cases h
    exact ⟨m, rfl, hp⟩
  | case4 => cases h
  | case5 => cases h
  | case6 m rest h₁ h₂ h₃ ih =>
    obtain ⟨k, hk, rfl⟩ := Option.map_eq_some_iff.1 h
    exact ih hk

/-- The last mark of a statement is its specifier or a `;`, or its line ends there. -/
theorem ends_of_extent? {head next : Mark} {x more : List Mark} {at? : Option Nat}
    (h : extent? (x ++ next :: more) = some (x.length, at?)) :
    ∃ m ∈ (head :: x).getLast?, '\n' ∈ next.gap ∨ '\n' ∈ m.text ∨ m.token.isString ∨
      m.token.isPunct ';' := by
  have hlast : ∀ i, x.length = i + 1 → ∀ m ∈ (x ++ next :: more)[i]?, m ∈ (head :: x).getLast? := by
    intro i hi m hm
    rw [List.getElem?_append_left (by omega)] at hm
    rw [List.getLast?_cons, List.getLast?_eq_getElem?, hi, Nat.add_sub_cancel, Option.mem_def.1 hm]
    rfl
  cases at? with
  | none =>
    have hspec := snd_of_extent? h
    have hcount : lineCount (x ++ next :: more) = x.length := by
      rw [extent?, ← hspec] at h
      split at h
      · cases h
      · split at h
        · cases h
        · simpa using h
    obtain ⟨m, hm⟩ : ∃ m, (head :: x).getLast? = some m :=
      ⟨_, List.getLast?_eq_some_getLast (List.cons_ne_nil _ _)⟩
    refine ⟨m, hm, (lineCount_ends hcount).imp id ?_⟩
    rintro ⟨k, hk, htext⟩
    rw [List.getLast?_cons, Option.mem_def.1 hk] at hm
    cases hm
    exact .inl htext
  | some i =>
    obtain ⟨hspec, hlength⟩ := extent?_eq_some h
    rcases hlength with ⟨-, hn⟩ | ⟨j, hj, hn⟩
    · obtain ⟨m, hm, hs⟩ := isString_of_specifierIndex? hspec
      exact ⟨m, hlast i hn m hm, .inr (.inr (.inl hs))⟩
    · obtain ⟨m, hm, hp⟩ := isPunct_of_semicolonIndex? hj
      rw [List.getElem?_drop] at hm
      exact ⟨m, hlast _ hn m hm, .inr (.inr (.inr hp))⟩

end Mark

-- ---------------------------------------------------------------------------
-- A statement and the next declaration
-- ---------------------------------------------------------------------------

/-- How the last mark of a statement ends, when another mark follows it. -/
theorem Text.ends_of_statement {t : Text} {front back : List Part} {head next : Mark}
    {body more : List Mark} {at? : Option Nat}
    (h : t.parts = front ++ .statement head body at? :: back)
    (hback : Part.allMarks back = next :: more) :
    ∃ m ∈ (head :: body).getLast?, '\n' ∈ next.gap ∨ '\n' ∈ m.text ∨ m.token.isString ∨
      m.token.isPunct ';' := by
  obtain ⟨rest, n, hms, hbody, hextent, -⟩ := outline_eq_statement (outline_suffix h).symm
  have hrest : rest = body ++ next :: more := by
    rw [Part.allMarks_cons, hback] at hms
    simpa [Part.marks] using (List.cons.inj hms).2.symm
  have hlength : n = body.length := by
    rw [hbody, List.length_take, Nat.min_eq_left (Mark.extent?_le hextent)]
  rw [hrest, hlength] at hextent
  exact Mark.ends_of_extent? hextent

/-- A mark that ends as statements end leaves something on its line, unless the line ends behind
it. -/
theorem Mark.Precedes.not_lineBlank {m next : Mark} (h : m.Precedes next) (hm : m.Proper)
    (hgap : '\n' ∉ next.gap) (hends : '\n' ∈ next.gap ∨ '\n' ∈ m.text ∨ m.token.isString ∨
      m.token.isPunct ';') (blank : Bool) : lineBlank blank m.text = false := by
  rcases h with hline | hfalse | ⟨htext, hstring⟩
  · exact absurd hline hgap
  · exact hfalse blank
  · rcases hends with hline | hline | hs | hp
    · exact absurd hline hgap
    · exact absurd hline htext
    · rw [hs] at hstring
      cases hstring
    · have hshape := hm.shapes
      have hkind : m.kind = .punct ';' := eq_of_beq hp
      rw [hkind] at hshape
      rw [show m.text = [] ++ [';'] from hshape, lineBlank_concat (by decide) (by decide)]

/-- A line ends between a statement and an `import` below it that is first on its line. -/
theorem Text.mem_between {t : Text} {front back between : List Part} {head₀ head : Mark}
    {body₀ body : List Mark} {at₀? at? : Option Nat}
    (h : t.parts = front ++ .statement head₀ body₀ at₀? ::
      (between ++ .statement head body at? :: back)) (hl : head.leads) :
    '\n' ∈ Mark.sources (Part.allMarks between) ++ head.gap := by
  by_contra hn
  obtain ⟨next, more, hnext, hgap⟩ : ∃ next more,
      Part.allMarks (between ++ .statement head body at? :: back) = next :: more ∧
        '\n' ∉ next.gap := by
    rw [Part.allMarks_append]
    cases hb : Part.allMarks between with
    | nil =>
      rw [hb] at hn
      exact ⟨head, _, rfl, by simpa using hn⟩
    | cons m ms =>
      rw [hb, Mark.sources_cons] at hn
      exact ⟨m, _, rfl, by simp_all⟩
  obtain ⟨m, hm, hends⟩ := ends_of_statement h hnext
  obtain ⟨init, hinit⟩ := List.getLast?_eq_some_iff.1 hm
  have htop := top_of_statement h
  rw [← List.cons_append, ← List.append_assoc, hinit, ← List.append_assoc] at htop
  -- Nothing but blanks stands on the line of the later `import`, but the mark above leaves
  -- something there.
  have hnot : ∀ blank, lineBlank blank m.text = false := by
    refine Mark.Precedes.not_lineBlank ?_ (proper_top t.body m (by rw [htop]; simp)) hgap hends
    have hchain := isChain_top t.body
    rw [htop, hnext] at hchain
    exact (List.isChain_append.1 hchain).2.2 m (by simp) next rfl
  let above := Part.allMarks front ++ init ++ [m]
  have hreads := Mark.reads_drop (above ++ Part.allMarks between).length (reads_top t.body)
  rw [htop, Part.allMarks_append, ← List.append_assoc, List.take_left, List.drop_left] at hreads
  have hsources : Mark.sources (above ++ Part.allMarks between) ++ head.gap =
      Mark.sources (Part.allMarks front ++ init) ++ m.gap ++ m.text ++
        (Mark.sources (Part.allMarks between) ++ head.gap) := by
    simp [above]
  have hleads := hreads.1
  rw [hl, ← lineBlank_append, hsources, lineBlank_append, lineBlank_append _ _ m.text, hnot,
    lineBlank_false hn] at hleads
  cases hleads

namespace Script

variable {t : Text} {st : Statement} {d : Declaration}

/-- Below a statement the next declaration starts on another line. -/
theorem nextLine_le_start (hst : st ∈ (parse t).statements) (hd : d ∈ (parse t).declarations)
    (h : st.span.stop ≤ d.span.start) : t.nextLine st.span.stop ≤ d.span.start := by
  obtain ⟨front, head₀, body₀, at₀?, back, hparts, hspan⟩ := exists_part hst
  let above := front ++ [.statement head₀ body₀ at₀?]
  have hstop : st.span.stop = t.markSize + (Mark.sources (Part.allMarks above)).size := by
    simp [hspan, above, Part.spanAt, Nat.add_assoc]
  have hparts' : t.parts = above ++ back := by simp [hparts, above]
  have hback : d ∈ Part.declarationsFrom st.span.stop back := by
    have hlt := (exists_keyword hd).1
    rw [declarations_parse, hparts', Part.declarationsFrom_append, List.mem_append, ← hstop] at hd
    refine hd.resolve_left fun habove => ?_
    obtain ⟨f, p, q, hsplit, -, hdspan⟩ := Part.mem_declarationsFrom habove
    have hle : d.span.stop ≤ st.span.stop := by
      rw [hstop, hsplit, hdspan]
      simp [Part.spanAt, Nat.add_assoc]
    omega
  obtain ⟨between, p, below, rfl, hp, hdspan⟩ := Part.mem_declarationsFrom hback
  cases p with
  | token m => cases hp
  | statement head body at? =>
    have hline := mem_between hparts (Part.leads_of_declaration? hp)
    obtain ⟨mark, hsize, ht⟩ := exists_around hparts'
    have hstart : d.span.start = st.span.stop +
        (Mark.sources (Part.allMarks between) ++ head.gap).size := by
      rw [hdspan]
      simp [Part.spanAt, Part.marks, Nat.add_assoc]
    have hcut : t.dropBytes st.span.stop = (Mark.sources (Part.allMarks between) ++ head.gap) ++
        (head.text ++ (Mark.sources (body ++ Part.allMarks below) ++ (leaveTop t.body).2)) := by
      have hmark : st.span.stop = (mark ++ Mark.sources (Part.allMarks above)).size := by
        rw [hstop, size_append, hsize]
      conv => lhs; rw [hmark, ht]
      rw [dropBytes_append]
      simp [Part.marks]
    rw [nextLine, hcut, hstart]
    exact Nat.add_le_add_left (size_firstLine_append_le (.inl hline)) _

end Script

-- ---------------------------------------------------------------------------
-- Places on lines
-- ---------------------------------------------------------------------------

namespace Text

variable {t : Text} {n m : Nat}

theorem size_lastLine_append_le {above x : Text} (h : above.getLast? = some '\n') :
    (lastLine (above ++ x)).size ≤ x.size := by
  obtain ⟨up, hx, hup⟩ := exists_lastLine x
  have hlast : (above ++ up).getLast? = some '\n' := by
    rw [List.getLast?_append]
    rcases hup with rfl | hup
    · exact h
    · rw [hup]
      rfl
  have hline : lastLine (above ++ x) = lastLine x := by
    conv => lhs; rw [hx, ← List.append_assoc]
    exact lastLine_append (not_mem_lastLine x) (.inr hlast)
  have hsize := congrArg size hx
  rw [size_append] at hsize
  rw [hline]
  omega

/-- The line of a place starts no earlier than the last line edge before the place. -/
theorem IsLineEdge.le_lineStart (hm : t.IsLineEdge m) (hn : t.IsCut n) (h : m ≤ n)
    (hlt : n < t.size) : m ≤ t.lineStart n := by
  obtain ⟨a, x, b, ht, ha, hx⟩ := hm.isCut.exists_between hn h
  obtain ⟨above, below, ht', hsize, hedge⟩ := hm
  obtain ⟨rfl, rfl⟩ := append_inj_size (ht'.symm.trans ht) (hsize.trans ha.symm)
  have htake : t.takeBytes n = above ++ x := by
    rw [ht, ← List.append_assoc, ← hx, ← size_append, takeBytes_append]
  rw [lineStart, htake]
  rcases hedge with rfl | hlast | hnil
  · exact ha ▸ Nat.zero_le _
  · have := size_lastLine_append_le (x := x) hlast
    omega
  · rw [hnil, List.append_nil] at ht'
    have hxnil : x = [] := (List.append_eq_nil_iff.1 hnil).1
    rw [hxnil, size_nil] at hx
    rw [ht'] at hlt
    omega

theorem nextLine_mono (hm : t.IsCut m) (hn : t.IsCut n) (h : m ≤ n) :
    t.nextLine m ≤ t.nextLine n := by
  by_contra hlt
  have hle := (isLineEdge_nextLine hn).le_of_lt_nextLine hm (by omega)
  have hn' : n ≤ t.nextLine n := Nat.le_add_right ..
  obtain rfl : m = n := by omega
  omega

theorem isCut_edge (hn : t.IsCut n) (h : t.markSize ≤ n) : t.IsCut (t.edge n) := by
  obtain ⟨pre, y, rfl, rfl⟩ := hn
  obtain ⟨above, line, hpre, -, hedge, -⟩ := exists_edge pre y h
  exact ⟨above, line ++ y, by rw [hpre, List.append_assoc], hedge.symm⟩

end Text

/-- Where a declaration stands: behind the byte order mark, and between characters. -/
structure Declaration.StandsIn (t : Text) (d : Declaration) : Prop where
  markSize_le : t.markSize ≤ d.span.start
  start_lt : d.span.start < d.span.stop
  isCut_start : t.IsCut d.span.start
  isCut_stop : t.IsCut d.span.stop

namespace Script

/-- A declaration has the span of its statement. -/
theorem exists_statement (h : d ∈ (parse t).declarations) :
    ∃ st ∈ (parse t).statements, st.span = d.span := by
  obtain ⟨st, hst, hd⟩ := List.mem_filterMap.1 h
  refine ⟨st, hst, ?_⟩
  rw [statements_parse] at hst
  obtain ⟨front, head, body, at?, back, -, rfl⟩ := Part.exists_of_mem_statementsFrom hst
  obtain ⟨d', -, rfl⟩ := Option.map_eq_some_iff.1 hd
  rfl

theorem standsIn_of_mem (h : d ∈ (parse t).declarations) : d.StandsIn t := by
  obtain ⟨st, hst, hspan⟩ := exists_statement h
  obtain ⟨hstart, hlt⟩ := isCut_start hst
  exact {
    markSize_le := hspan ▸ markSize_le_start hst
    start_lt := hspan ▸ hlt
    isCut_start := hspan ▸ hstart
    isCut_stop := hspan ▸ isCut_stop hst }

-- ---------------------------------------------------------------------------
-- Places around a declaration
-- ---------------------------------------------------------------------------

theorem le_edge_of_isLineEdge {n : Nat} (hd : d ∈ (parse t).declarations) (hn : t.IsLineEdge n)
    (h : n ≤ d.span.start) : n ≤ t.edge d.span.start := by
  have hstands := standsIn_of_mem hd
  have hlt : d.span.start < t.size := Nat.lt_of_lt_of_le hstands.start_lt hstands.isCut_stop.le_size
  exact Nat.le_trans (hn.le_lineStart hstands.isCut_start h hlt) (Nat.le_max_left ..)

/-- The line on which a statement ends is over where the line of the next declaration starts. -/
theorem nextLine_le_edge (hst : st ∈ (parse t).statements) (hd : d ∈ (parse t).declarations)
    (h : st.span.stop ≤ d.span.start) : t.nextLine st.span.stop ≤ t.edge d.span.start :=
  le_edge_of_isLineEdge hd (isLineEdge_nextLine (isCut_stop hst)) (nextLine_le_start hst hd h)

/-- New lines go above the line on which a declaration starts, or below the one on which it
ends. -/
theorem insertionOffset_apart (hd : d ∈ (parse t).declarations) :
    (parse t).insertionOffset ≤ t.edge d.span.start ∨
      t.nextLine d.span.stop ≤ (parse t).insertionOffset := by
  obtain ⟨own, hown, hspan⟩ := exists_statement hd
  rcases insertionOffset_cases t with hoffset | ⟨st, hst, hoffset⟩
  · left
    rw [hoffset]
    have hprologue := prologue_le_start hown
    rw [hspan] at hprologue
    exact Nat.max_le.2 ⟨le_edge_of_isLineEdge hd (isLineEdge_prologue (parse t)) hprologue,
      Nat.le_max_right ..⟩
  · rw [hoffset]
    have hapart := statement_apart_of_stop hst hown
    rw [hspan] at hapart
    rcases hapart with habove | hbelow
    · right
      exact nextLine_mono (standsIn_of_mem hd).isCut_stop (isCut_stop hst) habove
    · exact .inl (nextLine_le_edge hst hd hbelow)

end Script

-- ---------------------------------------------------------------------------
-- Where a removal lies
-- ---------------------------------------------------------------------------

/-- Are these the lines of a declaration, with nothing but blanks beside it? -/
def Declaration.OwnsLines (t : Text) (d : Declaration) (s : Span) : Prop :=
  s = ⟨t.edge d.span.start, t.nextLine d.span.stop⟩ ∧
    isBlank (t.slice ⟨t.edge d.span.start, d.span.start⟩) ∧
    isBlank (t.slice ⟨d.span.stop, t.nextLine d.span.stop⟩)

/-- What is removed is the declaration, or its lines. -/
theorem removeDeclaration_cases (t : Text) (d : Declaration) :
    (removeDeclaration t d).span = d.span ∨ d.OwnsLines t (removeDeclaration t d).span := by
  by_cases halone : (isBlank (t.slice ⟨t.edge d.span.start, d.span.start⟩) &&
      isBlank (t.slice ⟨d.span.stop, t.nextLine d.span.stop⟩)) = true
  · exact .inr ⟨if_pos halone, Bool.and_eq_true_iff.1 halone⟩
  · exact .inl (if_neg halone)

/-- Where a removal lies: around the declaration, on its lines, between characters. -/
structure Edit.Around (t : Text) (d : Declaration) (e : Edit) : Prop where
  start_ge : t.edge d.span.start ≤ e.span.start
  start_le : e.span.start ≤ d.span.start
  stop_ge : d.span.stop ≤ e.span.stop
  stop_le : e.span.stop ≤ t.nextLine d.span.stop
  isCut_start : t.IsCut e.span.start
  isCut_stop : t.IsCut e.span.stop

theorem around_removeDeclaration {t : Text} {d : Declaration}
    (h : d ∈ (Script.parse t).declarations) : (removeDeclaration t d).Around t d := by
  obtain ⟨hmark, -, hstart, hstop⟩ := Script.standsIn_of_mem h
  have hedge : t.edge d.span.start ≤ d.span.start := Nat.max_le.2 ⟨Nat.sub_le .., hmark⟩
  have hnext : d.span.stop ≤ t.nextLine d.span.stop := Nat.le_add_right ..
  rcases removeDeclaration_cases t d with heq | ⟨heq, -⟩
  · exact {
      start_ge := heq ▸ hedge
      start_le := heq ▸ Nat.le_refl _
      stop_ge := heq ▸ Nat.le_refl _
      stop_le := heq ▸ hnext
      isCut_start := heq ▸ hstart
      isCut_stop := heq ▸ hstop }
  · exact {
      start_ge := heq ▸ Nat.le_refl _
      start_le := heq ▸ hedge
      stop_ge := heq ▸ hnext
      stop_le := heq ▸ Nat.le_refl _
      isCut_start := heq ▸ isCut_edge hstart hmark
      isCut_stop := heq ▸ (isLineEdge_nextLine hstop).isCut }

end TidyImports
