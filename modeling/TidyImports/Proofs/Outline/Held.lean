-- SUMMARY: Which imports the scan meets, and that their clauses stand in statements.
import TidyImports.Proofs.Outline.Ranges
import TidyImports.Proofs.Outline.Search

/-!
# Imports in statements

An import from a module, with a clause that the search for its specifier passes,
is held by a statement with this specifier, all its clause in it, if the scan
meets its `import`. Where this is no statement's first token, it stands behind a
comment in the clause of another import, which is then no declaration.
-/

namespace TidyImports

open Token

-- ---------------------------------------------------------------------------
-- Imports of a text
-- ---------------------------------------------------------------------------

/-- Does a token open its line? Only white space stands before it there, or no code begins there. -/
def Text.OpensLine (t : Text) (before : List Token) (head : Token) : Prop :=
  t.firstOnLine head.start ∨
    ∀ tok ∈ before, tok.isCode → '\n' ∈ t.slice ⟨tok.start, head.start⟩

instance (t : Text) (before : List Token) (head : Token) : Decidable (t.OpensLine before head) :=
  inferInstanceAs (Decidable (_ ∨ ∀ tok ∈ before, _ → _))

/-- Tokens of a text that read as an import from a module: an `import` that opens its line, outside
braces but for those of statements, then a clause, which makes it neither a call nor a property nor
an import without a clause, then the next `from`, and behind it a closed string. -/
structure Text.HasImport (t : Text) (before : List Token) (head : Token) (clause : List Token) :
    Prop where
  outside : (Script.codeFrom 0 (Script.parse t).statements before).foldl
    Statement.depthAfter 0 = 0
  word : head.isWord "import"
  opens : t.OpensLine before head
  next : ∀ tok ∈ clause.find? isCode,
    tok.isPunct '(' = false ∧ tok.isPunct '.' = false ∧ tok.isString = false
  inside : ∀ tok ∈ clause, tok.isPunct ';' = false ∧ tok.isWord "from" = false ∧
    (tok.isWord "import" && t.firstOnLine tok.start) = false
  specifier : ∃ from' comments specifier after,
    tokenize t = before ++ head :: (clause ++ from' :: (comments ++ specifier :: after)) ∧
      from'.isWord "from" ∧ (∀ tok ∈ comments, tok.isComment) ∧ specifier.contents?.isSome

/-- Does the scan meet an `import`? It does if the `import` has only white space before it on its
line, follows a `;`, or stands in a statement. An `import` behind a comment is else taken for
code. -/
def Text.MeetsImport (t : Text) (before : List Token) (head : Token) : Prop :=
  t.firstOnLine head.start ∨ (lastCode? before).any (·.isPunct ';') ∨
    ∃ st ∈ (Script.parse t).statements, st.holds before.length

instance (t : Text) (before : List Token) (head : Token) : Decidable (t.MeetsImport before head) :=
  inferInstanceAs (Decidable (_ ∨ _ ∨ ∃ st ∈ _, _))

namespace Script

theorem outside_append {statements : List Statement} {index : Nat} (a b : List Token) :
    outside statements index (a ++ b) =
      outside statements index a ++ outside statements (index + a.length) b := by
  rw [outside, List.zipIdx_append, List.filter_append, List.map_append]
  rfl

theorem outside_eq_nil {statements : List Statement} {index : Nat} {tokens : List Token}
    {st : Statement} (hst : st ∈ statements) (hfirst : st.first ≤ index)
    (hpast : index + tokens.length ≤ st.past) : outside statements index tokens = [] := by
  induction tokens generalizing index with
  | nil => rfl
  | cons tok tokens ih =>
    rw [List.length_cons] at hpast
    have hholds : statements.any (·.holds index) := List.any_eq_true.2 ⟨st, hst, by
      simp [Statement.holds]
      omega⟩
    rw [outside_cons, hholds, ih (by omega) (by omega)]
    simp

/-- An `import` that the scan does not meet is code. -/
theorem mem_code_of_not_meets {t : Text} {before after : List Token} {head : Token}
    (htokens : tokenize t = before ++ head :: after) (hword : head.isWord "import")
    (hmeets : ¬ t.MeetsImport before head) : head ∈ (parse t).code := by
  have hholds : (parse t).statements.any (·.holds before.length) = false := by
    rw [List.any_eq_false]
    exact fun st hst hholds => hmeets (.inr (.inr ⟨st, hst, hholds⟩))
  have hcode : head.isCode := Mark.isCode_of_isIdent (Bool.and_eq_true_iff.1 hword).1
  rw [(isExact_parse t).code, show (parse t).tokens = tokenize t from rfl, htokens,
    outside_append, Nat.zero_add, outside_cons, hholds, hcode]
  exact List.mem_append_right _ (List.mem_cons_self ..)

/-- The depth outside statements is no greater than that of all braces. -/
theorem outside_of_braces {t : Text} {before rest : List Token}
    (htokens : tokenize t = before ++ rest)
    (hbraces : before.foldl Statement.depthAfter 0 = 0) :
    (codeFrom 0 (parse t).statements before).foldl Statement.depthAfter 0 = 0 := by
  rw [tokenize_eq_place_top] at htokens
  obtain ⟨x, y, hms, rfl, -⟩ := Mark.place_eq_append htokens
  rw [← Part.foldl_depthAfter_bare, Mark.map_bare_place] at hbraces
  cases outline_cut 0 false x y with
  | between ps outline_eq marks depth_le =>
    rw [← marks, foldl_depthAfter_codeFrom (by rw [Text.parts, hms, outline_eq])]
    exact Nat.le_zero.1 (Nat.le_trans (depth_le 0 (Nat.le_refl 0)) (Nat.le_of_eq hbraces))
  | through ps qs m z n at? outline_eq marks word extent reaches houtside =>
    subst marks
    have hparts : t.parts = ps ++ .statement m ((z ++ y).take n) at? :: qs := by
      rw [Text.parts, hms, outline_eq]
    have hst := Part.statementAt_mem t.markSize 0 ps qs m ((z ++ y).take n) at?
    rw [← hparts, ← statements_parse, Nat.zero_add] at hst
    -- The tokens of the statement before the cut are no code.
    have hinside : outside (parse t).statements
        (0 + (Mark.place t.markSize (Part.allMarks ps)).length)
        (Mark.place (t.markSize + (Mark.sources (Part.allMarks ps)).size) (m :: z)) = [] := by
      have hlength := List.length_take_of_le (Mark.extent?_le extent)
      refine outside_eq_nil hst (by simp [Part.statementAt]) ?_
      simp [Part.statementAt, Part.marks, hlength]
      omega
    rw [codeFrom_eq_outside (isExact_parse t).ascending, Mark.place_append, outside_append,
      hinside, List.append_nil, ← codeFrom_eq_outside (isExact_parse t).ascending,
      foldl_depthAfter_codeFrom hparts]
    exact houtside

end Script

-- ---------------------------------------------------------------------------
-- The line of an import
-- ---------------------------------------------------------------------------

/-- The marks of an `import` among the tokens of a text. -/
structure Text.ImportAt (t : Text) (before : List Token) (head : Token) (x : List Mark) (m : Mark)
    (q : List Mark) : Prop where
  top : Lexer.top t.body = x ++ m :: q
  place : Mark.place t.markSize x = before
  placed : m.placed (t.markSize + (Mark.sources x).size) = head
  word : m.token.isWord "import"
  leads : m.leads = t.firstOnLine head.start

namespace Text.ImportAt

variable {t : Text} {before : List Token} {head : Token} {a x y q : List Mark} {k m : Mark}

/-- Where no code begins on the line before an `import`, a line ends behind the start of each code
before it. -/
theorem mem_line (h : t.ImportAt before head (a ++ k :: y) m q)
    (hline : ∀ tok ∈ before, tok.isCode → '\n' ∈ t.slice ⟨tok.start, head.start⟩)
    (hk : k.token.isCode) : '\n' ∈ k.text ++ Mark.sources y ++ m.gap := by
  obtain ⟨mark, tail, ht, hsize, -⟩ := t.exists_marks
  have htext : mark ++ Mark.sources a ++ k.gap ++ (k.text ++ Mark.sources y ++ m.gap) ++
      (m.text ++ Mark.sources q ++ tail) = t := by
    rw [ht, h.top]
    simp
  have hslice := slice_append (mark ++ Mark.sources a ++ k.gap) (k.text ++ Mark.sources y ++ m.gap)
    (m.text ++ Mark.sources q ++ tail)
  have hstart : (k.placed (t.markSize + (Mark.sources a).size)).start =
      (mark ++ Mark.sources a ++ k.gap).size := by
    simp [Mark.placed, hsize, Nat.add_assoc]
  have hstop : head.start =
      (mark ++ Mark.sources a ++ k.gap).size + (k.text ++ Mark.sources y ++ m.gap).size := by
    simp [← h.placed, Mark.placed, hsize]
    omega
  have hmem := hline (k.placed (t.markSize + (Mark.sources a).size)) (by
    rw [← h.place, Mark.place_append, Mark.place_cons]
    exact List.mem_append_right _ (List.mem_cons_self ..)) hk
  rwa [hstart, hstop, ← htext, hslice] at hmem

/-- A line ends between an `import` and a later one that opens its line. -/
theorem mem_line_of_opens (h : t.ImportAt before head (a ++ k :: y) m q)
    (hopens : t.OpensLine before head) (hk : k.token.isWord "import") :
    '\n' ∈ Mark.sources y ++ m.gap := by
  rcases hopens with hl | hline
  · have hr := Lexer.reads_top t.body
    rw [h.top, List.append_assoc] at hr
    have hbehind := Mark.reads_drop a.length hr
    rw [List.take_left, List.drop_left] at hbehind
    have hreads := hbehind.2
    rw [Mark.lineBlank_of_isImport hk] at hreads
    exact Mark.mem_line_of_leads hreads (h.leads.trans hl)
  · have hmem := h.mem_line hline (Mark.isCode_of_isIdent (Mark.isWord_import hk).1)
    have htext : k.text = "import".toList := eq_of_beq (Bool.and_eq_true_iff.1 hk).2
    rw [htext, List.append_assoc, List.mem_append] at hmem
    exact hmem.resolve_left (by decide)

/-- An `import` that opens its line is first there if the token before it is code with no line end
inside. -/
theorem leads_of_opens (h : t.ImportAt before head (a ++ [k]) m q)
    (hopens : t.OpensLine before head) (hk : k.token.isCode) (htext : '\n' ∉ k.text) :
    m.leads := by
  rcases hopens with hl | hline
  · exact h.leads.trans hl
  · have hgap : '\n' ∈ m.gap := by simpa [htext] using h.mem_line hline hk
    have hr := Lexer.reads_top t.body
    rw [h.top] at hr
    have hhead := Mark.reads_drop (a ++ [k]).length hr
    rw [List.take_left, List.drop_left] at hhead
    have hspaces := (Lexer.proper_top t.body m (by rw [h.top]; simp)).gap
    obtain ⟨u, v, hsplit⟩ := List.append_of_mem hgap
    rw [hsplit, List.all_append, List.all_cons, Bool.and_eq_true, Bool.and_eq_true] at hspaces
    rw [hhead.1, hsplit, lineBlank_append, lineBlank_cons,
      show lineBlank (lineBlank (lineBlank true (Mark.sources (a ++ [k]))) u) ['\n'] = true from rfl,
      lineBlank_of_spaces hspaces.2.2, Bool.true_and]
    exact h.word

end Text.ImportAt

-- ---------------------------------------------------------------------------
-- The clause of an import
-- ---------------------------------------------------------------------------

namespace Mark

/-- What follows an `import` that has a clause: the tokens of the clause, and at the index `i` the
closed string that is its specifier. -/
structure HasClause (q : List Mark) (clause : List Token) (i : Nat) : Prop where
  clause_prefix : clause.map bare <+: q.map token
  length_lt : clause.length < i
  from_eq : fromIndex? q = some i
  extent : ∃ n, extent? q = some (n, some i)
  closed : ∃ s, q[i]? = some s ∧ s.token.contents?.isSome

variable {q y : List Mark} {m : Mark} {clause : List Token} {i n : Nat}

theorem HasClause.mem_take (h : HasClause q clause i) (hn : i < n) {tok : Token}
    (htok : tok ∈ clause) : tok.bare ∈ (q.take n).map token := by
  obtain ⟨more, hmore⟩ := h.clause_prefix
  have hlength := h.length_lt
  rw [List.map_take, ← hmore, List.take_append,
    List.take_of_length_le (by rw [List.length_map]; omega)]
  exact List.mem_append_left _ (List.mem_map_of_mem htok)

/-- The specifier of the import is that of a statement that holds it, also where the statement
begins further up. -/
theorem HasClause.specifier?_isSome (h : HasClause q clause i) (k : Mark) (hn : i < n) :
    (Part.statement k (y ++ m :: q.take n) (some (y.length + 1 + i))).specifier?.isSome ∧
      (Part.statement m (q.take n) (some i)).specifier?.isSome := by
  obtain ⟨s, hs, hclosed⟩ := h.closed
  have htake : (q.take n)[i]? = some s := by rw [List.getElem?_take_of_lt hn, hs]
  have hover : (y ++ m :: q.take n)[y.length + 1 + i]? = some s := by
    rw [List.append_cons, List.getElem?_append_right (by simp)]
    simpa using htake
  constructor <;>
    simp only [Part.specifier?, Part.specifierMark?, Option.bind_some, htake, hover,
      Option.isSome_map, hclosed]

end Mark

namespace Text

variable {t : Text} {before clause : List Token} {head : Token}

/-- The marks of an import. -/
theorem HasImport.exists_marks (h : t.HasImport before head clause) :
    ∃ x m q i, t.ImportAt before head x m q ∧ Mark.HasClause q clause i := by
  obtain ⟨from', comments, specifier, after, htokens, hfrom, hcomments, hspecifier⟩ := h.specifier
  obtain ⟨x, m, q, front, tail, hms, ht, hr, hx, hfront, hhead, hq⟩ := exists_cut htokens
  have hword : m.token.isWord "import" := by
    rw [← hhead] at h
    exact h.word
  have hbody : q.map Mark.token =
      clause.map bare ++ from'.bare :: (comments.map bare ++ specifier.bare :: after.map bare) := by
    rw [← Mark.map_bare_place, hq]
    simp only [List.map_append, List.map_cons]
  obtain ⟨j, next, hnext, hparen, hdot, hother⟩ :=
    Statement.nextCode?_clause h.next hfrom (comments ++ specifier :: after)
  have hindex : Mark.fromIndex? q = some (clause.length + (comments.length + 1)) := by
    rw [← Mark.fromIndex?_place (Mark.text_eq_of_cons ht) (Mark.reads_of_cons hr), size_append, hq]
    exact Statement.fromIndex?_clause h.inside hfrom hcomments (isString_of_contents? hspecifier)
  have hnext' : Token.nextCode? (q.map Mark.token) = some (j, next.bare) := by
    rw [Mark.nextCode?_place (front.size + m.source.size) q, hq, hnext]
    rfl
  have hspec : Mark.specifierIndex? q = some (clause.length + (comments.length + 1)) := by
    have hbare : next.bare.isString = false := hother
    rw [Mark.specifierIndex?, hnext', hindex]
    simp only [hbare, Bool.false_eq_true, if_false]
  have hmark : (q.map Mark.token)[clause.length + (comments.length + 1)]? =
      some specifier.bare := by
    rw [hbody]
    simp
  rw [List.getElem?_map] at hmark
  obtain ⟨s, hs, hbare⟩ := Option.map_eq_some_iff.1 hmark
  refine ⟨x, m, q, clause.length + (comments.length + 1), ?_, ?_⟩
  · exact {
      top := hms
      place := hx
      placed := hfront ▸ hhead
      word := hword
      leads := by rw [← Mark.firstOnLine_placed ht hr, hhead, h.word, Bool.true_and] }
  · exact {
      clause_prefix := ⟨_, hbody.symm⟩
      length_lt := by omega
      from_eq := hindex
      extent := Mark.extent?_of_specifierIndex? hnext' hparen hdot hspec
      closed := ⟨s, hs, by rw [hbare, contents?_bare, hspecifier]⟩ }

end Text

-- ---------------------------------------------------------------------------
-- The statement of an import
-- ---------------------------------------------------------------------------

theorem Part.not_holds_of_token {offset index : Nat} {ps qs : List Part} {m : Mark}
    {st : Statement} (h : st ∈ statementsFrom offset index (ps ++ .token m :: qs)) :
    st.holds (index + (allMarks ps).length) = false := by
  rw [statementsFrom_append, List.mem_append] at h
  rcases h with h | h
  · obtain ⟨front, head, body, at?, back, rfl, rfl⟩ := exists_of_mem_statementsFrom h
    simp [Statement.holds, statementAt]
    omega
  · -- A token alone has no statement, so the next ones begin behind it.
    have hback : st ∈ statementsFrom (offset + (Mark.sources (allMarks ps)).size +
      (Mark.sources [m]).size) (index + (allMarks ps).length + 1) qs := h
    have := (mem_statementsFrom st hback).1
    simp [Statement.holds]
    omega

/-- Up to its specifier, a declaration is code, and no token of it has a line end inside. -/
theorem Part.oneLine_of_declaration? {k m : Mark} {y q : List Mark} {n i : Nat} {d : Declaration}
    (hp : ∀ z ∈ k :: y, z.Proper) (hk : k.token.isWord "import")
    (he : Mark.extent? (y ++ m :: q) = some (n, some (y.length + 1 + i)))
    (hd : (Part.statement k ((y ++ m :: q).take n) (some (y.length + 1 + i))).declaration? =
      some d) :
    ∀ z ∈ k :: y, z.token.isCode ∧ '\n' ∉ z.text := by
  have hword : ∀ z ∈ k :: y, z.token.isIdent → z.token.isCode ∧ '\n' ∉ z.text := fun z hz hident => by
    have hshapes := (hp z hz).shapes
    rw [show z.kind = .ident from eq_of_beq hident] at hshapes
    exact ⟨Mark.isCode_of_isIdent hident, Lexer.not_mem_of_isWord hshapes (by decide)⟩
  obtain ⟨-, -, clause, word, specifier, tail, htake, hat, hreads⟩ := reads_of_declaration? he hd
  intro z hz
  rcases List.mem_cons.1 hz with rfl | hy
  · exact hword z hz (Mark.isWord_import hk).1
  · -- The marks before the specifier are those of the clause, but for the last, which is `from`.
    have hclause : z ∈ clause := by
      have hlength : clause.length + 1 = y.length + 1 + i := (Option.some.inj hat).symm
      have hle : y.length ≤ n := by
        have := congrArg List.length htake
        simp only [List.length_take, List.length_append, List.length_cons] at this
        omega
      rw [List.take_append, List.take_of_length_le hle] at htake
      exact (List.prefix_of_prefix_length_le ⟨_, rfl⟩ ⟨_, htake.symm⟩ (by omega)).subset hy
    have hkind := (Statement.clause?_eq_some_iff.1 hreads.clause_eq).kind z.token
      (List.mem_map_of_mem hclause)
    have hpunct : ∀ c, c ≠ '\n' → z.kind = .punct c → z.token.isCode ∧ '\n' ∉ z.text :=
      fun c hc hz' => by
        have hshapes := (hp z hz).shapes
        rw [hz'] at hshapes
        rw [show z.text = [c] from hshapes, List.mem_singleton]
        exact ⟨Mark.isCode_of_isPunct (c := c) (by simp [isPunct, Mark.token, hz']), hc.symm⟩
    rcases hkind with hident | hcomma | hopening | hclosing
    · exact hword z hz (beq_iff_eq.2 hident)
    · exact hpunct _ (by decide) hcomma
    · exact hpunct _ (by decide) hopening
    · exact hpunct _ (by decide) hclosing

namespace Text

variable {t : Text} {before clause : List Token} {head : Token} {x q : List Mark} {m : Mark}

/-- An `import` that the scan meets, where a part begins, begins a statement. -/
theorem ImportAt.begins {ps : List Part} {n : Nat} {at? : Option Nat}
    (h : t.ImportAt before head x m q)
    (houtside : (Script.codeFrom 0 (Script.parse t).statements before).foldl
      Statement.depthAfter 0 = 0)
    (hmeets : t.MeetsImport before head) (hextent : Mark.extent? q = some (n, at?))
    (hparts : t.parts = ps ++
      outline (Part.depthAfterAll 0 ps) (Part.afterSemicolonAll false ps) (m :: q))
    (hps : Part.allMarks ps = x) :
    ∃ qs, t.parts = ps ++ .statement m (q.take n) at? :: qs := by
  have hdepth : Part.depthAfterAll 0 ps = 0 := by
    rwa [← h.place, ← hps, Script.foldl_depthAfter_codeFrom hparts] at houtside
  rw [hdepth] at hparts
  by_cases hbegins : m.leads || Part.afterSemicolonAll false ps
  · obtain ⟨qs, hqs⟩ := outline_of_extent? h.word hbegins hextent
    exact ⟨qs, by rw [hparts, hqs]⟩
  · -- No statement holds a token at which none begins, and the scan meets none but such tokens.
    have hnone : m.begin? 0 (Part.afterSemicolonAll false ps) q = none :=
      if_neg fun hbegin => hbegins hbegin.2.2
    rw [outline_cons_none hnone] at hparts
    obtain ⟨hleads, hafter⟩ : m.leads = false ∧ Part.afterSemicolonAll false ps = false := by
      simpa using hbegins
    exfalso
    rcases hmeets with hl | hsemicolon | ⟨st, hst, hholds⟩
    · rw [h.leads, hl] at hleads
      cases hleads
    · rw [Part.afterSemicolonAll_eq, hps, ← Mark.map_bare_place t.markSize, h.place,
        lastCode?_map faithful_bare] at hafter
      cases hlast : lastCode? before with
      | none => simp [hlast] at hsemicolon
      | some tok =>
        have hpunct : tok.bare.isPunct ';' = false := by simpa [hlast] using hafter
        rw [hlast] at hsemicolon
        exact absurd hsemicolon (Bool.eq_false_iff.1 hpunct)
    · rw [Script.statements_parse, hparts] at hst
      have hnot := Part.not_holds_of_token hst
      rw [Nat.zero_add, hps, ← Mark.length_place t.markSize, h.place, hholds] at hnot
      cases hnot

/-- An import that the scan meets is a part of the outline, or stands in the clause of another,
which is no declaration. Either way its clause is in a statement with a specifier. -/
theorem HasImport.exists_part (h : t.HasImport before head clause)
    (hmeets : t.MeetsImport before head) :
    ∃ ps k body i qs, t.parts = ps ++ .statement k body (some i) :: qs ∧
      (∀ tok ∈ clause, tok.bare ∈ body.map Mark.token) ∧
      (Part.statement k body (some i)).specifier?.isSome ∧
      ((Part.allMarks ps).length = before.length ∨
        (Part.statement k body (some i)).declaration? = none) := by
  obtain ⟨x, m, q, i, himport, hclause⟩ := h.exists_marks
  have hproper := Lexer.proper_top t.body
  rw [himport.top] at hproper
  cases outline_cut 0 false x (m :: q) with
  | between ps outline_eq marks =>
    obtain ⟨n, hextent⟩ := hclause.extent
    have hn : i < n := Mark.lt_of_extent? hextent
    obtain ⟨qs, hparts⟩ := himport.begins h.outside hmeets hextent
      (by rw [parts, himport.top, outline_eq]) marks
    refine ⟨ps, m, q.take n, i, qs, hparts, fun tok => hclause.mem_take hn,
      (hclause.specifier?_isSome (y := []) m hn).2, .inl ?_⟩
    rw [marks, ← himport.place, Mark.length_place]
  | through ps qs k y n at? outline_eq marks word extent reaches =>
    subst marks
    cases Mark.extent?_over himport.word extent reaches with
    | line hline => exact absurd (himport.mem_line_of_opens h.opens word) hline
    | search hx hhead hi =>
      rw [hclause.from_eq] at hi
      cases hi
      have hn : y.length + 1 + i < n := Mark.lt_of_extent? extent
      have htake : (y ++ m :: q).take n = y ++ m :: q.take (n - y.length - 1) := by
        rw [List.take_append, List.take_of_length_le (by omega)]
        obtain ⟨r, hr⟩ : ∃ r, n - y.length = r + 1 := ⟨n - y.length - 1, by omega⟩
        rw [hr, List.take_succ_cons, Nat.add_sub_cancel]
      refine ⟨ps, k, y ++ m :: q.take (n - y.length - 1), y.length + 1 + i, qs, ?_,
        fun tok htok => ?_, ?_, .inr ?_⟩
      · rw [parts, himport.top, outline_eq, htake]
      · rw [List.map_append, List.map_cons]
        exact List.mem_append_right _
          (List.mem_cons_of_mem _ (hclause.mem_take (by omega) htok))
      · exact (hclause.specifier?_isSome k (by omega)).1
      · -- If it were one, the `import` would be first on its line, and stop the search.
        rw [← htake]
        cases hd : (Part.statement k ((y ++ m :: q).take n)
          (some (y.length + 1 + i))).declaration? with
        | none => rfl
        | some d =>
          have hline := Part.oneLine_of_declaration?
            (fun z hz => hproper z (by simp only [List.mem_append]; exact .inl (.inr hz))) word
            extent hd
          obtain ⟨a, z, hz⟩ : ∃ a z, k :: y = a ++ [z] :=
            ⟨_, _, (List.dropLast_concat_getLast (List.cons_ne_nil k y)).symm⟩
          obtain ⟨hcode, htext⟩ := hline z (by rw [hz]; simp)
          rw [hz, ← List.append_assoc] at himport
          exact absurd (.inr (himport.leads_of_opens h.opens hcode htext)) hhead

end Text

end TidyImports
