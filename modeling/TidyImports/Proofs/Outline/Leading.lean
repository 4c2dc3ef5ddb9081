-- SUMMARY: How a statement reaches over a later import, and where an import begins one of its own.
import TidyImports.Proofs.Outline.Recognized

/-!
# Imports that the scan meets

A statement reaches over a later `import` in two ways: without a specifier, by
its line, and with one, by a search that passes the `import`. Neither happens to
an `import` that is first on its line: the search stops there, and a line ends
before it. So such an `import` is met by the scan, at a depth that is not greater
than the braces before it say.
-/

namespace TidyImports

open Token

-- ---------------------------------------------------------------------------
-- Looking over an import
-- ---------------------------------------------------------------------------

namespace Mark

/-- How a statement that goes on with the marks `x` reaches over the `import` behind them, by where
its specifier is: a statement without one ends with its line, and a search finds the specifier that
the `import` would find for itself. -/
inductive ReachesOver (x : List Mark) (head : Mark) (q : List Mark) : Option Nat → Prop
  | line (h : '\n' ∉ sources x ++ head.gap) : ReachesOver x head q none
  | search {i : Nat} (hx : ∀ m ∈ x, ¬ m.Stops) (hhead : ¬ head.Stops)
      (hi : fromIndex? q = some i) : ReachesOver x head q (some (x.length + 1 + i))

variable {x q : List Mark} {head : Mark}

theorem isString_of_isIdent {tok : Token} (h : tok.isIdent) : tok.isString = false := by
  have hkind : tok.kind = .ident := eq_of_beq h
  rw [isString, hkind]

theorem isWord_import {m : Mark} (h : m.token.isWord "import") :
    m.token.isIdent ∧ m.token.isWord "from" = false := by
  obtain ⟨hident, htext⟩ := Bool.and_eq_true_iff.1 h
  refine ⟨hident, ?_⟩
  rw [isWord, eq_of_beq htext, Bool.and_eq_false_iff]
  exact .inr rfl

/-- The first code is met before a token of code, or is that token. -/
theorem nextCode?_le_of_isCode {i : Nat} {tok : Token} (hc : head.token.isCode)
    (h : nextCode? ((x ++ head :: q).map token) = some (i, tok)) :
    i < x.length ∨ tok = head.token := by
  induction x generalizing i with
  | nil =>
    rw [List.nil_append, List.map_cons, nextCode?_cons, if_pos hc] at h
    cases h
    exact .inr rfl
  | cons m x ih =>
    rw [List.cons_append, List.map_cons, nextCode?_cons] at h
    split at h
    · cases h
      exact .inl (Nat.succ_pos _)
    · obtain ⟨⟨j, next⟩, hj, heq⟩ := Option.map_eq_some_iff.1 h
      cases heq
      exact (ih hj).imp Nat.succ_lt_succ id

/-- A string that is the first code stands before an `import`. -/
theorem nextCode?_lt_of_isString {i : Nat} {tok : Token} (hw : head.token.isWord "import")
    (h : nextCode? ((x ++ head :: q).map token) = some (i, tok)) (hs : tok.isString) :
    i < x.length := by
  have hident := (isWord_import hw).1
  rcases nextCode?_le_of_isCode (isCode_of_isIdent hident) h with hlt | rfl
  · exact hlt
  · rw [isString_of_isIdent hident] at hs
    cases hs

/-- A search that does not end before an `import` goes on behind it. -/
theorem fromIndex?_over {i : Nat} (hw : head.token.isWord "import")
    (h : fromIndex? (x ++ head :: q) = some i) (hi : x.length ≤ i) :
    ReachesOver x head q (some i) := by
  induction x generalizing i with
  | nil =>
    obtain ⟨hident, hfrom⟩ := isWord_import hw
    rw [List.nil_append, fromIndex?, Statement.not_isPunct_of_isIdent hident, hfrom] at h
    simp only [Bool.false_eq_true, if_false] at h
    split at h
    · cases h
    · next hleads =>
      obtain ⟨j, hj, rfl⟩ := Option.map_eq_some_iff.1 h
      have hhead : ¬ head.Stops := by
        rw [Stops, Statement.not_isPunct_of_isIdent hident]
        simpa using hleads
      have hover := ReachesOver.search (x := []) (by simp) hhead hj
      rwa [List.length_nil, Nat.zero_add, Nat.add_comm] at hover
  | cons m x ih =>
    rw [List.cons_append, fromIndex?] at h
    split at h
    · cases h
    · next hsemicolon =>
      split at h
      · cases h
      · next hleads =>
        split at h
        · split at h
          · next j next hnext =>
            split at h
            · next hstring =>
              cases h
              have := nextCode?_lt_of_isString hw hnext hstring
              rw [List.length_cons] at hi
              omega
            · cases h
          · cases h
        · obtain ⟨j, hj, rfl⟩ := Option.map_eq_some_iff.1 h
          rw [List.length_cons] at hi
          cases ih hj (by omega) with
          | @search k hx hhead hk =>
            have hm : ¬ m.Stops := not_or.2 ⟨hsemicolon, hleads⟩
            have hover := ReachesOver.search (List.forall_mem_cons.2 ⟨hm, hx⟩) hhead hk
            rwa [List.length_cons, Nat.add_right_comm _ 1 1, Nat.add_right_comm _ 1 k] at hover

theorem specifierIndex?_over {i : Nat} (hw : head.token.isWord "import")
    (h : specifierIndex? (x ++ head :: q) = some i) (hi : x.length ≤ i) :
    ReachesOver x head q (some i) := by
  rw [specifierIndex?] at h
  split at h
  · cases h
  · next j next hnext =>
    split at h
    · next hstring =>
      cases h
      exact absurd (nextCode?_lt_of_isString hw hnext hstring) (Nat.not_lt.2 hi)
    · exact fromIndex?_over hw h hi

/-- A `;` that ends a statement stands before any other code. -/
theorem semicolonIndex?_lt_of_isIdent {j : Nat} (hident : head.token.isIdent)
    (h : semicolonIndex? (x ++ head :: q) = some j) : j < x.length := by
  induction x generalizing j with
  | nil =>
    simp [semicolonIndex?, isCode_of_isIdent hident,
      Statement.not_isPunct_of_isIdent hident] at h
  | cons m x ih =>
    rw [List.cons_append, semicolonIndex?] at h
    split at h
    · cases h
    · split at h
      · split at h
        · cases h
          exact Nat.succ_pos _
        · cases h
      · split at h
        · cases h
        · obtain ⟨k, hk, rfl⟩ := Option.map_eq_some_iff.1 h
          exact Nat.succ_lt_succ (ih hk)

/-- The marks that start on a line end before a mark on another line. -/
theorem lineCount_le_of_mem (h : '\n' ∈ sources x ++ head.gap) :
    lineCount (x ++ head :: q) ≤ x.length := by
  induction x with
  | nil =>
    rw [List.nil_append, lineCount, if_pos (by simpa using h)]
    exact Nat.le_refl _
  | cons m x ih =>
    rw [List.cons_append, lineCount, List.length_cons]
    split
    · exact Nat.zero_le _
    · next hgap =>
      split
      · exact Nat.succ_le_succ (Nat.zero_le _)
      · next htext => exact Nat.succ_le_succ (ih (by simpa [hgap, htext] using h))

/-- What a statement that reaches over an `import` is like. -/
theorem extent?_over {n : Nat} {at? : Option Nat} (hw : head.token.isWord "import")
    (h : extent? (x ++ head :: q) = some (n, at?)) (hn : x.length < n) :
    ReachesOver x head q at? := by
  cases at? with
  | none =>
    have hspec := snd_of_extent? h
    rw [extent?, ← hspec] at h
    split at h
    · cases h
    · split at h
      · cases h
      · cases h
        exact .line fun hmem => absurd (lineCount_le_of_mem hmem) (Nat.not_le.2 hn)
  | some i =>
    obtain ⟨hspec, hlength⟩ := extent?_eq_some h
    rcases Nat.lt_or_ge i x.length with hi | hi
    · -- A specifier before the `import` ends the statement there, with its `;` if it has one.
      rcases hlength with ⟨-, rfl⟩ | ⟨j, hj, rfl⟩
      · exact absurd hn (Nat.not_lt.2 hi)
      · rw [List.drop_append_of_le_length hi] at hj
        have hlt := semicolonIndex?_lt_of_isIdent (isWord_import hw).1 hj
        rw [List.length_drop] at hlt
        omega
    · exact specifierIndex?_over hw hspec hi

/-- After the word `import`, no line is blank. -/
theorem lineBlank_of_isImport {m : Mark} {blank : Bool} (h : m.token.isWord "import") :
    Text.lineBlank blank (m.gap ++ m.text) = false := by
  have htext : m.text = "import".toList := eq_of_beq (Bool.and_eq_true_iff.1 h).2
  rw [Text.lineBlank_append, htext]
  cases Text.lineBlank blank m.gap <;> decide

/-- A line ends between an `import` and one that is first on its line. -/
theorem mem_line_of_leads (hr : Reads false (x ++ head :: q)) (hl : head.leads) :
    '\n' ∈ sources x ++ head.gap := by
  have hhead := reads_drop x.length hr
  rw [List.take_left, List.drop_left] at hhead
  have hleads := hhead.1
  rw [hl, ← Text.lineBlank_append] at hleads
  apply Decidable.byContradiction
  intro hmem
  rw [Text.lineBlank_false hmem] at hleads
  cases hleads

end Mark

-- ---------------------------------------------------------------------------
-- Where an outline is cut
-- ---------------------------------------------------------------------------

theorem Statement.depthAfter_mono {depth depth' : Nat} (h : depth ≤ depth') (tok : Token) :
    depthAfter depth tok ≤ depthAfter depth' tok := by
  rw [depthAfter, depthAfter]
  split
  · exact Nat.succ_le_succ h
  · split
    · exact Nat.sub_le_sub_right h 1
    · exact h

/-- How an outline goes over the place between the marks `x` and `rest`. -/
inductive OutlineCut (depth : Nat) (after : Bool) (x rest : List Mark) : Prop
  /-- A part ends there. The depth is at most that of the braces before, as the scan passes over
  those in statements. -/
  | between (ps : List Part)
      (outline_eq : outline depth after (x ++ rest) = ps ++
        outline (Part.depthAfterAll depth ps) (Part.afterSemicolonAll after ps) rest)
      (marks : Part.allMarks ps = x)
      (depth_le : ∀ braces, depth ≤ braces →
        Part.depthAfterAll depth ps ≤ (x.map Mark.token).foldl Statement.depthAfter braces)
  /-- A statement reaches over it. -/
  | through (ps qs : List Part) (m : Mark) (y : List Mark) (n : Nat) (at? : Option Nat)
      (outline_eq : outline depth after (x ++ rest) =
        ps ++ .statement m ((y ++ rest).take n) at? :: qs)
      (marks : x = Part.allMarks ps ++ m :: y) (word : m.token.isWord "import")
      (extent : Mark.extent? (y ++ rest) = some (n, at?)) (reaches : y.length < n)
      (outside : Part.depthAfterAll depth ps = 0)

/-- A part in front of a cut. -/
theorem OutlineCut.cons {depth : Nat} {after : Bool} {x rest : List Mark} {p : Part}
    (h : OutlineCut (p.depthAfter depth) (p.afterSemicolon after) x rest)
    (hout : outline depth after (p.marks ++ x ++ rest) =
      p :: outline (p.depthAfter depth) (p.afterSemicolon after) (x ++ rest))
    (hdepth : ∀ braces, depth ≤ braces →
      p.depthAfter depth ≤ (p.marks.map Mark.token).foldl Statement.depthAfter braces) :
    OutlineCut depth after (p.marks ++ x) rest := by
  cases h with
  | between ps outline_eq marks depth_le =>
    refine .between (p :: ps) (by rw [hout, outline_eq]; rfl) (by rw [Part.allMarks_cons, marks])
      fun braces hle => ?_
    rw [List.map_append, List.foldl_append]
    exact depth_le _ (hdepth braces hle)
  | through ps qs m y n at? outline_eq marks word extent reaches outside =>
    exact .through (p :: ps) qs m y n at? (by rw [hout, outline_eq]; rfl)
      (by rw [Part.allMarks_cons, List.append_assoc, marks]) word extent reaches outside

theorem outline_cut (depth : Nat) (after : Bool) (x rest : List Mark) :
    OutlineCut depth after x rest := by
  generalize hms : x ++ rest = ms
  fun_induction outline depth after ms generalizing x with
  | case1 =>
    obtain ⟨rfl, rfl⟩ := List.append_eq_nil_iff.1 hms
    exact .between [] rfl rfl fun _ h => h
  | case2 depth after m more n at? hb p =>
    rename_i ih
    cases x with
    | nil => exact .between [] rfl rfl fun _ h => h
    | cons m' x =>
      rw [List.cons_append] at hms
      obtain ⟨rfl, rfl⟩ := List.cons.inj hms
      rcases Nat.lt_or_ge x.length n with hn | hn
      · exact .through [] _ m' x n at? (outline_cons_some hb) rfl (Mark.isWord_of_begin? hb)
          (Mark.extent?_of_begin? hb) hn (Mark.depth_of_begin? hb)
      · have hdrop : (x ++ rest).drop n = x.drop n ++ rest := List.drop_append_of_le_length hn
        have hmarks : p.marks ++ x.drop n = m' :: x := by
          simp only [p, Part.marks, List.take_append_of_le_length hn, List.cons_append,
            List.take_append_drop]
        have hcut := (ih (x.drop n) hdrop.symm).cons (p := p) (by
          rw [hmarks, List.cons_append, outline_cons_some hb, hdrop]
          rfl) fun braces _ => by
            rw [show p.depthAfter depth = 0 from Mark.depth_of_begin? hb]
            exact Nat.zero_le _
        rwa [hmarks] at hcut
  | case3 depth after m more hb p =>
    rename_i ih
    cases x with
    | nil => exact .between [] rfl rfl fun _ h => h
    | cons m' x =>
      rw [List.cons_append] at hms
      obtain ⟨rfl, rfl⟩ := List.cons.inj hms
      exact (ih x rfl).cons (p := p) (outline_cons_none hb) fun braces hle =>
        Statement.depthAfter_mono hle _

/-- An outline is cut at an `import` that is first on its line. -/
theorem outline_split_of_leads (depth : Nat) (after : Bool) {blank : Bool} {x q : List Mark}
    {head : Mark} (hp : ∀ m ∈ x ++ head :: q, m.Proper) (hr : Mark.Reads blank (x ++ head :: q))
    (hl : head.leads) :
    ∃ ps, outline depth after (x ++ head :: q) = ps ++
        outline (Part.depthAfterAll depth ps) (Part.afterSemicolonAll after ps) (head :: q) ∧
      Part.allMarks ps = x := by
  cases outline_cut depth after x (head :: q) with
  | between ps outline_eq marks => exact ⟨ps, outline_eq, marks⟩
  | through ps _ m y n at? _ marks word extent reaches =>
    subst marks
    have hhead : head.Proper := hp head (by simp)
    exfalso
    cases Mark.extent?_over (Mark.isImport_of_leads hhead hl) extent reaches with
    | line hmem =>
      refine hmem (Mark.mem_line_of_leads (q := q) ?_ hl)
      have hrest := Mark.reads_drop (Part.allMarks ps).length hr
      rw [List.append_assoc, List.take_left, List.drop_left] at hrest
      have := hrest.2
      rwa [Mark.lineBlank_of_isImport word] at this
    | search _ hstops => exact hstops (.inr hl)

/-- At depth zero, an `import` that is first on its line or follows a `;` begins a statement if what
follows it lets it. -/
theorem outline_of_extent? {n : Nat} {after : Bool} {q : List Mark} {head : Mark}
    {at? : Option Nat} (hw : head.token.isWord "import") (hl : head.leads || after)
    (he : Mark.extent? q = some (n, at?)) :
    ∃ qs, outline 0 after (head :: q) = .statement head (q.take n) at? :: qs := by
  have hb : head.begin? 0 after q = some (n, at?) := by
    rw [Mark.begin?, if_pos ⟨rfl, hw, hl⟩, he]
  exact ⟨_, outline_cons_some hb⟩

/-- The depth outside statements behind parts of a text. -/
theorem Script.foldl_depthAfter_codeFrom {t : Text} {ps qs : List Part} (h : t.parts = ps ++ qs) :
    (codeFrom 0 (parse t).statements (Mark.place t.markSize (Part.allMarks ps))).foldl
      Statement.depthAfter 0 = Part.depthAfterAll 0 ps := by
  rw [statements_parse, h, ← Part.foldl_depthAfter_bare, codeFrom_place,
    Part.foldl_depthAfter_code]

/-- An `import` that is first on its line, with no brace open before it outside statements, begins
a statement of the script if what follows it lets it. -/
theorem Script.mem_statements_of_leads {t : Text} {before after : List Token} {head : Token}
    {st : Statement} (htokens : tokenize t = before ++ head :: after)
    (hkeyword : head.isWord "import") (hleading : t.firstOnLine head.start)
    (houtside : (codeFrom 0 (parse t).statements before).foldl Statement.depthAfter 0 = 0)
    (h : Statement.ofHead? t before.length head after true = some st) :
    st ∈ (parse t).statements := by
  obtain ⟨x, m, q, front, tail, hms, ht, hr, hx, hfront, rfl, rfl⟩ := Text.exists_cut htokens
  have hproper := Lexer.proper_top t.body
  have hreads := Lexer.reads_top t.body
  rw [hms] at hproper hreads
  have hl : m.leads := by
    rw [← Mark.firstOnLine_placed ht hr, hkeyword, hleading]
    rfl
  have hlength : before.length = x.length := by rw [← hx, Mark.length_place]
  -- The statement is that of the extent that the marks behind it give it.
  rw [← hl, Mark.ofHead?_place ht hr (fun k hk => hproper k (by simp [hk])) hkeyword] at h
  obtain ⟨⟨n, at?⟩, he, rfl⟩ := Option.map_eq_some_iff.1 h
  obtain ⟨ps, hout, hps⟩ := outline_split_of_leads 0 false hproper hreads hl
  have hparts : t.parts = ps ++
      outline (Part.depthAfterAll 0 ps) (Part.afterSemicolonAll false ps) (m :: q) := by
    rw [Text.parts, hms, hout]
  have hdepth : Part.depthAfterAll 0 ps = 0 := by
    rwa [← hx, ← hps, foldl_depthAfter_codeFrom hparts] at houtside
  obtain ⟨qs, hqs⟩ := outline_of_extent? hkeyword (by rw [hl]; rfl) he
  rw [hdepth, hqs] at hparts
  have hmem := Part.statementAt_mem t.markSize 0 ps qs m (q.take n) at?
  rw [hps, ← hfront, Nat.zero_add, ← hlength] at hmem
  rw [statements_parse, hparts]
  exact hmem

end TidyImports
