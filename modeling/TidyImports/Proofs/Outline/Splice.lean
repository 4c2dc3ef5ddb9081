-- SUMMARY: How the outline of a text changes with a declaration put in, taken out, or rewritten.
import TidyImports.Proofs.Outline.Recognized
import TidyImports.Proofs.Outline.Seam
import TidyImports.Proofs.Text.Cutting

/-!
# Declarations put in, taken out, and rewritten

Each change happens below a text that stands on its own, and the rest of the
text below the change keeps its outline up to white space.
-/

namespace TidyImports

open Text Lexer

-- ---------------------------------------------------------------------------
-- Where a declaration ends
-- ---------------------------------------------------------------------------

theorem Token.lastCode?_concat {ts : List Token} {tok : Token} (h : tok.isCode) :
    Token.lastCode? (ts ++ [tok]) = some tok := by
  rw [Token.lastCode?_append, Token.lastCode?_cons, if_pos h]
  rfl

/-- The last mark of a statement, if it is no comment, says whether a `;` ends it. -/
theorem Part.afterSemicolon_concat (head : Mark) (body : List Mark) {m : Mark}
    (at? : Option Nat) (h : m.token.isCode) (after : Bool) :
    (Part.statement head (body ++ [m]) at?).afterSemicolon after = m.token.isPunct ';' := by
  rw [afterSemicolon, marks, ← List.cons_append, List.map_append, List.map_singleton,
    Token.lastCode?_concat h]

namespace Declaration.Reads

variable {d : Declaration} {clause tail : List Mark} {word specifier : Mark}

/-- A recognized declaration ends with a quote or a `;`. -/
theorem ends (h : d.Reads clause word specifier tail) (hp : ∀ m ∈ specifier :: tail, m.Proper) :
    ∃ x c, Mark.sources (clause ++ word :: specifier :: tail) = x ++ [c] ∧ c ≠ '\n' ∧
      isBlank [c] = false := by
  have htail := h.tail_eq
  split at htail
  · obtain ⟨m, rfl, hm⟩ := htail
    have hshape := (hp m (by simp)).shapes
    rw [show m.kind = .punct ';' from eq_of_beq hm] at hshape
    refine ⟨Mark.sources (clause ++ [word, specifier]) ++ m.gap, ';', ?_, by decide, by decide⟩
    simp [show m.text = [';'] from hshape]
  · subst htail
    have hspec : specifier.kind = .string true := Token.kind_of_contents? h.contents
    have hshape := (hp specifier (by simp)).shapes
    rw [hspec] at hshape
    obtain ⟨q, x, hq, hx⟩ := hshape
    refine ⟨Mark.sources (clause ++ [word]) ++ specifier.gap ++ q :: x, q, by simp [hx], ?_⟩
    rcases hq with rfl | rfl <;> decide

theorem afterSemicolon (h : d.Reads clause word specifier tail) (head : Mark)
    (at? : Option Nat) (after : Bool) :
    (Part.statement head (clause ++ word :: specifier :: tail) at?).afterSemicolon after =
      d.style.semicolon := by
  have htail := h.tail_eq
  split at htail
  · next hs =>
    obtain ⟨m, rfl, hm⟩ := htail
    have := Part.afterSemicolon_concat head (clause ++ [word, specifier]) at?
      (Mark.isCode_of_isPunct hm) after
    rw [hm] at this
    rw [hs, ← this]
    simp
  · next hs =>
    subst htail
    obtain ⟨hc, hp⟩ : specifier.token.isCode ∧ specifier.token.isPunct ';' = false := by
      have := h.contents
      rw [Token.contents?.eq_def] at this
      split at this
      · next hk => simp [Token.isCode, Token.isComment, Token.isPunct, hk]
      · cases this
    have := Part.afterSemicolon_concat head (clause ++ [word]) at? hc after
    rw [hp] at this
    rw [Bool.eq_false_iff.2 hs, ← this]
    simp

end Declaration.Reads

/-- A statement that begins an outline: its marks begin the marks, and what it is made of. -/
theorem outline_eq_statement {depth : Nat} {after : Bool} {ms : List Mark} {head : Mark}
    {body : List Mark} {at? : Option Nat} {qs : List Part}
    (h : outline depth after ms = .statement head body at? :: qs) :
    ∃ rest n, ms = head :: rest ∧ body = rest.take n ∧ Mark.extent? rest = some (n, at?) ∧
      qs = outline depth ((Part.statement head body at?).afterSemicolon after) (rest.drop n) := by
  cases ms with
  | nil => simp [outline] at h
  | cons m rest =>
    cases hb : m.begin? depth after rest with
    | none =>
      rw [outline_cons_none hb] at h
      cases (List.cons.inj h).1
    | some e =>
      obtain ⟨n, at'⟩ := e
      rw [outline_cons_some hb] at h
      obtain ⟨hhead, hqs⟩ := List.cons.inj h
      cases hhead
      exact ⟨rest, n, rfl, rfl, Mark.extent?_of_begin? hb, hqs.symm⟩

/-- What follows a recognized declaration is read from a state that only the declaration's
punctuation and what came before it tell. -/
theorem outline_of_declaration? {s : State} {gap t : Text} {depth : Nat} {after : Bool}
    {head : Mark} {body : List Mark} {at? : Option Nat} {qs : List Part} {d : Declaration}
    (hg : gap.all isSpace)
    (h : outline depth after (marks s true gap t) = .statement head body at? :: qs)
    (hd : (Part.statement head body at?).declaration? = some d) :
    ∃ rest, gap ++ t = Mark.sources (head :: body) ++ rest ∧
      (d.style.semicolon = false →
        Mark.semicolonIndex? (marks ⟨d.style.semicolon, s.depths⟩ false [] rest) = none) ∧
      qs = outline depth d.style.semicolon
        (marks ⟨d.style.semicolon, s.depths⟩ false [] rest) := by
  obtain ⟨after_head, n, hms, rfl, he, hqs⟩ := outline_eq_statement h
  obtain ⟨hleads, hsemi, clause, word, specifier, tail, htake, -, hreads⟩ :=
    Part.reads_of_declaration? he hd
  have hproper : ∀ m ∈ head :: after_head, m.Proper := by
    rw [← hms]
    exact proper_marks hg
  have hp : ∀ m ∈ clause ++ word :: specifier :: tail, m.Proper := fun m hm =>
    hproper m (List.mem_cons_of_mem _ (List.mem_of_mem_take (htake ▸ hm)))
  have hclause : ∀ m ∈ clause, m.Proper := fun m hm => hp m (List.mem_append_left _ hm)
  have hkind : head.kind = .ident := by
    have := (hproper head (List.mem_cons_self ..)).leads hleads
    exact eq_of_beq (Bool.and_eq_true_iff.1 this).1
  have hsplit : marks s true gap t = (head :: after_head.take n) ++ after_head.drop n := by
    rw [hms, List.cons_append, List.take_append_drop]
  obtain ⟨rest, hrest, hdrop⟩ := marks_eq_append hsplit (by simp) true (lineBlank_of_spaces hg)
  have hstate : s.afterMarks (head :: after_head.take n) = ⟨d.style.semicolon, s.depths⟩ := by
    rw [State.afterMarks_cons, htake, hreads.after_eq hclause, hkind]
    rfl
  have hblank : lineBlank true (Mark.sources (head :: after_head.take n)) = false := by
    obtain ⟨x, c, hx, hn, hc⟩ := hreads.ends fun m hm => hp m
      (List.mem_append_right _ (List.mem_cons_of_mem _ hm))
    rw [Mark.sources_cons, htake, hx, ← List.append_assoc]
    exact lineBlank_concat hn hc
  rw [hstate, hblank] at hdrop
  refine ⟨rest, hrest, fun hs => ?_, ?_⟩
  · rw [← hdrop]
    exact hsemi hs
  · rw [hqs, ← hdrop, htake, hreads.afterSemicolon]

-- ---------------------------------------------------------------------------
-- Where a written declaration ends
-- ---------------------------------------------------------------------------

namespace Canonical

variable {c : Canonical} {style : Style}

theorem afterSemicolon_part (gap : Text) (after : Bool) :
    (c.part style gap).afterSemicolon after = style.semicolon := by
  rw [part, bodyMarks]
  cases hs : style.semicolon with
  | true =>
    rw [if_pos rfl, Part.afterSemicolon_concat _ _ _ rfl]
    rfl
  | false =>
    have := Part.afterSemicolon_concat (head gap) (c.clauseMarks ++ [Mark.word [' '] "from".toList])
      (some (c.clauseMarks.length + 1))
      (m := Mark.string [' '] style.quote c.specifier.toList) rfl after
    rw [show (Mark.string [' '] style.quote c.specifier.toList).token.isPunct ';' = false from
      rfl] at this
    simpa using this

/-- A declaration written on a blank line outside braces is a statement of its own. -/
theorem outline_rendered {s : State} {gap rendered t : Text} {after : Bool}
    (hc : c.WritableIn style.quote) (hr : c.render? style = some rendered)
    (hq : style.semicolon = false →
      Mark.semicolonIndex? (marks ⟨style.semicolon, s.depths⟩ false [] t) = none) :
    outline 0 after (marks s true gap (rendered ++ t)) =
      c.part style gap :: outline 0 style.semicolon
        (marks ⟨style.semicolon, s.depths⟩ false [] t) := by
  have hb : Mark.begin? 0 after (head gap)
      (c.bodyMarks style ++ marks ⟨style.semicolon, s.depths⟩ false [] t) =
        some ((c.bodyMarks style).length, some (c.clauseMarks.length + 1)) := by
    rw [Mark.begin?, if_pos ⟨rfl, rfl, rfl⟩, extent?_bodyMarks hc hq]
  rw [marks_rendered hc.spelledIn hr, List.cons_append, outline_cons_some hb, List.take_left,
    List.drop_left]
  exact congrArg (c.part style gap :: outline 0 · _) (afterSemicolon_part gap after)

end Canonical

-- ---------------------------------------------------------------------------
-- What follows a place
-- ---------------------------------------------------------------------------

/-- Can text be put in or taken out at `offset` without effect on what follows there? The code that
comes first is no `/`, no `#` that starts the file, and no `import` behind other code. -/
def Text.Opens (t : Text) (offset : Nat) : Prop :=
  Fresh (t.dropBytes offset) ∧
    ∀ tok ∈ (tokenize t).find? fun tok => offset ≤ tok.start && tok.isCode,
      tok.text.head? ≠ some '/' ∧ isBlank (tok.text.take 1) = false ∧
        (tok.isWord "import" → t.firstOnLine tok.start)

instance (t : Text) (offset : Nat) : Decidable (t.Opens offset) :=
  inferInstanceAs (Decidable (_ ∧ ∀ tok ∈ (tokenize t).find? _, _ ∧ _ ∧ (_ → _)))

namespace Mark

theorem find?_place {offset o : Nat} {ms : List Mark} {m : Mark}
    (ho : ∀ k ∈ ms.head?, offset ≤ o + k.gap.size)
    (h : ms.find? (·.token.isCode) = some m) :
    ∃ a b, ms = a ++ m :: b ∧
      (place o ms).find? (fun tok => offset ≤ tok.start && tok.isCode) =
        some (m.placed (o + (sources a).size)) := by
  induction ms generalizing o with
  | nil => cases h
  | cons k ms ih =>
    have hstart : offset ≤ (k.placed o).start := ho k rfl
    have hcode : (k.placed o).isCode = k.token.isCode := rfl
    rw [place_cons, List.find?_cons, hcode, decide_eq_true hstart, Bool.true_and]
    rw [List.find?_cons] at h
    split at h
    · cases h
      exact ⟨[], ms, rfl, by simp⟩
    · have hnext : ∀ k' ∈ ms.head?, offset ≤ o + k.source.size + k'.gap.size := fun k' _ => by
        have := ho k rfl
        rw [size_source]
        omega
      obtain ⟨a, b, rfl, hfind⟩ := ih hnext h
      refine ⟨k :: a, b, rfl, ?_⟩
      rw [hfind]
      simp [source, Nat.add_assoc]

theorem find?_place_none {offset o : Nat} {ms : List Mark} (hp : ∀ m ∈ ms, m.Proper)
    (ho : o + (sources ms).size ≤ offset) :
    (place o ms).find? (fun tok => offset ≤ tok.start && tok.isCode) = none := by
  rw [List.find?_eq_none]
  intro tok htok
  obtain ⟨a, m, b, rfl, rfl⟩ := mem_place htok
  obtain ⟨c, cs, htext, -⟩ := (hp m (by simp)).start
  have hpos := c.utf8Size_pos
  have hlt : ¬offset ≤ (m.placed (o + (sources a).size)).start := by
    simp only [sources_append, sources_cons, size_append, htext, size_cons] at ho
    simp only [placed]
    omega
  simp [hlt]

end Mark

/-- The first code at a place that opens does not look back. -/
theorem Text.Opens.neutral {t gap q : Text} {offset : Nat} {s : State} {blank : Bool}
    {a : List Mark} (h : t.Opens offset) (hm : top t.body = a ++ marks s blank gap q)
    (hs : t.markSize + (Mark.sources a).size + gap.size = offset) :
    ∀ m, (marks s blank gap q).find? (·.token.isCode) = some m → m.Neutral := by
  intro m hfind
  have hgap : ∀ k ∈ (marks s blank gap q).head?, offset ≤ t.markSize +
      (Mark.sources a).size + k.gap.size := by
    have hindent := marks_indent s blank gap [] q
    rw [List.append_nil] at hindent
    rw [hindent]
    cases marks s blank [] q with
    | nil => simp [Mark.indent]
    | cons k ms =>
      simp only [Mark.indent, List.head?_cons, Option.mem_def, Option.some_inj]
      rintro _ rfl
      rw [size_append]
      omega
  have hp : ∀ k ∈ a, k.Proper := fun k hk => proper_top t.body k (by rw [hm]; simp [hk])
  have hplace : tokenize t = Mark.place t.markSize a ++
      Mark.place (t.markSize + (Mark.sources a).size) (marks s blank gap q) := by
    rw [← Mark.place_append, ← hm]
    exact runFromTop_eq_place _ _
  obtain ⟨c, d, hcd, hrest⟩ := Mark.find?_place hgap hfind
  have htok := h.2 (m.placed (t.markSize + (Mark.sources (a ++ c)).size)) (by
    rw [hplace, List.find?_append, Mark.find?_place_none hp (by omega), hrest]
    simp [Nat.add_assoc])
  obtain ⟨hslash, hblank, himport⟩ := htok
  have hfirst := Mark.firstOnLine_top (t := t) (a := a ++ c) (m := m) (b := d)
    (by rw [hm, hcd, List.append_assoc])
  refine ⟨hslash, hblank, fun hi => ?_⟩
  rw [← hfirst, Bool.and_eq_true]
  exact ⟨hi, himport hi⟩

-- ---------------------------------------------------------------------------
-- Text put in
-- ---------------------------------------------------------------------------

/-- The parts of a text, up to the white space before them. -/
def Text.flushed (t : Text) : List Part := t.parts.map Part.flush

/-- Is `y` read as the parts `new` wherever a line starts outside braces, leaving what follows to a
new line? -/
def Inserts (y : Text) (new : List Part) : Prop :=
  ∀ (s : State) (gap : Text) (after : Bool), ∃ (s' : State) (gap' : Text) (after' : Bool),
    s'.depths = s.depths ∧ ∀ q, (outline 0 after (marks s true gap (y ++ q))).map Part.flush =
      new ++ (outline 0 after' (marks s' true gap' q)).map Part.flush

theorem Text.body_size (t : Text) : t.markSize + t.body.size = t.size := by
  obtain ⟨mark, ht, hsize, -⟩ := t.exists_body
  rw [← hsize, ← size_append, ← ht]

theorem Text.Stands.insert {p y q : Text} {new : List Part} (h : p.Stands) (hy : Inserts y new)
    (hf : Fresh (y ++ q)) (ho : (p ++ q).Opens p.size) :
    ∃ back, (p ++ q).flushed = p.flushed ++ back ∧
      (p ++ (y ++ q)).flushed = p.flushed ++ (new ++ back) := by
  have hq : Fresh q := by
    have := ho.1
    rwa [dropBytes_append] at this
  obtain ⟨s, gap, after, hg, hbody, hparts⟩ := h.parts_append
  obtain ⟨s', gap', after', hd, hins⟩ := hy s gap after
  refine ⟨(outline 0 after (marks s true gap q)).map Part.flush, ?_, ?_⟩
  · rw [flushed, hparts q hq, List.map_append, flushed]
  · have hmarks : top (p ++ q).body = Part.allMarks p.parts ++ marks s true gap q := by
      rw [top_of_parts (hparts q hq), allMarks_outline]
    have hmark : (p ++ q).markSize + (Mark.sources (Part.allMarks p.parts)).size + gap.size =
        p.size := by
      have hsize : (p ++ q).markSize = p.markSize := by
        cases p with
        | nil => exact markSize_append (.inr hq.2)
        | cons c p => rfl
      have := p.body_size
      rw [hbody, size_append] at this
      omega
    have hneutral := ho.neutral hmarks hmark
    rw [flushed, hparts _ hf, List.map_append, hins, outline_follows after hd.symm id hneutral]
    rfl

theorem marks_line {s : State} {eol q : Text} {blank : Bool} (he : eol.all isSpace)
    (hn : '\n' ∈ eol) : marks s blank [] (eol ++ q) = marks s true eol q := by
  have hblank : lineBlank blank eol = true := by
    obtain ⟨a, b, rfl⟩ := List.append_of_mem hn
    rw [List.all_append, Bool.and_eq_true, List.all_cons, Bool.and_eq_true] at he
    have : lineBlank blank (a ++ ['\n']) = true := by rw [lineBlank_append]; rfl
    rw [← List.singleton_append, ← List.append_assoc, lineBlank_append, this]
    exact lineBlank_of_spaces he.2.2
  rw [marks_spaces he, hblank, List.nil_append]

/-- A declaration with a line break is put in as one statement. -/
theorem Canonical.inserts_rendered {c : Canonical} {style : Style} {rendered eol : Text}
    (hc : c.Writable) (hr : c.render? style = some rendered) (he : eol.all isSpace)
    (hn : '\n' ∈ eol) : Inserts (rendered ++ eol) [(c.part style []).flush] := by
  intro s gap after
  refine ⟨⟨style.semicolon, s.depths⟩, eol, style.semicolon, rfl, fun q => ?_⟩
  have hline : marks ⟨style.semicolon, s.depths⟩ false [] (eol ++ q) =
      marks ⟨style.semicolon, s.depths⟩ true eol q := marks_line he hn
  rw [List.append_assoc, outline_rendered (hc.writableIn _) hr, hline]
  · rfl
  · intro _
    rw [hline]
    cases hms : marks ⟨style.semicolon, s.depths⟩ true eol q with
    | nil => rfl
    | cons m ms =>
      have hm : '\n' ∈ m.gap := Mark.startsLine_marks hn m (by rw [hms]; rfl)
      rw [Mark.semicolonIndex?, if_pos hm]

/-- The parts of a directive. -/
def directiveParts (x : Text) : List Part :=
  [.token ⟨[], .string true, '\'' :: (x ++ ['\'']), false⟩, .token ⟨[], .punct ';', [';'], false⟩]

/-- A directive with line breaks is put in as two tokens. -/
theorem inserts_directive {x eol : Text} (hx : isPlain x) (he : eol.all isSpace)
    (hn : '\n' ∈ eol) : Inserts ('\'' :: x ++ ['\'', ';'] ++ eol) (directiveParts x) := by
  intro s gap after
  let s₁ := s.after (.string true) ('\'' :: (x ++ ['\'']))
  let s₂ := s₁.after (.punct ';') [';']
  refine ⟨s₂, eol, true, rfl, fun q => ?_⟩
  have hscan : s.scan '\'' (x ++ ['\''] ++ (';' :: (eol ++ q))) =
      (.string true, (x ++ ['\'']).length) := State.scan_string (.inl rfl) hx
  have hsemi : s₁.scan ';' ([] ++ (eol ++ q)) = (.punct ';', 0) := State.scan_semicolon _ _
  let quoted : Mark := ⟨gap, .string true, '\'' :: (x ++ ['\'']), false⟩
  let semicolon : Mark := ⟨[], .punct ';', [';'], false⟩
  obtain ⟨blank, hmarks⟩ : ∃ blank, marks s true gap ('\'' :: (x ++ ['\''] ++ (';' :: (eol ++ q)))) =
      quoted :: semicolon :: marks s₂ blank [] (eol ++ q) := by
    have h₁ := marks_token true gap (by decide) hscan
    have h₂ := marks_token (lineBlank true quoted.text) [] (by decide) hsemi
    rw [show isImport (.punct ';') [';'] = false from rfl, Bool.and_false] at h₂
    exact ⟨_, h₁.trans (congrArg (quoted :: ·) h₂)⟩
  have htext : '\'' :: x ++ ['\'', ';'] ++ eol ++ q =
      '\'' :: (x ++ ['\''] ++ (';' :: (eol ++ q))) := by simp
  rw [htext, hmarks, marks_line he hn, outline_cons_none rfl, outline_cons_none rfl]
  rfl

-- ---------------------------------------------------------------------------
-- Text taken out
-- ---------------------------------------------------------------------------

namespace Part

theorem exists_marks (P : Part) : ∃ m ms, P.marks = m :: ms := by
  cases P with
  | token m => exact ⟨m, [], rfl⟩
  | statement head body at? => exact ⟨head, body, rfl⟩

theorem proper_parts (t : Text) : ∀ m ∈ allMarks t.parts, m.Proper := by
  rw [allMarks_parts]
  exact proper_top _

/-- A part reaches past its first white space. -/
theorem spanAt_start_lt {P : Part} (h : ∀ m ∈ P.marks, m.Proper) (offset : Nat) :
    (P.spanAt offset).start < (P.spanAt offset).stop := by
  obtain ⟨m, ms, hm⟩ := P.exists_marks
  obtain ⟨c, cs, htext, -⟩ := (h m (by rw [hm]; exact List.mem_cons_self ..)).start
  have := c.utf8Size_pos
  simp only [spanAt, hm, List.head?_cons, Option.elim_some, Mark.sources_cons, size_append, htext,
    size_cons]
  omega

end Part

/-- What starts below a text that stands on its own is not among the parts of that text. -/
theorem Text.Stands.parts_eq {p w y : Text} {ps qs : List Part} {P : Part}
    (h : p.Stands) (hw : w.all isSpace) (hf : Fresh (w ++ y))
    (hparts : (p ++ (w ++ y)).parts = ps ++ P :: qs)
    (hstart : (P.spanAt (p.markSize + (Mark.sources (Part.allMarks ps)).size)).start =
      p.size + w.size) : ps = p.parts := by
  obtain ⟨s, gap, after, hg, hbody, hall⟩ := h.parts_append
  have hsize : p.markSize + (Mark.sources (Part.allMarks p.parts)).size + gap.size = p.size := by
    have := p.body_size
    rw [hbody, size_append] at this
    omega
  have hproper : ∀ m ∈ P.marks, m.Proper := fun m hm => Part.proper_parts _ m (by
    rw [hparts]
    simp [hm])
  rw [hall _ hf] at hparts
  rcases List.append_eq_append_iff.1 hparts with ⟨more, hps, hout⟩ | ⟨more, hps, hout⟩
  · cases more with
    | nil => rw [hps, List.append_nil]
    | cons Q more =>
      -- The first mark below would lie before the part.
      exfalso
      obtain ⟨m, ms, hm⟩ := Q.exists_marks
      have hmarks : marks s true (gap ++ w) y =
          m :: (ms ++ Part.allMarks (more ++ P :: qs)) := by
        have := allMarks_outline 0 after (marks s true gap (w ++ y))
        rw [hout, marks_spaces hw, lineBlank_of_spaces hw, List.cons_append, Part.allMarks_cons, hm,
          List.cons_append] at this
        exact this.symm
      obtain ⟨spaces, d, ds, n, -, -, -, -, hm₀, -⟩ := marks_eq_cons hmarks
      have hlen : gap.size + w.size < (Mark.sources Q.marks).size := by
        have := d.utf8Size_pos
        rw [hm, hm₀]
        simp only [Mark.sources_cons, size_append, size_cons]
        omega
      rw [hps] at hstart
      simp only [Part.spanAt, Part.allMarks_append, Part.allMarks_cons, Mark.sources_append,
        size_append] at hstart
      omega
  · cases more with
    | nil => rw [hps, List.append_nil]
    | cons Q more =>
      -- The part would lie before the first mark below.
      exfalso
      rw [List.cons_append] at hout
      obtain ⟨rfl, -⟩ := List.cons.inj hout
      have hlt := Part.spanAt_start_lt hproper
        (p.markSize + (Mark.sources (Part.allMarks ps)).size)
      rw [hstart] at hlt
      have hle : (P.spanAt (p.markSize + (Mark.sources (Part.allMarks ps)).size)).stop ≤
          p.markSize + (Mark.sources (Part.allMarks p.parts)).size := by
        rw [hps]
        simp only [Part.spanAt, Part.allMarks_append, Part.allMarks_cons, Mark.sources_append,
          size_append]
        omega
      omega

/-- Below a text that stands on its own, a declaration can be taken out with white space behind
it, and white space can be left in its place. -/
theorem Text.Stands.remove {p x w v q : Text} {P : Part} {qs : List Part} {d : Declaration}
    (h : p.Stands) (hf : Fresh (x ++ (w ++ q)))
    (hparts : (p ++ (x ++ (w ++ q))).parts = p.parts ++ P :: qs) (hd : P.declaration? = some d)
    (hstop : (P.spanAt (p.markSize + (Mark.sources (Part.allMarks p.parts)).size)).stop =
      p.size + x.size)
    (hw : w.all isSpace) (hv : v.all isSpace) (hfv : Fresh (v ++ q))
    (ho : (p ++ (x ++ (w ++ q))).Opens (p.size + x.size + w.size)) :
    ∃ back, (p ++ (x ++ (w ++ q))).flushed = p.flushed ++ P.flush :: back ∧
      (p ++ (v ++ q)).flushed = p.flushed ++ back := by
  obtain ⟨s, gap, after, hg, hbody, hall⟩ := h.parts_append
  have hsize : p.markSize + (Mark.sources (Part.allMarks p.parts)).size + gap.size = p.size := by
    have := p.body_size
    rw [hbody, size_append] at this
    omega
  rw [hall _ hf, List.append_cancel_left_eq] at hparts
  cases P with
  | token m => cases hd
  | statement head body at? =>
    obtain ⟨rest, hrest, -, hqs⟩ := outline_of_declaration? hg hparts hd
    rw [← List.append_assoc] at hrest
    obtain ⟨hfront, rfl⟩ := append_inj_size hrest (by
      simp only [Part.spanAt, Part.marks] at hstop
      rw [size_append]
      omega)
    have htop : top (p ++ (x ++ (w ++ q))).body = (Part.allMarks p.parts ++ head :: body) ++
        marks ⟨d.style.semicolon, s.depths⟩ (lineBlank false w) w q := by
      rw [top_of_statement ((hall _ hf).trans (congrArg (p.parts ++ ·) hparts)), hqs,
        allMarks_outline, marks_spaces hw]
      simp
    have hmark : (p ++ (x ++ (w ++ q))).markSize +
        (Mark.sources (Part.allMarks p.parts ++ head :: body)).size + w.size =
          p.size + x.size + w.size := by
      have hm : (p ++ (x ++ (w ++ q))).markSize = p.markSize := by
        cases p with
        | nil => exact markSize_append (.inr hf.2)
        | cons c p => rfl
      rw [hm, Mark.sources_append, size_append, ← hfront, size_append]
      omega
    have hneutral := ho.neutral htop hmark
    refine ⟨qs.map Part.flush, ?_, ?_⟩
    · rw [flushed, hall _ hf, hparts, List.map_append, List.map_cons]
      rfl
    · rw [flushed, hall _ hfv, List.map_append, marks_spaces hv, lineBlank_of_spaces hv, hqs,
        marks_spaces hw, List.nil_append]
      have hback : (outline 0 after (marks s true (gap ++ v) q)).map Part.flush =
          (outline 0 d.style.semicolon (marks ⟨d.style.semicolon, s.depths⟩ (lineBlank false w) w
            q)).map Part.flush := outline_follows _ rfl (fun _ => rfl) hneutral
      rw [hback]
      rfl

-- ---------------------------------------------------------------------------
-- A declaration rewritten
-- ---------------------------------------------------------------------------

/-- A statement in an outline is read outside braces. -/
theorem depth_of_statement {depth : Nat} {after : Bool} {ms : List Mark} {head : Mark}
    {body : List Mark} {at? : Option Nat} {ps qs : List Part}
    (h : outline depth after ms = ps ++ .statement head body at? :: qs) :
    Part.depthAfterAll depth ps = 0 := by
  have hsuffix := outline_suffix h
  have hcons : Part.allMarks (.statement head body at? :: qs) =
      head :: (body ++ Part.allMarks qs) := rfl
  rw [hcons] at hsuffix
  cases hb : head.begin? (Part.depthAfterAll depth ps) (Part.afterSemicolonAll after ps)
      (body ++ Part.allMarks qs) with
  | none =>
    rw [outline_cons_none hb] at hsuffix
    cases (List.cons.inj hsuffix).1
  | some e =>
    rw [Mark.begin?] at hb
    split at hb
    · next hc => exact hc.1
    · cases hb

theorem Part.leads_of_declaration? {head : Mark} {body : List Mark} {at? : Option Nat}
    {d : Declaration} (h : (Part.statement head body at?).declaration? = some d) : head.leads :=
  (Bool.and_eq_true_iff.1 (leads_and_isCode_of_declaration? h)).1

/-- A declaration can be rewritten in place. The rest of the outline stays. -/
theorem top_rewrite {x y z rendered : Text} {ps qs : List Part} {head : Mark} {body : List Mark}
    {at? : Option Nat} {d : Declaration} {c : Canonical} {style : Style}
    (h : outline 0 false (top (x ++ (y ++ z))) = ps ++ .statement head body at? :: qs)
    (hd : (Part.statement head body at?).declaration? = some d)
    (hx : x = Mark.sources (Part.allMarks ps) ++ head.gap)
    (hy : head.gap ++ y = Mark.sources (head :: body))
    (hs : SlashesEnd (Part.allMarks ps) head.gap) (hc : c.Writable)
    (hr : c.render? style = some rendered) (hstyle : style.semicolon = d.style.semicolon) :
    outline 0 false (top (x ++ (rendered ++ z))) = ps ++ c.part style head.gap :: qs := by
  have hmarks : top (x ++ (y ++ z)) =
      Part.allMarks ps ++ head :: (body ++ Part.allMarks qs) := by
    rw [← allMarks_outline 0 false (top (x ++ (y ++ z))), h, Part.allMarks_append,
      Part.allMarks_cons]
    rfl
  have hproper : head.Proper := proper_top _ _ (by rw [hmarks]; simp)
  have hleads : head.leads := Part.leads_of_declaration? hd
  have himport := Bool.and_eq_true_iff.1 (hproper.leads hleads)
  have htext : head.text = 'i' :: "mport".toList := (eq_of_beq himport.2).trans (by decide)
  have hhead : head = Canonical.head head.gap := by
    obtain ⟨gap, kind, text, leads⟩ := head
    simp only [Canonical.head, Mark.mk.injEq, true_and]
    exact ⟨eq_of_beq himport.1, eq_of_beq himport.2, hleads⟩
  have hyz : y ++ z = 'i' :: ("mport".toList ++ Mark.sources body ++ z) := by
    have : y = head.text ++ Mark.sources body := by
      rw [Mark.sources_cons, List.append_assoc, List.append_cancel_left_eq] at hy
      exact hy
    rw [this, htext]
    rfl
  obtain ⟨s, hreplace⟩ := top_replace (by decide) (hyz ▸ hmarks) hx (hs.settle _)
  have hblank : lineBlank true x = true := by
    have hreads := Mark.reads_drop (Part.allMarks ps).length (reads_top (x ++ (y ++ z)))
    rw [hmarks, List.take_left, List.drop_left] at hreads
    have := hreads.1
    rw [hleads, ← lineBlank_append, ← hx] at this
    exact (Bool.and_eq_true_iff.1 this.symm).1
  rw [hblank] at hreplace
  have hold : marks s true head.gap (y ++ z) = head :: (body ++ Part.allMarks qs) := by
    have := hreplace ("mport".toList ++ Mark.sources body ++ z)
    rw [← hyz, hmarks] at this
    exact (List.append_cancel_left this).symm
  have hsuffix := outline_suffix h
  have hcons : Part.allMarks (.statement head body at? :: qs) =
      head :: (body ++ Part.allMarks qs) := rfl
  rw [depth_of_statement h, hcons, ← hold] at hsuffix
  obtain ⟨rest, hrest, hsemi, hqs⟩ := outline_of_declaration? hproper.gap hsuffix.symm hd
  rw [← List.append_assoc, hy, List.append_cancel_left_eq] at hrest
  subst hrest
  have hrendered : rendered = 'i' :: ("mport".toList ++ Mark.sources (c.bodyMarks style)) :=
    Canonical.sources_bodyMarks hr
  have hnew : top (x ++ (rendered ++ z)) = Part.allMarks ps ++ head ::
      (c.bodyMarks style ++ marks ⟨style.semicolon, s.depths⟩ false [] z) := by
    have hmark := hreplace ("mport".toList ++ Mark.sources (c.bodyMarks style) ++ z)
    rw [← List.cons_append, ← hrendered, Canonical.marks_rendered (hc.writableIn _).spelledIn hr,
      ← hhead] at hmark
    exact hmark
  have hpart : outline 0 (Part.afterSemicolonAll false ps) (head ::
      (c.bodyMarks style ++ marks ⟨style.semicolon, s.depths⟩ false [] z)) =
        c.part style head.gap :: qs := by
    have hmark : marks s true head.gap (rendered ++ z) = Canonical.head head.gap ::
        c.bodyMarks style ++ marks ⟨style.semicolon, s.depths⟩ false [] z :=
      Canonical.marks_rendered (hc.writableIn _).spelledIn hr
    have hout : outline 0 (Part.afterSemicolonAll false ps)
        (marks s true head.gap (rendered ++ z)) = c.part style head.gap ::
          outline 0 style.semicolon (marks ⟨style.semicolon, s.depths⟩ false [] z) :=
      Canonical.outline_rendered (hc.writableIn _) hr (hstyle ▸ hsemi)
    rw [hmark, ← hhead, hstyle, ← hqs, ← hstyle] at hout
    exact hout
  rw [hnew, outline_swap hproper hleads (hmarks ▸ h), depth_of_statement h, hpart]

end TidyImports
