-- SUMMARY: The import statements of a script in order, with their places and as they are written.
import Mathlib.Data.List.Pairwise
import TidyImports.Proofs.Outline.Splice

/-!
# Imports in order

An import statement is written with its tokens; it names a module and may be a
declaration. The imports of a script are listed with the places where they
start. What stands below a text that stands on its own adds imports below, and
leaves those above where they are.
-/

namespace TidyImports

open Text Lexer

/-- An import statement as it is written, wherever that is. -/
structure WrittenImport where
  /-- The tokens it is made of, without their places. -/
  tokens : List Token
  /-- The module named by a closed string. -/
  specifier? : Option String
  /-- The recognized declaration, without its place. -/
  declaration? : Option Declaration
  deriving DecidableEq, Repr

/-- Is the import a recognized declaration of the module? -/
def WrittenImport.declares (w : WrittenImport) (module : String) : Bool :=
  w.declaration?.any (·.specifier == module)

namespace Script

/-- A statement of a script as it is written. -/
def written (s : Script) (st : Statement) : WrittenImport where
  tokens := (s.tokensOf st).map Token.bare
  specifier? := st.specifier?
  declaration? := st.declaration?.map Declaration.bare

/-- The import statements with the places where they start. -/
def imports (s : Script) : List (Nat × WrittenImport) :=
  s.statements.map fun st => (st.span.start, s.written st)

/-- The code outside import statements, without places. -/
def bareCode (s : Script) : List Token := s.code.map Token.bare

end Script

-- ---------------------------------------------------------------------------
-- Imports among parts
-- ---------------------------------------------------------------------------

namespace Part

/-- A statement among parts as it is written. -/
def written? : Part → Option WrittenImport
  | .token _ => none
  | .statement head body at? =>
    let p := Part.statement head body at?
    some ⟨p.marks.map Mark.token, p.specifier?, p.declaration?⟩

/-- The imports among parts in a row. -/
def importsFrom (offset : Nat) : List Part → List (Nat × WrittenImport)
  | [] => []
  | p :: ps =>
    (p.written?.map ((p.spanAt offset).start, ·)).toList ++
      importsFrom (offset + (Mark.sources p.marks).size) ps

theorem importsFrom_append (offset : Nat) (ps qs : List Part) :
    importsFrom offset (ps ++ qs) = importsFrom offset ps ++
      importsFrom (offset + (Mark.sources (allMarks ps)).size) qs := by
  induction ps generalizing offset with
  | nil => simp [importsFrom]
  | cons p ps ih => simp [importsFrom, ih, Nat.add_assoc]

theorem map_snd_importsFrom (offset : Nat) (ps : List Part) :
    (importsFrom offset ps).map Prod.snd = ps.filterMap written? := by
  induction ps generalizing offset with
  | nil => rfl
  | cons p ps ih =>
    rw [importsFrom, List.map_append, ih, List.filterMap_cons]
    cases p.written? <;> rfl

/-- White space before a part is not in what is written. -/
@[simp] theorem written?_flush (p : Part) : p.flush.written? = p.written? := by
  cases p <;> rfl

theorem filterMap_written?_flush (ps : List Part) :
    (ps.map flush).filterMap written? = ps.filterMap written? := by
  rw [List.filterMap_map]
  exact congrArg (List.filterMap · ps) (funext written?_flush)

theorem exists_of_mem_importsFrom {offset : Nat} {ps : List Part} {q : Nat × WrittenImport}
    (h : q ∈ importsFrom offset ps) :
    ∃ front p back, ps = front ++ p :: back ∧ p.written? = some q.2 ∧
      q.1 = (p.spanAt (offset + (Mark.sources (allMarks front)).size)).start := by
  induction ps generalizing offset with
  | nil => cases h
  | cons p ps ih =>
    rw [importsFrom, List.mem_append] at h
    rcases h with h | h
    · rw [Option.mem_toList, Option.map_eq_some_iff] at h
      obtain ⟨w, hw, rfl⟩ := h
      exact ⟨[], p, ps, rfl, hw, rfl⟩
    · obtain ⟨front, r, back, rfl, hr, hplace⟩ := ih h
      refine ⟨p :: front, r, back, rfl, hr, ?_⟩
      rw [hplace]
      simp [Nat.add_assoc]

/-- A part starts behind the first white space. -/
theorem le_spanAt_start {offset n : Nat} {front back : List Part} {p : Part}
    (hn : ∀ m ∈ (allMarks (front ++ p :: back)).head?, n ≤ m.gap.size) :
    offset + n ≤ (p.spanAt (offset + (Mark.sources (allMarks front)).size)).start := by
  cases front with
  | nil =>
    obtain ⟨m, ms, hm⟩ := p.exists_marks
    have := hn m (by simp [hm])
    simp only [spanAt, hm, List.head?_cons, Option.elim_some, allMarks_nil, Mark.sources_nil,
      size_nil]
    omega
  | cons q front =>
    obtain ⟨m, ms, hm⟩ := q.exists_marks
    have := hn m (by simp [hm])
    simp only [spanAt, allMarks_cons, hm, List.cons_append, Mark.sources_cons, size_append]
    omega

theorem le_of_mem_importsFrom {offset n : Nat} {ps : List Part} {q : Nat × WrittenImport}
    (h : q ∈ importsFrom offset ps) (hn : ∀ m ∈ (allMarks ps).head?, n ≤ m.gap.size) :
    offset + n ≤ q.1 := by
  obtain ⟨front, p, back, rfl, -, hplace⟩ := exists_of_mem_importsFrom h
  rw [hplace]
  exact le_spanAt_start hn

/-- Imports stand in the order of their places. -/
theorem pairwise_importsFrom {ps : List Part} (hp : ∀ m ∈ allMarks ps, m.Proper) (offset : Nat) :
    (importsFrom offset ps).Pairwise fun a b => a.1 < b.1 := by
  induction ps generalizing offset with
  | nil => exact List.Pairwise.nil
  | cons p ps ih =>
    rw [allMarks_cons] at hp
    rw [importsFrom, List.pairwise_append]
    refine ⟨?_, ih (fun m hm => hp m (List.mem_append_right _ hm)) _, fun a ha b hb => ?_⟩
    · cases p.written? with
      | none => exact List.Pairwise.nil
      | some w => exact List.pairwise_singleton _ _
    · obtain ⟨w, -, rfl⟩ := Option.map_eq_some_iff.1 (Option.mem_toList.1 ha)
      have hlt := spanAt_start_lt (fun m hm => hp m (List.mem_append_left _ hm)) offset
      have hle := le_of_mem_importsFrom (n := 0) hb fun _ _ => Nat.zero_le _
      exact Nat.lt_of_lt_of_le hlt hle

/-- The statements of parts in a row, the first of which starts behind the tokens `done`. -/
theorem map_written_statementsFrom (s : Script) (done : List Token) (offset : Nat)
    (ps : List Part) (hs : s.tokens = done ++ Mark.place offset (allMarks ps)) :
    (statementsFrom offset done.length ps).map (fun st => (st.span.start, s.written st)) =
      importsFrom offset ps := by
  induction ps generalizing done offset with
  | nil => rfl
  | cons p ps ih =>
    have htokens : s.tokens = (done ++ Mark.place offset p.marks) ++
        Mark.place (offset + (Mark.sources p.marks).size) (allMarks ps) := by
      rw [hs, allMarks_cons, Mark.place_append, List.append_assoc]
    have hrec := ih _ _ htokens
    rw [List.length_append, Mark.length_place] at hrec
    cases p with
    | token m =>
      rw [statementsFrom, importsFrom]
      exact hrec
    | statement head body at? =>
      have htake := Script.tokensOf_statementAt (htokens.trans (List.append_assoc ..))
      have hbare : (((Part.statement head body at?).declaration?.map fun d => { d with
          span := (Part.statement head body at?).spanAt offset }).map Declaration.bare) =
            (Part.statement head body at?).declaration? := by
        cases hd : (Part.statement head body at?).declaration? with
        | none => rfl
        | some d =>
          have hspan := span_of_declaration? hd
          obtain ⟨specifier, span, default?, named, style⟩ := d
          cases hspan
          rfl
      rw [statementsFrom, List.map_cons, hrec, importsFrom, Script.written, htake,
        Mark.map_bare_place]
      simp only [statementAt, hbare]
      rfl

/-- The declarations among parts are those of their imports. -/
theorem map_declarationsFrom (offset : Nat) (ps : List Part) :
    (declarationsFrom offset ps).map (fun d => (d.span.start, d.bare)) =
      (importsFrom offset ps).filterMap fun q => q.2.declaration?.map (q.1, ·) := by
  induction ps generalizing offset with
  | nil => rfl
  | cons p ps ih =>
    rw [declarationsFrom, importsFrom, List.map_append, List.filterMap_append, ih]
    congr 1
    cases p with
    | token m => rfl
    | statement head body at? =>
      simp only [written?, Option.map_some, Option.toList_some, List.filterMap_cons,
        List.filterMap_nil]
      cases hd : (Part.statement head body at?).declaration? with
      | none => rfl
      | some d =>
        have hspan := span_of_declaration? hd
        obtain ⟨specifier, span, default?, named, style⟩ := d
        cases hspan
        rfl

end Part

-- ---------------------------------------------------------------------------
-- Imports of a script
-- ---------------------------------------------------------------------------

namespace Script

variable {t : Text} {q : Nat × WrittenImport}

theorem imports_parse (t : Text) : (parse t).imports = Part.importsFrom t.markSize t.parts := by
  rw [imports, statements_parse]
  exact Part.map_written_statementsFrom (parse t) [] t.markSize t.parts (tokenize_eq_place t)

theorem map_snd_imports (t : Text) :
    (parse t).imports.map Prod.snd = t.flushed.filterMap Part.written? := by
  rw [imports_parse, Part.map_snd_importsFrom, flushed, Part.filterMap_written?_flush]

theorem bareCode_parse (t : Text) : (parse t).bareCode = Part.code t.flushed := by
  rw [bareCode, code_parse, flushed, Part.code_flush]

theorem imports_congr {s s' : Script} (ht : s'.tokens = s.tokens)
    (hs : s'.statements = s.statements) : s'.imports = s.imports ∧ s'.bareCode = s.bareCode := by
  obtain ⟨text, tokens, statements⟩ := s
  obtain ⟨text', tokens', statements'⟩ := s'
  cases ht
  cases hs
  exact ⟨rfl, rfl⟩

theorem pairwise_imports (t : Text) : (parse t).imports.Pairwise fun a b => a.1 < b.1 := by
  rw [imports_parse]
  exact Part.pairwise_importsFrom (Part.proper_parts t) _

/-- Imports of one place are the same. -/
theorem imports_injective {q' : Nat × WrittenImport} (h : q ∈ (parse t).imports)
    (h' : q' ∈ (parse t).imports) (heq : q.1 = q'.1) : q = q' := by
  have hpairs : (parse t).imports.Pairwise fun a b => a.1 = b.1 → a = b :=
    (pairwise_imports t).imp fun hlt heq => absurd hlt (by omega)
  have hflip : (parse t).imports.Pairwise (flip fun a b => a.1 = b.1 → a = b) :=
    (pairwise_imports t).imp fun hlt heq => absurd hlt (by omega)
  exact List.Pairwise.forall_of_forall_of_flip (fun _ _ _ => rfl) hpairs hflip h h' heq

/-- An import is a declaration where a declaration starts. -/
theorem map_declarations (t : Text) :
    (parse t).declarations.map (fun d => (d.span.start, d.bare)) =
      (parse t).imports.filterMap fun q => q.2.declaration?.map (q.1, ·) := by
  rw [declarations_parse, imports_parse, Part.map_declarationsFrom]

/-- An import declares a module if it starts where one of the module's declarations does. -/
theorem declares_iff (h : q ∈ (parse t).imports) (module : String) :
    q.2.declares module ↔ ∃ d ∈ (parse t).declarationsOf module, d.span.start = q.1 := by
  have hmem : ∀ d' : Declaration, (∃ d ∈ (parse t).declarations, d.span.start = q.1 ∧ d.bare = d') ↔
      q.2.declaration? = some d' := by
    intro d'
    have hpair : (q.1, d') ∈ (parse t).declarations.map (fun d => (d.span.start, d.bare)) ↔
        (q.1, d') ∈ (parse t).imports.filterMap fun q => q.2.declaration?.map (q.1, ·) := by
      rw [map_declarations]
    simp only [List.mem_map, List.mem_filterMap, Option.map_eq_some_iff, Prod.mk.injEq] at hpair
    rw [hpair]
    constructor
    · rintro ⟨q', hq', d'', hd, hplace, rfl⟩
      rwa [← imports_injective hq' h hplace]
    · exact fun hd => ⟨q, h, d', hd, rfl, rfl⟩
  rw [WrittenImport.declares, Option.any_eq_true]
  simp only [beq_iff_eq, ← hmem, declarationsOf, List.mem_filter]
  constructor
  · rintro ⟨d', ⟨d, hd, hplace, rfl⟩, hmodule⟩
    exact ⟨d, ⟨hd, hmodule⟩, hplace⟩
  · rintro ⟨d, ⟨hd, hmodule⟩, hplace⟩
    exact ⟨d.bare, ⟨d, hd, hplace, rfl⟩, hmodule⟩

/-- An import starts with its keyword. -/
theorem exists_text_of_mem_imports (h : q ∈ (parse t).imports) :
    ∃ pre rest, t = pre ++ 'i' :: rest ∧ q.1 = pre.size := by
  rw [imports_parse] at h
  obtain ⟨front, p, back, hparts, hwritten, hplace⟩ := Part.exists_of_mem_importsFrom h
  cases p with
  | token m => cases hwritten
  | statement head body at? =>
    have hmem : Part.statement head body at? ∈ outline 0 false (top t.body) := by
      rw [← Text.parts, hparts]
      exact List.mem_append_right _ (List.mem_cons_self ..)
    have hword := isWord_of_mem_outline hmem
    have htext : head.text = 'i' :: "mport".toList :=
      (eq_of_beq (Bool.and_eq_true_iff.1 hword).2).trans (by decide)
    obtain ⟨mark, tail, ht, hsize, -⟩ := t.exists_marks
    rw [top_of_statement hparts] at ht
    refine ⟨mark ++ Mark.sources (Part.allMarks front) ++ head.gap,
      "mport".toList ++ Mark.sources (body ++ Part.allMarks back) ++ tail, ?_, ?_⟩
    · conv => lhs; rw [ht]
      simp [htext]
    · rw [hplace, size_append, size_append, hsize]
      simp [Part.spanAt, Part.marks]

end Script

-- ---------------------------------------------------------------------------
-- Imports below a text
-- ---------------------------------------------------------------------------

/-- No keyword starts in white space. -/
theorem Text.apart_of_spaces {above w rest pre behind : Text} (hw : w.all isSpace)
    (h : above ++ (w ++ rest) = pre ++ 'i' :: behind) :
    pre.size < above.size ∨ above.size + w.size ≤ pre.size := by
  refine or_iff_not_imp_left.2 fun hle => ?_
  obtain ⟨k, hk, hk'⟩ := exists_of_size_le h (Nat.le_of_not_lt hle)
  rw [hk, size_append]
  refine Nat.add_le_add_left (Nat.le_of_not_lt fun hlt => ?_) _
  obtain ⟨k', hv, hi⟩ := exists_of_size_le hk'.symm (Nat.le_of_lt hlt)
  cases k' with
  | nil =>
    rw [hv, List.append_nil] at hlt
    exact Nat.lt_irrefl _ hlt
  | cons c k' =>
    cases hi
    exact absurd (List.all_eq_true.1 hw 'i' (by rw [hv]; simp)) (by decide)

namespace Text.Stands

variable {p x : Text}

/-- What stands below a text that stands on its own adds parts below, and the first of them starts
there. -/
theorem parts_below (h : p.Stands) (hx : Fresh x) :
    ∃ below n, (p ++ x).parts = p.parts ++ below ∧ (p ++ x).markSize = p.markSize ∧
      p.markSize + (Mark.sources (Part.allMarks p.parts)).size + n = p.size ∧
      ∀ m ∈ (Part.allMarks below).head?, n ≤ m.gap.size := by
  obtain ⟨s, gap, after, hg, hbody, hall⟩ := h.parts_append
  have hmark : (p ++ x).markSize = p.markSize := by
    cases p with
    | nil => exact markSize_append (.inr hx.2)
    | cons c p => rfl
  have hsize : p.markSize + (Mark.sources (Part.allMarks p.parts)).size + gap.size = p.size := by
    have := p.body_size
    rw [hbody, size_append] at this
    omega
  refine ⟨_, gap.size, hall x hx, hmark, hsize, fun m hm => ?_⟩
  rw [allMarks_outline] at hm
  cases hms : marks s true gap x with
  | nil => simp [hms] at hm
  | cons k ms =>
    obtain ⟨spaces, c, cs, n, -, -, -, -, hk, -⟩ := marks_eq_cons hms
    rw [hms] at hm
    cases hm
    rw [hk]
    simp

theorem imports_append (h : p.Stands) (hx : Fresh x) :
    ∃ below, (Script.parse (p ++ x)).imports = (Script.parse p).imports ++ below ∧
      (∀ q ∈ (Script.parse p).imports, q.1 < p.size) ∧ ∀ q ∈ below, p.size ≤ q.1 := by
  obtain ⟨below, n, hparts, hmark, hsize, hgap⟩ := h.parts_below hx
  refine ⟨_, by rw [Script.imports_parse, hparts, hmark, Part.importsFrom_append,
    ← Script.imports_parse], fun q hq => ?_, fun q hq => ?_⟩
  · obtain ⟨pre, rest, hp, hplace⟩ := Script.exists_text_of_mem_imports hq
    have := ('i' : Char).utf8Size_pos
    rw [hplace, hp, size_append, size_cons]
    omega
  · have := Part.le_of_mem_importsFrom hq hgap
    omega

end Text.Stands

end TidyImports
