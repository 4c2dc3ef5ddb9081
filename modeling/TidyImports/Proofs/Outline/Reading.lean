-- SUMMARY: The reading of a script: its names, uses and declarations, wherever they stand.
import TidyImports.Proofs.Outline.Script

/-!
# Readings

A reading is what a script says without regard to where it says it: the names
it declares, the names its code uses and how, its declarations, and the names in
its other imports. Detection depends on nothing else.
-/

namespace TidyImports

/-- A name in code, and whether a `(` follows it or a `<` precedes it. -/
structure Use where
  name : String
  called : Bool
  opened : Bool
  deriving DecidableEq, Repr

structure Reading where
  declared : List String
  uses : List Use
  /-- The recognized declarations, without their places. -/
  declarations : List Declaration
  unrecognized : List String
  deriving DecidableEq, Repr

/-- A declaration without its place. -/
def Declaration.bare (d : Declaration) : Declaration := { d with span := ⟨0, 0⟩ }

@[simp] theorem Declaration.specifier_bare (d : Declaration) : d.bare.specifier = d.specifier := rfl

@[simp] theorem Declaration.localNames_bare (d : Declaration) :
    d.bare.localNames = d.localNames := rfl

def Occurrence.use (o : Occurrence) : Use where
  name := o.token.name
  called := o.next?.any (·.isPunct '(')
  opened := o.previous?.any (·.isPunct '<')

/-- The names that code uses, given the token before it. -/
def usesFrom (previous? : Option Token) (ts : List Token) : List Use :=
  ((Occurrence.ofTokens previous? ts).filter Occurrence.isBare).map Occurrence.use

def Script.reading (s : Script) : Reading where
  declared := Bindings.declaredNames s.code
  uses := s.bareOccurrences.map Occurrence.use
  declarations := s.declarations.map Declaration.bare
  unrecognized := (Bindings.ofScript s).unrecognized

-- ---------------------------------------------------------------------------
-- Names in bare code
-- ---------------------------------------------------------------------------

theorem usesFrom_cons (previous? : Option Token) (tok : Token) (ts : List Token) :
    usesFrom previous? (tok :: ts) =
      (if tok.isIdent && !previous?.any (·.isPunct '.') then
        [⟨tok.name, ts.head?.any (·.isPunct '('), previous?.any (·.isPunct '<')⟩]
      else []) ++ usesFrom (some tok) ts := by
  rw [usesFrom, Occurrence.ofTokens, List.filter_cons]
  by_cases h : (tok.isIdent && !previous?.any (·.isPunct '.')) = true
  · rw [if_pos h]
    exact congrArg _ (if_pos h)
  · rw [if_neg h]
    exact congrArg _ (if_neg h)

section

variable {f : Token → Token} (hf : Token.Faithful f)
include hf

theorem usesFrom_map (previous? : Option Token) (ts : List Token) :
    usesFrom (previous?.map f) (ts.map f) = usesFrom previous? ts := by
  have hany : ∀ (next? : Option Token) (c : Char),
      (next?.map f).any (·.isPunct c) = next?.any (·.isPunct c) := fun next? c => by
    cases next? with
    | none => rfl
    | some t => exact hf.isPunct t c
  induction ts generalizing previous? with
  | nil => rfl
  | cons tok ts ih =>
    have hrec := ih (some tok)
    rw [Option.map_some] at hrec
    rw [List.map_cons, usesFrom_cons, usesFrom_cons, hrec, List.head?_map, hany, hany, hany,
      hf.isIdent]
    by_cases h : tok.isIdent
    · rw [hf.name h]
    · simp [h]

theorem patternNames_map (opening closing : Char) (depth : Nat) (ts : List Token) :
    Bindings.patternNames opening closing depth (ts.map f) =
      Bindings.patternNames opening closing depth ts := by
  induction ts generalizing depth with
  | nil => rfl
  | cons tok ts ih =>
    have hnext : (ts.map f).head?.any (·.isPunct ':') = ts.head?.any (·.isPunct ':') := by
      cases ts with
      | nil => rfl
      | cons t ts => exact hf.isPunct t ':'
    simp only [List.map_cons, Bindings.patternNames, hf.isPunct, hf.isIdent, hnext, ih]
    by_cases h : tok.isIdent
    · rw [hf.name h]
    · simp [h]

theorem declaredAfter_map (ts : List Token) :
    Bindings.declaredAfter (ts.map f) = Bindings.declaredAfter ts := by
  cases ts with
  | nil => rfl
  | cons tok ts =>
    have h₁ := patternNames_map hf '\x7b' '\x7d' 0 (tok :: ts)
    have h₂ := patternNames_map hf '[' ']' 0 (tok :: ts)
    rw [List.map_cons] at h₁ h₂ ⊢
    simp only [Bindings.declaredAfter, h₁, h₂, hf.isIdent, hf.isPunct]
    by_cases h : tok.isIdent
    · rw [hf.name h]
    · simp [h]

theorem declaredNames_map (ts : List Token) :
    Bindings.declaredNames (ts.map f) = Bindings.declaredNames ts := by
  have hword : ∀ tok, Bindings.declarationWords.any (f tok).isWord =
      Bindings.declarationWords.any tok.isWord := fun tok => by
    simp only [Bindings.declarationWords, List.any_cons, hf.isWord]
    rfl
  induction ts with
  | nil => rfl
  | cons tok ts ih =>
    simp only [List.map_cons, Bindings.declaredNames, declaredAfter_map hf, ih, hword]

theorem identifiers_map (ts : List Token) :
    Bindings.identifiers (ts.map f) = Bindings.identifiers ts := by
  have hnames : ((ts.map f).filter Token.isIdent).map Token.name =
      (ts.filter Token.isIdent).map Token.name := by
    induction ts with
    | nil => rfl
    | cons tok ts ih =>
      rw [List.map_cons, List.filter_cons, List.filter_cons, hf.isIdent]
      by_cases h : tok.isIdent
      · simp [h, hf.name h, ih]
      · simp [h, ih]
  rw [Bindings.identifiers, Bindings.identifiers, hnames]

end

-- ---------------------------------------------------------------------------
-- Declarations
-- ---------------------------------------------------------------------------

namespace Part

/-- The declarations among parts, without their places. -/
def declarations (ps : List Part) : List Declaration := ps.filterMap declaration?

@[simp] theorem declarations_append (ps qs : List Part) :
    declarations (ps ++ qs) = declarations ps ++ declarations qs := List.filterMap_append

/-- The declarations among parts in a row. -/
def declarationsFrom (offset : Nat) : List Part → List Declaration
  | [] => []
  | p :: ps =>
    (p.declaration?.map fun d => { d with span := p.spanAt offset }).toList ++
      declarationsFrom (offset + (Mark.sources p.marks).size) ps

theorem filterMap_statementsFrom (offset index : Nat) (ps : List Part) :
    (statementsFrom offset index ps).filterMap (·.declaration?) = declarationsFrom offset ps := by
  induction ps generalizing offset index with
  | nil => rfl
  | cons p ps ih =>
    cases p with
    | token m =>
      rw [statementsFrom, declarationsFrom, ih]
      rfl
    | statement head body at? =>
      rw [statementsFrom, declarationsFrom, ← ih _ (index + (Part.statement head body at?).marks.length)]
      simp only [List.filterMap_cons, statementAt]
      cases (Part.statement head body at?).declaration? <;> rfl

theorem span_of_declaration? {p : Part} {d : Declaration} (h : p.declaration? = some d) :
    d.span = ⟨0, 0⟩ := by
  cases p with
  | token m => cases h
  | statement head body at? =>
    simp only [declaration?, Option.bind_eq_bind, Option.bind_eq_some_iff] at h
    obtain ⟨i, -, specifier, -, h⟩ := h
    split at h
    · rw [← Statement.readDeclaration?_span ⟨0, 0⟩ ⟨0, 0⟩] at h
      obtain ⟨d', -, rfl⟩ := Option.map_eq_some_iff.1 h
      rfl
    · cases h

theorem map_bare_declarationsFrom (offset : Nat) (ps : List Part) :
    (declarationsFrom offset ps).map Declaration.bare = declarations ps := by
  induction ps generalizing offset with
  | nil => rfl
  | cons p ps ih =>
    have hcons : declarations (p :: ps) = p.declaration?.toList ++ declarations ps := by
      rw [declarations, List.filterMap_cons]
      cases p.declaration? <;> rfl
    rw [declarationsFrom, List.map_append, ih, hcons]
    cases h : p.declaration? with
    | none => rfl
    | some d =>
      have := span_of_declaration? h
      obtain ⟨specifier, span, default?, named, style⟩ := d
      cases this
      rfl

/-- The identifiers of an import in a form that is no declaration. -/
def unrecognized (p : Part) : List String :=
  if p.specifier?.isSome && p.declaration?.isNone then
    Bindings.identifiers (p.marks.map Mark.token)
  else []

theorem unrecognized_statementsFrom (s : Script) (done : List Token) (offset : Nat)
    (ps : List Part) (hs : s.tokens = done ++ Mark.place offset (allMarks ps)) :
    ((statementsFrom offset done.length ps).flatMap fun st =>
      if st.specifier?.isSome && st.declaration?.isNone then
        Bindings.identifiers (s.tokensOf st) else []) = ps.flatMap unrecognized := by
  induction ps generalizing done offset with
  | nil => rfl
  | cons p ps ih =>
    have htokens : s.tokens = (done ++ Mark.place offset p.marks) ++
        Mark.place (offset + (Mark.sources p.marks).size) (allMarks ps) := by
      rw [hs, allMarks_cons, Mark.place_append, List.append_assoc]
    have hrec := ih _ _ htokens
    rw [List.length_append, Mark.length_place] at hrec
    cases p with
    | token m =>
      rw [statementsFrom, hrec]
      rfl
    | statement head body at? =>
      have htake := Script.tokensOf_statementAt (htokens.trans (List.append_assoc ..))
      rw [statementsFrom, List.flatMap_cons, List.flatMap_cons, hrec, htake, unrecognized,
        ← identifiers_map Token.faithful_bare, Mark.map_bare_place]
      simp [statementAt]

end Part

namespace Script

/-- The reading of a script, read off the parts of its text. -/
def ofParts (ps : List Part) : Reading where
  declared := Bindings.declaredNames (Part.code ps)
  uses := usesFrom none (Part.code ps)
  declarations := Part.declarations ps
  unrecognized := ps.flatMap Part.unrecognized

theorem declarations_parse (t : Text) :
    (parse t).declarations = Part.declarationsFrom t.markSize t.parts := by
  rw [declarations, statements_parse, Part.filterMap_statementsFrom]

theorem reading_parse (t : Text) : (parse t).reading = ofParts t.parts := by
  have hcode := code_parse t
  have hun := Part.unrecognized_statementsFrom (parse t) [] t.markSize t.parts
    (tokenize_eq_place t)
  simp only [reading, ofParts, Bindings.ofScript, statements_parse, declarations_parse,
    Part.map_bare_declarationsFrom, ← hcode, declaredNames_map Token.faithful_bare]
  congr 1
  · exact (usesFrom_map Token.faithful_bare none _).symm

end Script

end TidyImports
