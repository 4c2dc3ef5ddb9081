-- SUMMARY: An outline asks for the shapes of marks: identifiers in full, other text without letters.
import TidyImports.Proofs.Outline.Locality

/-!
# Shapes

The shape of a mark has the text of an identifier and only the line feeds of any
other token. Marks of the same shapes have the same outline, so the contents of
strings can be exchanged and the statements of a text stay where they are.
-/

namespace TidyImports

/-- A token without its place. All that is left of its text, unless it is an identifier, are the
line feeds. -/
def Token.shape (t : Token) : Token :=
  ⟨t.kind, 0, if t.isIdent then t.text else t.text.filter (· == '\n')⟩

theorem Token.faithful_shape : Token.Faithful Token.shape :=
  ⟨fun _ => rfl, fun h => if_pos h⟩

namespace Mark

open Token

def shape (m : Mark) : Mark := { m with text := m.token.shape.text }

theorem token_shape (m : Mark) : m.shape.token = m.token.shape := rfl

theorem map_token_shape (ms : List Mark) :
    (ms.map shape).map token = (ms.map token).map Token.shape := by
  rw [List.map_map, List.map_map]
  rfl

theorem mem_text_shape (m : Mark) : '\n' ∈ m.shape.text ↔ '\n' ∈ m.text := by
  rw [shape, Token.shape]
  simp only
  split
  · rfl
  · simp [token]

-- ---------------------------------------------------------------------------
-- Looking ahead
-- ---------------------------------------------------------------------------

theorem nextCode?_shape (ms : List Mark) :
    nextCode? ((ms.map shape).map token) =
      (nextCode? (ms.map token)).map fun (i, t) => (i, t.shape) := by
  rw [map_token_shape, nextCode?_map faithful_shape]

theorem fromIndex?_shape (ms : List Mark) : fromIndex? (ms.map shape) = fromIndex? ms := by
  induction ms with
  | nil => rfl
  | cons m ms ih =>
    rw [List.map_cons, fromIndex?, fromIndex?, ih, nextCode?_shape, token_shape,
      faithful_shape.isPunct, faithful_shape.isWord]
    cases nextCode? (ms.map token) with
    | none => rfl
    | some next =>
      obtain ⟨i, s⟩ := next
      simp only [Option.map_some, faithful_shape.isString]
      rfl

theorem specifierIndex?_shape (ms : List Mark) :
    specifierIndex? (ms.map shape) = specifierIndex? ms := by
  rw [specifierIndex?, specifierIndex?, nextCode?_shape, fromIndex?_shape]
  cases nextCode? (ms.map token) with
  | none => rfl
  | some next =>
    obtain ⟨i, s⟩ := next
    simp only [Option.map_some, faithful_shape.isString]

theorem semicolonIndex?_shape (ms : List Mark) :
    semicolonIndex? (ms.map shape) = semicolonIndex? ms := by
  induction ms with
  | nil => rfl
  | cons m ms ih =>
    simp only [List.map_cons, semicolonIndex?, ih, token_shape, faithful_shape.isPunct,
      faithful_shape.isCode, mem_text_shape]
    rfl

theorem lineCount_shape (ms : List Mark) : lineCount (ms.map shape) = lineCount ms := by
  induction ms with
  | nil => rfl
  | cons m ms ih =>
    simp only [List.map_cons, lineCount, ih, mem_text_shape]
    rfl

theorem extent?_shape (ms : List Mark) : extent? (ms.map shape) = extent? ms := by
  have hdrop : ∀ i, (ms.map shape).drop i = (ms.drop i).map shape := fun i => List.map_drop.symm
  rw [extent?, extent?, nextCode?_shape, specifierIndex?_shape, lineCount_shape]
  cases nextCode? (ms.map token) with
  | none => rfl
  | some next =>
    obtain ⟨i, s⟩ := next
    simp only [Option.map_some, faithful_shape.isPunct, hdrop, semicolonIndex?_shape]

theorem begin?_shape (depth : Nat) (after : Bool) (m : Mark) (ms : List Mark) :
    m.shape.begin? depth after (ms.map shape) = m.begin? depth after ms := by
  rw [begin?, begin?, extent?_shape, token_shape, faithful_shape.isWord]
  rfl

end Mark

-- ---------------------------------------------------------------------------
-- Parts
-- ---------------------------------------------------------------------------

namespace Part

open Token

def shape : Part → Part
  | .token m => .token m.shape
  | .statement head body at? => .statement head.shape (body.map Mark.shape) at?

theorem marks_shape (p : Part) : p.shape.marks = p.marks.map Mark.shape := by
  cases p <;> rfl

theorem allMarks_shape (ps : List Part) :
    allMarks (ps.map shape) = (allMarks ps).map Mark.shape := by
  induction ps with
  | nil => rfl
  | cons p ps ih => rw [List.map_cons, allMarks_cons, allMarks_cons, List.map_append, ih, marks_shape]

theorem depthAfter_shape (depth : Nat) (p : Part) : p.shape.depthAfter depth = p.depthAfter depth := by
  cases p with
  | token m =>
    simp only [shape, depthAfter, Statement.depthAfter, Mark.token_shape, faithful_shape.isPunct]
  | statement head body at? => rfl

theorem afterSemicolon_shape (after : Bool) (p : Part) :
    p.shape.afterSemicolon after = p.afterSemicolon after := by
  rw [afterSemicolon, afterSemicolon, marks_shape, Mark.map_token_shape,
    lastCode?_map faithful_shape]
  cases lastCode? (p.marks.map Mark.token) with
  | none => rfl
  | some tok => exact faithful_shape.isPunct tok ';'

theorem code_shape (ps : List Part) : code (ps.map shape) = (code ps).map Token.shape := by
  induction ps with
  | nil => rfl
  | cons p ps ih =>
    cases p with
    | token m =>
      have hcode := faithful_shape.isCode m.token
      rw [List.map_cons, shape, code_token, code_token, Mark.token_shape, hcode, ih]
      split <;> rfl
    | statement head body at? => exact ih

end Part

/-- Marks of the same shapes have the same outline. -/
theorem outline_of_shapes {depth : Nat} {after : Bool} {ms : List Mark} {ps : List Part}
    (h : ps.map Part.shape = (outline depth after ms).map Part.shape) :
    outline depth after (Part.allMarks ps) = ps := by
  have hmarks : (Part.allMarks ps).map Mark.shape = ms.map Mark.shape := by
    rw [← Part.allMarks_shape, h, Part.allMarks_shape, allMarks_outline]
  fun_induction outline depth after ms generalizing ps with
  | case1 =>
    cases ps with
    | nil => rw [Part.allMarks_nil, outline]
    | cons p ps => cases h
  | case2 depth after m rest n at? hb p =>
    rename_i ih
    cases ps with
    | nil => cases h
    | cons p' ps' =>
      obtain ⟨hp, hps⟩ := List.cons.inj h
      cases p' with
      | token m' => cases hp
      | statement m' body' at?' =>
        simp only [Part.shape, p, Part.statement.injEq] at hp
        obtain ⟨hm, hbody, rfl⟩ := hp
        rw [Part.allMarks_cons, Part.marks, List.cons_append, List.map_cons, List.map_cons] at hmarks
        have hrest := (List.cons.inj hmarks).2
        have hlen : body'.length = n := by
          have := congrArg List.length hbody
          rw [List.length_map, List.length_map, List.length_take] at this
          rw [this, Nat.min_eq_left (Mark.extent?_le (Mark.extent?_of_begin? hb))]
        have hb' : m'.begin? depth after (body' ++ Part.allMarks ps') = some (n, at?') := by
          rw [← Mark.begin?_shape, hm, hrest, Mark.begin?_shape, hb]
        have hafter : (Part.statement m' body' at?').afterSemicolon after = p.afterSemicolon after := by
          rw [← Part.afterSemicolon_shape, ← Part.afterSemicolon_shape after p]
          congr 1
          simp [Part.shape, p, hm, hbody]
        rw [Part.allMarks_cons, Part.marks, List.cons_append, outline_cons_some hb',
          List.take_left' hlen, List.drop_left' hlen, hafter, ih hps]
        rw [← Part.allMarks_shape, hps, Part.allMarks_shape, allMarks_outline]
  | case3 depth after m rest hb p =>
    rename_i ih
    cases ps with
    | nil => cases h
    | cons p' ps' =>
      obtain ⟨hp, hps⟩ := List.cons.inj h
      cases p' with
      | statement m' body' at?' => cases hp
      | token m' =>
        rw [Part.allMarks_cons, Part.marks, List.singleton_append, List.map_cons, List.map_cons] at hmarks
        obtain ⟨hm, hrest⟩ := List.cons.inj hmarks
        have hb' : m'.begin? depth after (Part.allMarks ps') = none := by
          rw [← Mark.begin?_shape, hm, hrest, Mark.begin?_shape, hb]
        rw [Part.allMarks_cons, Part.marks, List.singleton_append, outline_cons_none hb',
          ← Part.depthAfter_shape, ← Part.afterSemicolon_shape, hp, Part.depthAfter_shape,
          Part.afterSemicolon_shape, ih hps hrest]

end TidyImports
