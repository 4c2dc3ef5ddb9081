-- SUMMARY: The outline of a text: its marks grouped into import statements and single tokens.
import TidyImports.Source.Statement
import TidyImports.Proofs.Lexing.Words

/-!
# Outlines

An outline groups the marks of a text into import statements and the tokens
between them, as the scan for statements does, but without a look at the text:
what the scan asks of it is in the marks. So the outline of a part of a text
does not depend on where that part stands.
-/

namespace TidyImports

namespace Mark

open Token

-- ---------------------------------------------------------------------------
-- Looking ahead in marks
-- ---------------------------------------------------------------------------

/-- Index of the string after the next `from`, before any `;` and any leading `import`. -/
def fromIndex? : List Mark → Option Nat
  | [] => none
  | m :: rest =>
    if m.token.isPunct ';' then none
    else if m.leads then none
    else if m.token.isWord "from" then
      match nextCode? (rest.map token) with
      | some (i, s) => if s.isString then some (i + 1) else none
      | none => none
    else (fromIndex? rest).map (· + 1)

/-- Index of the specifier string in the marks after an `import`. -/
def specifierIndex? (rest : List Mark) : Option Nat :=
  match nextCode? (rest.map token) with
  | none => none
  | some (i, next) => if next.isString then some i else fromIndex? rest

/-- Index of a `;` that is the next code and on the same line. -/
def semicolonIndex? : List Mark → Option Nat
  | [] => none
  | m :: rest =>
    if '\n' ∈ m.gap then none
    else if m.token.isCode then (if m.token.isPunct ';' then some 0 else none)
    else if '\n' ∈ m.text then none
    else (semicolonIndex? rest).map (· + 1)

/-- How many of the marks start on the line on which they begin. -/
def lineCount : List Mark → Nat
  | [] => 0
  | m :: rest =>
    if '\n' ∈ m.gap then 0
    else if '\n' ∈ m.text then 1
    else lineCount rest + 1

/-- How many marks after an `import` belong to its statement, and which of them is the specifier. -/
def extent? (rest : List Mark) : Option (Nat × Option Nat) :=
  match nextCode? (rest.map token) with
  | none => none
  | some (_, next) =>
    if next.isPunct '(' || next.isPunct '.' then none
    else
      match specifierIndex? rest with
      | none => some (lineCount rest, none)
      | some i =>
        match semicolonIndex? (rest.drop (i + 1)) with
        | some j => some (i + 1 + j + 1, some i)
        | none => some (i + 1, some i)

/-- The extent of the statement that starts with a mark, if one does. -/
def begin? (depth : Nat) (after : Bool) (m : Mark) (rest : List Mark) :
    Option (Nat × Option Nat) :=
  if depth = 0 ∧ m.token.isWord "import" ∧ (m.leads || after) = true then extent? rest else none

end Mark

-- ---------------------------------------------------------------------------
-- Parts
-- ---------------------------------------------------------------------------

/-- A token outside import statements, or an import statement. -/
inductive Part where
  | token (m : Mark)
  /-- The `import`, what follows it, and where in that the specifier stands. -/
  | statement (head : Mark) (body : List Mark) (specifierAt? : Option Nat)
  deriving DecidableEq, Repr

namespace Part

def marks : Part → List Mark
  | .token m => [m]
  | .statement head body _ => head :: body

/-- The marks of parts in a row. -/
def allMarks (ps : List Part) : List Mark := ps.flatMap marks

@[simp] theorem allMarks_nil : allMarks [] = [] := rfl

@[simp] theorem allMarks_cons (p : Part) (ps : List Part) :
    allMarks (p :: ps) = p.marks ++ allMarks ps := rfl

@[simp] theorem allMarks_append (ps qs : List Part) :
    allMarks (ps ++ qs) = allMarks ps ++ allMarks qs := List.flatMap_append

/-- The mark of the specifier. -/
def specifierMark? : Part → Option Mark
  | .token _ => none
  | .statement _ body at? => at?.bind (body[·]?)

/-- The module named by a closed string. -/
def specifier? (p : Part) : Option String :=
  p.specifierMark?.bind fun m => m.token.contents?.map String.ofList

/-- The declaration that a statement is recognized as, without its place. -/
def declaration? : Part → Option Declaration
  | .token _ => none
  | .statement head body at? => do
    let i ← at?
    let specifier ← body[i]?
    if head.leads && (body.map Mark.token).all Token.isCode then
      Statement.readDeclaration? ⟨0, 0⟩ ((body.take i).map Mark.token) specifier.token
        (i + 1 < body.length)
    else none

/-- A declaration is first on its line, and there is no comment in it. -/
theorem leads_and_isCode_of_declaration? {head : Mark} {body : List Mark} {at? : Option Nat}
    {d : Declaration} (h : (statement head body at?).declaration? = some d) :
    (head.leads && (body.map Mark.token).all Token.isCode) = true := by
  simp only [declaration?, Option.bind_eq_bind, Option.bind_eq_some_iff] at h
  obtain ⟨i, -, specifier, -, h⟩ := h
  split at h
  · next hc => exact hc
  · cases h

/-- Brace depth after a part. -/
def depthAfter (depth : Nat) : Part → Nat
  | .token m => Statement.depthAfter depth m.token
  | .statement .. => depth

/-- Is a `;` the last code after a part? -/
def afterSemicolon (after : Bool) (p : Part) : Bool :=
  match Token.lastCode? (p.marks.map Mark.token) with
  | some tok => tok.isPunct ';'
  | none => after

end Part

/-- The outline of marks, given the brace depth before them and whether a `;` is the last code
there. -/
def outline (depth : Nat) (after : Bool) (ms : List Mark) : List Part :=
  match ms with
  | [] => []
  | m :: rest =>
    match m.begin? depth after rest with
    | some (n, at?) =>
      let p := Part.statement m (rest.take n) at?
      p :: outline depth (p.afterSemicolon after) (rest.drop n)
    | none =>
      let p := Part.token m
      p :: outline (p.depthAfter depth) (p.afterSemicolon after) rest
termination_by ms.length
decreasing_by
  all_goals simp only [List.length_cons, List.length_drop]; omega

/-- An outline groups the marks and loses none. -/
theorem allMarks_outline (depth : Nat) (after : Bool) (ms : List Mark) :
    Part.allMarks (outline depth after ms) = ms := by
  fun_induction outline depth after ms with
  | case1 => rfl
  | case2 depth after m rest n at? hb p ih => simp [p, ih, Part.marks]
  | case3 depth after m rest hb p ih => simp [p, ih, Part.marks]

end TidyImports
