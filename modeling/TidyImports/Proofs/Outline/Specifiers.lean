-- SUMMARY: Strings that name modules, told by the marks before them, and their contents exchanged.
import TidyImports.DataFile
import TidyImports.Proofs.Outline.Shapes

/-!
# Specifiers

A closed string names a module when it comes after `from`, or after the `import`
of the statement it stands in. The marks before a string settle which it is, so
contents can be exchanged for others without a change to which strings name
modules, nor to the outline.
-/

namespace TidyImports

open Lexer

namespace Mark

/-- Would a string name a module after the mark, when it would have `ready` before? -/
def readies (ready : Bool) (m : Mark) : Bool :=
  if m.token.isCode then m.token.isWord "from" else ready

/-- Marks, each with whether a string would name a module there. -/
def flag (ready : Bool) : List Mark → List (Mark × Bool)
  | [] => []
  | m :: ms => (m, ready) :: flag (m.readies ready) ms

@[simp] theorem map_fst_flag (ready : Bool) (ms : List Mark) :
    (flag ready ms).map Prod.fst = ms := by
  induction ms generalizing ready with
  | nil => rfl
  | cons m ms ih => rw [flag, List.map_cons, ih]

end Mark

namespace Part

/-- The marks of a part, each with whether a string would name a module there. -/
def flags (ready : Bool) : Part → List (Mark × Bool)
  | .token m => [(m, ready)]
  | .statement head body _ => (head, false) :: Mark.flag true body

/-- Would a string name a module after a part, when it would have `ready` before? -/
def readies (ready : Bool) (p : Part) : Bool := p.marks.foldl Mark.readies ready

def allFlags (ready : Bool) : List Part → List (Mark × Bool)
  | [] => []
  | p :: ps => p.flags ready ++ allFlags (p.readies ready) ps

@[simp] theorem map_fst_flags (ready : Bool) (p : Part) : (p.flags ready).map Prod.fst = p.marks := by
  cases p with
  | token m => rfl
  | statement head body at? => rw [flags, List.map_cons, Mark.map_fst_flag]; rfl

@[simp] theorem map_fst_allFlags (ready : Bool) (ps : List Part) :
    (allFlags ready ps).map Prod.fst = allMarks ps := by
  induction ps generalizing ready with
  | nil => rfl
  | cons p ps ih => rw [allFlags, List.map_append, map_fst_flags, ih, allMarks_cons]

end Part

-- ---------------------------------------------------------------------------
-- Contents exchanged
-- ---------------------------------------------------------------------------

/-- What a string says is exchanged for other contents. -/
def Mark.withContents (m : Mark) (new : Text) : Mark :=
  { m with text := m.text.take 1 ++ new ++ m.text.take 1 }

/-- The new contents of a mark, if it names a module and there are any for it. -/
def retargeted? (g : Text → Option Text) (z : Mark × Bool) : Option Text :=
  if z.2 then z.1.token.contents?.bind g else none

def retarget (g : Text → Option Text) (z : Mark × Bool) : Mark :=
  ((retargeted? g z).map z.1.withContents).getD z.1

/-- Contents that can be exchanged: they end no line, and neither do the new ones, nor the string. -/
def Exchangeable (g : Text → Option Text) (z : Mark × Bool) : Prop :=
  z.1.Proper ∧ ∀ old new, z.1.token.contents? = some old → retargeted? g z = some new →
    '\n' ∉ old ∧ isPlain new

theorem Mark.text_of_contents? {m : Mark} {old : Text} (hp : m.Proper)
    (h : m.token.contents? = some old) :
    ∃ q, (q = '\'' ∨ q = '"') ∧ m.kind = .string true ∧ m.text = q :: old ++ [q] := by
  have hkind : m.kind = .string true := Token.kind_of_contents? h
  have hshapes := hp.shapes
  rw [hkind] at hshapes
  obtain ⟨q, x, hq, htext⟩ := hshapes
  have hold : old = x := by
    simpa [Token.contents?, token, hkind, htext] using h.symm
  exact ⟨q, hq, hkind, by rw [htext, hold]; rfl⟩

/-- What becomes of a mark whose contents are exchanged. -/
theorem retarget_eq_some {g : Text → Option Text} {z : Mark × Bool} {new : Text}
    (hp : z.1.Proper) (h : retargeted? g z = some new) :
    ∃ q old, (q = '\'' ∨ q = '"') ∧ z.2 = true ∧ z.1.kind = .string true ∧
      z.1.token.contents? = some old ∧ g old = some new ∧ z.1.text = q :: old ++ [q] ∧
      retarget g z = { z.1 with text := q :: new ++ [q] } := by
  have hready : z.2 = true := by
    rw [retargeted?] at h
    split at h
    · next hz => exact hz
    · cases h
  have hbind := h
  rw [retargeted?, if_pos hready] at hbind
  obtain ⟨old, hold, hnew⟩ := Option.bind_eq_some_iff.1 hbind
  obtain ⟨q, hq, hkind, htext⟩ := Mark.text_of_contents? hp hold
  refine ⟨q, old, hq, hready, hkind, hold, hnew, htext, ?_⟩
  rw [retarget, h, Option.map_some, Option.getD_some, Mark.withContents, htext]
  rfl

theorem retarget_eq_none {g : Text → Option Text} {z : Mark × Bool} (h : retargeted? g z = none) :
    retarget g z = z.1 := by
  rw [retarget, h]
  rfl

theorem isPlain_not_mem {x : Text} (h : isPlain x) : '\n' ∉ x := fun hn => by
  have := List.all_eq_true.1 h _ hn
  simp at this

/-- The new contents are the contents of the mark. -/
theorem contents?_retarget {g : Text → Option Text} {z : Mark × Bool} (hp : z.1.Proper) :
    (retarget g z).token.contents? =
      z.1.token.contents?.map fun old => (retargeted? g z).getD old := by
  cases hz : retargeted? g z with
  | none =>
    rw [retarget_eq_none hz]
    simp
  | some new =>
    obtain ⟨q, old, -, -, hkind, hold, -, -, heq⟩ := retarget_eq_some hp hz
    rw [heq, hold]
    simp [Token.contents?, Mark.token, hkind]

theorem shape_retarget {g : Text → Option Text} {z : Mark × Bool} (h : Exchangeable g z) :
    (retarget g z).shape = z.1.shape := by
  cases hz : retargeted? g z with
  | none => rw [retarget_eq_none hz]
  | some new =>
    obtain ⟨q, old, hq, -, hkind, hold, -, htext, heq⟩ := retarget_eq_some h.1 hz
    obtain ⟨hold', hnew⟩ := h.2 old new hold hz
    have hlines : ∀ x : Text, '\n' ∉ x → (q :: x ++ [q]).filter (· == '\n') = [] := fun x hx => by
      rw [List.filter_eq_nil_iff]
      intro c hc
      have hne : q ≠ '\n' := by rcases hq with rfl | rfl <;> decide
      simp only [List.cons_append, List.mem_cons, List.mem_append, List.not_mem_nil, or_false] at hc
      rw [beq_iff_eq]
      rintro rfl
      rcases hc with hc | hc | hc
      · exact hne hc.symm
      · exact hx hc
      · exact hne hc.symm
    have hident : ∀ x, Token.isIdent ⟨.string true, 0, x⟩ = false := fun _ => rfl
    rw [heq]
    obtain ⟨⟨gap, kind, text, leads⟩, ready⟩ := z
    cases hkind
    cases htext
    simp only [Mark.shape, Token.shape, Mark.token, hident, Mark.mk.injEq, true_and, and_true]
    exact (hlines new (isPlain_not_mem hnew)).trans (hlines old hold').symm

-- ---------------------------------------------------------------------------
-- Parts
-- ---------------------------------------------------------------------------

/-- A declaration whose specifier is exchanged. -/
def Declaration.retarget (g : Text → Option Text) (d : Declaration) : Declaration :=
  { d with specifier := ((g d.specifier.toList).map String.ofList).getD d.specifier }

namespace Part

variable {g : Text → Option Text} {ready : Bool}

def retarget (g : Text → Option Text) (ready : Bool) : Part → Part
  | .token m => .token (TidyImports.retarget g (m, ready))
  | .statement head body at? =>
    .statement head ((Mark.flag true body).map (TidyImports.retarget g)) at?

def retargetAll (g : Text → Option Text) (ready : Bool) : List Part → List Part
  | [] => []
  | p :: ps => p.retarget g ready :: retargetAll g (p.readies ready) ps

theorem marks_retarget (p : Part) :
    (p.retarget g ready).marks = (p.flags ready).map (TidyImports.retarget g) := by
  cases p with
  | token m => rfl
  | statement head body at? => rfl

theorem allMarks_retargetAll (ps : List Part) :
    allMarks (retargetAll g ready ps) = (allFlags ready ps).map (TidyImports.retarget g) := by
  induction ps generalizing ready with
  | nil => rfl
  | cons p ps ih => rw [retargetAll, allMarks_cons, marks_retarget, ih, allFlags, List.map_append]

theorem map_shape_retarget {zs : List (Mark × Bool)} (h : ∀ z ∈ zs, Exchangeable g z) :
    (zs.map (TidyImports.retarget g)).map Mark.shape = (zs.map Prod.fst).map Mark.shape := by
  rw [List.map_map, List.map_map]
  exact List.map_congr_left fun z hz => shape_retarget (h z hz)

theorem shape_retarget {p : Part} (h : ∀ z ∈ p.flags ready, Exchangeable g z) :
    (p.retarget g ready).shape = p.shape := by
  cases p with
  | token m =>
    rw [retarget, shape, TidyImports.shape_retarget (h _ (List.mem_singleton_self _))]
    rfl
  | statement head body at? =>
    rw [retarget, shape, map_shape_retarget fun z hz => h z (List.mem_cons_of_mem _ hz),
      Mark.map_fst_flag]
    rfl

theorem shape_retargetAll {ps : List Part} (h : ∀ z ∈ allFlags ready ps, Exchangeable g z) :
    (retargetAll g ready ps).map shape = ps.map shape := by
  induction ps generalizing ready with
  | nil => rfl
  | cons p ps ih =>
    rw [retargetAll, List.map_cons, List.map_cons,
      shape_retarget fun z hz => h z (List.mem_append_left _ hz),
      ih fun z hz => h z (List.mem_append_right _ hz)]

/-- The outline of marks whose strings have new contents. -/
theorem outline_retargetAll {depth : Nat} {after : Bool} {ms : List Mark}
    (h : ∀ z ∈ allFlags ready (outline depth after ms), Exchangeable g z) :
    outline depth after ((allFlags ready (outline depth after ms)).map (TidyImports.retarget g)) =
      retargetAll g ready (outline depth after ms) := by
  rw [← allMarks_retargetAll]
  exact outline_of_shapes (shape_retargetAll h)

-- ---------------------------------------------------------------------------
-- Declarations
-- ---------------------------------------------------------------------------

end Part

theorem Mark.getElem?_flag {ready : Bool} {ms : List Mark} {i : Nat} {m : Mark}
    (h : ms[i]? = some m) :
    (flag ready ms)[i]? = some (m, (ms.take i).foldl Mark.readies ready) := by
  induction ms generalizing ready i with
  | nil => cases h
  | cons k ms ih =>
    cases i with
    | zero => cases h; rfl
    | succ i => exact ih h

/-- A string that is the specifier of a declaration names a module. -/
theorem Mark.readies_before {ms : List Mark} {word : Token} (ready : Bool)
    (hlast : (ms.map Mark.token).getLast? = some word) (hw : word.isWord "from") :
    ms.foldl Mark.readies ready = true := by
  rw [List.getLast?_map] at hlast
  obtain ⟨m, hm, rfl⟩ := Option.map_eq_some_iff.1 hlast
  obtain ⟨front, rfl⟩ := List.getLast?_eq_some_iff.1 hm
  rw [List.foldl_append, List.foldl_cons, List.foldl_nil, Mark.readies,
    if_pos (Mark.isCode_of_isIdent (Bool.and_eq_true_iff.1 hw).1), hw]

theorem Statement.readDeclaration?_retarget {g : Text → Option Text} {span : Span}
    {before : List Mark} {z : Mark × Bool} {semicolon : Bool} (hp : z.1.Proper)
    (hz : z.2 = before.foldl Mark.readies true) :
    readDeclaration? span (before.map Mark.token) (TidyImports.retarget g z).token semicolon =
      (readDeclaration? span (before.map Mark.token) z.1.token semicolon).map
        (Declaration.retarget g) := by
  rw [readDeclaration?, readDeclaration?, contents?_retarget hp]
  cases hc : z.1.token.contents? with
  | none => rfl
  | some old =>
    cases hlast : (before.map Mark.token).getLast? with
    | none => rfl
    | some word =>
      by_cases hw : word.isWord "from"
      · have hready : z.2 = true := hz.trans (Mark.readies_before true hlast hw)
        have hg : retargeted? g z = g old := by
          rw [retargeted?, if_pos hready, hc]
          rfl
        have hhead : (TidyImports.retarget g z).token.text.head? = z.1.token.text.head? := by
          obtain ⟨q, -, -, htext⟩ := Mark.text_of_contents? hp hc
          cases hnew : retargeted? g z with
          | none => rw [retarget_eq_none hnew]
          | some new =>
            rw [TidyImports.retarget, hnew]
            simp [Mark.withContents, Mark.token, htext]
        rw [hhead, hg]
        simp only [Option.bind_eq_bind, Option.bind_some, Option.map_some, hw, Bool.not_true]
        cases Statement.clause? (before.map Mark.token).dropLast with
        | none => rfl
        | some clause =>
          cases z.1.token.text.head?.bind Quote.ofChar? with
          | none => rfl
          | some quote =>
            cases hnew : g old <;> simp [Declaration.retarget, hnew]
      · simp [hw]

namespace Part

variable {g : Text → Option Text} {ready : Bool}

theorem declaration?_retarget {p : Part} (h : ∀ z ∈ p.flags ready, Exchangeable g z) :
    (p.retarget g ready).declaration? = p.declaration?.map (Declaration.retarget g) := by
  cases p with
  | token m => rfl
  | statement head body at? =>
    have hbody : ∀ z ∈ Mark.flag true body, Exchangeable g z := fun z hz =>
      h z (List.mem_cons_of_mem _ hz)
    have hshapes : (((Mark.flag true body).map (TidyImports.retarget g)).map Mark.token).map
        Token.shape = (body.map Mark.token).map Token.shape := by
      rw [← Mark.map_token_shape, map_shape_retarget hbody, Mark.map_fst_flag, Mark.map_token_shape]
    have hcode : (((Mark.flag true body).map (TidyImports.retarget g)).map Mark.token).all
        Token.isCode = (body.map Mark.token).all Token.isCode := by
      have hall : ∀ ts : List Token, (ts.map Token.shape).all Token.isCode = ts.all Token.isCode :=
        fun ts => by
          rw [List.all_map]
          exact congrArg (ts.all ·) (funext fun t => Token.faithful_shape.isCode t)
      rw [← hall, hshapes, hall]
    have hlen : ((Mark.flag true body).map (TidyImports.retarget g)).length = body.length := by
      have hfst := congrArg List.length (Mark.map_fst_flag true body)
      rw [List.length_map] at hfst ⊢
      exact hfst
    cases at? with
    | none => rfl
    | some i =>
      cases hi : body[i]? with
      | none =>
        have hi' : ((Mark.flag true body).map (TidyImports.retarget g))[i]? = none := by
          rw [List.getElem?_eq_none_iff] at hi ⊢
          omega
        simp only [retarget, declaration?, Option.bind_eq_bind, Option.bind_some, hi, hi']
        rfl
      | some m =>
        have hflag : (Mark.flag true body)[i]? =
            some (m, (body.take i).foldl Mark.readies true) := Mark.getElem?_flag hi
        have hi' : ((Mark.flag true body).map (TidyImports.retarget g))[i]? =
            some (TidyImports.retarget g (m, (body.take i).foldl Mark.readies true)) := by
          rw [List.getElem?_map, hflag]
          rfl
        have hp := (hbody _ (List.mem_of_getElem? hflag)).1
        have htake : ((((Mark.flag true body).map (TidyImports.retarget g)).take i).map
            Mark.token).map Token.shape = ((body.take i).map Mark.token).map Token.shape := by
          rw [List.map_take, List.map_take, hshapes, ← List.map_take, ← List.map_take]
        simp only [retarget, declaration?, Option.bind_eq_bind, Option.bind_some, hi, hi', hcode, hlen]
        split
        · rw [← Statement.readDeclaration?_map Token.faithful_shape, htake,
            Statement.readDeclaration?_map Token.faithful_shape]
          exact Statement.readDeclaration?_retarget hp rfl
        · rfl

theorem specifier?_isSome_retarget {p : Part} (h : ∀ z ∈ p.flags ready, Exchangeable g z) :
    (p.retarget g ready).specifier?.isSome = p.specifier?.isSome := by
  cases p with
  | token m => rfl
  | statement head body at? =>
    cases at? with
    | none => rfl
    | some i =>
      cases hi : body[i]? with
      | none =>
        have hi' : (Mark.flag true body)[i]? = none := by
          have := congrArg List.length (Mark.map_fst_flag true body)
          rw [List.length_map] at this
          rw [List.getElem?_eq_none_iff] at hi ⊢
          omega
        simp [specifier?, specifierMark?, retarget, hi, hi']
      | some m =>
        have hflag : (Mark.flag true body)[i]? =
            some (m, (body.take i).foldl Mark.readies true) := Mark.getElem?_flag hi
        have hp := (h _ (List.mem_cons_of_mem _ (List.mem_of_getElem? hflag))).1
        simp [specifier?, specifierMark?, retarget, hi, hflag, contents?_retarget hp]

theorem unrecognized_retarget {p : Part} (h : ∀ z ∈ p.flags ready, Exchangeable g z) :
    (p.retarget g ready).unrecognized = p.unrecognized := by
  have hnames : Bindings.identifiers ((p.retarget g ready).marks.map Mark.token) =
      Bindings.identifiers (p.marks.map Mark.token) := by
    rw [← identifiers_map Token.faithful_shape, ← Mark.map_token_shape, ← marks_shape,
      shape_retarget h, marks_shape, Mark.map_token_shape, identifiers_map Token.faithful_shape]
  rw [unrecognized, unrecognized, specifier?_isSome_retarget h, declaration?_retarget h, hnames,
    Option.isNone_map]

theorem readies_shape (ready : Bool) (p : Part) : p.shape.readies ready = p.readies ready := by
  have hmark : ∀ (ready : Bool) (m : Mark), m.shape.readies ready = m.readies ready :=
    fun ready m => by
      rw [Mark.readies, Mark.readies, Mark.token_shape, Token.faithful_shape.isCode,
        Token.faithful_shape.isWord]
  rw [readies, readies, marks_shape, List.foldl_map]
  simp only [hmark]

theorem flag_retarget {zs : List (Mark × Bool)} (h : ∀ z ∈ zs, Exchangeable g z) {ms : List Mark}
    (hz : zs = Mark.flag ready ms) :
    Mark.flag ready (zs.map (TidyImports.retarget g)) =
      zs.map fun z => (TidyImports.retarget g z, z.2) := by
  subst hz
  induction ms generalizing ready with
  | nil => rfl
  | cons m ms ih =>
    have hshape := TidyImports.shape_retarget (h (m, ready) (List.mem_cons_self ..))
    have hready : (TidyImports.retarget g (m, ready)).readies ready = m.readies ready := by
      have hmark : ∀ k : Mark, k.readies ready = k.shape.readies ready := fun k => by
        rw [Mark.readies, Mark.readies, Mark.token_shape, Token.faithful_shape.isCode,
          Token.faithful_shape.isWord]
      rw [hmark, hshape, ← hmark]
    rw [Mark.flag, List.map_cons, Mark.flag, hready, ih fun z hz => h z (List.mem_cons_of_mem _ hz)]
    rfl

/-- Which strings name modules stays as it is. -/
theorem allFlags_retargetAll {ps : List Part} (h : ∀ z ∈ allFlags ready ps, Exchangeable g z) :
    allFlags ready (retargetAll g ready ps) =
      (allFlags ready ps).map fun z => (TidyImports.retarget g z, z.2) := by
  induction ps generalizing ready with
  | nil => rfl
  | cons p ps ih =>
    have hp : ∀ z ∈ p.flags ready, Exchangeable g z := fun z hz => h z (List.mem_append_left _ hz)
    have hready : (p.retarget g ready).readies ready = p.readies ready := by
      rw [← readies_shape, shape_retarget hp, readies_shape]
    rw [retargetAll, allFlags, allFlags, List.map_append, hready,
      ih fun z hz => h z (List.mem_append_right _ hz)]
    congr 1
    cases p with
    | token m => rfl
    | statement head body at? =>
      rw [retarget, flags, flags, List.map_cons,
        flag_retarget (fun z hz => hp z (List.mem_cons_of_mem _ hz)) rfl]
      rfl

end Part

/-- What a script says when some of its specifiers are exchanged. -/
def Reading.retarget (g : Text → Option Text) (r : Reading) : Reading :=
  { r with declarations := r.declarations.map (Declaration.retarget g) }

theorem Script.ofParts_retargetAll {g : Text → Option Text} {ready : Bool} {ps : List Part}
    (h : ∀ z ∈ Part.allFlags ready ps, Exchangeable g z) :
    ofParts (Part.retargetAll g ready ps) = (ofParts ps).retarget g := by
  have hcode : (Part.code (Part.retargetAll g ready ps)).map Token.shape =
      (Part.code ps).map Token.shape := by
    rw [← Part.code_shape, Part.shape_retargetAll h, Part.code_shape]
  have hdeclared : Bindings.declaredNames (Part.code (Part.retargetAll g ready ps)) =
      Bindings.declaredNames (Part.code ps) := by
    rw [← declaredNames_map Token.faithful_shape, hcode, declaredNames_map Token.faithful_shape]
  have huses : usesFrom none (Part.code (Part.retargetAll g ready ps)) =
      usesFrom none (Part.code ps) := by
    rw [← usesFrom_map Token.faithful_shape, hcode]
    exact usesFrom_map Token.faithful_shape none _
  have hun : (Part.retargetAll g ready ps).flatMap Part.unrecognized =
      ps.flatMap Part.unrecognized := by
    clear hcode hdeclared huses
    induction ps generalizing ready with
    | nil => rfl
    | cons p ps ih =>
      rw [Part.retargetAll, List.flatMap_cons, List.flatMap_cons,
        Part.unrecognized_retarget fun z hz => h z (List.mem_append_left _ hz),
        ih fun z hz => h z (List.mem_append_right _ hz)]
  have hdecl : Part.declarations (Part.retargetAll g ready ps) =
      (Part.declarations ps).map (Declaration.retarget g) := by
    clear hcode hdeclared huses hun
    have hcons : ∀ (p : Part) (ps : List Part),
        Part.declarations (p :: ps) = p.declaration?.toList ++ Part.declarations ps := by
      intro p ps
      rw [Part.declarations, List.filterMap_cons]
      cases p.declaration? <;> rfl
    induction ps generalizing ready with
    | nil => rfl
    | cons p ps ih =>
      rw [Part.retargetAll, hcons, hcons, List.map_append,
        ih fun z hz => h z (List.mem_append_right _ hz),
        Part.declaration?_retarget fun z hz => h z (List.mem_append_left _ hz)]
      cases p.declaration? <;> rfl
  rw [ofParts, hdeclared, huses, hun, hdecl]
  rfl

-- ---------------------------------------------------------------------------
-- The specifiers of a script
-- ---------------------------------------------------------------------------

/-- The tokens that name modules among marks in a row. -/
def specifierTokens (offset : Nat) : List (Mark × Bool) → List Token
  | [] => []
  | z :: zs =>
    (if z.2 && z.1.token.contents?.isSome then [z.1.placed offset] else []) ++
      specifierTokens (offset + z.1.source.size) zs

theorem specifierTokens_append (offset : Nat) (zs ws : List (Mark × Bool)) :
    specifierTokens offset (zs ++ ws) = specifierTokens offset zs ++
      specifierTokens (offset + (Mark.sources (zs.map Prod.fst)).size) ws := by
  induction zs generalizing offset with
  | nil => simp [specifierTokens]
  | cons z zs ih =>
    rw [List.cons_append, specifierTokens, specifierTokens, ih]
    simp [Mark.source, Nat.add_assoc]

namespace Script

/-- Does a statement start at `i` and reach over `j`? -/
def startsOver (statements : List Statement) (i j : Nat) : Bool :=
  statements.any fun st => st.first == i && st.first ≤ j && j < st.past

theorem startsOver_append (a b : List Statement) (i j : Nat) :
    startsOver (a ++ b) i j = (startsOver a i j || startsOver b i j) := List.any_append

/-- Statements that end before or start behind a token do not reach over it. -/
theorem startsOver_eq_false {statements : List Statement} {i j : Nat}
    (h : ∀ st ∈ statements, st.past ≤ j ∨ j < st.first) : startsOver statements i j = false := by
  rw [startsOver, List.any_eq_false]
  intro st hst
  have := h st hst
  simp
  omega

theorem startsOver_singleton {st : Statement} {i j : Nat} (hfirst : st.first ≤ j)
    (hpast : j < st.past) : startsOver [st] i j = (i == st.first) := by
  rw [startsOver, List.any_cons, List.any_nil, Bool.or_false, decide_eq_true hfirst,
    decide_eq_true hpast, Bool.and_true, Bool.and_true, Bool.beq_comm]

/-- The first token is one when it is a closed string, and what stands before it calls for one. -/
theorem specifiersFrom_cons (statements : List Statement) (previous? : Option (Nat × Token))
    (index : Nat) (tok : Token) (rest : List Token) :
    specifiersFrom statements previous? index (tok :: rest) =
      (if tok.contents?.isSome &&
          previous?.any fun p => p.2.isWord "from" || startsOver statements p.1 index
        then [tok] else []) ++
        specifiersFrom statements (if tok.isCode then some (index, tok) else previous?) (index + 1)
          rest := by
  rw [specifiersFrom]
  change (if tok.contents?.isSome &&
      previous?.any fun p => p.2.isWord "from" || startsOver statements p.1 index
    then tok :: _ else _) = _
  split <;> rfl

/-- The specifiers in the body of a statement, after the code `previous` at index `i`. -/
theorem specifiersFrom_body {statements : List Statement} {first past : Nat}
    (hone : ∀ i j, first ≤ i → i < j → j < past → startsOver statements i j = (i == first))
    {ms : List Mark} {more : List Token} {offset i j : Nat} {previous : Token} (hi : first ≤ i)
    (hij : i < j) (hj : j + ms.length ≤ past) :
    ∃ i' previous', i' < j + ms.length ∧
      previous'.isWord "from" = ms.foldl Mark.readies (previous.isWord "from") ∧
      specifiersFrom statements (some (i, previous)) j (Mark.place offset ms ++ more) =
        specifierTokens offset (Mark.flag (previous.isWord "from" || i == first) ms) ++
          specifiersFrom statements (some (i', previous')) (j + ms.length) more := by
  induction ms generalizing offset i j previous with
  | nil => exact ⟨i, previous, hij, rfl, rfl⟩
  | cons m ms ih =>
    rw [List.length_cons] at hj
    have hspec : ((m.placed offset).contents?.isSome &&
        (some (i, previous)).any fun p => p.2.isWord "from" || startsOver statements p.1 j) =
          ((previous.isWord "from" || i == first) && m.token.contents?.isSome) := by
      simp only [Option.any_some, hone i j hi hij (by omega)]
      exact Bool.and_comm ..
    by_cases hc : m.token.isCode
    · have hc' : (m.placed offset).isCode = true := hc
      obtain ⟨i', previous', hi', hready, heq⟩ := @ih (offset + m.source.size) j (j + 1)
        (m.placed offset) (by omega) (by omega) (by omega)
      have hlen : j + 1 + ms.length = j + (m :: ms).length := by
        rw [List.length_cons]
        omega
      rw [hlen] at hi' heq
      refine ⟨i', previous', hi', ?_, ?_⟩
      · rw [hready, List.foldl_cons, Mark.readies, if_pos hc]
        rfl
      · have hnext : Mark.readies (previous.isWord "from" || i == first) m =
            ((m.placed offset).isWord "from" || j == first) := by
          have : (j == first) = false := beq_false_of_ne (by omega)
          rw [Mark.readies, if_pos hc, this, Bool.or_false]
          rfl
        rw [Mark.place_cons, List.cons_append, specifiersFrom_cons, hspec, if_pos hc', heq,
          Mark.flag, specifierTokens, hnext, List.append_assoc]
    · have hc' : (m.placed offset).isCode = false := by
        rw [Bool.not_eq_true] at hc
        exact hc
      obtain ⟨i', previous', hi', hready, heq⟩ := @ih (offset + m.source.size) i (j + 1)
        previous (by omega) (by omega) (by omega)
      have hlen : j + 1 + ms.length = j + (m :: ms).length := by
        rw [List.length_cons]
        omega
      rw [hlen] at hi' heq
      refine ⟨i', previous', hi', ?_, ?_⟩
      · rw [hready, List.foldl_cons, Mark.readies, if_neg hc]
      · rw [Mark.place_cons, List.cons_append, specifiersFrom_cons, hspec, hc',
          if_neg Bool.false_ne_true, heq, Mark.flag, specifierTokens, Mark.readies, if_neg hc,
          List.append_assoc]

/-- The specifiers in a statement: its keyword is none, and calls for one behind it. -/
theorem specifiersFrom_statement {statements : List Statement} {offset index : Nat} {head : Mark}
    {body : List Mark} (hhead : head.token.isWord "import")
    (hone : ∀ i j, index ≤ i → i < j → j < index + (body.length + 1) →
      startsOver statements i j = (i == index))
    (previous? : Option (Nat × Token)) (ready : Bool) (at? : Option Nat) (more : List Token) :
    ∃ i' previous', i' < index + (body.length + 1) ∧
      previous'.isWord "from" = (Part.statement head body at?).readies ready ∧
      specifiersFrom statements previous? index (Mark.place offset (head :: body) ++ more) =
        specifierTokens offset (Part.flags ready (.statement head body at?)) ++
          specifiersFrom statements (some (i', previous')) (index + (body.length + 1)) more := by
  have hkind : head.kind = .ident := eq_of_beq (Bool.and_eq_true_iff.1 hhead).1
  have hcode : head.token.isCode := Mark.isCode_of_isIdent (Bool.and_eq_true_iff.1 hhead).1
  have hfrom : (head.placed offset).isWord "from" = false := by
    have htext : head.text = "import".toList := eq_of_beq (Bool.and_eq_true_iff.1 hhead).2
    simp [Token.isWord, Mark.placed, htext]
  have hclosed : (head.placed offset).contents?.isSome = false := by
    rw [Mark.contents?_placed, Token.contents?, Mark.token, hkind]
    rfl
  have hlen : index + 1 + body.length = index + (body.length + 1) := by omega
  obtain ⟨i', previous', hi', hready, hbody⟩ := @specifiersFrom_body _ _ _ hone body more
    (offset + head.source.size) index (index + 1) (head.placed offset) (Nat.le_refl _)
    (Nat.lt_succ_self _) (Nat.le_of_eq hlen)
  rw [hlen] at hi' hbody
  refine ⟨i', previous', hi', ?_, ?_⟩
  · rw [hready, hfrom, Part.readies, Part.marks, List.foldl_cons, Mark.readies, if_pos hcode]
    exact congrArg (body.foldl Mark.readies) hfrom.symm
  · have hplaced : (head.placed offset).isCode := hcode
    rw [Mark.place_cons, List.cons_append, specifiersFrom_cons, hclosed, Bool.false_and,
      if_neg Bool.false_ne_true, List.nil_append, if_pos hplaced, hbody, beq_self_eq_true,
      Bool.or_true, Part.flags, specifierTokens]
    rfl

/-- The specifiers of a script are the closed strings that name modules. -/
theorem specifiersFrom_place {statements earlier : List Statement} {offset index : Nat}
    {ps : List Part} {previous? : Option (Nat × Token)}
    (hst : statements = earlier ++ Part.statementsFrom offset index ps)
    (hearlier : ∀ st ∈ earlier, st.past ≤ index) (hprevious : ∀ p ∈ previous?, p.1 < index)
    (hheads : ∀ head body at?, Part.statement head body at? ∈ ps → head.token.isWord "import") :
    specifiersFrom statements previous? index (Mark.place offset (Part.allMarks ps)) =
      specifierTokens offset (Part.allFlags (previous?.any (·.2.isWord "from")) ps) := by
  induction ps generalizing earlier offset index previous? with
  | nil => rfl
  | cons p ps ih =>
    have hheads' : ∀ head body at?, Part.statement head body at? ∈ ps →
        head.token.isWord "import" := fun head body at? h =>
      hheads head body at? (List.mem_cons_of_mem _ h)
    cases p with
    | token m =>
      have hst' : statements = earlier ++
          Part.statementsFrom (offset + m.source.size) (index + 1) ps := by
        rw [hst]
        simp [Part.statementsFrom, Part.marks, Mark.source]
      have hnone : ∀ i, startsOver statements i index = false := fun i => by
        refine startsOver_eq_false fun st hmem => ?_
        rw [hst', List.mem_append] at hmem
        exact hmem.imp (hearlier st) fun hmem => (Part.mem_statementsFrom st hmem).1
      have hspec : ((m.placed offset).contents?.isSome &&
          previous?.any fun p => p.2.isWord "from" || startsOver statements p.1 index) =
            (previous?.any (·.2.isWord "from") && m.token.contents?.isSome) := by
        simp only [hnone, Bool.or_false]
        exact Bool.and_comm ..
      have hready : (Part.token m).readies (previous?.any (·.2.isWord "from")) =
          (if (m.placed offset).isCode then some (index, m.placed offset) else previous?).any
            (·.2.isWord "from") := by
        have hc : (m.placed offset).isCode = m.token.isCode := rfl
        rw [hc, Part.readies, Part.marks, List.foldl_cons, List.foldl_nil, Mark.readies]
        split <;> rfl
      have hprevious' : ∀ p ∈ (if (m.placed offset).isCode then some (index, m.placed offset)
          else previous?), p.1 < index + 1 := fun p hp => by
        split at hp
        · cases hp
          exact Nat.lt_succ_self _
        · exact Nat.lt_succ_of_lt (hprevious p hp)
      have hrec := ih hst' (fun st h => Nat.le_succ_of_le (hearlier st h)) hprevious' hheads'
      rw [Part.allMarks_cons, Part.marks, List.singleton_append, Mark.place_cons,
        specifiersFrom_cons, hspec, hrec, Part.allFlags, Part.flags, List.singleton_append,
        specifierTokens, hready]
    | statement head body at? =>
      let st := (Part.statement head body at?).statementAt offset index
      have hst' : statements = (earlier ++ [st]) ++
          Part.statementsFrom (offset + (Mark.sources (head :: body)).size)
            (index + (body.length + 1)) ps := by
        rw [hst, List.append_assoc]
        rfl
      have hearlier' : ∀ k ∈ earlier ++ [st], k.past ≤ index + (body.length + 1) := by
        intro k hk
        rcases List.mem_append.1 hk with hk | hk
        · exact Nat.le_trans (hearlier k hk) (Nat.le_add_right ..)
        · cases List.mem_singleton.1 hk
          exact Nat.le_refl _
      have hone : ∀ i j, index ≤ i → i < j → j < index + (body.length + 1) →
          startsOver statements i j = (i == index) := by
        intro i j hi hij hj
        have hbefore : startsOver earlier i j = false := startsOver_eq_false fun k hk =>
          .inl (Nat.le_trans (hearlier k hk) (Nat.le_trans hi (Nat.le_of_lt hij)))
        have hbehind : startsOver (Part.statementsFrom (offset + (Mark.sources (head :: body)).size)
            (index + (body.length + 1)) ps) i j = false := startsOver_eq_false fun k hk =>
          .inr (Nat.lt_of_lt_of_le hj (Part.mem_statementsFrom k hk).1)
        rw [hst', startsOver_append, startsOver_append, hbefore, hbehind, Bool.false_or,
          Bool.or_false]
        exact startsOver_singleton (Nat.le_trans hi (Nat.le_of_lt hij)) hj
      obtain ⟨i', previous', hi', hready, hbody⟩ := specifiersFrom_statement
        (hheads head body at? (List.mem_cons_self ..)) hone previous?
        (previous?.any (·.2.isWord "from")) at?
        (Mark.place (offset + (Mark.sources (head :: body)).size) (Part.allMarks ps))
      have hprevious' : ∀ p ∈ some (i', previous'), p.1 < index + (body.length + 1) := fun p hp => by
        cases hp
        exact hi'
      have hrec := ih hst' hearlier' hprevious' hheads'
      rw [Option.any_some, hready] at hrec
      rw [Part.allMarks_cons, Part.marks, Mark.place_append, hbody, hrec, Part.allFlags,
        specifierTokens_append, Part.map_fst_flags]
      rfl

theorem specifiers_parse (t : Text) :
    (parse t).specifiers = specifierTokens t.markSize (Part.allFlags false t.parts) := by
  rw [specifiers, statements_parse]
  have hnone : ∀ p ∈ (none : Option (Nat × Token)), p.1 < 0 := fun p hp => by cases hp
  rw [parse, tokenize_eq_place]
  exact specifiersFrom_place (List.nil_append _).symm (by simp) hnone
    fun head body at? h => isWord_of_mem_outline h

end Script

end TidyImports
