-- SUMMARY: Clauses and declarations are read off the kinds of tokens and the text of identifiers.
import TidyImports.Source.Detection
import TidyImports.Proofs.Lexing.Marks

/-!
# Bare tokens

What is read off tokens, a clause, a declaration, the names that code declares
and uses, asks for their kinds and for the text of identifiers. A map that keeps
these is faithful. A bare token, which has lost its place, is read as the token
itself, and so is a shape, which has lost all other text as well.
-/

namespace TidyImports

namespace Token

/-- Does a map of tokens keep their kinds and the text of identifiers? -/
structure Faithful (f : Token → Token) : Prop where
  kind (t : Token) : (f t).kind = t.kind
  text {t : Token} (h : t.isIdent) : (f t).text = t.text

namespace Faithful

variable {f : Token → Token} (hf : Faithful f)
include hf

theorem isCode (t : Token) : (f t).isCode = t.isCode := by
  rw [Token.isCode, Token.isCode, isComment, isComment, hf.kind]

theorem isIdent (t : Token) : (f t).isIdent = t.isIdent := by rw [Token.isIdent, hf.kind]; rfl

theorem isWord (t : Token) (w : String) : (f t).isWord w = t.isWord w := by
  rw [Token.isWord, Token.isWord, hf.isIdent]
  cases h : t.isIdent with
  | false => rfl
  | true => rw [hf.text h]

theorem isPunct (t : Token) (c : Char) : (f t).isPunct c = t.isPunct c := by
  rw [Token.isPunct, hf.kind]; rfl

theorem isString (t : Token) : (f t).isString = t.isString := by
  rw [Token.isString, Token.isString, hf.kind]

theorem name {t : Token} (h : t.isIdent) : (f t).name = t.name := by
  rw [Token.name, hf.text h]; rfl

end Faithful

/-- A token without its place. -/
def bare (t : Token) : Token := { t with start := 0 }

theorem faithful_bare : Faithful bare := ⟨fun _ => rfl, fun _ => rfl⟩

@[simp] theorem isCode_bare (t : Token) : t.bare.isCode = t.isCode := rfl

@[simp] theorem isWord_bare (t : Token) (w : String) : t.bare.isWord w = t.isWord w := rfl

@[simp] theorem isPunct_bare (t : Token) (c : Char) : t.bare.isPunct c = t.isPunct c := rfl

@[simp] theorem contents?_bare (t : Token) : t.bare.contents? = t.contents? := rfl

/-- What has contents is a closed string. -/
theorem kind_of_contents? {t : Token} {x : Text} (h : t.contents? = some x) :
    t.kind = .string true := by
  rw [contents?] at h
  split at h
  · next hk => exact hk
  · cases h

theorem nextCode?_cons (t : Token) (ts : List Token) :
    nextCode? (t :: ts) =
      if t.isCode then some (0, t) else (nextCode? ts).map fun (i, next) => (i + 1, next) := by
  by_cases h : t.isCode
  · simp [nextCode?, List.findIdx?_cons, h]
  · cases hf : ts.findIdx? isCode with
    | none => simp [nextCode?, List.findIdx?_cons, h, hf]
    | some i => cases hi : ts[i]? <;> simp [nextCode?, List.findIdx?_cons, h, hf, hi]

@[simp] theorem nextCode?_nil : nextCode? [] = none := rfl

theorem getElem?_of_nextCode? {ts : List Token} {i : Nat} {t : Token}
    (h : nextCode? ts = some (i, t)) : ts[i]? = some t ∧ t.isCode := by
  induction ts generalizing i with
  | nil => cases h
  | cons u ts ih =>
    rw [nextCode?_cons] at h
    split at h
    · next hu =>
      cases h
      exact ⟨rfl, hu⟩
    · obtain ⟨⟨j, v⟩, hj, heq⟩ := Option.map_eq_some_iff.1 h
      cases heq
      exact ih hj

theorem nextCode?_map {f : Token → Token} (hf : Faithful f) (ts : List Token) :
    nextCode? (ts.map f) = (nextCode? ts).map fun (i, t) => (i, f t) := by
  induction ts with
  | nil => rfl
  | cons t ts ih =>
    rw [List.map_cons, nextCode?_cons, nextCode?_cons, ih, hf.isCode]
    split
    · rfl
    · cases nextCode? ts <;> rfl

theorem lastCode?_cons (t : Token) (ts : List Token) :
    lastCode? (t :: ts) = (lastCode? ts).or (if t.isCode then some t else none) := by
  simp only [lastCode?, List.findRev?]
  cases List.findRev? isCode ts with
  | none => by_cases h : t.isCode <;> simp [h]
  | some u => rfl

theorem lastCode?_append (ts us : List Token) :
    lastCode? (ts ++ us) = (lastCode? us).or (lastCode? ts) := by
  induction ts with
  | nil => rw [List.nil_append]; cases lastCode? us <;> rfl
  | cons t ts ih => rw [List.cons_append, lastCode?_cons, lastCode?_cons, ih, Option.or_assoc]

theorem lastCode?_map {f : Token → Token} (hf : Faithful f) (ts : List Token) :
    lastCode? (ts.map f) = (lastCode? ts).map f := by
  induction ts with
  | nil => rfl
  | cons t ts ih =>
    rw [List.map_cons, lastCode?_cons, lastCode?_cons, ih, hf.isCode]
    cases lastCode? ts with
    | none => by_cases h : t.isCode <;> simp [h]
    | some u => rfl

end Token

namespace Statement

open Token

-- ---------------------------------------------------------------------------
-- Clauses
-- ---------------------------------------------------------------------------

theorem splitOnP_map {α β : Type} (f : α → β) (p : β → Bool) (xs : List α) :
    (xs.map f).splitOnP p = (xs.splitOnP (p ∘ f)).map (List.map f) := by
  induction xs with
  | nil => rfl
  | cons x xs ih =>
    simp only [List.map_cons, List.splitOnP_cons_eq_if_modifyHead, Function.comp_apply, ih]
    split
    · rfl
    · cases List.splitOnP (p ∘ f) xs <;> rfl

section

variable {f : Token → Token} (hf : Faithful f)
include hf

theorem item?_map (ts : List Token) : item? (ts.map f) = item? ts := by
  rcases ts with _ | ⟨a, _ | ⟨b, _ | ⟨c, _ | ⟨d, ts⟩⟩⟩⟩
  · rfl
  · simp only [List.map_cons, List.map_nil, item?, hf.isIdent]
    split
    · next h => rw [hf.name h]
    · rfl
  · rfl
  · simp only [List.map_cons, List.map_nil, item?, hf.isIdent, hf.isWord]
    split
    · next h =>
      simp only [Bool.and_eq_true] at h
      rw [hf.name h.1.1, hf.name h.2]
    · rfl
  · rfl

theorem mapM_item?_map (pieces : List (List Token)) :
    (pieces.map (List.map f)).mapM item? = pieces.mapM item? := by
  induction pieces with
  | nil => rfl
  | cons p ps ih => simp only [List.map_cons, List.mapM_cons, item?_map hf, ih]

theorem items?_map (ts : List Token) : items? (ts.map f) = items? ts := by
  have hcomma : (fun t => (f t).isPunct ',') = fun t : Token => t.isPunct ',' :=
    funext fun t => hf.isPunct t ','
  have hsplit : (ts.map f).splitOnP (·.isPunct ',') =
      (ts.splitOnP (·.isPunct ',')).map (List.map f) := by
    rw [splitOnP_map]
    exact congrArg (fun p => (ts.splitOnP p).map (List.map f)) hcomma
  have hlast : ∀ pieces : List (List Token),
      (pieces.map (List.map f)).getLast?.any List.isEmpty = pieces.getLast?.any List.isEmpty := by
    intro pieces
    rw [List.getLast?_map]
    cases pieces.getLast? with
    | none => rfl
    | some p => cases p <;> rfl
  simp only [items?, List.isEmpty_map, hsplit, List.length_map, hlast, ← List.map_dropLast]
  split
  · rfl
  · split <;> exact mapM_item?_map hf _

theorem braced?_map (ts : List Token) : braced? (ts.map f) = braced? ts := by
  cases ts with
  | nil => rfl
  | cons opening rest =>
    simp only [List.map_cons, braced?, List.getLast?_map]
    cases rest.getLast? with
    | none => rfl
    | some closing => simp [← List.map_dropLast, items?_map hf, hf.isPunct]

theorem clause?_map (ts : List Token) : clause? (ts.map f) = clause? ts := by
  cases ts with
  | nil => rfl
  | cons tok rest =>
    have hbraced := braced?_map hf (tok :: rest)
    rw [List.map_cons] at hbraced ⊢
    by_cases h : tok.isIdent
    · cases rest with
      | nil => simp [clause?, hf.isIdent, h, hf.name h]
      | cons comma more =>
        simp [clause?, hf.isIdent, h, hf.name h, hf.isPunct, braced?_map hf]
    · simp [clause?, hf.isIdent, h, hbraced]

/-- A declaration is read off the tokens before its specifier up to a faithful map. -/
theorem readDeclaration?_map (span : Span) (before : List Token) (specifier : Token)
    (semicolon : Bool) :
    readDeclaration? span (before.map f) specifier semicolon =
      readDeclaration? span before specifier semicolon := by
  simp only [readDeclaration?, List.getLast?_map, ← List.map_dropLast, clause?_map hf]
  cases before.getLast? with
  | none => rfl
  | some word => simp [hf.isWord]

end

/-- The place of a declaration has no part in how it is read. -/
theorem readDeclaration?_span (span span' : Span) (before : List Token) (specifier : Token)
    (semicolon : Bool) :
    (readDeclaration? span before specifier semicolon).map (fun d => { d with span := span' }) =
      readDeclaration? span' before specifier semicolon := by
  simp only [readDeclaration?]
  cases specifier.contents? with
  | none => rfl
  | some value =>
    cases before.getLast? with
    | none => rfl
    | some word =>
      simp only [Option.bind_eq_bind, Option.bind_some]
      split
      · rfl
      · cases clause? before.dropLast with
        | none => rfl
        | some clause =>
          cases specifier.text.head?.bind Quote.ofChar? <;> rfl

end Statement

end TidyImports
