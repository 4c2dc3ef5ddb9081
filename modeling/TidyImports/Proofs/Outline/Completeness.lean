-- SUMMARY: Every declaration of the grammar is recognized, if its search is not led astray.
import TidyImports.Proofs.Outline.Search

/-!
# Declarations of the grammar

The specifier is searched for before the clause is read, by the next `from`. So
a declaration is recognized wherever its own `from` is the next one and nothing
stops the search before it. The statement of a declaration reaches through a `;`
on the line where the specifier ends, and holds no comment.
-/

namespace TidyImports

open Token

/-- Tokens of a text that read as a declaration of the grammar: an `import` that is first on its
line and outside braces but for those of statements, a clause, the word `from`, and a closed
string. -/
structure Text.HasDeclaration (t : Text) (before : List Token) (head : Token)
    (clause : List Token) (word specifier : Token) (after : List Token)
    (default? : Option String) (named : List String) : Prop where
  tokens : tokenize t = before ++ head :: (clause ++ word :: specifier :: after)
  outside : (Script.codeFrom 0 (Script.parse t).statements before).foldl
    Statement.depthAfter 0 = 0
  keyword : head.isWord "import"
  leading : t.firstOnLine head.start
  isClause : Statement.IsClause clause default? named
  isFrom : word.isWord "from"
  closed : specifier.contents?.isSome

/-- The search for the specifier passes over a clause: in it is neither the word `from` nor an
`import` that is first on its line. -/
def Text.Passes (t : Text) (clause : List Token) : Prop :=
  ∀ tok ∈ clause, tok.isWord "from" = false ∧
    (tok.isWord "import" && t.firstOnLine tok.start) = false

instance (t : Text) (clause : List Token) : Decidable (t.Passes clause) :=
  inferInstanceAs (Decidable (∀ tok ∈ clause, _ ∧ _))

/-- No comment stands between a specifier and a `;` on the line where the specifier ends. -/
def Text.EndsPlainly (t : Text) (specifier : Token) (after : List Token) : Prop :=
  ∀ c ∈ after.head?, c.isComment → ∀ tok ∈ after.find? isCode, tok.isPunct ';' →
    '\n' ∈ t.slice ⟨specifier.stop, tok.start⟩

instance (t : Text) (specifier : Token) (after : List Token) :
    Decidable (t.EndsPlainly specifier after) :=
  inferInstanceAs (Decidable (∀ c ∈ after.head?, _ → ∀ tok ∈ after.find? isCode, _ → _))

/-- Does a `;` follow a specifier as the next token, on the line where the specifier ends? -/
def Text.HasSemicolon (t : Text) (specifier : Token) (after : List Token) : Prop :=
  ∃ tok ∈ after.head?, tok.isPunct ';' ∧ '\n' ∉ t.slice ⟨specifier.stop, tok.start⟩

/-- A declaration that says what these tokens do, and starts where they start. -/
structure Declaration.Spells (d : Declaration) (t : Text) (head specifier : Token)
    (after : List Token) (default? : Option String) (named : List String) : Prop where
  start : d.span.start = head.start
  default : d.default? = default?
  named : d.named = named
  contents : specifier.contents? = some d.specifier.toList
  quote : specifier.text.head? = some d.style.quote.char
  semicolon : d.style.semicolon ↔ t.HasSemicolon specifier after

namespace Statement

variable {t : Text} {clause after : List Token} {word specifier : Token}

/-- The `;` of a statement is the next token, if there is one. -/
theorem semicolonIndex?_of_endsPlainly (h : t.EndsPlainly specifier after) :
    (semicolonIndex? t specifier after = some 0 ∧ t.HasSemicolon specifier after) ∨
      (semicolonIndex? t specifier after = none ∧ ¬ t.HasSemicolon specifier after) := by
  cases after with
  | nil => exact .inr ⟨rfl, by simp [Text.HasSemicolon]⟩
  | cons tok after =>
    rw [semicolonIndex?, Text.HasSemicolon]
    by_cases hcode : tok.isCode
    · rw [nextCode?_cons, if_pos hcode]
      by_cases hsemicolon : tok.isPunct ';' ∧ '\n' ∉ t.slice ⟨specifier.stop, tok.start⟩
      · exact .inl (by simp [hsemicolon])
      · have hline : ¬ (tok.isPunct ';' &&
            !(t.slice ⟨specifier.stop, tok.start⟩).contains '\n') := by
          simpa using hsemicolon
        exact .inr ⟨if_neg hline, by simpa using hsemicolon⟩
    · -- The next code stands behind a comment, so it is on a later line if it is a `;`.
      have hpunct : tok.isPunct ';' = false := by
        rw [← Bool.not_eq_true]
        exact fun hp => hcode (Mark.isCode_of_isPunct hp)
      refine .inr ⟨?_, by simp [hpunct]⟩
      have hcomment : tok.isComment := by simpa [isCode] using hcode
      cases hnext : nextCode? (tok :: after) with
      | none => rfl
      | some found =>
        have hfind : (tok :: after).find? isCode = some found.2 := by
          rw [← map_snd_nextCode?, hnext]
          rfl
        have hline : ¬ (found.2.isPunct ';' &&
            !(t.slice ⟨specifier.stop, found.2.start⟩).contains '\n') := by
          simpa using h tok rfl hcomment found.2 hfind
        exact if_neg hline

theorem readDeclaration?_of_isClause {default? : Option String} {named : List String}
    {quote : Quote} {value : Text} (hclause : IsClause clause default? named)
    (hword : word.isWord "from") (hvalue : specifier.contents? = some value)
    (hquote : specifier.text.head? = some quote.char) (span : Span) (semicolon : Bool) :
    readDeclaration? span (clause ++ [word]) specifier semicolon =
      some {
        specifier := String.ofList value, span, default?, named
        style := ⟨quote, semicolon⟩ } := by
  have hchar : Quote.ofChar? quote.char = some quote := by cases quote <;> rfl
  simp [readDeclaration?, hvalue, hword, clause?_eq_some_iff.2 hclause, hquote, hchar]

/-- The tokens of a declaration before its specifier. -/
theorem specifierIndex?_of_isClause (after : List Token) {default? : Option String}
    {named : List String} (hclause : IsClause clause default? named) (hpasses : t.Passes clause)
    (hword : word.isWord "from") (hclosed : specifier.contents?.isSome) :
    ∃ i next, nextCode? (clause ++ word :: specifier :: after) = some (i, next) ∧
      next.isPunct '(' = false ∧ next.isPunct '.' = false ∧
      specifierIndex? t (clause ++ word :: specifier :: after) = some (clause.length + 1) := by
  have hkind := hclause.kind
  have hfirst : ∀ tok ∈ clause.find? isCode,
      tok.isPunct '(' = false ∧ tok.isPunct '.' = false ∧ tok.isString = false := fun tok htok => by
    rcases hkind tok (List.mem_of_find?_eq_some htok) with h | h | h | h <;>
      simp [isPunct, isString, h]
  have hinside : ∀ tok ∈ clause, tok.isPunct ';' = false ∧ tok.isWord "from" = false ∧
      (tok.isWord "import" && t.firstOnLine tok.start) = false := fun tok htok => by
    refine ⟨?_, hpasses tok htok⟩
    rcases hkind tok htok with h | h | h | h <;> simp [isPunct, h]
  obtain ⟨i, next, hnext, hparen, hdot, hstring⟩ :=
    nextCode?_clause hfirst hword (specifier :: after)
  have hindex : fromIndex? t (clause ++ word :: ([] ++ specifier :: after)) = _ :=
    fromIndex?_clause hinside hword (by simp) (isString_of_contents? hclosed)
  refine ⟨i, next, hnext, hparen, hdot, ?_⟩
  rw [specifierIndex?, hnext]
  simp only [hstring, Bool.false_eq_true, if_false]
  exact hindex

/-- No token of a declaration is a comment. -/
theorem all_isCode_of_isClause (after : List Token) {default? : Option String}
    {named : List String} (hclause : IsClause clause default? named) (hword : word.isWord "from")
    (hclosed : specifier.contents?.isSome) :
    ((clause ++ word :: specifier :: after).take (clause.length + 1 + 1)).all isCode := by
  have hspecifier := isCode_of_isString (isString_of_contents? hclosed)
  have hclauseCode : ∀ tok ∈ clause, tok.isCode := fun tok htok => by
    rcases hclause.kind tok htok with h | h | h | h <;> simp [isCode, isComment, h]
  rw [List.append_cons, List.append_cons, List.take_left' (by simp)]
  simpa [hspecifier, Mark.isCode_of_isIdent (Bool.and_eq_true_iff.1 hword).1] using hclauseCode

/-- A declaration of the grammar is read as it is written. -/
theorem exists_declaration (index : Nat) {head : Token} {default? : Option String}
    {named : List String} {quote : Quote} (hclause : IsClause clause default? named)
    (hpasses : t.Passes clause) (hword : word.isWord "from") (hclosed : specifier.contents?.isSome)
    (hquote : specifier.text.head? = some quote.char) (hends : t.EndsPlainly specifier after) :
    ∃ st d, ofHead? t index head (clause ++ word :: specifier :: after) true = some st ∧
      st.declaration? = some d ∧ d.Spells t head specifier after default? named := by
  obtain ⟨value, hvalue⟩ := Option.isSome_iff_exists.1 hclosed
  obtain ⟨i, next, hnext, hparen, hdot, hindex⟩ :=
    specifierIndex?_of_isClause after hclause hpasses hword hclosed
  have hread := readDeclaration?_of_isClause hclause hword hvalue hquote
  have hget : (clause ++ word :: specifier :: after)[clause.length + 1]? = some specifier := by
    rw [List.append_cons, List.getElem?_append_right (by simp)]
    simp
  have hbefore : (clause ++ word :: specifier :: after).take (clause.length + 1) =
      clause ++ [word] := by
    rw [List.append_cons, List.take_left' (by simp)]
  have hbehind : (clause ++ word :: specifier :: after).drop (clause.length + 1 + 1) = after := by
    rw [List.append_cons, List.append_cons, List.drop_left' (by simp)]
  have hcode := all_isCode_of_isClause after hclause hword hclosed
  rcases semicolonIndex?_of_endsPlainly hends with ⟨hsemicolon, hhas⟩ | ⟨hsemicolon, hhas⟩
  · have hall : ((clause ++ word :: specifier :: after).take
        (clause.length + 1 + 1 + 0 + 1)).all isCode := by
      obtain ⟨tok, htok, hpunct, -⟩ := hhas
      obtain ⟨more, rfl⟩ := List.head?_eq_some_iff.1 htok
      rw [Nat.add_zero, List.take_add_one, List.all_append, hcode, List.append_cons,
        List.append_cons, List.getElem?_append_right (by simp)]
      simp [Mark.isCode_of_isPunct hpunct]
    rw [ofHead?, hnext, hindex]
    simp only [hparen, hdot, Bool.or_self, Bool.false_eq_true, if_false, hget, Option.map_some,
      Option.bind_some, hbehind, hbefore, hread, hsemicolon, hall, Bool.and_self, if_true]
    exact ⟨_, _, rfl, rfl, rfl, rfl, rfl, by simp [hvalue], hquote, by simp [hhas]⟩
  · rw [ofHead?, hnext, hindex]
    simp only [hparen, hdot, Bool.or_self, Bool.false_eq_true, if_false, hget, Option.map_some,
      Option.bind_some, hbehind, hbefore, hread, hsemicolon, hcode, Bool.and_self, if_true]
    exact ⟨_, _, rfl, rfl, rfl, rfl, rfl, by simp [hvalue], hquote, by simp [hhas]⟩

end Statement

/-- A declaration of the grammar is recognized if the search for its specifier passes over its
clause and no comment stands before its `;`. -/
theorem Script.declares {t : Text} {before clause after : List Token} {head word specifier : Token}
    {default? : Option String} {named : List String}
    (h : t.HasDeclaration before head clause word specifier after default? named)
    (hpasses : t.Passes clause) (hends : t.EndsPlainly specifier after) :
    ∃ d ∈ (parse t).declarations, d.Spells t head specifier after default? named := by
  have hmem : specifier ∈ tokenize t := by simp [h.tokens]
  obtain ⟨value, hvalue⟩ := Option.isSome_iff_exists.1 h.closed
  obtain ⟨q, x, hq, htext, -⟩ := Lexer.quotable_tokenize hmem (kind_of_contents? hvalue)
  obtain ⟨quote, rfl⟩ : ∃ quote : Quote, quote.char = q := by
    rcases hq with rfl | rfl
    · exact ⟨.single, rfl⟩
    · exact ⟨.double, rfl⟩
  obtain ⟨st, d, hst, hd, hspells⟩ := Statement.exists_declaration before.length h.isClause hpasses
    h.isFrom h.closed (by rw [htext]; rfl) hends
  exact ⟨d, List.mem_filterMap.2 ⟨st, mem_statements_of_leads h.tokens h.keyword h.leading h.outside
    hst, hd⟩, hspells⟩

/-- Contextual keywords are names, and neither other statements nor braces that close stand in the
way. -/
theorem Script.declares_words :
    let t : Text := ("import * as n from 'n';\nif (x) \x7b y \x7d\n" ++
      "  import as, \x7b of as as, get, \x7d from \"m\\\"\" ;\n").toList
    ∃ d ∈ (parse t).declarations, d.Spells t ⟨.ident, 39, "import".toList⟩
      ⟨.string true, 74, "\"m\\\"\"".toList⟩ [⟨.punct ';', 80, [';']⟩] (some "as")
      ["of as as", "get"] := by
  intro t
  have h : t.HasDeclaration ((tokenize t).take 14) ⟨.ident, 39, "import".toList⟩
      (((tokenize t).drop 15).take 10) ⟨.ident, 69, "from".toList⟩
      ⟨.string true, 74, "\"m\\\"\"".toList⟩ [⟨.punct ';', 80, [';']⟩] (some "as")
      ["of as as", "get"] := by
    constructor
    case isClause => exact Statement.clause?_eq_some_iff.1 (by decide +kernel)
    all_goals decide +kernel
  exact declares h (by decide +kernel) (by decide +kernel)

/-- A comment before the `;` belongs to the statement, which is then no declaration. -/
theorem Script.declares_comment :
    ¬ ∀ (t : Text) (before clause after : List Token) (head word specifier : Token)
      (default? : Option String) (named : List String),
      t.HasDeclaration before head clause word specifier after default? named →
        ∃ d ∈ (parse t).declarations, d.Spells t head specifier after default? named := by
  intro hall
  let t : Text := "import \x7b a \x7d from 'm' /* c */;\n".toList
  have h : t.HasDeclaration [] ⟨.ident, 0, "import".toList⟩ (((tokenize t).drop 1).take 3)
      ⟨.ident, 13, "from".toList⟩ ⟨.string true, 18, "'m'".toList⟩ ((tokenize t).drop 6) none
      ["a"] := by
    constructor
    case isClause => exact Statement.clause?_eq_some_iff.1 (by decide +kernel)
    all_goals decide +kernel
  obtain ⟨d, hd, -⟩ := hall _ _ _ _ _ _ _ _ _ h
  have hnone : (parse t).declarations = [] := by decide +kernel
  rw [hnone] at hd
  cases hd

end TidyImports
