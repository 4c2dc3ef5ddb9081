-- SUMMARY: The search for the specifier of an import, from its clause on.
import TidyImports.Proofs.Outline.Leading

/-!
# The search for the specifier

Behind an `import` with a clause, the search takes the string after the next
`from`. It gets there if no token of the clause is a `;`, the word `from`, or an
`import` that is first on its line.
-/

namespace TidyImports

open Token

namespace Token

theorem isString_of_contents? {tok : Token} (h : tok.contents?.isSome) : tok.isString := by
  obtain ⟨kind, start, text⟩ := tok
  cases kind with
  | string closed => rfl
  | _ => cases h

theorem isCode_of_isString {tok : Token} (h : tok.isString) : tok.isCode := by
  obtain ⟨kind, start, text⟩ := tok
  cases kind with
  | string closed => rfl
  | _ => cases h

theorem nextCode?_comments {comments after : List Token} {tok : Token}
    (hcomments : ∀ c ∈ comments, c.isComment) (htok : tok.isCode) :
    nextCode? (comments ++ tok :: after) = some (comments.length, tok) := by
  induction comments with
  | nil => rw [List.nil_append, nextCode?_cons, if_pos htok]; rfl
  | cons c comments ih =>
    have hc : ¬ c.isCode := by simp [isCode, hcomments c (List.mem_cons_self ..)]
    rw [List.cons_append, nextCode?_cons, if_neg hc,
      ih fun c hc => hcomments c (List.mem_cons_of_mem _ hc)]
    rfl

theorem map_snd_nextCode? (ts : List Token) : (nextCode? ts).map Prod.snd = ts.find? isCode := by
  induction ts with
  | nil => rfl
  | cons tok ts ih =>
    rw [nextCode?_cons, List.find?_cons]
    cases tok.isCode with
    | true => rfl
    | false =>
      rw [← ih]
      cases nextCode? ts <;> rfl

end Token

namespace Statement

variable {t : Text} {clause comments after : List Token} {from' specifier : Token}

theorem fromIndex?_clause
    (hinside : ∀ tok ∈ clause, tok.isPunct ';' = false ∧ tok.isWord "from" = false ∧
      (tok.isWord "import" && t.firstOnLine tok.start) = false)
    (hfrom : from'.isWord "from") (hcomments : ∀ tok ∈ comments, tok.isComment)
    (hspecifier : specifier.isString) :
    fromIndex? t (clause ++ from' :: (comments ++ specifier :: after)) =
      some (clause.length + (comments.length + 1)) := by
  induction clause with
  | nil =>
    have htext : from'.text = "from".toList := eq_of_beq (Bool.and_eq_true_iff.1 hfrom).2
    have hsemicolon : from'.isPunct ';' = false :=
      not_isPunct_of_isIdent (Bool.and_eq_true_iff.1 hfrom).1 _
    have himport : from'.isWord "import" = false := by
      rw [isWord, htext, Bool.and_eq_false_iff]
      exact .inr rfl
    rw [List.nil_append, fromIndex?, hsemicolon, himport, hfrom,
      nextCode?_comments hcomments (isCode_of_isString hspecifier)]
    simp [hspecifier]
  | cons tok clause ih =>
    obtain ⟨hsemicolon, hword, himport⟩ := hinside tok (List.mem_cons_self ..)
    rw [List.cons_append, fromIndex?, hsemicolon, hword, himport,
      ih fun tok htok => hinside tok (List.mem_cons_of_mem _ htok), List.length_cons]
    simp [Nat.add_right_comm]

/-- The first code behind an `import` that has a clause. -/
theorem nextCode?_clause
    (hnext : ∀ tok ∈ clause.find? isCode,
      tok.isPunct '(' = false ∧ tok.isPunct '.' = false ∧ tok.isString = false)
    (hfrom : from'.isWord "from") (more : List Token) :
    ∃ i tok, nextCode? (clause ++ from' :: more) = some (i, tok) ∧
      tok.isPunct '(' = false ∧ tok.isPunct '.' = false ∧ tok.isString = false := by
  have hident := (Bool.and_eq_true_iff.1 hfrom).1
  rw [Mark.nextCode?_append, nextCode?_cons, if_pos (Mark.isCode_of_isIdent hident)]
  cases hclause : nextCode? clause with
  | none =>
    exact ⟨_, from', rfl, not_isPunct_of_isIdent hident _, not_isPunct_of_isIdent hident _,
      Mark.isString_of_isIdent hident⟩
  | some found =>
    refine ⟨found.1, found.2, rfl, hnext found.2 ?_⟩
    rw [← map_snd_nextCode?, hclause]
    rfl

end Statement

/-- A search that finds a string finds the specifier of a statement. -/
theorem Mark.extent?_of_specifierIndex? {q : List Mark} {i j : Nat} {next : Token}
    (hnext : Token.nextCode? (q.map token) = some (j, next))
    (hparen : next.isPunct '(' = false) (hdot : next.isPunct '.' = false)
    (hindex : specifierIndex? q = some i) : ∃ n, extent? q = some (n, some i) := by
  rw [extent?, hnext, hindex]
  simp only [hparen, hdot, Bool.or_self, Bool.false_eq_true, if_false]
  split <;> exact ⟨_, rfl⟩

end TidyImports
