-- SUMMARY: What a recognized declaration is made of, and that it leaves lexing as it found it.
import TidyImports.Proofs.Outline.Rendering

/-!
# Recognized declarations

A statement that is recognized as a declaration consists of its clause, the word
`from`, its specifier and perhaps a `;`. The names of its clause are names that
can be written again, and its braces are balanced, so what follows is read at the
same depths as what the declaration stands in.
-/

namespace TidyImports

open Token Lexer

namespace Mark

-- ---------------------------------------------------------------------------
-- Where the specifier is found
-- ---------------------------------------------------------------------------

theorem nextCode?_eq_zero {ms : List Mark} {i j : Nat} {tok : Token}
    (h : nextCode? (ms.map token) = some (i, tok)) (hi : i ≤ j)
    (hc : ∀ m ∈ ms.take (j + 1), m.token.isCode) : i = 0 := by
  cases ms with
  | nil => cases h
  | cons m ms =>
    rw [List.map_cons, nextCode?_cons, if_pos (hc m (by simp))] at h
    cases h
    rfl

/-- Before the specifier stand marks without `from`, then `from`. -/
theorem take_of_fromIndex? {ms : List Mark} {i : Nat} (h : fromIndex? ms = some i)
    (hc : ∀ m ∈ ms.take (i + 1), m.token.isCode) :
    ∃ cl f, ms.take i = cl ++ [f] ∧ f.token.isWord "from" ∧
      ∀ m ∈ cl, m.token.isWord "from" = false := by
  fun_induction fromIndex? ms generalizing i with
  | case1 => cases h
  | case2 => cases h
  | case3 => cases h
  | case4 m rest h₁ h₂ h₃ j s hnext hs =>
    cases h
    have hj : j = 0 := nextCode?_eq_zero hnext (Nat.le_refl j) fun m hm => hc m (by simp [hm])
    subst hj
    exact ⟨[], m, by simp, h₃, by simp⟩
  | case5 => cases h
  | case6 => cases h
  | case7 m rest h₁ h₂ h₃ ih =>
    obtain ⟨j, hj, rfl⟩ := Option.map_eq_some_iff.1 h
    obtain ⟨cl, f, hcl, hf, hcf⟩ := ih hj fun m hm => hc m (by
      rw [List.take_succ_cons]
      exact List.mem_cons_of_mem _ hm)
    refine ⟨m :: cl, f, by simp [hcl], hf, fun k hk => ?_⟩
    rcases List.mem_cons.1 hk with rfl | hk
    · simpa using h₃
    · exact hcf k hk

theorem semicolonIndex?_eq_zero {ms : List Mark} {j : Nat} (h : semicolonIndex? ms = some j)
    (hc : ∀ m ∈ ms.take (j + 1), m.token.isCode) :
    j = 0 ∧ ∃ m rest, ms = m :: rest ∧ m.token.isPunct ';' := by
  cases ms with
  | nil => cases h
  | cons m ms =>
    rw [semicolonIndex?] at h
    split at h
    · cases h
    · rw [if_pos (hc m (by simp))] at h
      split at h
      · next hp =>
        cases h
        exact ⟨rfl, m, ms, rfl, hp⟩
      · cases h

theorem extent?_eq_some {ms : List Mark} {n i : Nat} (h : extent? ms = some (n, some i)) :
    specifierIndex? ms = some i ∧
      ((semicolonIndex? (ms.drop (i + 1)) = none ∧ n = i + 1) ∨
        ∃ j, semicolonIndex? (ms.drop (i + 1)) = some j ∧ n = i + 1 + j + 1) := by
  have hspec := snd_of_extent? h
  refine ⟨hspec.symm, ?_⟩
  rw [extent?, ← hspec] at h
  split at h
  · cases h
  · split at h
    · cases h
    · simp only at h
      split at h
      · next j hj =>
        cases h
        exact .inr ⟨j, hj, rfl⟩
      · next hj =>
        cases h
        exact .inl ⟨hj, rfl⟩

theorem lt_of_extent? {ms : List Mark} {n i : Nat} (h : extent? ms = some (n, some i)) : i < n := by
  rcases (extent?_eq_some h).2 with ⟨-, rfl⟩ | ⟨j, -, rfl⟩ <;> omega

end Mark

-- ---------------------------------------------------------------------------
-- The parts of a declaration
-- ---------------------------------------------------------------------------

/-- A declaration as the marks of its statement after the `import`: the clause, the word `from`, the
specifier, and what is left. -/
structure Declaration.Reads (d : Declaration) (clause : List Mark) (word specifier : Mark)
    (tail : List Mark) : Prop where
  isFrom : word.token.isWord "from"
  notFrom : ∀ m ∈ clause, m.token.isWord "from" = false
  contents : specifier.token.contents? = some d.specifier.toList
  quote : specifier.text.head? = some d.style.quote.char
  clause_eq : Statement.clause? (clause.map Mark.token) = some (d.default?, d.named)
  tail_eq : if d.style.semicolon then ∃ m : Mark, tail = [m] ∧ m.token.isPunct ';' else tail = []

theorem Statement.readDeclaration?_eq_some {span : Span} {before : List Token} {specifier : Token}
    {semicolon : Bool} {d : Declaration}
    (h : readDeclaration? span before specifier semicolon = some d) :
    ∃ clause word, before = clause ++ [word] ∧ word.isWord "from" ∧
      specifier.contents? = some d.specifier.toList ∧
      specifier.text.head? = some d.style.quote.char ∧
      clause? clause = some (d.default?, d.named) ∧ d.style.semicolon = semicolon := by
  simp only [readDeclaration?, Option.bind_eq_bind, Option.bind_eq_some_iff] at h
  obtain ⟨value, hvalue, word, hword, h⟩ := h
  split at h
  · cases h
  · next hfrom =>
    simp only [Option.bind_eq_some_iff] at h
    obtain ⟨⟨default?, named⟩, hclause, quote, hquote, h⟩ := h
    cases h
    obtain ⟨c, hc, hq⟩ := hquote
    refine ⟨before.dropLast, word, ?_, by simpa using hfrom, by simp [hvalue], ?_, hclause, rfl⟩
    · have hne : before ≠ [] := by
        rintro rfl
        cases hword
      rw [← List.dropLast_concat_getLast hne]
      rw [List.getLast?_eq_some_getLast hne] at hword
      cases hword
      simp
    · rw [hc]
      simp only [Quote.ofChar?] at hq
      split at hq
      · next h => cases hq; rw [h]; rfl
      · split at hq
        · next h => cases hq; rw [h]; rfl
        · cases hq

/-- A recognized statement, and what follows it when no `;` ends it. -/
theorem Part.reads_of_declaration? {head : Mark} {rest : List Mark} {n : Nat} {at? : Option Nat}
    {d : Declaration} (he : Mark.extent? rest = some (n, at?))
    (h : (Part.statement head (rest.take n) at?).declaration? = some d) :
    head.leads ∧ (d.style.semicolon = false → Mark.semicolonIndex? (rest.drop n) = none) ∧
      ∃ clause word specifier tail, rest.take n = clause ++ word :: specifier :: tail ∧
        at? = some (clause.length + 1) ∧ d.Reads clause word specifier tail := by
  simp only [declaration?, Option.bind_eq_bind, Option.bind_eq_some_iff] at h
  obtain ⟨i, rfl, specifier, hs, h⟩ := h
  split at h
  · next hcode =>
    rw [Bool.and_eq_true] at hcode
    obtain ⟨hleads, hcode⟩ := hcode
    have hcode : ∀ m ∈ rest.take n, m.token.isCode := by
      rw [List.all_map, List.all_eq_true] at hcode
      exact hcode
    obtain ⟨hspec, hsemi⟩ := Mark.extent?_eq_some he
    have hn : i + 1 ≤ n := Mark.lt_of_extent? he
    have hle := Mark.extent?_le he
    obtain ⟨clause, word, hbefore, hword, hcontents, hquote, hclause, hstyle⟩ :=
      Statement.readDeclaration?_eq_some h
    have htake : (rest.take n).take i = rest.take i := by
      rw [List.take_take, Nat.min_eq_left (by omega)]
    rw [htake] at hbefore
    have hcode' : ∀ m ∈ rest.take (i + 1), m.token.isCode := fun m hm =>
      hcode m (List.mem_of_mem_take (i := i + 1) (by rwa [List.take_take, Nat.min_eq_left hn]))
    have hfrom : Mark.fromIndex? rest = some i := by
      rw [Mark.specifierIndex?] at hspec
      split at hspec
      · cases hspec
      · next k next hnext =>
        split at hspec
        · cases hspec
          have := Mark.nextCode?_eq_zero hnext (Nat.le_refl _) hcode'
          subst this
          simp at hbefore
        · exact hspec
    obtain ⟨cl, f, hcl, hf, hcf⟩ := Mark.take_of_fromIndex? hfrom hcode'
    have hlen : i = cl.length + 1 := by
      have := congrArg List.length hcl
      rw [List.length_take_of_le (by omega)] at this
      simpa using this
    rw [hcl, List.map_append, List.map_singleton] at hbefore
    obtain ⟨rfl, hlast⟩ := List.append_inj' hbefore rfl
    have hspecifier : rest[i]? = some specifier := by
      rwa [List.getElem?_take_of_lt (by omega)] at hs
    have htail : rest.take n = cl ++ f :: specifier :: (rest.take n).drop (i + 1) := by
      have h₁ := (List.take_append_drop (i + 1) (rest.take n)).symm
      have h₂ : (rest.take n).take (i + 1) = cl ++ [f, specifier] := by
        rw [List.take_take, Nat.min_eq_left hn, List.take_add_one, hspecifier, hcl]
        simp
      rw [h₂] at h₁
      simpa using h₁
    -- A `;` that ends the statement stands right behind the specifier.
    have hend : (d.style.semicolon = false → Mark.semicolonIndex? (rest.drop n) = none) ∧
        if d.style.semicolon then
          ∃ m : Mark, (rest.take n).drop (i + 1) = [m] ∧ m.token.isPunct ';'
        else (rest.take n).drop (i + 1) = [] := by
      rw [hstyle, List.length_take_of_le hle]
      rcases hsemi with ⟨hj, rfl⟩ | ⟨j, hj, rfl⟩
      · rw [decide_eq_false (Nat.lt_irrefl _)]
        exact ⟨fun _ => hj, by simp⟩
      · obtain ⟨rfl, m, rest', hdrop, hm⟩ := Mark.semicolonIndex?_eq_zero hj fun k hk => by
          refine hcode k ?_
          rw [List.take_drop] at hk
          exact List.mem_of_mem_drop (by simpa [Nat.add_comm, Nat.add_left_comm] using hk)
        rw [decide_eq_true (by omega)]
        refine ⟨fun h => (by cases h), ?_⟩
        rw [if_pos rfl]
        refine ⟨m, ?_, hm⟩
        rw [List.drop_take, hdrop]
        simp
    refine ⟨hleads, hend.1, cl, f, specifier, (rest.take n).drop (i + 1), htail, by rw [hlen], ?_⟩
    exact {
      isFrom := hf
      notFrom := hcf
      contents := hcontents
      quote := hquote
      clause_eq := hclause
      tail_eq := hend.2 }
  · cases h

-- ---------------------------------------------------------------------------
-- The names of a clause
-- ---------------------------------------------------------------------------

namespace Statement

theorem MadeOf.wellFormed {ts : List Token} {item : String} (h : MadeOf ts item)
    (hn : ∀ tok ∈ ts, tok.isIdent → IsName tok.text) : Item.WellFormed item := by
  obtain ⟨a, ha, hident, rfl | ⟨b, hb, hident', rfl⟩⟩ := h
  · left
    rw [Token.name, String.toList_ofList]
    exact hn a ha hident
  · exact .inr ⟨a.text, b.text, hn a ha hident, hn b hb hident', by simp [Token.name]⟩

/-- The tokens of a clause are words and commas, and perhaps braces around the last of them. -/
theorem clause?_eq_some {ts : List Token} {default? : Option String} {named : List String}
    (h : clause? ts = some (default?, named)) (hn : ∀ tok ∈ ts, tok.isIdent → IsName tok.text) :
    (∃ front braces, ts = front ++ braces ∧ (∀ tok ∈ front, tok.isIdent ∨ tok.isPunct ',') ∧
      (braces = [] ∨ ∃ o inner c, braces = o :: (inner ++ [c]) ∧ o.isPunct '\x7b' ∧
        c.isPunct '\x7d' ∧ ∀ tok ∈ inner, tok.isIdent ∨ tok.isPunct ',')) ∧
      (∀ name ∈ default?, IsName name.toList) ∧ ∀ item ∈ named, Item.WellFormed item := by
  have hclause := clause?_eq_some_iff.1 h
  obtain ⟨hdefault, hnamed⟩ := hclause.madeOf
  refine ⟨?_, fun name hname => ?_, fun item hitem => (hnamed item hitem).wellFormed hn⟩
  · cases hclause with
    | default ha => exact ⟨[_], [], rfl, by simp [ha], .inl rfl⟩
    | named h =>
      obtain ⟨hopening, hitems, hclosing⟩ := h
      exact ⟨[], _, rfl, by simp,
        .inr ⟨_, _, _, rfl, hopening, hclosing, hitems.isIdent_or_isPunct⟩⟩
    | both ha hcomma h =>
      obtain ⟨hopening, hitems, hclosing⟩ := h
      exact ⟨[_, _], _, rfl, by simp [ha, hcomma],
        .inr ⟨_, _, _, rfl, hopening, hclosing, hitems.isIdent_or_isPunct⟩⟩
  · obtain ⟨a, ha, hident, rfl⟩ := hdefault name hname
    rw [Token.name, String.toList_ofList]
    exact hn a ha hident

end Statement

-- ---------------------------------------------------------------------------
-- What a declaration leaves
-- ---------------------------------------------------------------------------

theorem Lexer.depths_after_list {s : Lexer.State} {ms : List Mark}
    (h : ∀ m ∈ ms, m.token.isIdent ∨ m.token.isPunct ',') :
    (s.afterMarks ms).depths = s.depths := by
  induction ms generalizing s with
  | nil => rfl
  | cons m ms ih =>
    rw [State.afterMarks_cons, ih fun m hm => h m (List.mem_cons_of_mem _ hm)]
    obtain ⟨gap, kind, text, leads⟩ := m
    rcases h _ (List.mem_cons_self ..) with h | h
    · cases eq_of_beq h
      rfl
    · cases eq_of_beq h
      rfl

namespace Declaration.Reads

variable {d : Declaration} {clause tail : List Mark} {word specifier : Mark}

theorem isName (h : d.Reads clause word specifier tail) (hp : ∀ m ∈ clause, m.Proper) :
    ∀ tok ∈ clause.map Mark.token, tok.isIdent → IsName tok.text := by
  intro tok htok hi
  obtain ⟨m, hm, rfl⟩ := List.mem_map.1 htok
  have hshape := (hp m hm).shapes
  have hkind : m.kind = .ident := eq_of_beq hi
  rw [hkind] at hshape
  refine ⟨hshape, fun hfrom => ?_⟩
  have := h.notFrom m hm
  simp [Token.isWord, hi, hfrom] at this

/-- The names that a recognized declaration binds can be written again. -/
theorem names (h : d.Reads clause word specifier tail) (hp : ∀ m ∈ clause, m.Proper) :
    (∀ name ∈ d.default?, IsName name.toList) ∧ ∀ item ∈ d.named, Item.WellFormed item :=
  (Statement.clause?_eq_some h.clause_eq (h.isName hp)).2

theorem depths_after_clause (h : d.Reads clause word specifier tail)
    (hp : ∀ m ∈ clause, m.Proper) (s : Lexer.State) :
    (s.afterMarks clause).depths = s.depths := by
  obtain ⟨⟨front, braces, hsplit, hfront, hbraces⟩, -⟩ :=
    Statement.clause?_eq_some h.clause_eq (h.isName hp)
  obtain ⟨ms, ns, rfl, rfl, rfl⟩ := List.map_eq_append_iff.1 hsplit
  rw [Lexer.State.afterMarks_append]
  have hlist : ∀ ks : List Mark, (∀ tok ∈ ks.map Mark.token, tok.isIdent ∨ tok.isPunct ',') →
      ∀ s : Lexer.State, (s.afterMarks ks).depths = s.depths := fun ks hks s =>
    Lexer.depths_after_list fun m hm => hks _ (List.mem_map_of_mem hm)
  rcases hbraces with hnil | ⟨o, inner, c, hns, ho, hc, hinner⟩
  · rw [List.map_eq_nil_iff.1 hnil]
    exact hlist ms hfront s
  · obtain ⟨m, ks, rfl, rfl, hks⟩ := List.map_eq_cons_iff.1 hns
    obtain ⟨is, cs, rfl, rfl, hcs⟩ := List.map_eq_append_iff.1 hks
    obtain ⟨k, rest, rfl, rfl, hrest⟩ := List.map_eq_cons_iff.1 hcs
    rw [List.map_eq_nil_iff.1 hrest, Lexer.State.afterMarks_cons, Lexer.State.afterMarks_append,
      Lexer.State.afterMarks_cons, Lexer.State.afterMarks_nil]
    have hm : m.kind = .punct '\x7b' := eq_of_beq ho
    have hk : k.kind = .punct '\x7d' := eq_of_beq hc
    have hbody := hlist is hinner ((s.afterMarks ms).after m.kind m.text)
    have hopen : ((s.afterMarks ms).after m.kind m.text).depths = Lexer.deepen s.depths := by
      rw [hm, ← hlist ms hfront s]
      rfl
    rw [hk]
    change Lexer.lighten _ = s.depths
    rw [hbody, hopen, Canonical.lighten_deepen]

/-- A recognized declaration leaves lexing at the depths at which it found it. -/
theorem after_eq (h : d.Reads clause word specifier tail) (hp : ∀ m ∈ clause, m.Proper)
    (s : Lexer.State) :
    s.afterMarks (clause ++ word :: specifier :: tail) = ⟨d.style.semicolon, s.depths⟩ := by
  have hdepths := h.depths_after_clause hp s
  have hword : word.kind = .ident := eq_of_beq (Bool.and_eq_true_iff.1 h.isFrom).1
  have hspec : specifier.kind = .string true := Token.kind_of_contents? h.contents
  have htail := h.tail_eq
  rw [Lexer.State.afterMarks_append, Lexer.State.afterMarks_cons, Lexer.State.afterMarks_cons,
    hword, hspec]
  split at htail
  · next hsemi =>
    obtain ⟨m, rfl, hm⟩ := htail
    have hkind : m.kind = .punct ';' := eq_of_beq hm
    rw [Lexer.State.afterMarks_cons, Lexer.State.afterMarks_nil, hkind, hsemi, ← hdepths]
    rfl
  · next hsemi =>
    rw [htail, Lexer.State.afterMarks_nil, Bool.eq_false_iff.2 hsemi, ← hdepths]
    rfl

end Declaration.Reads

end TidyImports
