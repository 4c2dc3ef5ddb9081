-- SUMMARY: The grammar of clauses, and that reading a clause accepts exactly what it derives.
import TidyImports.Source.Statement

/-!
# The grammar of clauses

The rules say which tokens are an item, items in braces and a clause, and what
these bind. `clause?_eq_some_iff` ties them to the reading: it splits the items
at their commas, where the rules take them one by one from the front. What is
proved of all clauses goes by the rules and not by the splitting.
-/

namespace TidyImports

namespace Statement

-- ---------------------------------------------------------------------------
-- Rules
-- ---------------------------------------------------------------------------

/-- An item is a name, or a name with an alias. -/
inductive IsItem : List Token → String → Prop
  | name {a : Token} (ha : a.isIdent) : IsItem [a] a.name
  | renamed {a word b : Token} (ha : a.isIdent) (hword : word.isWord "as") (hb : b.isIdent) :
      IsItem [a, word, b] (a.name ++ Item.asWord ++ b.name)

/-- Items stand one after the other, with a comma between two and perhaps one behind the last. -/
inductive AreItems : List Token → List String → Prop
  | nil : AreItems [] []
  | last {ts : List Token} {item : String} (h : IsItem ts item) : AreItems ts [item]
  | cons {ts more : List Token} {comma : Token} {item : String} {items : List String}
      (h : IsItem ts item) (hcomma : comma.isPunct ',') (hmore : AreItems more items) :
      AreItems (ts ++ comma :: more) (item :: items)

/-- Items in braces. -/
inductive AreBraced : List Token → List String → Prop
  | mk {opening closing : Token} {inner : List Token} {items : List String}
      (hopening : opening.isPunct '\x7b') (h : AreItems inner items)
      (hclosing : closing.isPunct '\x7d') : AreBraced (opening :: (inner ++ [closing])) items

/-- A clause is a default, items in braces, or both with a comma between. -/
inductive IsClause : List Token → Option String → List String → Prop
  | default {a : Token} (ha : a.isIdent) : IsClause [a] (some a.name) []
  | named {ts : List Token} {items : List String} (h : AreBraced ts items) :
      IsClause ts none items
  | both {a comma : Token} {ts : List Token} {items : List String} (ha : a.isIdent)
      (hcomma : comma.isPunct ',') (h : AreBraced ts items) :
      IsClause (a :: comma :: ts) (some a.name) items

-- ---------------------------------------------------------------------------
-- Items
-- ---------------------------------------------------------------------------

theorem item?_eq_some_iff {ts : List Token} {item : String} :
    item? ts = some item ↔ IsItem ts item := by
  constructor
  · intro h
    rw [item?.eq_def] at h
    split at h
    · obtain ⟨ha, hitem⟩ := Option.ite_none_right_eq_some.1 h
      cases hitem
      exact .name ha
    · obtain ⟨ha, hitem⟩ := Option.ite_none_right_eq_some.1 h
      simp only [Bool.and_eq_true] at ha
      cases hitem
      exact .renamed ha.1.1 ha.1.2 ha.2
    · cases h
  · rintro (ha | ⟨ha, hword, hb⟩)
    · simp [item?, ha]
    · simp [item?, ha, hword, hb]

/-- Only names are in an item. -/
theorem IsItem.isIdent {ts : List Token} {item : String} (h : IsItem ts item) :
    ∀ tok ∈ ts, tok.isIdent := by
  cases h with
  | name ha => simpa using ha
  | renamed ha hword hb =>
    have hword : Token.isIdent _ := (Bool.and_eq_true_iff.1 hword).1
    simp [ha, hword, hb]

theorem IsItem.ne_nil {ts : List Token} {item : String} (h : IsItem ts item) : ts ≠ [] := by
  cases h <;> simp

theorem not_isPunct_of_isIdent {tok : Token} (h : tok.isIdent) (c : Char) :
    tok.isPunct c = false := by
  have hkind : tok.kind = .ident := eq_of_beq h
  rw [Token.isPunct, hkind]
  rfl

/-- The last piece between commas is dropped if it is empty. -/
theorem items?_eq {ts : List Token} (hne : ts ≠ []) :
    items? ts =
      (if (ts.splitOnP (·.isPunct ',')).getLast?.any List.isEmpty then
        (ts.splitOnP (·.isPunct ',')).dropLast else ts.splitOnP (·.isPunct ',')).mapM item? := by
  -- There is more than one piece if the last one is empty.
  have hlength : (decide ((ts.splitOnP (·.isPunct ',')).length > 1) &&
      (ts.splitOnP (·.isPunct ',')).getLast?.any List.isEmpty) =
        (ts.splitOnP (·.isPunct ',')).getLast?.any List.isEmpty := by
    obtain ⟨tok, ts, rfl⟩ := List.exists_cons_of_ne_nil hne
    obtain ⟨first, more, hsplit⟩ :=
      List.exists_cons_of_ne_nil (List.splitOnP_ne_nil (fun tok : Token => tok.isPunct ',') ts)
    rw [List.splitOnP_cons_eq_if_modifyHead, hsplit]
    cases tok.isPunct ',' with
    | true => simp
    | false => cases more <;> simp
  rw [items?, if_neg (by simpa using hne)]
  simp only [hlength]

/-- Tokens without a comma are one item. -/
theorem items?_of_forall {ts : List Token} (hne : ts ≠ [])
    (hts : ∀ tok ∈ ts, tok.isPunct ',' = false) : items? ts = (item? ts).map ([·]) := by
  have hsplit : ts.splitOnP (·.isPunct ',') = [ts] := List.splitOnP_eq_singleton hts
  rw [items?_eq hne, hsplit]
  cases h : item? ts <;> simp [hne, h]

theorem mapM_item?_cons (piece : List Token) (pieces : List (List Token)) :
    (piece :: pieces).mapM item? =
      (item? piece).bind fun item => (pieces.mapM item?).map (item :: ·) := by
  rw [List.mapM_cons]
  simp only [Option.map_eq_bind]
  rfl

/-- The items behind a comma are read on their own. -/
theorem items?_append_cons {ts more : List Token} {comma : Token}
    (hts : ∀ tok ∈ ts, tok.isPunct ',' = false) (hcomma : comma.isPunct ',') :
    items? (ts ++ comma :: more) =
      (item? ts).bind fun item => (items? more).map (item :: ·) := by
  have hsplit : (ts ++ comma :: more).splitOnP (·.isPunct ',') =
      ts :: more.splitOnP (·.isPunct ',') :=
    List.splitOnP_append_cons_of_forall_mem hts _ hcomma _
  rw [items?_eq (by simp), hsplit]
  by_cases hmore : more = []
  · subst hmore
    cases h : item? ts <;> simp [items?, h]
  · obtain ⟨first, rest, hpieces⟩ :=
      List.exists_cons_of_ne_nil (List.splitOnP_ne_nil (fun tok : Token => tok.isPunct ',') more)
    rw [items?_eq hmore, hpieces, List.getLast?_cons_cons, List.dropLast_cons_cons]
    split <;> rw [mapM_item?_cons]

/-- Tokens hold no comma, or are cut at the first. -/
theorem exists_comma (ts : List Token) :
    (∀ tok ∈ ts, tok.isPunct ',' = false) ∨
      ∃ front comma more, ts = front ++ comma :: more ∧ comma.isPunct ',' ∧
        ∀ tok ∈ front, tok.isPunct ',' = false := by
  induction ts with
  | nil => simp
  | cons tok ts ih =>
    by_cases htok : tok.isPunct ','
    · exact .inr ⟨[], tok, ts, rfl, htok, by simp⟩
    · rw [Bool.not_eq_true] at htok
      rcases ih with hts | ⟨front, comma, more, rfl, hcomma, hfront⟩
      · exact .inl (List.forall_mem_cons.2 ⟨htok, hts⟩)
      · exact .inr ⟨tok :: front, comma, more, rfl, hcomma, List.forall_mem_cons.2 ⟨htok, hfront⟩⟩

theorem areItems_of_items? {ts : List Token} {items : List String} (h : items? ts = some items) :
    AreItems ts items := by
  rcases exists_comma ts with hts | ⟨front, comma, more, hsplit, hcomma, hfront⟩
  · by_cases hne : ts = []
    · subst hne
      cases h
      exact .nil
    · rw [items?_of_forall hne hts] at h
      obtain ⟨item, hitem, rfl⟩ := Option.map_eq_some_iff.1 h
      exact .last (item?_eq_some_iff.1 hitem)
  · rw [hsplit, items?_append_cons hfront hcomma] at h
    obtain ⟨item, hitem, h⟩ := Option.bind_eq_some_iff.1 h
    obtain ⟨rest, hrest, rfl⟩ := Option.map_eq_some_iff.1 h
    rw [hsplit]
    exact .cons (item?_eq_some_iff.1 hitem) hcomma (areItems_of_items? hrest)
termination_by ts.length
decreasing_by
  rw [hsplit, List.length_append, List.length_cons]
  omega

theorem items?_eq_some_iff {ts : List Token} {items : List String} :
    items? ts = some items ↔ AreItems ts items := by
  refine ⟨areItems_of_items?, fun h => ?_⟩
  induction h with
  | nil => rfl
  | last h =>
    have hne : _ ≠ [] := h.ne_nil
    rw [items?_of_forall hne fun tok htok => not_isPunct_of_isIdent (h.isIdent tok htok) ',',
      item?_eq_some_iff.2 h]
    rfl
  | cons h hcomma _ ih =>
    rw [items?_append_cons (fun tok htok => not_isPunct_of_isIdent (h.isIdent tok htok) ',') hcomma,
      item?_eq_some_iff.2 h, ih]
    rfl

-- ---------------------------------------------------------------------------
-- Clauses
-- ---------------------------------------------------------------------------

theorem braced?_eq_some_iff {ts : List Token} {items : List String} :
    braced? ts = some items ↔ AreBraced ts items := by
  constructor
  · intro h
    rw [braced?.eq_def] at h
    split at h
    · cases h
    · next opening rest =>
      split at h
      · cases h
      · next closing hlast =>
        obtain ⟨hpunct, hitems⟩ := Option.ite_none_right_eq_some.1 h
        rw [Bool.and_eq_true] at hpunct
        obtain ⟨inner, rfl⟩ := List.getLast?_eq_some_iff.1 hlast
        rw [List.dropLast_concat] at hitems
        exact .mk hpunct.1 (items?_eq_some_iff.1 hitems) hpunct.2
  · rintro ⟨hopening, hitems, hclosing⟩
    simp [braced?, hopening, hclosing, items?_eq_some_iff.2 hitems]

/-- Braces open with no name. -/
theorem AreBraced.exists_cons {ts : List Token} {items : List String} (h : AreBraced ts items) :
    ∃ opening rest, ts = opening :: rest ∧ opening.isIdent = false := by
  obtain ⟨hopening, -, -⟩ := h
  refine ⟨_, _, rfl, ?_⟩
  rw [Token.isIdent, eq_of_beq hopening]
  rfl

/-- A clause is read as the rules derive it. -/
theorem clause?_eq_some_iff {ts : List Token} {default? : Option String} {items : List String} :
    clause? ts = some (default?, items) ↔ IsClause ts default? items := by
  constructor
  · intro h
    rw [clause?.eq_def] at h
    split at h
    · cases h
    · next tok rest =>
      split at h
      · next hident =>
        split at h
        · cases h
          exact .default hident
        · next comma more =>
          obtain ⟨hcomma, h⟩ := Option.ite_none_right_eq_some.1 h
          obtain ⟨items, hitems, h⟩ := Option.map_eq_some_iff.1 h
          cases h
          exact .both hident hcomma (braced?_eq_some_iff.1 hitems)
      · obtain ⟨items, hitems, h⟩ := Option.map_eq_some_iff.1 h
        cases h
        exact .named (braced?_eq_some_iff.1 hitems)
  · intro h
    cases h with
    | default ha => simp [clause?, ha]
    | named h =>
      have hbraced := braced?_eq_some_iff.2 h
      obtain ⟨opening, rest, rfl, hopening⟩ := h.exists_cons
      simp [clause?, hopening, hbraced]
    | both ha hcomma h => simp [clause?, ha, hcomma, braced?_eq_some_iff.2 h]

-- ---------------------------------------------------------------------------
-- What a clause is made of
-- ---------------------------------------------------------------------------

/-- An item is the name of a token, or two such names with ` as ` between. -/
def MadeOf (ts : List Token) (item : String) : Prop :=
  ∃ a ∈ ts, a.isIdent ∧
    (item = a.name ∨ ∃ b ∈ ts, b.isIdent ∧ item = a.name ++ Item.asWord ++ b.name)

theorem MadeOf.mono {ts ts' : List Token} {item : String} (h : MadeOf ts item) (hts : ts ⊆ ts') :
    MadeOf ts' item := by
  obtain ⟨a, ha, hident, hitem | ⟨b, hb, hident', hitem⟩⟩ := h
  · exact ⟨a, hts ha, hident, .inl hitem⟩
  · exact ⟨a, hts ha, hident, .inr ⟨b, hts hb, hident', hitem⟩⟩

theorem IsItem.madeOf {ts : List Token} {item : String} (h : IsItem ts item) : MadeOf ts item := by
  cases h with
  | name ha => exact ⟨_, List.mem_singleton_self _, ha, .inl rfl⟩
  | renamed ha hword hb => exact ⟨_, by simp, ha, .inr ⟨_, by simp, hb, rfl⟩⟩

theorem AreItems.madeOf {ts : List Token} {items : List String} (h : AreItems ts items) :
    ∀ item ∈ items, MadeOf ts item := by
  induction h with
  | nil => simp
  | last h => simpa using h.madeOf
  | cons h hcomma _ ih =>
    refine List.forall_mem_cons.2 ⟨h.madeOf.mono (List.subset_append_left _ _), fun item hitem => ?_⟩
    exact (ih item hitem).mono fun tok htok => List.mem_append_right _ (List.mem_cons_of_mem _ htok)

/-- Items are written with words and commas. -/
theorem AreItems.isIdent_or_isPunct {ts : List Token} {items : List String} (h : AreItems ts items) :
    ∀ tok ∈ ts, tok.isIdent ∨ tok.isPunct ',' := by
  induction h with
  | nil => simp
  | last h => exact fun tok htok => .inl (h.isIdent tok htok)
  | cons h hcomma _ ih =>
    refine List.forall_mem_append.2 ⟨fun tok htok => .inl (h.isIdent tok htok), ?_⟩
    exact List.forall_mem_cons.2 ⟨.inr hcomma, ih⟩

theorem AreBraced.madeOf {ts : List Token} {items : List String} (h : AreBraced ts items) :
    ∀ item ∈ items, MadeOf ts item := by
  obtain ⟨-, hitems, -⟩ := h
  exact fun item hitem => (hitems.madeOf item hitem).mono fun tok htok =>
    List.mem_cons_of_mem _ (List.mem_append_left _ htok)

/-- A clause is written with words, commas and braces. -/
theorem IsClause.kind {ts : List Token} {default? : Option String} {items : List String}
    (h : IsClause ts default? items) :
    ∀ tok ∈ ts, tok.kind = .ident ∨ tok.kind = .punct ',' ∨ tok.kind = .punct '\x7b' ∨
      tok.kind = .punct '\x7d' := by
  have hbraced : ∀ {ts items}, AreBraced ts items → ∀ tok ∈ ts, tok.kind = .ident ∨
      tok.kind = .punct ',' ∨ tok.kind = .punct '\x7b' ∨ tok.kind = .punct '\x7d' := by
    rintro _ _ ⟨hopening, hitems, hclosing⟩
    refine List.forall_mem_cons.2 ⟨.inr (.inr (.inl (eq_of_beq hopening))), ?_⟩
    refine List.forall_mem_append.2 ⟨fun tok htok => ?_, List.forall_mem_singleton.2 ?_⟩
    · exact (hitems.isIdent_or_isPunct tok htok).imp eq_of_beq fun hcomma => .inl (eq_of_beq hcomma)
    · exact .inr (.inr (.inr (eq_of_beq hclosing)))
  cases h with
  | default ha => exact List.forall_mem_singleton.2 (.inl (eq_of_beq ha))
  | named h => exact hbraced h
  | both ha hcomma h =>
    exact List.forall_mem_cons.2 ⟨.inl (eq_of_beq ha),
      List.forall_mem_cons.2 ⟨.inr (.inl (eq_of_beq hcomma)), hbraced h⟩⟩

theorem IsClause.madeOf {ts : List Token} {default? : Option String} {items : List String}
    (h : IsClause ts default? items) :
    (∀ name ∈ default?, ∃ a ∈ ts, a.isIdent ∧ name = a.name) ∧ ∀ item ∈ items, MadeOf ts item := by
  cases h with
  | default ha => simp [ha]
  | named h => exact ⟨by simp, h.madeOf⟩
  | both ha hcomma h =>
    refine ⟨by simp [ha], fun item hitem => (h.madeOf item hitem).mono fun tok htok => ?_⟩
    exact List.mem_cons_of_mem _ (List.mem_cons_of_mem _ htok)

end Statement

end TidyImports
