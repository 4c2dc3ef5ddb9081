-- SUMMARY: A declaration that is written out is read back as it was meant.
import TidyImports.Import.Canonical
import TidyImports.Proofs.Outline.Grammar
import TidyImports.Proofs.Outline.Locality

/-!
# Written declarations

The marks of a written declaration are given outright. Their text is the
rendered one, the lexer finds them in it, and the statement they make is
recognized and binds what the canonical import does.
-/

namespace TidyImports

open Text Lexer

-- ---------------------------------------------------------------------------
-- Well-formed names
-- ---------------------------------------------------------------------------

/-- A name that an import can bind: an identifier, but not the word `from`. -/
def IsName (w : Text) : Prop := isWord w ∧ w ≠ "from".toList

/-- An item that can stand in braces: a name, or a name and its alias. -/
def Item.WellFormed (item : String) : Prop :=
  IsName item.toList ∨
    ∃ a b, IsName a ∧ IsName b ∧ item.toList = a ++ Item.asWord.toList ++ b

/-- A canonical import that can be written: its names are names, and no quote, backslash or line
feed is in its specifier. -/
structure Canonical.Writable (c : Canonical) : Prop where
  default : ∀ d ∈ c.default?, IsName d.toList
  named : ∀ item ∈ c.named, Item.WellFormed item
  specifier : isPlain c.specifier.toList
  binds : c.default?.isSome ∨ c.named.isEmpty = false

/-- A canonical import that can be written with a given quote: its names are names, and its
specifier can stand between such quotes as it is. -/
structure Canonical.WritableIn (c : Canonical) (quote : Quote) : Prop where
  default : ∀ d ∈ c.default?, IsName d.toList
  named : ∀ item ∈ c.named, Item.WellFormed item
  specifier : IsQuotable quote.char c.specifier.toList
  binds : c.default?.isSome ∨ c.named.isEmpty = false

/-- An item spelled as items are: a word, or two with `as` between. -/
def Item.Spelled (item : String) : Prop :=
  isWord item.toList ∨
    ∃ a b : Text, isWord a ∧ isWord b ∧ item.toList = a ++ Item.asWord.toList ++ b

/-- A canonical import whose text is read as the tokens it is meant to be, even if a name in it is
taken for the `from` of the declaration. -/
structure Canonical.SpelledIn (c : Canonical) (quote : Quote) : Prop where
  default : ∀ d ∈ c.default?, isWord d.toList
  named : ∀ item ∈ c.named, Item.Spelled item
  specifier : IsQuotable quote.char c.specifier.toList
  binds : c.default?.isSome ∨ c.named.isEmpty = false

theorem Item.WellFormed.spelled {item : String} (h : Item.WellFormed item) : Item.Spelled item := by
  rcases h with h | ⟨a, b, ha, hb, hitem⟩
  · exact .inl h.1
  · exact .inr ⟨a, b, ha.1, hb.1, hitem⟩

theorem Canonical.WritableIn.spelledIn {c : Canonical} {quote : Quote} (h : c.WritableIn quote) :
    c.SpelledIn quote where
  default d hd := (h.default d hd).1
  named item hitem := (h.named item hitem).spelled
  specifier := h.specifier
  binds := h.binds

theorem quote_char (q : Quote) : q.char = '\'' ∨ q.char = '"' := by
  cases q <;> simp [Quote.char]

theorem Canonical.Writable.writableIn {c : Canonical} (h : c.Writable) (quote : Quote) :
    c.WritableIn quote where
  default := h.default
  named := h.named
  specifier := isQuotable_of_isPlain (quote_char quote) h.specifier
  binds := h.binds

-- ---------------------------------------------------------------------------
-- The marks of a declaration
-- ---------------------------------------------------------------------------

namespace Mark

def word (gap w : Text) : Mark := ⟨gap, .ident, w, false⟩

def punct (gap : Text) (c : Char) : Mark := ⟨gap, .punct c, [c], false⟩

def string (gap : Text) (quote : Quote) (x : Text) : Mark :=
  ⟨gap, .string true, quote.char :: (x ++ [quote.char]), false⟩

end Mark

/-- The marks of an item. -/
def Item.marks (item : String) : List Mark :=
  (item.toList.splitOn ' ').map (Mark.word [' '])

/-- The marks of items with commas between. -/
def Item.listMarks : List String → List Mark
  | [] => []
  | [item] => Item.marks item
  | item :: next :: items =>
    Item.marks item ++ Mark.punct [] ',' :: Item.listMarks (next :: items)

namespace Canonical

/-- The marks of items in braces. -/
def bracesMarks (items : List String) : List Mark :=
  Mark.punct [' '] '\x7b' :: (Item.listMarks items ++ [Mark.punct [' '] '\x7d'])

/-- The marks between `import` and `from`. -/
def clauseMarks (c : Canonical) : List Mark :=
  match c.default?, c.named.isEmpty with
  | some d, false => Mark.word [' '] d.toList :: Mark.punct [] ',' :: bracesMarks c.named.toList
  | some d, true => [Mark.word [' '] d.toList]
  | none, false => bracesMarks c.named.toList
  | none, true => []

/-- The marks after `import`. -/
def bodyMarks (c : Canonical) (style : Style) : List Mark :=
  c.clauseMarks ++ [Mark.word [' '] "from".toList,
    Mark.string [' '] style.quote c.specifier.toList] ++
      (if style.semicolon then [Mark.punct [] ';'] else [])

end Canonical

-- ---------------------------------------------------------------------------
-- Their text
-- ---------------------------------------------------------------------------

theorem Item.sources_marks (item : String) : Mark.sources (Item.marks item) = ' ' :: item.toList := by
  have hwords : ∀ ws : List Text, ws ≠ [] →
      Mark.sources (ws.map (Mark.word [' '])) = ' ' :: [' '].intercalate ws := by
    intro ws hws
    induction ws with
    | nil => exact absurd rfl hws
    | cons w ws ih =>
      cases ws with
      | nil => simp [Mark.word]
      | cons w' ws =>
        rw [List.map_cons, Mark.sources_cons, ih (by simp), List.intercalate_cons_cons]
        simp [Mark.word]
  rw [Item.marks, hwords _ (List.splitOn_ne_nil _ _), List.intercalate_splitOn]

theorem Item.sources_listMarks (items : List String) (h : items ≠ []) :
    Mark.sources (Item.listMarks items) =
      ' ' :: [',', ' '].intercalate (items.map String.toList) := by
  fun_induction Item.listMarks items with
  | case1 => exact absurd rfl h
  | case2 item => simp [Item.sources_marks]
  | case3 item next items ih =>
    rw [Mark.sources_append, Item.sources_marks, Mark.sources_cons, ih (by simp)]
    simp only [List.map_cons, List.intercalate_cons_cons]
    simp [Mark.punct]

namespace Canonical

variable {c : Canonical} {style : Style}

theorem sources_bracesMarks (h : c.named.isEmpty = false) :
    Mark.sources (bracesMarks c.named.toList) = ' ' :: c.braces := by
  have hne : c.named.toList ≠ [] := by
    intro hnil
    simp [SortedSet.isEmpty, hnil] at h
  rw [bracesMarks, Mark.sources_cons, Mark.sources_append, Item.sources_listMarks _ hne, braces]
  simp [Mark.punct]

theorem sources_clauseMarks {clause : Text} (h : c.clause? = some clause) :
    Mark.sources c.clauseMarks = ' ' :: clause := by
  revert h
  rw [clause?, clauseMarks]
  cases c.default? with
  | none =>
    cases hn : c.named.isEmpty with
    | true => intro h; cases h
    | false =>
      intro h
      cases h
      exact sources_bracesMarks hn
  | some d =>
    cases hn : c.named.isEmpty with
    | true =>
      intro h
      cases h
      simp [Mark.word]
    | false =>
      intro h
      cases h
      simp [Mark.word, Mark.punct, sources_bracesMarks hn]

/-- The marks are those of the rendered text. -/
theorem sources_bodyMarks {rendered : Text} (h : c.render? style = some rendered) :
    rendered = "import".toList ++ Mark.sources (c.bodyMarks style) := by
  rw [render?] at h
  obtain ⟨clause, hclause, rfl⟩ := Option.map_eq_some_iff.1 h
  rw [bodyMarks, Mark.sources_append, Mark.sources_append, sources_clauseMarks hclause]
  cases style.semicolon <;> simp [Mark.word, Mark.string, Mark.punct]

end Canonical

-- ---------------------------------------------------------------------------
-- Reading them back
-- ---------------------------------------------------------------------------

namespace Lexer

theorem not_mem_of_isIdentChar {w : Text} {c : Char} (h : w.all isIdentChar)
    (hc : isIdentChar c = false) : c ∉ w := by
  intro hm
  simp [List.all_eq_true.1 h c hm] at hc

theorem all_of_isWord {w : Text} (h : isWord w) : w.all isIdentChar := by
  cases w with
  | nil => rfl
  | cons c cs =>
    simp only [isWord, Bool.and_eq_true] at h
    simp [isIdentChar, h.1, h.2]

theorem not_mem_of_isWord {w : Text} {c : Char} (h : isWord w) (hc : isIdentChar c = false) :
    c ∉ w := not_mem_of_isIdentChar (all_of_isWord h) hc

/-- A word is read where no identifier character follows. -/
theorem lexes_word {s : State} {gap w t : Text} {ms : List Mark} (hg : gap.all isSpace)
    (hgn : '\n' ∉ gap) (hw : isWord w)
    (ht : ∀ c, (Mark.sources ms ++ t).head? = some c → isIdentChar c = false) :
    Lexes s false t (Mark.word gap w :: ms) ↔ Lexes (s.after .ident w) false t ms := by
  have hblank : lineBlank false (gap ++ w) = false := lineBlank_false fun h =>
    (List.mem_append.1 h).elim hgn (not_mem_of_isIdentChar (all_of_isWord hw) (by decide))
  obtain ⟨c, cs, rfl⟩ : ∃ c cs, w = c :: cs := by
    cases w with
    | nil => simp [isWord] at hw
    | cons c cs => exact ⟨c, cs, rfl⟩
  have hstart : isSpace c = false := by
    simp only [isWord, Bool.and_eq_true] at hw
    cases hs : isSpace c with
    | false => rfl
    | true =>
      have := not_isIdentChar_of_isSpace hs
      simp [isIdentChar, hw.1] at this
  constructor
  · rintro ⟨-, -, -, h⟩
    change Lexes _ (lineBlank false (gap ++ c :: cs)) t ms at h
    rwa [hblank] at h
  · intro h
    refine ⟨hg, ⟨c, cs, rfl, hstart, State.scan_word hw ht⟩, ?_, ?_⟩
    · rw [Mark.word, lineBlank_false hgn]
      rfl
    · change Lexes (s.after .ident (c :: cs)) (lineBlank false (gap ++ c :: cs)) t ms
      rwa [hblank]

theorem lexes_punct {s : State} {gap t : Text} {c : Char} {ms : List Mark} (hg : gap.all isSpace)
    (hgn : '\n' ∉ gap) (hc : isSpace c = false)
    (hs : ∀ t, s.scan c t = (.punct c, 0)) :
    Lexes s false t (Mark.punct gap c :: ms) ↔ Lexes (s.after (.punct c) [c]) false t ms := by
  have hblank : lineBlank false (gap ++ [c]) = false := lineBlank_false fun h => by
    rcases List.mem_append.1 h with h | h
    · exact hgn h
    · cases List.mem_singleton.1 h
      exact absurd hc (by decide)
  constructor
  · rintro ⟨-, -, -, h⟩
    change Lexes _ (lineBlank false (gap ++ [c])) t ms at h
    rwa [hblank] at h
  · intro h
    refine ⟨hg, ⟨c, [], rfl, hc, hs _⟩, ?_, ?_⟩
    · rw [Mark.punct, lineBlank_false hgn]
      rfl
    · change Lexes _ (lineBlank false (gap ++ [c])) t ms
      rwa [hblank]

theorem lexes_string {s : State} {gap x t : Text} {q : Quote} {ms : List Mark}
    (hg : gap.all isSpace) (hgn : '\n' ∉ gap) (hx : IsQuotable q.char x) :
    Lexes s false t (Mark.string gap q x :: ms) ↔
      Lexes { s with regexAllowed := false } false t ms := by
  have hblank : lineBlank false (gap ++ q.char :: (x ++ [q.char])) = false := by
    rw [← List.cons_append, ← List.append_assoc]
    cases q <;> exact lineBlank_concat (by decide) (by decide)
  constructor
  · rintro ⟨-, -, -, h⟩
    change Lexes _ (lineBlank false (gap ++ q.char :: (x ++ [q.char]))) t ms at h
    rwa [hblank] at h
  · intro h
    refine ⟨hg, ⟨q.char, x ++ [q.char], rfl, ?_, State.scan_quotable (quote_char q) hx⟩, ?_, ?_⟩
    · rcases quote_char q with hq | hq <;> rw [hq] <;> decide
    · rw [Mark.string, lineBlank_false hgn]
      rfl
    · change Lexes _ (lineBlank false (gap ++ q.char :: (x ++ [q.char]))) t ms
      rwa [hblank]

theorem lexes_words {s : State} {t : Text} {ws : List Text} {ms : List Mark}
    (hws : ∀ w ∈ ws, isWord w)
    (ht : ∀ c, (Mark.sources ms ++ t).head? = some c → isIdentChar c = false)
    (h : Lexes (s.afterMarks (ws.map (Mark.word [' ']))) false t ms) :
    Lexes s false t (ws.map (Mark.word [' ']) ++ ms) := by
  induction ws generalizing s with
  | nil => exact h
  | cons w ws ih =>
    rw [List.map_cons, List.cons_append,
      lexes_word (by decide) (by decide) (hws w (List.mem_cons_self ..))]
    · exact ih (fun w hw => hws w (List.mem_cons_of_mem _ hw)) h
    · cases ws with
      | nil => exact ht
      | cons w' ws =>
        intro c hc
        cases hc
        decide

theorem depths_after_words (s : State) (gap : Text) (ws : List Text) :
    (s.afterMarks (ws.map (Mark.word gap))).depths = s.depths := by
  induction ws generalizing s with
  | nil => rfl
  | cons w ws ih => exact ih _

end Lexer

namespace Item

theorem splitOn_alias {a b : Text} (ha : isWord a) (hb : isWord b) :
    (a ++ asWord.toList ++ b).splitOn ' ' = [a, "as".toList, b] := by
  have hjoin : a ++ asWord.toList ++ b = [' '].intercalate [a, "as".toList, b] := by
    simp [asWord, List.intercalate_cons_cons]
  rw [hjoin, List.splitOn_intercalate]
  · intro l hl
    simp only [List.mem_cons, List.not_mem_nil, or_false] at hl
    rcases hl with rfl | rfl | rfl
    · exact not_mem_of_isWord ha (by decide)
    · decide
    · exact not_mem_of_isWord hb (by decide)
  · simp

/-- An item is one word, or two with `as` between. -/
theorem words_of_spelled {item : String} (h : Item.Spelled item) :
    (isWord item.toList ∧ item.toList.splitOn ' ' = [item.toList]) ∨
      ∃ a b : Text, isWord a ∧ isWord b ∧ item.toList = a ++ asWord.toList ++ b ∧
        item.toList.splitOn ' ' = [a, "as".toList, b] := by
  rcases h with h | ⟨a, b, ha, hb, hitem⟩
  · exact .inl ⟨h, List.splitOn_eq_singleton (not_mem_of_isWord h (by decide))⟩
  · exact .inr ⟨a, b, ha, hb, hitem, hitem ▸ splitOn_alias ha hb⟩

theorem isWord_of_mem_words {item : String} (h : Item.Spelled item) :
    ∀ w ∈ item.toList.splitOn ' ', isWord w := by
  intro w hw
  rcases words_of_spelled h with ⟨hitem, hs⟩ | ⟨a, b, ha, hb, -, hs⟩
  · rw [hs, List.mem_singleton] at hw
    exact hw ▸ hitem
  · rw [hs] at hw
    simp only [List.mem_cons, List.not_mem_nil, or_false] at hw
    rcases hw with rfl | rfl | rfl
    · exact ha
    · decide
    · exact hb

theorem isName_of_mem_words {item : String} (h : Item.WellFormed item) :
    ∀ w ∈ item.toList.splitOn ' ', IsName w := by
  intro w hw
  refine ⟨isWord_of_mem_words h.spelled w hw, ?_⟩
  rcases h with h | ⟨a, b, ha, hb, hitem⟩
  · rw [List.splitOn_eq_singleton (not_mem_of_isWord h.1 (by decide)), List.mem_singleton] at hw
    exact hw ▸ h.2
  · rw [hitem, splitOn_alias ha.1 hb.1] at hw
    simp only [List.mem_cons, List.not_mem_nil, or_false] at hw
    rcases hw with rfl | rfl | rfl
    · exact ha.2
    · decide
    · exact hb.2

theorem lexes_listMarks {s : State} {t : Text} {items : List String} {ms : List Mark}
    (hi : ∀ item ∈ items, Item.Spelled item)
    (ht : ∀ c, (Mark.sources ms ++ t).head? = some c → isIdentChar c = false)
    (h : Lexes (s.afterMarks (listMarks items)) false t ms) :
    Lexes s false t (listMarks items ++ ms) := by
  fun_induction listMarks items generalizing s with
  | case1 => exact h
  | case2 item =>
    exact lexes_words (isWord_of_mem_words (hi item (List.mem_cons_self ..))) ht h
  | case3 item next items ih =>
    rw [List.append_assoc]
    refine lexes_words (isWord_of_mem_words (hi item (List.mem_cons_self ..))) ?_ ?_
    · intro c hc
      cases hc
      decide
    · rw [List.cons_append, lexes_punct (by decide) (by decide) (by decide) (State.scan_comma _)]
      refine ih (fun item hitem => hi item (List.mem_cons_of_mem _ hitem)) ?_
      rw [State.afterMarks_append] at h
      exact h

theorem depths_after_listMarks (s : State) (items : List String) :
    (s.afterMarks (listMarks items)).depths = s.depths := by
  fun_induction listMarks items generalizing s with
  | case1 => rfl
  | case2 item => exact depths_after_words _ _ _
  | case3 item next items ih =>
    rw [State.afterMarks_append, State.afterMarks_cons, ih]
    exact depths_after_words _ _ _

end Item

namespace Canonical

theorem lighten_deepen (ds : List Nat) : lighten (deepen ds) = ds := by
  cases ds <;> simp [lighten, deepen]

/-- A brace that was just opened closes no substitution. -/
theorem closesSubstitution_of_deepen {s : State} {ds : List Nat} (h : s.depths = deepen ds) :
    s.closesSubstitution = false := by
  rw [State.closesSubstitution, h]
  cases ds <;> simp [deepen]

theorem lexes_bracesMarks {s : State} {t : Text} {items : List String} {ms : List Mark}
    (hi : ∀ item ∈ items, Item.Spelled item)
    (h : Lexes (s.afterMarks (bracesMarks items)) false t ms) :
    Lexes s false t (bracesMarks items ++ ms) := by
  rw [bracesMarks, List.cons_append, List.append_assoc,
    lexes_punct (by decide) (by decide) (by decide) (State.scan_opening _)]
  refine Item.lexes_listMarks hi ?_ ?_
  · intro c hc
    cases hc
    decide
  · have hd : ((s.after (.punct '\x7b') ['\x7b']).afterMarks (Item.listMarks items)).depths =
        deepen s.depths := Item.depths_after_listMarks _ _
    rw [List.singleton_append, lexes_punct (by decide) (by decide) (by decide)
      (State.scan_closing (closesSubstitution_of_deepen hd))]
    rw [bracesMarks, State.afterMarks_cons, State.afterMarks_append] at h
    exact h

theorem depths_after_bracesMarks (s : State) (items : List String) :
    (s.afterMarks (bracesMarks items)).depths = s.depths := by
  rw [bracesMarks, State.afterMarks_cons, State.afterMarks_append]
  have hd : ((s.after (.punct '\x7b') ['\x7b']).afterMarks (Item.listMarks items)).depths =
      deepen s.depths := Item.depths_after_listMarks _ _
  exact (congrArg lighten hd).trans (lighten_deepen _)

variable {c : Canonical} {style : Style}

theorem lexes_clauseMarks {s : State} {t : Text} {ms : List Mark} {q : Quote} (hc : c.SpelledIn q)
    (ht : ∀ c, (Mark.sources ms ++ t).head? = some c → isIdentChar c = false)
    (h : Lexes (s.afterMarks c.clauseMarks) false t ms) :
    Lexes s false t (c.clauseMarks ++ ms) := by
  have hitems : ∀ item ∈ c.named.toList, Item.Spelled item := hc.named
  rw [clauseMarks] at h ⊢
  split at h
  · next d hd hn =>
    have hname := hc.default d hd
    rw [List.cons_append, lexes_word (by decide) (by decide) hname (by
      intro c hc
      cases hc
      decide), List.cons_append,
      lexes_punct (by decide) (by decide) (by decide) (State.scan_comma _)]
    exact lexes_bracesMarks hitems h
  · next d hd hn =>
    have hname := hc.default d hd
    rw [List.singleton_append, lexes_word (by decide) (by decide) hname ht]
    exact h
  · exact lexes_bracesMarks hitems h
  · exact h

theorem depths_after_clauseMarks (s : State) :
    (s.afterMarks c.clauseMarks).depths = s.depths := by
  rw [clauseMarks]
  split
  · exact depths_after_bracesMarks _ _
  · rfl
  · exact depths_after_bracesMarks _ _
  · rfl

theorem lexes_bodyMarks {s : State} (hc : c.SpelledIn style.quote) (t : Text) :
    Lexes s false t (c.bodyMarks style) := by
  have hend : ∀ s : State, Lexes s false t
      (Mark.string [' '] style.quote c.specifier.toList ::
        if style.semicolon then [Mark.punct [] ';'] else []) := by
    intro s
    rw [lexes_string (by decide) (by decide) hc.specifier]
    split
    · rw [lexes_punct (by decide) (by decide) (by decide) (State.scan_semicolon _)]
      trivial
    · trivial
  rw [bodyMarks, List.append_assoc]
  refine lexes_clauseMarks hc ?_ ?_
  · intro c hc
    cases hc
    decide
  · rw [List.cons_append, List.singleton_append, lexes_word (by decide) (by decide) (by decide)]
    · exact hend _
    · intro c hc
      cases hc
      decide

theorem after_bodyMarks (s : State) :
    s.afterMarks (c.bodyMarks style) = ⟨style.semicolon, s.depths⟩ := by
  rw [bodyMarks, State.afterMarks_append, State.afterMarks_append]
  have hdepths := depths_after_clauseMarks (c := c) s
  split
  · next hs =>
    rw [← hdepths, hs]
    rfl
  · next hs =>
    rw [← hdepths, Bool.eq_false_iff.2 hs]
    rfl

/-- A mark of a clause: a word of some kind, or one of three punctuation marks. -/
def IsClauseMark (P : Text → Prop) (m : Mark) : Prop :=
  (∃ w, P w ∧ m = Mark.word [' '] w) ∨
    ∃ gap ch, (gap = [] ∨ gap = [' ']) ∧ (ch = ',' ∨ ch = '\x7b' ∨ ch = '\x7d') ∧
      m = Mark.punct gap ch

section

variable {P : Text → Prop}

theorem isClauseMark_of_mem_listMarks {items : List String}
    (hi : ∀ item ∈ items, ∀ w ∈ item.toList.splitOn ' ', P w) :
    ∀ m ∈ Item.listMarks items, IsClauseMark P m := by
  have hitem : ∀ item ∈ items, ∀ m ∈ Item.marks item, IsClauseMark P m := by
    intro item h m hm
    obtain ⟨w, hw, rfl⟩ := List.mem_map.1 hm
    exact .inl ⟨w, hi item h w hw, rfl⟩
  fun_induction Item.listMarks items with
  | case1 => simp
  | case2 item => exact hitem item (List.mem_cons_self ..)
  | case3 item next items ih =>
    intro m hm
    rcases List.mem_append.1 hm with hm | hm
    · exact hitem item (List.mem_cons_self ..) m hm
    · rcases List.mem_cons.1 hm with rfl | hm
      · exact .inr ⟨[], ',', .inl rfl, .inl rfl, rfl⟩
      · exact ih (fun item h => hi item (List.mem_cons_of_mem _ h))
          (fun item h => hitem item (List.mem_cons_of_mem _ h)) m hm

theorem isClauseMark_of_mem_bracesMarks {items : List String}
    (hi : ∀ item ∈ items, ∀ w ∈ item.toList.splitOn ' ', P w) :
    ∀ m ∈ bracesMarks items, IsClauseMark P m := by
  intro m hm
  rcases List.mem_cons.1 hm with rfl | hm
  · exact .inr ⟨[' '], '\x7b', .inr rfl, .inr (.inl rfl), rfl⟩
  · rcases List.mem_append.1 hm with hm | hm
    · exact isClauseMark_of_mem_listMarks hi m hm
    · cases List.mem_singleton.1 hm
      exact .inr ⟨[' '], '\x7d', .inr rfl, .inr (.inr rfl), rfl⟩

theorem isClauseMark_of_mem (hd : ∀ d ∈ c.default?, P d.toList)
    (hi : ∀ item ∈ c.named, ∀ w ∈ item.toList.splitOn ' ', P w) :
    ∀ m ∈ c.clauseMarks, IsClauseMark P m := by
  have hbraces := isClauseMark_of_mem_bracesMarks hi
  intro m hm
  rw [clauseMarks] at hm
  split at hm
  · next d hdefault hn =>
    rcases List.mem_cons.1 hm with rfl | hm
    · exact .inl ⟨_, hd d hdefault, rfl⟩
    · rcases List.mem_cons.1 hm with rfl | hm
      · exact .inr ⟨[], ',', .inl rfl, .inl rfl, rfl⟩
      · exact hbraces m hm
  · next d hdefault hn =>
    cases List.mem_singleton.1 hm
    exact .inl ⟨_, hd d hdefault, rfl⟩
  · exact hbraces m hm
  · cases hm

end

theorem SpelledIn.isClauseMark {q : Quote} (hc : c.SpelledIn q) :
    ∀ m ∈ c.clauseMarks, IsClauseMark (fun w => isWord w) m :=
  isClauseMark_of_mem hc.default fun item hitem => Item.isWord_of_mem_words (hc.named item hitem)

theorem WritableIn.isClauseMark {q : Quote} (hc : c.WritableIn q) :
    ∀ m ∈ c.clauseMarks, IsClauseMark IsName m :=
  isClauseMark_of_mem hc.default fun item hitem => Item.isName_of_mem_words (hc.named item hitem)

/-- A declaration ends with a quote or a `;`, so it leaves a line that is not blank. -/
theorem lineBlank_bodyMarks : lineBlank false (Mark.sources (c.bodyMarks style)) = false := by
  rw [bodyMarks, Mark.sources_append, Mark.sources_append]
  cases style.semicolon with
  | true =>
    rw [if_pos rfl]
    exact lineBlank_concat (by decide) (by decide)
  | false =>
    have hquote : Mark.sources [Mark.word [' '] "from".toList,
        Mark.string [' '] style.quote c.specifier.toList] =
          " from ".toList ++ style.quote.char :: c.specifier.toList ++ [style.quote.char] := by
      simp [Mark.word, Mark.string]
    rw [if_neg (by decide), Mark.sources_nil, List.append_nil, hquote, ← List.append_assoc]
    cases style.quote <;> exact lineBlank_concat (by decide) (by decide)

/-- The `import` keyword, first on its line. -/
def head (gap : Text) : Mark := ⟨gap, .ident, "import".toList, true⟩

/-- A declaration written on a blank line is read as its marks. -/
theorem marks_rendered {s : State} {gap rendered t : Text} (hc : c.SpelledIn style.quote)
    (hr : c.render? style = some rendered) :
    marks s true gap (rendered ++ t) =
      head gap :: c.bodyMarks style ++ marks ⟨style.semicolon, s.depths⟩ false [] t := by
  have hscan : s.scan 'i' ("mport".toList ++ (Mark.sources (c.bodyMarks style) ++ t)) =
      (.ident, "mport".toList.length) := by
    refine State.scan_word (by decide) fun d hd => ?_
    have hclause : ∃ x, Mark.sources c.clauseMarks = ' ' :: x := by
      rw [render?] at hr
      obtain ⟨clause, hclause, -⟩ := Option.map_eq_some_iff.1 hr
      exact ⟨clause, sources_clauseMarks hclause⟩
    obtain ⟨x, hx⟩ := hclause
    rw [bodyMarks, List.append_assoc, Mark.sources_append, hx] at hd
    cases hd
    decide
  have hword : "import".toList = 'i' :: "mport".toList := by decide
  rw [sources_bodyMarks hr, List.append_assoc, hword, marks_token _ _ (by decide) hscan]
  have hblank : lineBlank true ('i' :: "mport".toList) = false := by decide
  have hlexes : Lexes (s.after .ident ('i' :: "mport".toList)) false t (c.bodyMarks style) :=
    lexes_bodyMarks hc t
  have hbody := marks_sources hlexes
  rw [hblank, hbody, lineBlank_bodyMarks, after_bodyMarks]
  rfl

-- ---------------------------------------------------------------------------
-- The statement they make
-- ---------------------------------------------------------------------------

section

variable {P : Text → Prop} {m : Mark}

theorem isCode_of_isClauseMark (h : IsClauseMark P m) : m.token.isCode := by
  rcases h with ⟨w, -, rfl⟩ | ⟨gap, ch, -, -, rfl⟩ <;> rfl

theorem leads_of_isClauseMark (h : IsClauseMark P m) : m.leads = false := by
  rcases h with ⟨w, -, rfl⟩ | ⟨gap, ch, -, -, rfl⟩ <;> rfl

theorem isPunct_of_isClauseMark (h : IsClauseMark P m) {ch : Char}
    (hch : ch ∉ [',', '\x7b', '\x7d']) : m.token.isPunct ch = false := by
  rcases h with ⟨w, -, rfl⟩ | ⟨gap, ch', -, hc, rfl⟩
  · rfl
  · have : ch' ≠ ch := by
      rintro rfl
      simp_all
    simp [Mark.token, Mark.punct, Token.isPunct, this]

theorem isString_of_isClauseMark (h : IsClauseMark P m) : m.token.isString = false := by
  rcases h with ⟨w, -, rfl⟩ | ⟨gap, ch, -, -, rfl⟩ <;> rfl

end

theorem isFrom_of_isClauseMark {m : Mark} (h : IsClauseMark IsName m) :
    m.token.isWord "from" = false := by
  rcases h with ⟨w, hw, rfl⟩ | ⟨gap, ch, -, -, rfl⟩
  · simp only [Token.isWord, Mark.token, Mark.word, Bool.and_eq_false_iff, beq_eq_false_iff_ne]
    exact .inr hw.2
  · rfl

theorem fromIndex?_clause {cl q : List Mark} {quote : Quote} {x : Text}
    (h : ∀ m ∈ cl, IsClauseMark IsName m) :
    Mark.fromIndex? (cl ++ Mark.word [' '] "from".toList :: Mark.string [' '] quote x :: q) =
      some (cl.length + 1) := by
  induction cl with
  | nil => rfl
  | cons m cl ih =>
    have hm := h m (List.mem_cons_self ..)
    rw [List.cons_append, Mark.fromIndex?, isPunct_of_isClauseMark hm (by decide),
      leads_of_isClauseMark hm, isFrom_of_isClauseMark hm,
      ih fun m hm => h m (List.mem_cons_of_mem _ hm)]
    rfl

theorem clauseMarks_ne_nil {q : Quote} (hc : c.SpelledIn q) : c.clauseMarks ≠ [] := by
  rw [clauseMarks]
  split
  · simp
  · simp
  · simp [bracesMarks]
  · next hd hn =>
    rcases hc.binds with h | h
    · simp [hd] at h
    · simp [hn] at h

theorem extent?_bodyMarks {q : List Mark} (hc : c.WritableIn style.quote)
    (hq : style.semicolon = false → Mark.semicolonIndex? q = none) :
    Mark.extent? (c.bodyMarks style ++ q) =
      some ((c.bodyMarks style).length, some (c.clauseMarks.length + 1)) := by
  have hmarks := hc.isClauseMark
  obtain ⟨m, cl, hcl⟩ := List.exists_cons_of_ne_nil (clauseMarks_ne_nil hc.spelledIn)
  have hm : IsClauseMark IsName m := hmarks m (by rw [hcl]; exact List.mem_cons_self ..)
  have hbody : c.bodyMarks style ++ q =
      c.clauseMarks ++ Mark.word [' '] "from".toList ::
        Mark.string [' '] style.quote c.specifier.toList ::
          ((if style.semicolon then [Mark.punct [] ';'] else []) ++ q) := by
    simp [bodyMarks]
  have hnext : Token.nextCode? ((c.bodyMarks style ++ q).map Mark.token) = some (0, m.token) := by
    rw [hbody, hcl, List.cons_append, List.map_cons, Token.nextCode?_cons,
      if_pos (isCode_of_isClauseMark hm)]
  have hspec : Mark.specifierIndex? (c.bodyMarks style ++ q) = some (c.clauseMarks.length + 1) := by
    rw [Mark.specifierIndex?, hnext]
    simp only [isString_of_isClauseMark hm, Bool.false_eq_true, if_false]
    rw [hbody, fromIndex?_clause hmarks]
  have hdrop : (c.bodyMarks style ++ q).drop (c.clauseMarks.length + 1 + 1) =
      (if style.semicolon then [Mark.punct [] ';'] else []) ++ q := by
    rw [bodyMarks, List.append_assoc]
    exact List.drop_left' (by simp)
  have hlen : (c.bodyMarks style).length =
      c.clauseMarks.length + 2 + (if style.semicolon then 1 else 0) := by
    rw [bodyMarks]
    split <;> simp
  rw [Mark.extent?, hnext, hspec]
  simp only [isPunct_of_isClauseMark hm (show '(' ∉ [',', '\x7b', '\x7d'] by decide),
    isPunct_of_isClauseMark hm (show '.' ∉ [',', '\x7b', '\x7d'] by decide), Bool.or_false,
    Bool.false_eq_true, if_false, hdrop, hlen]
  cases hs : style.semicolon with
  | true => simp [Mark.semicolonIndex?, Mark.punct, Mark.token, Token.isCode, Token.isComment,
      Token.isPunct]
  | false => simp [hq hs]

-- ---------------------------------------------------------------------------
-- What they bind
-- ---------------------------------------------------------------------------

theorem isItem_marks {item : String} (h : Item.Spelled item) :
    Statement.IsItem ((Item.marks item).map Mark.token) item := by
  rcases Item.words_of_spelled h with ⟨-, hs⟩ | ⟨a, b, -, -, hitem, hs⟩
  · have hname : Token.name (Mark.token (.word [' '] item.toList)) = item := by
      simp [Token.name, Mark.token, Mark.word]
    have hitem := Statement.IsItem.name (a := Mark.token (.word [' '] item.toList)) rfl
    rw [hname] at hitem
    rw [Item.marks, hs]
    exact hitem
  · have hname : Token.name (Mark.token (.word [' '] a)) ++ Item.asWord ++
        Token.name (Mark.token (.word [' '] b)) = item := by
      rw [← String.toList_inj]
      simp [Token.name, Mark.token, Mark.word, hitem]
    rw [Item.marks, hs, ← hname]
    exact .renamed rfl rfl rfl

theorem areItems_listMarks {items : List String} (h : ∀ item ∈ items, Item.Spelled item) :
    Statement.AreItems ((Item.listMarks items).map Mark.token) items := by
  fun_induction Item.listMarks items with
  | case1 => exact .nil
  | case2 item => exact .last (isItem_marks (h item (List.mem_singleton_self item)))
  | case3 item next items ih =>
    rw [List.map_append, List.map_cons]
    exact .cons (isItem_marks (h item (List.mem_cons_self ..))) rfl
      (ih fun item hitem => h item (List.mem_cons_of_mem _ hitem))

theorem areBraced_bracesMarks {items : List String} (h : ∀ item ∈ items, Item.Spelled item) :
    Statement.AreBraced ((bracesMarks items).map Mark.token) items := by
  rw [bracesMarks, List.map_cons, List.map_append, List.map_singleton]
  exact .mk rfl (areItems_listMarks h) rfl

/-- The clause of a canonical import binds what the import does. -/
theorem isClause_clauseMarks {q : Quote} (hc : c.SpelledIn q) :
    Statement.IsClause (c.clauseMarks.map Mark.token) c.default? c.named.toList := by
  have hname : ∀ d : String, Token.name (Mark.token (.word [' '] d.toList)) = d := fun d => by
    simp [Token.name, Mark.token, Mark.word]
  have hbraces := areBraced_bracesMarks hc.named
  rw [clauseMarks]
  split
  · next d hd hn =>
    have hboth : Statement.IsClause (Mark.token (.word [' '] d.toList) ::
        Mark.token (.punct [] ',') :: (bracesMarks c.named.toList).map Mark.token) _ _ :=
      .both rfl rfl hbraces
    rw [hname] at hboth
    rw [hd]
    exact hboth
  · next d hd hn =>
    have hnil : c.named.toList = [] := by simpa [SortedSet.isEmpty] using hn
    have hdefault : Statement.IsClause [Mark.token (.word [' '] d.toList)] _ _ := .default rfl
    rw [hname] at hdefault
    rw [hd, hnil]
    exact hdefault
  · next hd hn =>
    rw [hd]
    exact .named hbraces
  · next hd hn =>
    rcases hc.binds with h | h
    · simp [hd] at h
    · simp [hn] at h

/-- The declaration that a canonical import is read back as. -/
def declaration (c : Canonical) (style : Style) : Declaration where
  specifier := c.specifier
  span := ⟨0, 0⟩
  default? := c.default?
  named := c.named.toList
  style := style

/-- The statement that a canonical import is read back as. -/
def part (c : Canonical) (style : Style) (gap : Text) : Part :=
  .statement (head gap) (c.bodyMarks style) (some (c.clauseMarks.length + 1))

theorem contents?_string (gap x : Text) (q : Quote) :
    (Mark.string gap q x).token.contents? = some x := by
  simp [Mark.string, Mark.token, Token.contents?]

theorem getElem?_bodyMarks :
    (c.bodyMarks style)[c.clauseMarks.length + 1]? =
      some (Mark.string [' '] style.quote c.specifier.toList) := by
  rw [bodyMarks, List.append_assoc, List.getElem?_append_right (by omega)]
  simp

theorem declaration?_part (hc : c.SpelledIn style.quote) (gap : Text) :
    (c.part style gap).declaration? = some (c.declaration style) := by
  have htake : (c.bodyMarks style).take (c.clauseMarks.length + 1) =
      c.clauseMarks ++ [Mark.word [' '] "from".toList] := by
    have : c.bodyMarks style = (c.clauseMarks ++ [Mark.word [' '] "from".toList]) ++
        (Mark.string [' '] style.quote c.specifier.toList ::
          if style.semicolon then [Mark.punct [] ';'] else []) := by
      simp [bodyMarks]
    rw [this]
    exact List.take_left' (by simp)
  have hcode : ((c.bodyMarks style).map Mark.token).all Token.isCode = true := by
    rw [List.all_map, List.all_eq_true]
    intro m hm
    rw [bodyMarks, List.append_assoc] at hm
    rcases List.mem_append.1 hm with hm | hm
    · exact isCode_of_isClauseMark (hc.isClauseMark m hm)
    · rw [List.cons_append, List.singleton_append] at hm
      rcases List.mem_cons.1 hm with rfl | hm
      · rfl
      · rcases List.mem_cons.1 hm with rfl | hm
        · rfl
        · split at hm
          · cases List.mem_singleton.1 hm
            rfl
          · cases hm
  have hsemi : decide (c.clauseMarks.length + 1 + 1 < (c.bodyMarks style).length) =
      style.semicolon := by
    rw [bodyMarks]
    cases style.semicolon <;> simp
  have hquote : Quote.ofChar? style.quote.char = some style.quote := by
    cases style.quote <;> rfl
  simp only [part, Part.declaration?, Option.bind_eq_bind, Option.bind_some, getElem?_bodyMarks,
    htake, hcode, hsemi, head, Bool.and_self, if_true, Statement.readDeclaration?,
    contents?_string, List.map_append, List.map_singleton, List.getLast?_append,
    List.getLast?_singleton, Option.some_or, List.dropLast_concat,
    Statement.clause?_eq_some_iff.2 (isClause_clauseMarks hc)]
  rw [if_neg (by decide)]
  simp [Mark.string, Mark.token, hquote, declaration]

end Canonical

end TidyImports
