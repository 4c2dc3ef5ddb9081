-- SUMMARY: Reading takes back the compact form of a document, which holds no control characters.
import TidyImports.Proofs.Json.Lexemes

/-!
# Reading the compact form

From the lexemes of a document the machine completes that document inside the
containers that are open, and does nothing else. Over a list or table the items
or fields read so far grow by one with each step.
-/

namespace TidyImports

namespace Json

-- ---------------------------------------------------------------------------
-- The machine on many lexemes
-- ---------------------------------------------------------------------------

/-- The machine after some lexemes. -/
def Machine.run (m : Machine) (ls : List Lexeme) : Option Machine := ls.foldlM Machine.step m

@[simp] theorem Machine.run_nil (m : Machine) : m.run [] = some m := rfl

@[simp] theorem Machine.run_cons (m : Machine) (l : Lexeme) (ls : List Lexeme) :
    m.run (l :: ls) = (m.step l).bind (·.run ls) := rfl

theorem Machine.run_append (m : Machine) (ls ls' : List Lexeme) :
    m.run (ls ++ ls') = (m.run ls).bind (·.run ls') := List.foldlM_append

/-- Is a value due? -/
def Due.IsValue (due : Due) : Prop := due = .value ∨ due = .valueOrEnd

theorem step_text {frames : List Frame} {due : Due} (hdue : due.IsValue) (s : String) :
    (Machine.reading frames due).step (.text s) = complete (.text s) frames := by
  rcases hdue with rfl | rfl <;> rfl

theorem step_literal {frames : List Frame} {due : Due} (hdue : due.IsValue) (d : Document) :
    (Machine.reading frames due).step (.literal d) = complete d frames := by
  rcases hdue with rfl | rfl <;> rfl

theorem step_openList {frames : List Frame} {due : Due} (hdue : due.IsValue)
    (hdepth : frames.length < maxDepth) :
    (Machine.reading frames due).step (.mark '[') =
      some (.reading (.list [] :: frames) .valueOrEnd) := by
  rcases hdue with rfl | rfl <;> exact if_pos hdepth

theorem step_openTable {frames : List Frame} {due : Due} (hdue : due.IsValue)
    (hdepth : frames.length < maxDepth) :
    (Machine.reading frames due).step (.mark '\x7b') =
      some (.reading (.table [] :: frames) .keyOrEnd) := by
  rcases hdue with rfl | rfl <;> exact if_pos hdepth

-- ---------------------------------------------------------------------------
-- Documents
-- ---------------------------------------------------------------------------

mutual

/-- From the lexemes of a document it is completed. -/
theorem run_lexemesOf (d : Document) (frames : List Frame) {due : Due}
    (h : isReadable (maxDepth - frames.length) d) (hdue : due.IsValue) :
    (Machine.reading frames due).run (lexemesOf d) = complete d frames := by
  match d with
  | .list items =>
    obtain ⟨hopen, hitems⟩ := isReadable_list.1 h
    rw [Nat.sub_sub] at hitems
    rw [lexemesOf, Machine.run_cons, step_openList hdue (by omega), Option.bind_some]
    exact run_itemLexemes items [] frames hitems (.inl rfl)
  | .table fields =>
    obtain ⟨hopen, hfields⟩ := isReadable_table.1 h
    rw [Nat.sub_sub] at hfields
    rw [lexemesOf, Machine.run_cons, step_openTable hdue (by omega), Option.bind_some]
    exact run_fieldLexemes fields [] frames hfields (.inl rfl)
  | .text s => simp [lexemesOf, step_text hdue]
  | .null => simp [lexemesOf, step_literal hdue]
  | .bool b => simp [lexemesOf, step_literal hdue]
  | .integer n => simp [lexemesOf, step_literal hdue]
  | .decimal _ => cases h
  | .moment _ => cases h

/-- From the lexemes of items the list is completed that they are the rest of. -/
theorem run_itemLexemes (ds items : List Document) (frames : List Frame) {due : Due}
    (h : itemsReadable (maxDepth - (frames.length + 1)) ds)
    (hdue : due = .valueOrEnd ∨ due = .value ∧ ds ≠ []) :
    (Machine.reading (.list items :: frames) due).run (itemLexemes ds) =
      complete (.list (items.reverse ++ ds)) frames := by
  have hvalue : due.IsValue := hdue.symm.imp_left And.left
  match ds with
  | [] =>
    obtain rfl : due = .valueOrEnd := hdue.resolve_right fun h => h.2 rfl
    simp [itemLexemes, Machine.step, close]
  | [d] =>
    obtain ⟨hd, -⟩ := itemsReadable_cons.1 h
    rw [itemLexemes, Machine.run_append, run_lexemesOf d (.list items :: frames) hd hvalue]
    simp [complete, Machine.step, close]
  | d :: d' :: ds =>
    obtain ⟨hd, hds⟩ := itemsReadable_cons.1 h
    have hrest := run_itemLexemes (d' :: ds) (d :: items) frames hds
      (.inr ⟨rfl, List.cons_ne_nil _ _⟩)
    rw [itemLexemes_cons, Machine.run_append, run_lexemesOf d (.list items :: frames) hd hvalue]
    simpa [complete, Machine.step] using hrest

/-- From the lexemes of fields the table is completed that they are the rest of. -/
theorem run_fieldLexemes (fs fields : List (String × Document)) (frames : List Frame) {due : Due}
    (h : fieldsReadable (maxDepth - (frames.length + 1)) fs)
    (hdue : due = .keyOrEnd ∨ due = .key ∧ fs ≠ []) :
    (Machine.reading (.table fields :: frames) due).run (fieldLexemes fs) =
      complete (.table (fields.reverse ++ fs)) frames := by
  have hkey : ∀ (k : String) (ls : List Lexeme),
      (Machine.reading (.table fields :: frames) due).run (.text k :: .mark ':' :: ls) =
        (Machine.reading (.entry fields k :: frames) .value).run ls := by
    rcases hdue with rfl | ⟨rfl, -⟩ <;> exact fun _ _ => rfl
  match fs with
  | [] =>
    obtain rfl : due = .keyOrEnd := hdue.resolve_right fun h => h.2 rfl
    simp [fieldLexemes, Machine.step, close]
  | [(k, d)] =>
    obtain ⟨hd, -⟩ := fieldsReadable_cons.1 h
    rw [fieldLexemes, List.cons_append, List.cons_append, hkey, Machine.run_append,
      run_lexemesOf d (.entry fields k :: frames) hd (.inl rfl)]
    simp [complete, Machine.step, close]
  | (k, d) :: f :: fs =>
    obtain ⟨hd, hfs⟩ := fieldsReadable_cons.1 h
    have hrest := run_fieldLexemes (f :: fs) ((k, d) :: fields) frames hfs
      (.inr ⟨rfl, List.cons_ne_nil _ _⟩)
    rw [fieldLexemes_cons, hkey, Machine.run_append,
      run_lexemesOf d (.entry fields k :: frames) hd (.inl rfl)]
    simpa [complete, Machine.step] using hrest

end

/-- Reading takes back the compact form. -/
theorem parse?_compact {d : Document} (h : isReadable maxDepth d) :
    parse? (compact d) = some d := by
  have hend : EndsLiteral [] := fun _ hc => nomatch hc
  have hlexemes : lexemes? (compact d) = some (lexemesOf d) := by
    have hall := lexemes?_compact d h hend
    rwa [List.append_nil, lexemes?, Option.map_some, List.append_nil] at hall
  have hrun := run_lexemesOf d [] h (.inl rfl)
  rw [Machine.run] at hrun
  rw [parse?, hlexemes]
  simp [hrun, complete]

-- ---------------------------------------------------------------------------
-- Characters
-- ---------------------------------------------------------------------------

/-- Does a text hold no control characters? -/
def IsPrintable (t : Text) : Prop := ∀ c ∈ t, 0x20 ≤ c.toNat

instance (t : Text) : Decidable (IsPrintable t) := List.decidableBAll _ t

theorem IsPrintable.append {a b : Text} (ha : IsPrintable a) (hb : IsPrintable b) :
    IsPrintable (a ++ b) := List.forall_mem_append.2 ⟨ha, hb⟩

theorem IsPrintable.cons {c : Char} {t : Text} (hc : 0x20 ≤ c.toNat) (ht : IsPrintable t) :
    IsPrintable (c :: t) := List.forall_mem_cons.2 ⟨hc, ht⟩

theorem Spells.isPrintable {c : Char} {w : Text} (h : Spells c w) : IsPrintable w := by
  have hdigit : ∀ n < 0x10, 0x20 ≤ (hexDigit n).toNat := by decide
  cases h with
  | letter _ hprint _ => simpa [IsPrintable] using hprint
  | unit hcontrol =>
    have hhigh := hdigit (c.toNat / 16) (by omega)
    have hlow := hdigit (c.toNat % 16) (by omega)
    simp [IsPrintable, hhigh, hlow]
  | plain _ _ hcontrol => simpa [IsPrintable] using hcontrol

theorem isPrintable_quote (s : String) : IsPrintable (quote s) := by
  refine .cons (by decide) (.append ?_ (by decide))
  intro c hc
  obtain ⟨d, -, hc⟩ := List.mem_flatMap.1 hc
  exact (spells_escape d).isPrintable c hc

theorem isPrintable_of_isLiteralChar {t : Text} (h : ∀ c ∈ t, isLiteralChar c) : IsPrintable t := by
  have hcontrol : ∀ n < 0x20, isLiteralChar (Char.ofNat n) = false := by decide
  intro c hc
  refine Nat.le_of_not_lt fun hlt => ?_
  have hfalse := hcontrol c.toNat hlt
  rw [Char.ofNat_toNat, h c hc] at hfalse
  cases hfalse

mutual

theorem isPrintable_compact (d : Document) {depth : Nat} (h : isReadable depth d) :
    IsPrintable (compact d) := by
  match d with
  | .list items =>
    exact .cons (by decide) (isPrintable_compactItems items (isReadable_list.1 h).2)
  | .table fields =>
    exact .cons (by decide) (isPrintable_compactFields fields (isReadable_table.1 h).2)
  | .text s => exact isPrintable_quote s
  | .null => decide
  | .bool true => decide
  | .bool false => decide
  | .integer n => exact isPrintable_of_isLiteralChar fun _ => isLiteralChar_of_mem_toString
  | .decimal _ => cases h
  | .moment _ => cases h

theorem isPrintable_compactItems (ds : List Document) {depth : Nat} (h : itemsReadable depth ds) :
    IsPrintable (compactItems ds) := by
  match ds with
  | [] => decide
  | [d] =>
    obtain ⟨hd, -⟩ := itemsReadable_cons.1 h
    exact (isPrintable_compact d hd).append (by decide)
  | d :: d' :: ds =>
    obtain ⟨hd, hds⟩ := itemsReadable_cons.1 h
    exact (isPrintable_compact d hd).append
      (.cons (by decide) (isPrintable_compactItems (d' :: ds) hds))

theorem isPrintable_compactFields (fs : List (String × Document)) {depth : Nat}
    (h : fieldsReadable depth fs) : IsPrintable (compactFields fs) := by
  match fs with
  | [] => decide
  | [(k, d)] =>
    obtain ⟨hd, -⟩ := fieldsReadable_cons.1 h
    rw [compactFields, List.append_assoc]
    exact (isPrintable_quote k).append
      (.cons (by decide) ((isPrintable_compact d hd).append (by decide)))
  | (k, d) :: f :: fs =>
    obtain ⟨hd, hfs⟩ := fieldsReadable_cons.1 h
    rw [compactFields_cons]
    exact (isPrintable_quote k).append (.cons (by decide)
      ((isPrintable_compact d hd).append
        (.cons (by decide) (isPrintable_compactFields (f :: fs) hfs))))

end

end Json

end TidyImports
