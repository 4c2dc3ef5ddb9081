-- SUMMARY: The compact form of a document is cut into the lexemes that it was made of.
import Mathlib.Data.List.TakeWhile
import TidyImports.Json.Parser
import TidyImports.Json.Printer

/-!
# Lexemes of the compact form

Escapes and numbers are read back one by one. A number or word ends where a
character follows that cannot belong to it, and in a document only a mark follows.
-/

namespace TidyImports

namespace Json

variable {c : Char} {t rest : Text} {n depth : Nat} {d : Document}

-- ---------------------------------------------------------------------------
-- Strings
-- ---------------------------------------------------------------------------

/-- The ways in which a character is written inside quotes. -/
inductive Spells (c : Char) : Text → Prop
  | letter {e : Char} (hunit : e ≠ 'u') (hprint : 0x20 ≤ e.toNat) (he : unescape? e = some c) :
      Spells c ['\\', e]
  | unit (hcontrol : c.toNat < 0x20) :
      Spells c ['\\', 'u', '0', '0', hexDigit (c.toNat / 16), hexDigit (c.toNat % 16)]
  | plain (hquote : c ≠ '"') (hslash : c ≠ '\\') (hcontrol : ¬ c.toNat < 0x20) : Spells c [c]

theorem spells_escape (c : Char) : Spells c (escape c) := by
  have hletter : ∀ d e, c = d → e ≠ 'u' ∧ 0x20 ≤ e.toNat ∧ unescape? e = some d →
      Spells c ['\\', e] := fun d e hc he => .letter he.1 he.2.1 (hc ▸ he.2.2)
  rw [escape]
  split
  · next h => exact hletter _ _ h (by decide)
  split
  · next h => exact hletter _ _ h (by decide)
  split
  · next h => exact hletter _ _ h (by decide)
  split
  · next h => exact hletter _ _ h (by decide)
  split
  · next h => exact hletter _ _ h (by decide)
  split
  · next h => exact hletter _ _ h (by decide)
  split
  · next h => exact hletter _ _ h (by decide)
  split
  · next h => exact .unit h
  · next hquote hslash _ _ _ _ _ hcontrol => exact .plain hquote hslash hcontrol

theorem hexNumber?_control : ∀ n < 0x20,
    hexNumber? ['0', '0', hexDigit (n / 16), hexDigit (n % 16)] = some n := by decide

/-- Each character is read back from what spells it. -/
theorem Spells.stringBody? {w : Text} (h : Spells c w) (rest : Text) :
    stringBody? (w ++ rest) = (Json.stringBody? rest).map fun (t, n) => (c :: t, n + w.length) := by
  cases h with
  | letter hunit _ he =>
    rw [List.cons_append, List.singleton_append, Json.stringBody?.eq_def]
    cases hrest : Json.stringBody? rest <;> simp [he, hunit, hrest]
  | unit hcontrol =>
    have hhigh : ¬ (0xD800 ≤ c.toNat ∧ c.toNat < 0xDC00) := by omega
    have hlow : ¬ (0xDC00 ≤ c.toNat ∧ c.toNat < 0xE000) := by omega
    simp only [List.cons_append, List.nil_append]
    rw [Json.stringBody?, hexNumber?_control _ hcontrol, Option.map_eq_bind]
    simp only [Option.bind_eq_bind, Option.bind_some, if_neg hhigh, if_neg hlow, Char.ofNat_toNat]
    rfl
  | plain hquote hslash hcontrol =>
    rw [List.singleton_append, Json.stringBody?.eq_def]
    cases hrest : Json.stringBody? rest <;> simp [hslash, hcontrol, hrest]

theorem stringBody?_flatMap_escape (t rest : Text) :
    stringBody? (t.flatMap escape ++ '"' :: rest) =
      some (t, (t.flatMap escape).length + 1) := by
  induction t with
  | nil => rfl
  | cons c t ih =>
    rw [List.flatMap_cons, List.append_assoc, (spells_escape c).stringBody?, ih]
    simp [Nat.add_comm, Nat.add_left_comm]

-- ---------------------------------------------------------------------------
-- Numbers
-- ---------------------------------------------------------------------------

theorem all_isDigit_toDigits (n : Nat) : ∀ c ∈ Nat.toDigits 10 n, c.isDigit := fun _ =>
  Nat.isDigit_of_mem_toDigits (by decide) (by decide)

theorem head?_toDigits (h : 0 < n) : (Nat.toDigits 10 n).head? ≠ some '0' := by
  have hdigit : ∀ n < 10, 0 < n → n.digitChar ≠ '0' := by decide
  induction n using Nat.strongRecOn with
  | _ n ih =>
    rw [Nat.toDigits_eq_if (by decide)]
    split
    · next hlt => simpa using hdigit n hlt h
    · next hge =>
      have hne := ih (n / 10) (by omega) (by omega)
      obtain ⟨c, cs, hcs⟩ :=
        List.exists_cons_of_ne_nil (Nat.toDigits_ne_nil (n := n / 10) (b := 10))
      rw [hcs] at hne ⊢
      exact hne

theorem digitsValue_toDigits (n : Nat) : Decimal.digitsValue (Nat.toDigits 10 n) = n := by
  rw [Decimal.digitsValue, List.filter_eq_self.2 (all_isDigit_toDigits n)]
  exact Nat.ofDigitChars_ten_toDigits

theorem isWhole_toDigits (n : Nat) : isWhole (Nat.toDigits 10 n) := by
  have hdigits : isDigits (Nat.toDigits 10 n) := by
    rw [isDigits, List.isEmpty_eq_false_iff.2 Nat.toDigits_ne_nil]
    exact List.all_eq_true.2 (all_isDigit_toDigits n)
  rw [isWhole, hdigits, Bool.true_and, Bool.or_eq_true, bne_iff_ne]
  rcases Nat.eq_zero_or_pos n with rfl | hpos
  · exact .inl rfl
  · exact .inr (head?_toDigits hpos)

theorem takeWhile_toDigits (n : Nat) :
    (Nat.toDigits 10 n).takeWhile Char.isDigit = Nat.toDigits 10 n :=
  List.takeWhile_eq_self_iff.2 (all_isDigit_toDigits n)

theorem dropWhile_toDigits (n : Nat) : (Nat.toDigits 10 n).dropWhile Char.isDigit = [] :=
  List.dropWhile_eq_nil_iff.2 (all_isDigit_toDigits n)

theorem number?_toDigits (h : n ≤ 0xFFFFFFFFFFFFFFFF) :
    number? (Nat.toDigits 10 n) = some (.integer n) := by
  have hpositive : ((Nat.toDigits 10 n).head? == some '-') = false := by
    rw [beq_eq_false_iff_ne]
    intro hhead
    exact absurd (all_isDigit_toDigits n '-' (List.mem_of_head? hhead)) (by decide)
  have hle : (n : Int) ≤ 0xFFFFFFFFFFFFFFFF := by omega
  rw [number?, hpositive]
  simp only [Bool.false_eq_true, if_false, takeWhile_toDigits, dropWhile_toDigits, isWhole_toDigits,
    digitsValue_toDigits]
  simp [isFraction, hle]

theorem number?_neg_toDigits (hpos : 0 < n) (h : n ≤ 0x8000000000000000) :
    number? ('-' :: Nat.toDigits 10 n) = some (.integer (-n)) := by
  have hle : (n : Int) ≤ 0x8000000000000000 := by omega
  rw [number?]
  simp only [List.head?_cons, beq_self_eq_true, if_true, List.tail_cons, takeWhile_toDigits,
    dropWhile_toDigits, isWhole_toDigits, digitsValue_toDigits]
  simp [isFraction, hle, hpos]

/-- The words of JSON do not start like numbers. -/
theorem literal?_of_head {c : Char} (hhead : t.head? = some c) (hc : c.isDigit ∨ c = '-') :
    literal? t = number? t := by
  have hne : ∀ w : Text, w.head?.all (fun c => !c.isDigit && c != '-') → t ≠ w := by
    rintro w hw rfl
    rw [hhead] at hw
    rcases hc with hc | rfl
    · simp [hc] at hw
    · cases hw
  rw [literal?, if_neg (hne _ (by decide)), if_neg (hne _ (by decide)), if_neg (hne _ (by decide))]

theorem toList_toString_of_nonneg {n : Int} (h : 0 ≤ n) :
    (toString n).toList = Nat.toDigits 10 n.toNat := by
  rw [show toString n = n.repr from rfl, Int.repr_eq_if, if_pos h, Nat.toList_repr]

theorem toList_toString_of_neg {n : Int} (h : n < 0) :
    (toString n).toList = '-' :: Nat.toDigits 10 (-n).toNat := by
  rw [show toString n = n.repr from rfl, Int.repr_eq_if, if_neg (by omega), String.toList_append,
    Nat.toList_repr]
  rfl

/-- An integer of 64 bits is read back. -/
theorem literal?_toString {n : Int} (hlow : -0x8000000000000000 ≤ n)
    (hhigh : n ≤ 0xFFFFFFFFFFFFFFFF) : literal? (toString n).toList = some (.integer n) := by
  by_cases hn : 0 ≤ n
  · rw [toList_toString_of_nonneg hn]
    obtain ⟨c, cs, hcs⟩ := List.exists_cons_of_ne_nil (Nat.toDigits_ne_nil (n := n.toNat) (b := 10))
    have hc := all_isDigit_toDigits n.toNat c (hcs ▸ List.mem_cons_self ..)
    rw [literal?_of_head (by rw [hcs]; rfl) (.inl hc), number?_toDigits (by omega),
      Int.toNat_of_nonneg hn]
  · rw [toList_toString_of_neg (by omega), literal?_of_head rfl (.inr rfl),
      number?_neg_toDigits (by omega) (by omega), Int.toNat_of_nonneg (by omega), Int.neg_neg]

theorem isLiteralChar_of_mem_toString {n : Int} (h : c ∈ (toString n).toList) :
    isLiteralChar c := by
  have hdigit : ∀ k, c ∈ Nat.toDigits 10 k → isLiteralChar c := fun k hc => by
    have := all_isDigit_toDigits k c hc
    simp [isLiteralChar, Char.isAlphanum, this]
  by_cases hn : 0 ≤ n
  · rw [toList_toString_of_nonneg hn] at h
    exact hdigit _ h
  · rw [toList_toString_of_neg (by omega)] at h
    rcases List.mem_cons.1 h with rfl | h
    · rfl
    · exact hdigit _ h

-- ---------------------------------------------------------------------------
-- Single lexemes
-- ---------------------------------------------------------------------------

theorem isBlank_of_isMark (h : isMark c) : isBlank c = false := by
  simp only [isMark, Bool.or_eq_true, beq_iff_eq] at h
  rcases h with ((((rfl | rfl) | rfl) | rfl) | rfl) | rfl <;> rfl

theorem lexemes?_mark (h : isMark c) (rest : Text) :
    lexemes? (c :: rest) = (lexemes? rest).map (.mark c :: ·) := by
  rw [lexemes?, isBlank_of_isMark h, if_neg Bool.false_ne_true, if_pos h]

theorem lexemes?_quote (s : String) (rest : Text) :
    lexemes? (quote s ++ rest) = (lexemes? rest).map (.text s :: ·) := by
  rw [quote, List.cons_append, List.append_assoc, List.singleton_append, lexemes?,
    if_neg (by decide), if_neg (by decide), if_pos rfl, stringBody?_flatMap_escape]
  have hdrop : ∀ t : Text, (t ++ '"' :: rest).drop (t.length + 1) = rest := fun t => by
    rw [List.append_cons]
    exact List.drop_left' (by simp)
  simp only [Option.bind_eq_bind, Option.bind_some, hdrop, String.ofList_toList]

/-- Does a word or number end in front of this text? -/
def EndsLiteral (rest : Text) : Prop := ∀ c ∈ rest.head?, isLiteralChar c = false

theorem endsLiteral_mark (h : isMark c) (rest : Text) : EndsLiteral (c :: rest) := by
  intro d hd
  obtain rfl : c = d := Option.some.inj hd
  simp only [isMark, Bool.or_eq_true, beq_iff_eq] at h
  rcases h with ((((rfl | rfl) | rfl) | rfl) | rfl) | rfl <;> rfl

theorem lexemes?_literal (hall : ∀ c ∈ t, isLiteralChar c) (hd : literal? t = some d)
    (hrest : EndsLiteral rest) :
    lexemes? (t ++ rest) = (lexemes? rest).map (.literal d :: ·) := by
  cases t with
  | nil => cases hd
  | cons c t =>
    have hc : ∀ d, isLiteralChar d = false → c ≠ d := by
      rintro d hd rfl
      rw [hall c (List.mem_cons_self ..)] at hd
      cases hd
    have hblank : ¬ isBlank c := by
      simp [isBlank, hc ' ' rfl, hc '\t' rfl, hc '\n' rfl, hc '\r' rfl]
    have hmark : ¬ isMark c := by
      simp [isMark, hc '[' rfl, hc ']' rfl, hc '\x7b' rfl, hc '\x7d' rfl, hc ',' rfl, hc ':' rfl]
    have hmore : (t ++ rest).takeWhile isLiteralChar = t := by
      rw [List.takeWhile_append_of_pos fun d hd => hall d (List.mem_cons_of_mem _ hd)]
      cases rest with
      | nil => exact List.append_nil t
      | cons d rest => rw [List.takeWhile_cons_of_neg (by simp [hrest d rfl]), List.append_nil]
    rw [List.cons_append, lexemes?, if_neg hblank, if_neg hmark, if_neg (hc '"' rfl), hmore]
    simp only [hd, Option.bind_eq_bind, Option.bind_some, List.drop_left]

-- ---------------------------------------------------------------------------
-- Documents
-- ---------------------------------------------------------------------------

mutual

/-- Can the document be read back from its text? Its numbers are integers of 64 bits, and no more
than `depth` lists and tables are open at a time. -/
def isReadable (depth : Nat) : Document → Bool
  | .list items => 0 < depth && itemsReadable (depth - 1) items
  | .table fields => 0 < depth && fieldsReadable (depth - 1) fields
  | .integer n => -0x8000000000000000 ≤ n && n ≤ 0xFFFFFFFFFFFFFFFF
  | .null | .bool _ | .text _ => true
  | .decimal _ | .moment _ => false

def itemsReadable (depth : Nat) : List Document → Bool
  | [] => true
  | d :: ds => isReadable depth d && itemsReadable depth ds

def fieldsReadable (depth : Nat) : List (String × Document) → Bool
  | [] => true
  | (_, d) :: fs => isReadable depth d && fieldsReadable depth fs

end

section
variable {ds : List Document} {fs : List (String × Document)} {k : String}

@[simp] theorem isReadable_list :
    isReadable depth (.list ds) ↔ 0 < depth ∧ itemsReadable (depth - 1) ds := by
  rw [isReadable, Bool.and_eq_true, decide_eq_true_iff]

@[simp] theorem isReadable_table :
    isReadable depth (.table fs) ↔ 0 < depth ∧ fieldsReadable (depth - 1) fs := by
  rw [isReadable, Bool.and_eq_true, decide_eq_true_iff]

@[simp] theorem isReadable_integer {n : Int} :
    isReadable depth (.integer n) ↔ -0x8000000000000000 ≤ n ∧ n ≤ 0xFFFFFFFFFFFFFFFF := by
  rw [isReadable, Bool.and_eq_true, decide_eq_true_iff, decide_eq_true_iff]

@[simp] theorem isReadable_text (s : String) : isReadable depth (.text s) := by rw [isReadable]

@[simp] theorem isReadable_bool (b : Bool) : isReadable depth (.bool b) := by rw [isReadable]

@[simp] theorem fieldsReadable_nil : fieldsReadable depth [] := by rw [fieldsReadable]

@[simp] theorem itemsReadable_cons :
    itemsReadable depth (d :: ds) ↔ isReadable depth d ∧ itemsReadable depth ds := by
  rw [itemsReadable, Bool.and_eq_true]

@[simp] theorem fieldsReadable_cons :
    fieldsReadable depth ((k, d) :: fs) ↔ isReadable depth d ∧ fieldsReadable depth fs := by
  rw [fieldsReadable, Bool.and_eq_true]

end

mutual

/-- The lexemes of a document. -/
def lexemesOf : Document → List Lexeme
  | .list items => .mark '[' :: itemLexemes items
  | .table fields => .mark '\x7b' :: fieldLexemes fields
  | .text s => [.text s]
  | d => [.literal d]

/-- The lexemes of items, and the closing bracket. -/
def itemLexemes : List Document → List Lexeme
  | [] => [.mark ']']
  | [d] => lexemesOf d ++ [.mark ']']
  | d :: ds => lexemesOf d ++ .mark ',' :: itemLexemes ds

/-- The lexemes of fields, and the closing brace. -/
def fieldLexemes : List (String × Document) → List Lexeme
  | [] => [.mark '\x7d']
  | [(k, d)] => .text k :: .mark ':' :: lexemesOf d ++ [.mark '\x7d']
  | (k, d) :: fs => .text k :: .mark ':' :: lexemesOf d ++ .mark ',' :: fieldLexemes fs

end

section
variable (d d' : Document) (k : String) (ds : List Document) (f : String × Document)
  (fs : List (String × Document))

theorem compactItems_cons :
    compactItems (d :: d' :: ds) = compact d ++ ',' :: compactItems (d' :: ds) := rfl

theorem compactFields_cons :
    compactFields ((k, d) :: f :: fs) =
      quote k ++ ':' :: (compact d ++ ',' :: compactFields (f :: fs)) := by
  simp [compactFields]

theorem itemLexemes_cons :
    itemLexemes (d :: d' :: ds) = lexemesOf d ++ .mark ',' :: itemLexemes (d' :: ds) := rfl

theorem fieldLexemes_cons :
    fieldLexemes ((k, d) :: f :: fs) =
      .text k :: .mark ':' :: (lexemesOf d ++ .mark ',' :: fieldLexemes (f :: fs)) := rfl

end

/-- What has no parts, and is no string, is a word or number. -/
theorem lexemes?_scalar (hall : (compact d).all isLiteralChar)
    (hd : literal? (compact d) = some d) (hlexemes : lexemesOf d = [.literal d])
    (hrest : EndsLiteral rest) :
    lexemes? (compact d ++ rest) = (lexemes? rest).map (lexemesOf d ++ ·) := by
  rw [lexemes?_literal (List.all_eq_true.1 hall) hd hrest, hlexemes]
  rfl

mutual

theorem lexemes?_compact (d : Document) {depth : Nat} {rest : Text} (h : isReadable depth d)
    (hrest : EndsLiteral rest) :
    lexemes? (compact d ++ rest) = (lexemes? rest).map (lexemesOf d ++ ·) := by
  match d with
  | .list items =>
    rw [compact, List.cons_append, lexemes?_mark rfl,
      lexemes?_compactItems items (isReadable_list.1 h).2, Option.map_map]
    rfl
  | .table fields =>
    rw [compact, List.cons_append, lexemes?_mark rfl,
      lexemes?_compactFields fields (isReadable_table.1 h).2, Option.map_map]
    rfl
  | .text s => exact lexemes?_quote s rest
  | .null => exact lexemes?_scalar (by decide) rfl rfl hrest
  | .bool true => exact lexemes?_scalar (by decide) rfl rfl hrest
  | .bool false => exact lexemes?_scalar (by decide) rfl rfl hrest
  | .integer n =>
    obtain ⟨hlow, hhigh⟩ := isReadable_integer.1 h
    have hall : (toString n).toList.all isLiteralChar :=
      List.all_eq_true.2 fun _ => isLiteralChar_of_mem_toString
    exact lexemes?_scalar hall (literal?_toString hlow hhigh) rfl hrest
  | .decimal _ => cases h
  | .moment _ => cases h

theorem lexemes?_compactItems (ds : List Document) {depth : Nat} {rest : Text}
    (h : itemsReadable depth ds) :
    lexemes? (compactItems ds ++ rest) = (lexemes? rest).map (itemLexemes ds ++ ·) := by
  match ds with
  | [] => exact lexemes?_mark rfl rest
  | [d] =>
    obtain ⟨hd, -⟩ := itemsReadable_cons.1 h
    rw [compactItems, List.append_assoc, List.singleton_append,
      lexemes?_compact d hd (endsLiteral_mark rfl _), lexemes?_mark rfl]
    simp [itemLexemes, Function.comp_def]
  | d :: d' :: ds =>
    obtain ⟨hd, hds⟩ := itemsReadable_cons.1 h
    rw [compactItems_cons, List.append_assoc, List.cons_append,
      lexemes?_compact d hd (endsLiteral_mark rfl _), lexemes?_mark rfl,
      lexemes?_compactItems (d' :: ds) hds, itemLexemes_cons]
    simp [Function.comp_def]

theorem lexemes?_compactFields (fs : List (String × Document)) {depth : Nat} {rest : Text}
    (h : fieldsReadable depth fs) :
    lexemes? (compactFields fs ++ rest) = (lexemes? rest).map (fieldLexemes fs ++ ·) := by
  match fs with
  | [] => exact lexemes?_mark rfl rest
  | [(k, d)] =>
    obtain ⟨hd, -⟩ := fieldsReadable_cons.1 h
    rw [compactFields, List.append_assoc, List.append_assoc, List.cons_append,
      List.singleton_append, lexemes?_quote, lexemes?_mark rfl,
      lexemes?_compact d hd (endsLiteral_mark rfl _), lexemes?_mark rfl]
    simp [fieldLexemes, Function.comp_def]
  | (k, d) :: f :: fs =>
    obtain ⟨hd, hfs⟩ := fieldsReadable_cons.1 h
    rw [compactFields_cons, List.append_assoc, List.cons_append, List.append_assoc,
      List.cons_append, lexemes?_quote, lexemes?_mark rfl,
      lexemes?_compact d hd (endsLiteral_mark rfl _), lexemes?_mark rfl,
      lexemes?_compactFields (f :: fs) hfs, fieldLexemes_cons]
    simp [Function.comp_def]

end

end Json

end TidyImports
