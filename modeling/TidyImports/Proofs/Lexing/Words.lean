-- SUMMARY: Text written token by token is read back as those tokens.
import TidyImports.Proofs.Lexing.Marks
import TidyImports.Proofs.Lexing.Strings

/-!
# Writing and reading tokens

`Lexes` says of marks that each is what the lexer finds where they are written
out in a row. The text of such marks is read back as they are, whatever comes
before and after. The rest of the module says what it takes for the tokens of a
declaration: words, punctuation, and strings without quotes and escapes.
-/

namespace TidyImports

namespace Lexer

open Text

-- ---------------------------------------------------------------------------
-- Marks in a row
-- ---------------------------------------------------------------------------

/-- Does the lexer find these marks, one after the other, where they are written before `t`? -/
def Lexes (s : State) (blank : Bool) (t : Text) : List Mark → Prop
  | [] => True
  | m :: ms =>
    m.gap.all isSpace ∧
      (∃ c cs, m.text = c :: cs ∧ isSpace c = false ∧
        s.scan c (cs ++ (Mark.sources ms ++ t)) = (m.kind, cs.length)) ∧
      m.leads = (lineBlank blank m.gap && isImport m.kind m.text) ∧
      Lexes (s.after m.kind m.text) (lineBlank blank (m.gap ++ m.text)) t ms

theorem marks_spaces {s : State} {blank : Bool} {gap spaces t : Text} (h : spaces.all isSpace) :
    marks s blank gap (spaces ++ t) = marks s (lineBlank blank spaces) (gap ++ spaces) t := by
  induction spaces generalizing blank gap with
  | nil => simp
  | cons c cs ih =>
    simp only [List.all_cons, Bool.and_eq_true] at h
    rw [List.cons_append, marks, if_pos h.1, ih h.2, lineBlank_cons blank c cs]
    simp

theorem marks_token {s : State} (blank : Bool) (gap : Text) {c : Char} {cs t : Text}
    {kind : Token.Kind} (hc : isSpace c = false) (h : s.scan c (cs ++ t) = (kind, cs.length)) :
    marks s blank gap (c :: cs ++ t) =
      ⟨gap, kind, c :: cs, blank && isImport kind (c :: cs)⟩ ::
        marks (s.after kind (c :: cs)) (lineBlank blank (c :: cs)) [] t := by
  rw [List.cons_append, marks, if_neg (by simp [hc]), h]
  simp

/-- Marks that are written out are read back. -/
theorem marks_sources {s : State} {blank : Bool} {t : Text} {ms : List Mark}
    (h : Lexes s blank t ms) :
    marks s blank [] (Mark.sources ms ++ t) =
      ms ++ marks (s.afterMarks ms) (lineBlank blank (Mark.sources ms)) [] t := by
  induction ms generalizing s blank with
  | nil => simp
  | cons m ms ih =>
    obtain ⟨hgap, ⟨c, cs, htext, hc, hscan⟩, hleads, hms⟩ := h
    rw [Mark.sources_cons, List.append_assoc, List.append_assoc, marks_spaces hgap,
      List.nil_append, htext, marks_token _ _ hc hscan, ← htext, ← hleads, ← lineBlank_append, ih hms]
    simp

-- ---------------------------------------------------------------------------
-- Words
-- ---------------------------------------------------------------------------

/-- Is the text an identifier? -/
def isWord : Text → Bool
  | [] => false
  | c :: cs => isIdentStart c && cs.all isIdentChar

theorem not_isIdentChar_of_isSpace {c : Char} (h : isSpace c) : isIdentChar c = false := by
  simp only [isSpace, Bool.or_eq_true, beq_iff_eq] at h
  rcases h with ((((rfl | rfl) | rfl) | rfl) | rfl) | rfl <;> decide

theorem isIdentStart_ne {c d : Char} (h : isIdentStart c) (hd : isIdentStart d = false) :
    c ≠ d := by
  rintro rfl
  simp [h] at hd

theorem not_isDigit_of_isIdentStart {c : Char} (h : isIdentStart c) : c.isDigit = false := by
  change (decide (c.val ≥ 'A'.val ∧ c.val ≤ 'Z'.val) ||
    (decide (c.val ≥ 'a'.val) && decide (c.val ≤ 'z'.val)) || c == '_' || c == '$' ||
      decide (0x80 ≤ c.val)) = true at h
  simp only [Bool.or_eq_true, Bool.and_eq_true, decide_eq_true_eq, beq_iff_eq,
    UInt32.le_iff_toNat_le] at h
  simp only [Char.isDigit, Bool.and_eq_false_iff, decide_eq_false_iff_not,
    UInt32.le_iff_toNat_le]
  rcases h with ((h | rfl) | rfl) | h
  · simp at h ⊢
    omega
  · decide
  · decide
  · simp at h ⊢
    omega

theorem takeWhile_append_of_all {p : Char → Bool} {x y : Text} (hx : x.all p)
    (hy : ∀ c, y.head? = some c → p c = false) : (x ++ y).takeWhile p = x := by
  rw [List.takeWhile_append_of_pos (by simpa using hx)]
  cases y with
  | nil => simp
  | cons c y => simp [hy c rfl]

/-- A word is read as an identifier when no identifier character follows. -/
theorem State.scan_word {s : State} {c : Char} {cs t : Text} (h : isWord (c :: cs))
    (ht : ∀ d, t.head? = some d → isIdentChar d = false) :
    s.scan c (cs ++ t) = (.ident, cs.length) := by
  simp only [isWord, Bool.and_eq_true] at h
  have hne : ∀ d, isIdentStart d = false → c ≠ d := fun d hd => isIdentStart_ne h.1 hd
  simp [State.scan, hne '/' (by decide), hne '\'' (by decide), hne '"' (by decide),
    hne '`' (by decide), hne '}' (by decide), not_isDigit_of_isIdentStart h.1, h.1,
    takeWhile_append_of_all h.2 ht]

-- ---------------------------------------------------------------------------
-- Punctuation and strings
-- ---------------------------------------------------------------------------

theorem State.scan_opening (s : State) (t : Text) : s.scan '\x7b' t = (.punct '\x7b', 0) := by
  simp [State.scan, isIdentStart]

theorem State.scan_comma (s : State) (t : Text) : s.scan ',' t = (.punct ',', 0) := by
  simp [State.scan, isIdentStart]

theorem State.scan_semicolon (s : State) (t : Text) : s.scan ';' t = (.punct ';', 0) := by
  simp [State.scan, isIdentStart]

/-- A brace that closes no substitution is punctuation. -/
theorem State.scan_closing {s : State} (h : s.closesSubstitution = false) (t : Text) :
    s.scan '\x7d' t = (.punct '\x7d', 0) := by
  simp [State.scan, isIdentStart, h]

/-- No quote, no backslash, no line feed: what a string can hold as it stands. -/
def isPlain (t : Text) : Bool := t.all fun c => c != '\'' && c != '"' && c != '\\' && c != '\n'

theorem isPlain_iff {t : Text} : isPlain t ↔ '\'' ∉ t ∧ '"' ∉ t ∧ '\\' ∉ t ∧ '\n' ∉ t := by
  simp only [isPlain, List.all_eq_true, Bool.and_eq_true, bne_iff_ne, ne_eq]
  constructor
  · intro h
    refine ⟨fun hmem => ?_, fun hmem => ?_, fun hmem => ?_, fun hmem => ?_⟩
    · exact (h _ hmem).1.1.1 rfl
    · exact (h _ hmem).1.1.2 rfl
    · exact (h _ hmem).1.2 rfl
    · exact (h _ hmem).2 rfl
  · rintro ⟨h₁, h₂, h₃, h₄⟩ c hc
    exact ⟨⟨⟨fun h => h₁ (h ▸ hc), fun h => h₂ (h ▸ hc)⟩, fun h => h₃ (h ▸ hc)⟩,
      fun h => h₄ (h ▸ hc)⟩

theorem isQuotable_of_isPlain {q : Char} {x : Text} (hq : q = '\'' ∨ q = '"') (hx : isPlain x) :
    IsQuotable q x := by
  refine .of_forall fun c hc => ?_
  have hplain := List.all_eq_true.1 hx c hc
  simp only [Bool.and_eq_true, bne_iff_ne, ne_eq] at hplain
  rcases hq with rfl | rfl <;> simp [hplain]

/-- Quotable text between its quotes is read as a string. -/
theorem State.scan_quotable {s : State} {q : Char} {x t : Text} (hq : q = '\'' ∨ q = '"')
    (hx : IsQuotable q x) :
    s.scan q (x ++ [q] ++ t) = (.string true, (x ++ [q]).length) := by
  have hne : q ≠ '/' ∧ q ≠ '\\' ∧ q ≠ '\n' := by rcases hq with rfl | rfl <;> decide
  rw [List.append_assoc, List.singleton_append]
  simp [State.scan, hne.1, hq, stringLength_quotable hne.2.1 hne.2.2 hx]

theorem State.scan_string {s : State} {q : Char} {x t : Text} (hq : q = '\'' ∨ q = '"')
    (hx : isPlain x) :
    s.scan q (x ++ [q] ++ t) = (.string true, (x ++ [q]).length) :=
  scan_quotable hq (isQuotable_of_isPlain hq hx)

-- ---------------------------------------------------------------------------
-- What tokens look like
-- ---------------------------------------------------------------------------

/-- What the kind of a token says about its characters. -/
def Shapes (text : Text) : Token.Kind → Prop
  | .ident => isWord text
  | .punct c => text = [c]
  | .string true => ∃ q x, (q = '\'' ∨ q = '"') ∧ text = q :: (x ++ [q])
  | _ => True

/-- A closed string holds quotable text between its quotes. -/
theorem State.quotable_scan {s : State} {c : Char} {rest : Text} {n : Nat}
    (h : s.scan c rest = (.string true, n)) :
    (c = '\'' ∨ c = '"') ∧ ∃ x, rest.take n = x ++ [c] ∧ IsQuotable c x := by
  simp only [State.scan] at h
  split at h
  · split at h
    · cases h
    · cases h
    · split at h <;> cases h
  · split at h
    · next hq =>
      have hb : c ≠ '\\' := by rcases hq with rfl | rfl <;> decide
      refine ⟨hq, exists_quotable hb (Prod.ext ?_ ?_)⟩
      · exact congrArg Prod.snd h
      · exact Token.Kind.string.inj (congrArg Prod.fst h)
    · repeat' split at h
      all_goals cases h

theorem State.shapes_scan {s : State} {c : Char} {rest : Text} {kind : Token.Kind} {n : Nat}
    (h : s.scan c rest = (kind, n)) : Shapes (c :: rest.take n) kind := by
  simp only [State.scan] at h
  split at h
  · split at h
    · cases h; trivial
    · cases h; trivial
    · split at h <;> cases h
      · trivial
      · exact congrArg _ List.take_zero
  · split at h
    · next hq =>
      obtain ⟨rfl, rfl⟩ := Prod.mk.inj h
      cases hs : (stringLength c rest).2 with
      | false => trivial
      | true =>
        have hb : c ≠ '\\' := by rcases hq with rfl | rfl <;> decide
        obtain ⟨x, hx, -⟩ := exists_quotable hb (Prod.ext rfl hs)
        exact ⟨c, x, hq, by rw [hx]⟩
    · split at h
      · cases h; trivial
      · split at h
        · cases h; trivial
        · split at h
          · next hi =>
            cases h
            have hrest : rest.take (rest.takeWhile isIdentChar).length =
                rest.takeWhile isIdentChar :=
              (List.prefix_iff_eq_take.1 (List.takeWhile_prefix _)).symm
            refine Bool.and_eq_true_iff.2 ⟨hi, ?_⟩
            rw [hrest]
            exact List.all_takeWhile
          · cases h
            exact congrArg _ List.take_zero

end Lexer

namespace Mark

open Lexer

/-- What holds of every mark of a text. -/
structure Proper (m : Mark) : Prop where
  gap : m.gap.all isSpace
  shapes : Shapes m.text m.kind
  start : ∃ c cs, m.text = c :: cs ∧ isSpace c = false
  leads : m.leads → isImport m.kind m.text

end Mark

namespace Lexer

theorem proper_marks {s : State} {blank : Bool} {gap t : Text} (hg : gap.all isSpace) :
    ∀ m ∈ marks s blank gap t, m.Proper := by
  fun_induction marks s blank gap t with
  | case1 => simp
  | case2 s blank gap c cs hc ih => exact ih (by simp_all)
  | case3 s blank gap c cs hc kind n hscan text ih =>
    intro m hm
    rcases List.mem_cons.1 hm with rfl | hm
    · exact {
        gap := hg
        shapes := State.shapes_scan hscan
        start := ⟨c, cs.take n, rfl, by simpa using hc⟩
        leads := fun h => (Bool.and_eq_true_iff.1 h).2 }
    · exact ih rfl m hm

/-- Closed strings among marks hold quotable text. -/
theorem quotable_marks {s : State} {blank : Bool} {gap t : Text} {m : Mark}
    (hm : m ∈ marks s blank gap t) (hk : m.kind = .string true) :
    ∃ q x, (q = '\'' ∨ q = '"') ∧ m.text = q :: (x ++ [q]) ∧ Text.IsQuotable q x := by
  fun_induction marks s blank gap t with
  | case1 => cases hm
  | case2 s blank gap c cs hc ih => exact ih hm
  | case3 s blank gap c cs hc kind n hscan text ih =>
    rcases List.mem_cons.1 hm with rfl | hm
    · obtain ⟨hq, x, hx, hquotable⟩ := State.quotable_scan (hscan.trans (congrArg (·, n) hk))
      exact ⟨c, x, hq, congrArg _ hx, hquotable⟩
    · exact ih hm

end Lexer

end TidyImports
