-- SUMMARY: A scanner looks no further than the token it cuts, when the text before it ends a line.
import TidyImports.Source.Lexer

/-!
# Locality of scanning

A token that ends before the text does is cut the same way whatever the text is
continued with. One scanner needs more than that: a `/` opens no regular
expression only because its line ends first, so the text has to end a line, and
no backslash may take that line's end with it.
-/

namespace TidyImports

namespace Text

/-- The text ends with a line feed that no backslash stands before. -/
def EndsLine (t : Text) : Prop := ['\n'] <:+ t ∧ ¬ ['\\', '\n'] <:+ t

instance (t : Text) : Decidable t.EndsLine := inferInstanceAs (Decidable (_ ∧ _))

theorem EndsLine.ne_nil {t : Text} (h : t.EndsLine) : t ≠ [] := by
  rintro rfl
  exact absurd h.1 (by decide)

theorem EndsLine.of_cons {c : Char} {t : Text} (h : EndsLine (c :: t)) (ht : t ≠ []) :
    EndsLine t := by
  refine ⟨?_, fun hb => h.2 (hb.trans (List.suffix_cons c t))⟩
  rcases List.suffix_cons_iff.1 h.1 with heq | hs
  · cases heq
    exact absurd rfl ht
  · exact hs

theorem EndsLine.of_append {a b : Text} (h : EndsLine (a ++ b)) (hb : b ≠ []) : EndsLine b := by
  induction a with
  | nil => exact h
  | cons c a ih => exact ih (h.of_cons (by simp [hb]))

theorem EndsLine.eq_of_singleton {c : Char} (h : EndsLine [c]) : c = '\n' := by
  have := h.1.eq_of_length rfl
  simpa [eq_comm] using this

/-- A backslash takes no line feed with it when more text follows the two. -/
theorem EndsLine.ne_backslash {c : Char} (h : EndsLine ['\\', c]) : c ≠ '\n' := by
  rintro rfl
  exact h.2 (List.suffix_refl _)

end Text

namespace Lexer

-- ---------------------------------------------------------------------------
-- Scanners
-- ---------------------------------------------------------------------------

theorem takeWhile_append_of_lt {p : Char → Bool} {x y : Text}
    (h : (x.takeWhile p).length < x.length) : (x ++ y).takeWhile p = x.takeWhile p := by
  induction x with
  | nil => simp at h
  | cons c x ih =>
    by_cases hc : p c
    · simp only [List.takeWhile_cons, hc, if_true, List.length_cons, Nat.add_lt_add_iff_right] at h
      simp only [List.cons_append, List.takeWhile_cons, hc, if_true, ih h]
    · simp [hc]

theorem lineLength_append {x y : Text} (h : lineLength x < x.length) :
    lineLength (x ++ y) = lineLength x := by
  rw [lineLength, takeWhile_append_of_lt h, lineLength]

theorem commentLength_append {x y : Text} (h : commentLength x < x.length) :
    commentLength (x ++ y) = commentLength x := by
  fun_induction commentLength x with
  | case1 => simp at h
  | case2 rest => rfl
  | case3 c cs hc ih =>
    have hcs : commentLength cs < cs.length := by simpa using h
    have hne : ∀ tail, c = '*' → cs ++ y = '/' :: tail → False := by
      intro tail h₁ h₂
      cases cs with
      | nil => simp at hcs
      | cons d ds =>
        cases h₂
        exact hc ds h₁ rfl
    rw [List.cons_append, commentLength, ih hcs]
    exact hne

theorem stringLength_append {q : Char} {x y : Text} (h : (stringLength q x).1 < x.length) :
    stringLength q (x ++ y) = stringLength q x := by
  fun_induction stringLength q x with
  | case1 => simp at h
  | case2 =>
    cases y <;> simp [stringLength]
  | case3 c hc => simp at h
  | case4 d cs n closed heq ih =>
    rw [heq] at ih
    simp only [List.length_cons, Nat.add_lt_add_iff_right] at h
    simp [stringLength, ih h]
  | case5 d cs hc => simp [stringLength]
  | case6 d cs hq hn => simp_all [stringLength]
  | case7 c d cs hb hn hq n closed heq ih =>
    rw [heq] at ih
    simp only [List.length_cons, Nat.add_lt_add_iff_right] at h ih
    have := ih h
    simp only [List.cons_append] at this
    simp [stringLength, hb, hn, hq, this]

theorem templateLength_append {x y : Text} (h : (templateLength x).1 < x.length) :
    templateLength (x ++ y) = templateLength x := by
  fun_induction templateLength x with
  | case1 => simp at h
  | case2 c => simp at h
  | case3 d cs n opens heq ih =>
    rw [heq] at ih
    simp only [List.length_cons, Nat.add_lt_add_iff_right] at h
    simp [templateLength, ih h]
  | case4 => simp [templateLength]
  | case5 => simp_all [templateLength]
  | case6 c d cs hb hq ho n opens heq ih =>
    rw [heq] at ih
    simp only [List.length_cons, Nat.add_lt_add_iff_right] at h ih
    have := ih h
    simp only [List.cons_append] at this
    simp [templateLength, hb, hq, ho, this]

theorem regexLength?_append {ic : Bool} {x y : Text} {n : Nat} (hx : regexLength? ic x = some n)
    (hn : n < x.length) : regexLength? ic (x ++ y) = some n := by
  fun_induction regexLength? ic x generalizing n with
  | case1 => simp at hx
  | case2 ic c hc => simp_all
  | case3 ic c hc => simp_all
  | case4 ic d cs ih =>
    obtain ⟨m, hm, rfl⟩ := Option.map_eq_some_iff.1 hx
    simp only [List.length_cons, Nat.add_lt_add_iff_right] at hn
    simp [regexLength?, ih hm hn]
  | case5 => simp_all
  | case6 ic c d cs hb hl hs =>
    obtain rfl := Option.some.inj hx
    have hd : ((d :: cs).takeWhile isIdentChar).length < (d :: cs).length := by
      simpa using hn
    rw [List.cons_append, List.cons_append, regexLength?, if_neg hb, if_neg hl, if_pos hs,
      ← List.cons_append, takeWhile_append_of_lt hd]
  | case7 ic c d cs hb hl hs ih =>
    obtain ⟨m, hm, rfl⟩ := Option.map_eq_some_iff.1 hx
    simp only [List.length_cons, Nat.add_lt_add_iff_right] at hn ih
    rw [List.cons_append, List.cons_append, regexLength?, if_neg hb, if_neg hl, if_neg hs,
      ← List.cons_append, ih hm hn, Option.map_some]

/-- Where no `/` closes a regular expression before the line ends, none does in a longer text. -/
theorem regexLength?_append_none {ic : Bool} {x y : Text} (hx : regexLength? ic x = none)
    (hl : x.EndsLine) : regexLength? ic (x ++ y) = none := by
  fun_induction regexLength? ic x with
  | case1 => exact absurd rfl hl.ne_nil
  | case2 ic c hc => simp at hx
  | case3 ic c hc =>
    obtain rfl := hl.eq_of_singleton
    cases y <;> simp [regexLength?]
  | case4 ic d cs ih =>
    have hnone : regexLength? ic cs = none := by simpa using hx
    cases cs with
    | nil =>
      exact absurd (hl.of_cons (by simp)).eq_of_singleton hl.ne_backslash
    | cons e es =>
      have := ih hnone ((hl.of_cons (by simp)).of_cons (by simp))
      simp only [List.cons_append] at this
      simp [regexLength?, this]
  | case5 => simp [regexLength?]
  | case6 ic d cs hb hl hs => simp at hx
  | case7 ic c d cs hb hn hs ih =>
    have hnone : regexLength? (c == '[' || ic && c != ']') (d :: cs) = none := by simpa using hx
    rw [List.cons_append, List.cons_append, regexLength?, if_neg hb, if_neg hn, if_neg hs,
      ← List.cons_append, ih hnone (hl.of_cons (by simp)), Option.map_none]

-- ---------------------------------------------------------------------------
-- Tokens
-- ---------------------------------------------------------------------------

/-- What a `/` that opens no comment starts. -/
theorem State.scan_slash {s : State} {d : Char} {cs : Text} (h₁ : d ≠ '/') (h₂ : d ≠ '*') :
    s.scan '/' (d :: cs) =
      match if s.regexAllowed then regexLength? false (d :: cs) else none with
      | some n => (.regex, n)
      | none => (.punct '/', 0) := by
  simp only [State.scan, if_true]
  split
  · next h => exact absurd (List.cons.inj h).1 h₁
  · next h => exact absurd (List.cons.inj h).1 h₂
  · rfl

/-- A token that ends before its text does is the same in a longer text. -/
theorem State.scan_append {s : State} {c : Char} {x y : Text} (hl : x.EndsLine)
    (hn : (s.scan c x).2 < x.length) : s.scan c (x ++ y) = s.scan c x := by
  obtain ⟨d, cs, rfl⟩ := List.exists_cons_of_ne_nil hl.ne_nil
  by_cases hc : c = '/'
  · subst hc
    by_cases h₁ : d = '/'
    · subst h₁
      simp only [State.scan, if_true, List.cons_append] at hn ⊢
      rw [← List.cons_append, lineLength_append hn]
    by_cases h₂ : d = '*'
    · subst h₂
      simp only [State.scan, if_true, List.cons_append, List.length_cons,
        Nat.add_lt_add_iff_right] at hn ⊢
      rw [commentLength_append hn]
    rw [State.scan_slash h₁ h₂] at hn ⊢
    rw [List.cons_append, State.scan_slash h₁ h₂, ← List.cons_append]
    by_cases hr : s.regexAllowed
    · simp only [hr, if_true] at hn ⊢
      cases hx : regexLength? false (d :: cs) with
      | none => rw [regexLength?_append_none hx hl]
      | some n =>
        rw [hx] at hn
        rw [regexLength?_append hx hn]
    · simp [hr]
  · simp only [State.scan, hc, if_false] at hn ⊢
    split at hn
    · next hq => simp only [hq, if_true, stringLength_append hn]
    · next hq =>
      simp only [hq, if_false]
      split at hn
      · next ht => simp only [ht, if_true, templateLength_append hn]
      · next ht =>
        simp only [ht, if_false]
        split at hn
        · next hd => simp only [hd, if_true, takeWhile_append_of_lt hn]
        · next hd =>
          simp only [hd, Bool.false_eq_true, if_false]
          split at hn
          · next hi => simp only [hi, if_true, takeWhile_append_of_lt hn]
          · next hi => simp only [hi, Bool.false_eq_true, if_false]

end Lexer

end TidyImports
