-- SUMMARY: Tokens that end before a place are the same whatever is written there and after.
import TidyImports.Proofs.Lexing.Words

/-!
# Replacing text

A scanner that stops at a place or before has looked at no more than the
character there. So text can be replaced by other text that starts with the same
character, and the tokens before it stay. Again the exception is a `/` that opens
no regular expression only because of what follows on its line.
-/

namespace TidyImports

-- ---------------------------------------------------------------------------
-- The ends of lines
-- ---------------------------------------------------------------------------

namespace Text

/-- Does a line end in a text, at a line feed that no backslash takes with it? -/
def breaksLine : Text → Bool
  | [] => false
  | [c] => c == '\n'
  | c :: d :: cs => if c = '\\' then breaksLine cs else c == '\n' || breaksLine (d :: cs)

theorem EndsLine.breaksLine {l w : Text} (h : l.EndsLine) : (l ++ w).breaksLine := by
  match l with
  | [] => exact absurd rfl h.ne_nil
  | [c] =>
    obtain rfl := h.eq_of_singleton
    cases w <;> rfl
  | c :: d :: l =>
    rw [List.cons_append, List.cons_append, Text.breaksLine]
    split
    · next hc =>
      subst hc
      have hne : l ≠ [] := by
        rintro rfl
        exact absurd (h.of_cons (by simp)).eq_of_singleton h.ne_backslash
      exact ((h.of_cons (by simp)).of_cons hne).breaksLine
    · have hrest : Text.breaksLine ((d :: l) ++ w) := (h.of_cons (by simp)).breaksLine
      exact Bool.or_eq_true_iff.2 (.inr hrest)

theorem mem_of_breaksLine {x : Text} (h : x.breaksLine) : '\n' ∈ x := by
  fun_induction breaksLine x with
  | case1 => cases h
  | case2 c => exact List.mem_singleton.2 (eq_of_beq h).symm
  | case3 d cs ih => exact List.mem_cons_of_mem _ (List.mem_cons_of_mem _ (ih h))
  | case4 c d cs hc ih =>
    rcases Bool.or_eq_true_iff.1 h with h | h
    · rw [eq_of_beq h]
      exact List.mem_cons_self ..
    · exact List.mem_cons_of_mem _ (ih h)

/-- What holds no line feed adds no end of a line. -/
theorem breaksLine_of_append {x k : Text} (hk : '\n' ∉ k) (h : (x ++ k).breaksLine) :
    x.breaksLine := by
  match x with
  | [] => exact absurd (mem_of_breaksLine h) hk
  | [c] =>
    cases k with
    | nil => exact h
    | cons d k =>
      rw [List.singleton_append, breaksLine] at h
      split at h
      · exact absurd (List.mem_cons_of_mem _ (mem_of_breaksLine h)) hk
      · exact (Bool.or_eq_true_iff.1 h).resolve_right fun h => hk (mem_of_breaksLine h)
  | c :: d :: x =>
    rw [List.cons_append, List.cons_append, breaksLine] at h
    rw [breaksLine]
    split at h
    · next hc =>
      rw [if_pos hc]
      exact breaksLine_of_append hk h
    · next hc =>
      rw [if_neg hc]
      refine Bool.or_eq_true_iff.2 ((Bool.or_eq_true_iff.1 h).imp_right fun h => ?_)
      exact breaksLine_of_append (x := d :: x) hk h

end Text

namespace Lexer

open Text

variable {d : Char} {y y' : Text}

-- ---------------------------------------------------------------------------
-- Scanners
-- ---------------------------------------------------------------------------

theorem takeWhile_replace {p : Char → Bool} {x : Text}
    (h : ((x ++ d :: y).takeWhile p).length ≤ x.length) :
    (x ++ d :: y').takeWhile p = (x ++ d :: y).takeWhile p := by
  induction x with
  | nil =>
    by_cases hd : p d <;> simp_all
  | cons c x ih =>
    by_cases hc : p c
    · simp only [List.cons_append, List.takeWhile_cons, hc, if_true, List.length_cons,
        Nat.add_le_add_iff_right] at h ⊢
      rw [ih h]
    · simp [hc]

theorem commentLength_pos {x : Text} (h : x ≠ []) : 0 < commentLength x := by
  fun_cases commentLength x with
  | case1 => exact absurd rfl h
  | case2 => decide
  | case3 => exact Nat.succ_pos _

theorem commentLength_replace {x : Text} (h : commentLength (x ++ d :: y) ≤ x.length) :
    commentLength (x ++ d :: y') = commentLength (x ++ d :: y) := by
  induction x with
  | nil =>
    have := commentLength_pos (x := d :: y) (by simp)
    simp only [List.nil_append, List.length_nil] at h
    omega
  | cons a x ih =>
    cases x with
    | nil =>
      by_cases hc : a = '*' ∧ d = '/'
      · obtain ⟨rfl, rfl⟩ := hc
        simp [commentLength] at h
      · have hpos := commentLength_pos (x := d :: y) (by simp)
        rw [List.cons_append, List.nil_append, commentLength] at h
        · simp only [List.length_cons, List.length_nil] at h
          omega
        · rintro cs rfl heq
          cases heq
          exact hc ⟨rfl, rfl⟩
    | cons b x =>
      by_cases hc : a = '*' ∧ b = '/'
      · obtain ⟨rfl, rfl⟩ := hc
        rfl
      · have hne : ∀ z : Text, ∀ cs, a = '*' → b :: z = '/' :: cs → False := by
          rintro z cs rfl heq
          cases heq
          exact hc ⟨rfl, rfl⟩
        have hstep : ∀ z : Text, commentLength (a :: b :: z) = commentLength (b :: z) + 1 :=
          fun z => commentLength.eq_3 _ _ (hne z)
        simp only [List.cons_append, hstep, List.length_cons] at h ih ⊢
        rw [ih (by omega)]

theorem stringLength_replace {q : Char} {x : Text}
    (h : (stringLength q (x ++ d :: y)).1 ≤ x.length) :
    stringLength q (x ++ d :: y') = stringLength q (x ++ d :: y) := by
  match x with
  | [] =>
    have hd : d = '\n' := by
      cases y with
      | nil =>
        simp only [List.nil_append, stringLength] at h
        split at h
        · assumption
        · simp at h
      | cons e y =>
        simp only [List.nil_append, stringLength] at h
        repeat' split at h
        all_goals first | assumption | simp at h
    subst hd
    cases y <;> cases y' <;> simp [stringLength]
  | [a] =>
    simp only [List.cons_append, List.nil_append, stringLength] at h ⊢
    split at h
    · simp at h
    · next ha =>
      rw [if_neg ha, if_neg ha]
      split at h
      · next hn => rw [if_pos hn, if_pos hn]
      · next hn =>
        rw [if_neg hn, if_neg hn]
        split at h
        · next hq => rw [if_pos hq, if_pos hq]
        · next hq =>
          have := stringLength_replace (x := []) (by simpa using h)
          simp only [List.nil_append] at this
          rw [if_neg hq, if_neg hq, this]
  | a :: b :: x =>
    simp only [List.cons_append, stringLength] at h ⊢
    split at h
    · next ha =>
      have := stringLength_replace (x := x) (by simpa using h)
      rw [if_pos ha, if_pos ha, this]
    · next ha =>
      rw [if_neg ha, if_neg ha]
      split at h
      · next hn => rw [if_pos hn, if_pos hn]
      · next hn =>
        rw [if_neg hn, if_neg hn]
        split at h
        · next hq => rw [if_pos hq, if_pos hq]
        · next hq =>
          have := stringLength_replace (x := b :: x) (by simpa using h)
          simp only [List.cons_append] at this
          rw [if_neg hq, if_neg hq, this]

theorem templateLength_pos {x : Text} (h : x ≠ []) : 0 < (templateLength x).1 := by
  fun_cases templateLength x with
  | case1 => exact absurd rfl h
  | case2 => decide
  | case3 => exact Nat.succ_pos _
  | case4 => decide
  | case5 => decide
  | case6 => exact Nat.succ_pos _

theorem templateLength_replace {x : Text} (h : (templateLength (x ++ d :: y)).1 ≤ x.length) :
    templateLength (x ++ d :: y') = templateLength (x ++ d :: y) := by
  match x with
  | [] =>
    have := templateLength_pos (x := d :: y) (by simp)
    simp only [List.nil_append, List.length_nil] at h
    omega
  | [a] =>
    have hpos := templateLength_pos (x := d :: y) (by simp)
    simp only [List.cons_append, List.nil_append, templateLength] at h ⊢
    split at h
    · simp at h
    · next ha =>
      rw [if_neg ha, if_neg ha]
      split at h
      · next hq => rw [if_pos hq, if_pos hq]
      · next hq =>
        split at h
        · simp at h
        · simp only [List.length_cons, List.length_nil] at h
          omega
  | a :: b :: x =>
    simp only [List.cons_append, templateLength] at h ⊢
    split at h
    · next ha =>
      have := templateLength_replace (x := x) (by simpa using h)
      rw [if_pos ha, if_pos ha, this]
    · next ha =>
      rw [if_neg ha, if_neg ha]
      split at h
      · next hq => rw [if_pos hq, if_pos hq]
      · next hq =>
        rw [if_neg hq, if_neg hq]
        split at h
        · next ho => rw [if_pos ho, if_pos ho]
        · next ho =>
          have := templateLength_replace (x := b :: x) (by simpa using h)
          simp only [List.cons_append] at this
          rw [if_neg ho, if_neg ho, this]

theorem regexLength?_pos {ic : Bool} {x : Text} {n : Nat} (h : regexLength? ic x = some n) :
    0 < n := by
  fun_cases regexLength? ic x with
  | case1 => simp [regexLength?] at h
  | case2 c hc =>
    simp_all [regexLength?]
    omega
  | case3 c hc => simp_all [regexLength?]
  | case4 e cs =>
    simp only [regexLength?, if_true] at h
    obtain ⟨m, -, rfl⟩ := Option.map_eq_some_iff.1 h
    exact Nat.succ_pos _
  | case5 => simp_all [regexLength?]
  | case6 c e cs hb hn hs =>
    rw [regexLength?, if_neg hb, if_neg hn, if_pos hs] at h
    cases h
    exact Nat.succ_pos _
  | case7 c e cs hb hn hs =>
    rw [regexLength?, if_neg hb, if_neg hn, if_neg hs] at h
    obtain ⟨m, -, rfl⟩ := Option.map_eq_some_iff.1 h
    exact Nat.succ_pos _

theorem regexLength?_replace {ic : Bool} {x : Text} {n : Nat}
    (h : regexLength? ic (x ++ d :: y) = some n) (hn : n ≤ x.length) :
    regexLength? ic (x ++ d :: y') = some n := by
  match x with
  | [] =>
    have := regexLength?_pos h
    simp only [List.length_nil] at hn
    omega
  | [a] =>
    simp only [List.cons_append, List.nil_append, regexLength?, List.length_cons,
      List.length_nil] at h hn ⊢
    split at h
    · obtain ⟨m, hm, rfl⟩ := Option.map_eq_some_iff.1 h
      omega
    · next hb =>
      rw [if_neg hb]
      split at h
      · cases h
      · next hl =>
        rw [if_neg hl]
        split at h
        · next hs =>
          rw [if_pos hs]
          cases h
          have : (d :: y').takeWhile isIdentChar = (d :: y).takeWhile isIdentChar :=
            takeWhile_replace (x := []) (by simpa using hn)
          rw [this]
        · obtain ⟨m, hm, rfl⟩ := Option.map_eq_some_iff.1 h
          have := regexLength?_pos hm
          omega
  | a :: b :: x =>
    simp only [List.cons_append, regexLength?, List.length_cons] at h hn ⊢
    split at h
    · next hb =>
      obtain ⟨m, hm, rfl⟩ := Option.map_eq_some_iff.1 h
      rw [if_pos hb, regexLength?_replace hm (by omega)]
      rfl
    · next hb =>
      rw [if_neg hb]
      split at h
      · cases h
      · next hl =>
        rw [if_neg hl]
        split at h
        · next hs =>
          rw [if_pos hs]
          cases h
          have : (b :: (x ++ d :: y')).takeWhile isIdentChar =
              (b :: (x ++ d :: y)).takeWhile isIdentChar :=
            takeWhile_replace (x := b :: x) (by simpa using hn)
          rw [this]
        · next hs =>
          obtain ⟨m, hm, rfl⟩ := Option.map_eq_some_iff.1 h
          have := regexLength?_replace (x := b :: x) (by simpa using hm) (by simp; omega)
          simp only [List.cons_append] at this
          rw [if_neg hs, this]
          rfl

/-- No regular expression reaches past the end of a line. -/
theorem regexLength?_of_breaksLine {ic : Bool} {x z z' : Text} (hx : x.breaksLine)
    (h : regexLength? ic (x ++ z) = none) : regexLength? ic (x ++ z') = none := by
  match x with
  | [] => cases hx
  | [a] =>
    obtain rfl : a = '\n' := by simpa [breaksLine] using hx
    cases z' <;> simp [regexLength?]
  | a :: b :: x =>
    rw [breaksLine] at hx
    simp only [List.cons_append, regexLength?] at h ⊢
    split at h
    · next ha =>
      rw [if_pos ha] at hx
      rw [if_pos ha, regexLength?_of_breaksLine hx (Option.map_eq_none_iff.1 h)]
      rfl
    · next ha =>
      rw [if_neg ha] at hx ⊢
      split at h
      · next hn => rw [if_pos hn]
      · next hn =>
        rw [if_neg hn]
        split at h
        · cases h
        · next hs =>
          have hrest : breaksLine (b :: x) :=
            (Bool.or_eq_true_iff.1 hx).resolve_left (by simpa using hn)
          have : regexLength? (a == '[' || ic && a != ']') (b :: (x ++ z')) = none :=
            regexLength?_of_breaksLine (x := b :: x) hrest (Option.map_eq_none_iff.1 h)
          rw [if_neg hs, this]
          rfl

-- ---------------------------------------------------------------------------
-- Tokens
-- ---------------------------------------------------------------------------

/-- A token that ends before a place does not depend on what is written after the character there.
A `/` that could open a regular expression but does not must have the end of its line before that
place. -/
theorem State.scan_replace {s : State} {c : Char} {x : Text} {kind : Token.Kind} {n : Nat}
    (h : s.scan c (x ++ d :: y) = (kind, n)) (hn : n ≤ x.length)
    (hs : kind = .punct '/' → s.regexAllowed → x.breaksLine) :
    s.scan c (x ++ d :: y') = (kind, n) := by
  by_cases hc : c = '/'
  · subst hc
    -- The character after the `/` is the same in both texts.
    obtain ⟨e, he⟩ : ∃ e, ∀ z, ∃ r, x ++ d :: z = e :: r := by
      cases x with
      | nil => exact ⟨d, fun z => ⟨z, rfl⟩⟩
      | cons e x => exact ⟨e, fun z => ⟨x ++ d :: z, rfl⟩⟩
    obtain ⟨r, hr⟩ := he y
    obtain ⟨r', hr'⟩ := he y'
    by_cases h₁ : e = '/'
    · subst h₁
      rw [hr, State.scan] at h
      rw [hr', State.scan]
      simp only [if_true, Prod.mk.injEq] at h ⊢
      obtain ⟨rfl, rfl⟩ := h
      refine ⟨rfl, ?_⟩
      rw [← hr, lineLength] at hn
      rw [← hr, ← hr', lineLength, lineLength, takeWhile_replace hn]
    by_cases h₂ : e = '*'
    · subst h₂
      rw [hr, State.scan] at h
      rw [hr', State.scan]
      simp only [if_true, Prod.mk.injEq] at h ⊢
      obtain ⟨rfl, rfl⟩ := h
      refine ⟨rfl, ?_⟩
      cases x with
      | nil => simp at hn
      | cons e x =>
        simp only [List.cons_append, List.cons.injEq] at hr hr'
        obtain ⟨-, rfl⟩ := hr
        obtain ⟨-, rfl⟩ := hr'
        simp only [List.length_cons, Nat.add_le_add_iff_right] at hn
        rw [commentLength_replace hn]
    rw [hr, State.scan_slash h₁ h₂, ← hr] at h
    rw [hr', State.scan_slash h₁ h₂, ← hr']
    by_cases hreg : s.regexAllowed
    · simp only [hreg, if_true] at h ⊢
      cases hx : regexLength? false (x ++ d :: y) with
      | none =>
        rw [hx] at h
        cases h
        rw [regexLength?_of_breaksLine (hs rfl hreg) hx]
      | some m =>
        rw [hx] at h
        cases h
        rw [regexLength?_replace hx hn]
    · simp_all
  · simp only [State.scan, hc, if_false] at h ⊢
    split at h
    · next hq =>
      cases h
      rw [if_pos hq, stringLength_replace hn]
    · next hq =>
      rw [if_neg hq]
      split at h
      · next ht =>
        cases h
        rw [if_pos ht, templateLength_replace hn]
      · next ht =>
        rw [if_neg ht]
        split at h
        · next hd =>
          cases h
          rw [if_pos hd, takeWhile_replace hn]
        · next hd =>
          rw [if_neg hd]
          split at h
          · next hi =>
            cases h
            rw [if_pos hi, takeWhile_replace hn]
          · next hi =>
            rw [if_neg hi]
            exact h

-- ---------------------------------------------------------------------------
-- Marks
-- ---------------------------------------------------------------------------

/-- How the first mark of a text is found. -/
theorem marks_eq_cons {s : State} {blank : Bool} {gap t : Text} {m : Mark} {ms : List Mark}
    (h : marks s blank gap t = m :: ms) :
    ∃ spaces c cs n, spaces.all isSpace ∧ t = spaces ++ c :: cs ∧ isSpace c = false ∧
      s.scan c cs = (m.kind, n) ∧
      m = ⟨gap ++ spaces, m.kind, c :: cs.take n,
        lineBlank blank spaces && isImport m.kind (c :: cs.take n)⟩ ∧
      ms = marks (s.after m.kind m.text) (lineBlank blank (spaces ++ m.text)) [] (cs.drop n) := by
  fun_induction marks s blank gap t with
  | case1 => cases h
  | case2 s blank gap c cs hc ih =>
    obtain ⟨spaces, c', cs', n, hspaces, rfl, hc', hscan, hm, hms⟩ := ih h
    refine ⟨c :: spaces, c', cs', n, by simpa [hc] using hspaces, rfl, hc', hscan, ?_, hms⟩
    rw [hm]
    simp [lineBlank_cons blank c spaces]
  | case3 s blank gap c cs hc kind n hscan text ih =>
    obtain ⟨rfl, rfl⟩ := List.cons.inj h
    exact ⟨[], c, cs, n, rfl, rfl, by simpa using hc, hscan, by simp [text], rfl⟩

/-- Is the end of a line between a lone `/` and the end of the marks? -/
def SlashesEnd (ms : List Mark) (tail : Text) : Prop :=
  ∀ front m back, ms = front ++ m :: back → m.kind = .punct '/' →
    ∃ l w, Mark.sources back ++ tail = l ++ w ∧ l.EndsLine

/-- Is the end of a line between each lone `/` that could have opened a regular expression and the
end of the marks? They are read from a given state. -/
def SlashesSettle (s : State) (ms : List Mark) (tail : Text) : Prop :=
  ∀ front m back, ms = front ++ m :: back → m.kind = .punct '/' →
    (s.afterMarks front).regexAllowed → (Mark.sources back ++ tail).breaksLine

theorem SlashesEnd.settle {ms : List Mark} {tail : Text} (h : SlashesEnd ms tail) (s : State) :
    SlashesSettle s ms tail := fun front m back heq hslash _ => by
  obtain ⟨l, w, hlw, hl⟩ := h front m back heq hslash
  rw [hlw]
  exact hl.breaksLine

theorem SlashesSettle.of_cons {s : State} {k : Mark} {ms : List Mark} {tail : Text}
    (h : SlashesSettle s (k :: ms) tail) : SlashesSettle (s.after k.kind k.text) ms tail :=
  fun front m back heq => h (k :: front) m back (by rw [heq]; rfl)

/-- Text can be replaced from the start of a token on, if its first character stays. -/
theorem marks_replace {s : State} {blank : Bool} {gap x : Text} {p q : List Mark} {m : Mark}
    (hg : gap.all isSpace) (h : marks s blank gap (x ++ d :: y) = p ++ m :: q)
    (hx : gap ++ x = Mark.sources p ++ m.gap) (hs : SlashesSettle s p m.gap) (before : Bool)
    (hb : lineBlank before gap = blank) (y' : Text) :
    marks s blank gap (x ++ d :: y') =
      p ++ marks (s.afterMarks p) (lineBlank before (Mark.sources p ++ m.gap)) m.gap
        (d :: y') := by
  induction p generalizing s blank gap x before with
  | nil =>
    simp only [Mark.sources_nil, List.nil_append] at hx h ⊢
    have hgap : m.gap.all isSpace :=
      (proper_marks hg m (by rw [h]; exact List.mem_cons_self ..)).gap
    rw [← hx, List.all_append, Bool.and_eq_true] at hgap
    rw [marks_spaces hgap.2, State.afterMarks_nil, ← hx, lineBlank_append, hb]
  | cons k p ih =>
    rw [List.cons_append] at h
    obtain ⟨spaces, c, cs, n, hspaces, ht, hc, hscan, hk, hp⟩ := marks_eq_cons h
    generalize hkind : k.kind = kind at hscan hk hp
    subst hk
    simp only [Mark.sources_cons, List.append_assoc, List.append_cancel_left_eq] at hx
    -- What is left of `x` after the first token.
    generalize hrest : Mark.sources p ++ m.gap = rest at hx
    have hcs : cs = cs.take n ++ (rest ++ d :: y) := by
      rw [hx] at ht
      simpa using ht.symm
    have hn : (cs.take n).length = n := by
      have hlen := congrArg List.length hcs
      simp only [List.length_append, List.length_take, List.length_cons] at hlen
      exact List.length_take_of_le (by omega)
    have hdrop : cs.drop n = rest ++ d :: y := by
      have := List.take_append_drop n cs
      rw [← List.append_cancel_left_eq (cs.take n), this]
      exact hcs
    have hshapes := State.shapes_scan hscan
    generalize htext : cs.take n = text at *
    have hscan' : s.scan c (text ++ rest ++ d :: y') = (kind, n) := by
      refine State.scan_replace (y := y) ?_ (by simp; omega) fun hslash hreg => ?_
      · rw [List.append_assoc, ← hcs, hscan]
      · subst hslash
        have hnil : text = [] := (List.cons.inj hshapes).2
        rw [hnil, List.nil_append, ← hrest]
        exact hs [] _ p rfl rfl hreg
    have htail : marks (s.after kind (c :: text)) (lineBlank blank (spaces ++ c :: text)) []
        (rest ++ d :: y) = p ++ m :: q := by
      rw [hdrop] at hp
      exact hp.symm
    have hrec := ih rfl htail (by rw [List.nil_append, hrest]) hs.of_cons
      (lineBlank blank (spaces ++ c :: text)) rfl
    have hlong : x ++ d :: y' = spaces ++ (c :: text ++ (rest ++ d :: y')) := by
      rw [hx]
      simp
    rw [hlong, marks_spaces hspaces, marks_token _ _ hc (by rw [← List.append_assoc, hscan', hn]),
      ← lineBlank_append]
    rw [hrec]
    simp only [List.cons_append, State.afterMarks_cons, Mark.sources_cons, lineBlank_append, hb]

end Lexer

end TidyImports
