-- SUMMARY: What stands between the quotes of a closed string, and that it can be written again.
import TidyImports.Source.Lexer

/-!
# Closed strings

A backslash escapes the character after it, unless it is escaped itself. A
string ends at the first quote of its own kind that is not escaped, and it is
closed when no line feed before that is left unescaped. So what stands between
the quotes of a closed string can stand between the same quotes anywhere else.
-/

namespace TidyImports

namespace Text

/-- Is the character behind escaped? An odd number of backslashes stands right before it. -/
def escapes (x : Text) : Bool := (x.reverse.takeWhile (· == '\\')).length % 2 == 1

/-- Can the text stand between two quotes `q`? Each `q` and each line feed in it is escaped, and
the quote that follows it is not. -/
structure IsQuotable (q : Char) (x : Text) : Prop where
  escaped : ∀ a c b, x = a ++ c :: b → c = q ∨ c = '\n' → escapes a
  ends : escapes x = false

-- ---------------------------------------------------------------------------
-- Escapes
-- ---------------------------------------------------------------------------

theorem escapes_cons {c : Char} (hc : c ≠ '\\') (x : Text) : escapes (c :: x) = escapes x := by
  rw [escapes, escapes, List.reverse_cons, List.takeWhile_append]
  split <;> simp_all

/-- A backslash and the character after it escape nothing else. -/
theorem escapes_pair (c : Char) (x : Text) : escapes ('\\' :: c :: x) = escapes x := by
  rw [escapes, escapes, List.reverse_cons, List.reverse_cons, List.append_assoc,
    List.takeWhile_append]
  split
  · next hall =>
    by_cases hc : c = '\\'
    · simp [hc, hall]
    · simp [hc, hall]
  · rfl

namespace IsQuotable

variable {q c : Char} {x : Text}

theorem nil (q : Char) : IsQuotable q [] where
  escaped a c b h := by simp at h
  ends := rfl

theorem cons_iff (hc : c ≠ '\\') : IsQuotable q (c :: x) ↔ (c ≠ q ∧ c ≠ '\n') ∧ IsQuotable q x := by
  constructor
  · intro h
    have hfirst : ¬ (c = q ∨ c = '\n') := fun hend => by
      have := h.escaped [] c x rfl hend
      simp [escapes] at this
    refine ⟨not_or.1 hfirst, fun a d b hx hd => ?_, ?_⟩
    · have := h.escaped (c :: a) d b (by rw [hx]; rfl) hd
      rwa [escapes_cons hc] at this
    · have := h.ends
      rwa [escapes_cons hc] at this
  · rintro ⟨⟨hq, hn⟩, h⟩
    refine ⟨fun a d b hx hd => ?_, by rw [escapes_cons hc, h.ends]⟩
    cases a with
    | nil =>
      obtain ⟨rfl, -⟩ := List.cons.inj hx
      exact absurd hd (not_or.2 ⟨hq, hn⟩)
    | cons e a =>
      obtain ⟨rfl, htail⟩ := List.cons.inj hx
      rw [escapes_cons hc]
      exact h.escaped a d b htail hd

theorem pair_iff (hq : q ≠ '\\') : IsQuotable q ('\\' :: c :: x) ↔ IsQuotable q x := by
  constructor
  · intro h
    refine ⟨fun a d b hx hd => ?_, by rw [← escapes_pair c, h.ends]⟩
    have := h.escaped ('\\' :: c :: a) d b (by rw [hx]; rfl) hd
    rwa [escapes_pair] at this
  · intro h
    refine ⟨fun a d b hx hd => ?_, by rw [escapes_pair, h.ends]⟩
    match a with
    | [] =>
      obtain ⟨rfl, -⟩ := List.cons.inj hx
      rcases hd with hd | hd
      · exact absurd hd.symm hq
      · exact absurd hd (by decide)
    | [e] =>
      obtain ⟨rfl, -⟩ := List.cons.inj hx
      rfl
    | e :: f :: a =>
      obtain ⟨he, hrest⟩ := List.cons.inj hx
      obtain ⟨-, htail⟩ := List.cons.inj hrest
      rw [← he, escapes_pair]
      exact h.escaped a d b htail hd

/-- Text without the quote, backslashes and line feeds can stand between quotes. -/
theorem of_forall (h : ∀ c ∈ x, c ≠ '\\' ∧ c ≠ q ∧ c ≠ '\n') : IsQuotable q x := by
  induction x with
  | nil => exact nil q
  | cons c x ih =>
    obtain ⟨hb, hc⟩ := h c (List.mem_cons_self ..)
    exact (cons_iff hb).2 ⟨hc, ih fun d hd => h d (List.mem_cons_of_mem _ hd)⟩

end IsQuotable

end Text

open Text

namespace Lexer

variable {q : Char}

-- ---------------------------------------------------------------------------
-- The scanner
-- ---------------------------------------------------------------------------

theorem stringLength_backslash (d : Char) (t : Text) :
    stringLength q ('\\' :: d :: t) = ((stringLength q t).1 + 2, (stringLength q t).2) := by
  rw [stringLength, if_pos rfl]

theorem stringLength_quote (hb : q ≠ '\\') (hn : q ≠ '\n') (t : Text) :
    stringLength q (q :: t) = (1, true) := by
  cases t with
  | nil => simp [stringLength, hb, hn]
  | cons d t => simp [stringLength, hb, hn]

theorem stringLength_cons {c d : Char} (hb : c ≠ '\\') (hn : c ≠ '\n') (hq : c ≠ q) (t : Text) :
    stringLength q (c :: d :: t) =
      ((stringLength q (d :: t)).1 + 1, (stringLength q (d :: t)).2) := by
  simp [stringLength, hb, hn, hq]

/-- A string ends at the quote behind quotable text. -/
theorem stringLength_quotable {x : Text} (hb : q ≠ '\\') (hn : q ≠ '\n') (hx : IsQuotable q x)
    (t : Text) : stringLength q (x ++ q :: t) = (x.length + 1, true) := by
  match x with
  | [] => exact stringLength_quote hb hn t
  | [c] =>
    by_cases hc : c = '\\'
    · subst hc
      exact absurd hx.ends (by decide)
    · obtain ⟨⟨hcq, hcn⟩, -⟩ := (IsQuotable.cons_iff hc).1 hx
      rw [List.singleton_append, stringLength_cons hc hcn hcq, stringLength_quote hb hn]
      rfl
  | c :: d :: x =>
    by_cases hc : c = '\\'
    · subst hc
      have hrec := stringLength_quotable hb hn ((IsQuotable.pair_iff hb).1 hx) t
      rw [List.cons_append, List.cons_append, stringLength_backslash, hrec]
      rfl
    · obtain ⟨⟨hcq, hcn⟩, hdx⟩ := (IsQuotable.cons_iff hc).1 hx
      have hrec := stringLength_quotable hb hn hdx t
      rw [List.cons_append] at hrec
      rw [List.cons_append, List.cons_append, stringLength_cons hc hcn hcq, hrec]
      rfl
termination_by x.length

/-- What a closed string holds is quotable. -/
theorem exists_quotable {t : Text} {n : Nat} (hb : q ≠ '\\') (h : stringLength q t = (n, true)) :
    ∃ x, t.take n = x ++ [q] ∧ IsQuotable q x := by
  fun_induction stringLength q t generalizing n with
  | case1 => simp at h
  | case2 => simp at h
  | case3 c hc =>
    simp only [Prod.mk.injEq, Bool.and_eq_true, beq_iff_eq] at h
    obtain ⟨rfl, -, rfl⟩ := h
    exact ⟨[], rfl, .nil c⟩
  | case4 d cs m closed heq ih =>
    obtain ⟨rfl, rfl⟩ := Prod.mk.inj h
    obtain ⟨x, hx, hquotable⟩ := ih heq
    exact ⟨'\\' :: d :: x, by simp [hx], (IsQuotable.pair_iff hb).2 hquotable⟩
  | case5 => simp at h
  | case6 d cs hq hn =>
    obtain ⟨rfl, -⟩ := Prod.mk.inj h
    exact ⟨[], rfl, .nil q⟩
  | case7 c d cs hc hn hq m closed heq ih =>
    obtain ⟨rfl, rfl⟩ := Prod.mk.inj h
    obtain ⟨x, hx, hquotable⟩ := ih heq
    exact ⟨c :: x, by simp [hx], (IsQuotable.cons_iff hc).2 ⟨⟨hq, hn⟩, hquotable⟩⟩

end Lexer

end TidyImports
