-- SUMMARY: The tokens that reach into a line, found by bisection.
import TidyImports.Proofs.Lexing.Tiling
import TidyImports.Proofs.Text.Splicing
import TidyImports.Source.Layout

/-!
# Tokens within a range

Tokens lie in order, so those that end at or before an offset come first, and
the first of the others can be found by bisection. From there on the tokens that
start before the end of a range are those that share a byte with it.
-/

namespace TidyImports

-- ---------------------------------------------------------------------------
-- Bisection
-- ---------------------------------------------------------------------------

namespace Bisection

variable {α : Type} {p : α → Bool} {xs : List α}

/-- Where the elements that satisfy `p` end, between `low` and `high`, found by halving. -/
def search (p : α → Bool) (xs : List α) (low high : Nat) : Nat :=
  if low < high then
    let middle := low + (high - low) / 2
    if xs[middle]?.any p then search p xs (middle + 1) high else search p xs low middle
  else low
termination_by high - low

/-- The number of elements at the front that satisfy `p`, if those that do come first. -/
def partitionPoint (p : α → Bool) (xs : List α) : Nat := search p xs 0 xs.length

/-- The elements that satisfy `p` come first. -/
def Partitioned (p : α → Bool) (xs : List α) : Prop := xs.Pairwise fun a b => p b → p a

theorem Partitioned.any_of_le (h : Partitioned p xs) {i j : Nat} (hij : i ≤ j)
    (hj : xs[j]?.any p) : xs[i]?.any p := by
  rcases Nat.eq_or_lt_of_le hij with rfl | hlt
  · exact hj
  · obtain ⟨y, hy, hpy⟩ := (Option.any_eq_true ..).1 hj
    obtain ⟨hlength, rfl⟩ := List.getElem?_eq_some_iff.1 hy
    have hpx := List.pairwise_iff_getElem.1 h i j (by omega) hlength hlt hpy
    rw [List.getElem?_eq_getElem (by omega)]
    exact hpx

/-- Bisection keeps what it knows: `p` holds before `low`, and nowhere from `high` on. -/
theorem search_spec (h : Partitioned p xs) {low high : Nat} (hle : low ≤ high)
    (hlow : ∀ i < low, xs[i]?.any p) (hhigh : ∀ i, high ≤ i → xs[i]?.any p = false) :
    (∀ i < search p xs low high, xs[i]?.any p) ∧
      ∀ i, search p xs low high ≤ i → xs[i]?.any p = false := by
  fun_induction search p xs low high with
  | case1 low high hlt middle hp ih =>
    exact ih (by omega) (fun i hi => h.any_of_le (by omega) hp) hhigh
  | case2 low high hlt middle hp ih =>
    refine ih (by omega) hlow fun i hi => ?_
    rw [← Bool.not_eq_true]
    exact fun hi' => hp (h.any_of_le hi hi')
  | case3 low high hlt =>
    exact ⟨hlow, fun i hi => hhigh i (by omega)⟩

theorem drop_eq_dropWhile {i : Nat} (hlow : ∀ j < i, xs[j]?.any p) (hi : xs[i]?.any p = false) :
    xs.drop i = xs.dropWhile p := by
  induction xs generalizing i with
  | nil => simp
  | cons x xs ih =>
    cases i with
    | zero =>
      have hx : p x = false := by simpa using hi
      rw [List.drop_zero, List.dropWhile_cons_of_neg (by simp [hx])]
    | succ i =>
      have hx : p x := by simpa using hlow 0 (Nat.succ_pos i)
      rw [List.drop_succ_cons, List.dropWhile_cons_of_pos hx,
        ih (fun j hj => by simpa using hlow (j + 1) (Nat.succ_lt_succ hj)) (by simpa using hi)]

/-- Bisection finds where the elements that come first end. -/
theorem drop_partitionPoint (h : Partitioned p xs) :
    xs.drop (partitionPoint p xs) = xs.dropWhile p := by
  have hend : ∀ i, xs.length ≤ i → xs[i]?.any p = false := fun i hi => by
    rw [List.getElem?_eq_none hi]
    rfl
  obtain ⟨hlow, hhigh⟩ := search_spec h (Nat.zero_le _) (fun i hi => absurd hi (Nat.not_lt_zero i))
    hend
  exact drop_eq_dropWhile hlow (hhigh _ (Nat.le_refl _))

theorem Partitioned.dropWhile_eq (h : Partitioned p xs) :
    xs.dropWhile p = xs.filter fun x => !p x := by
  induction xs with
  | nil => rfl
  | cons x xs ih =>
    by_cases hx : p x
    · rw [List.dropWhile_cons_of_pos hx, List.filter_cons_of_neg (by simp [hx]), ih h.of_cons]
    · have hall : ∀ y ∈ xs, (!p y) = true := fun y hy => by
        rw [Bool.not_eq_true']
        exact Bool.eq_false_iff.2 fun hpy => hx (List.rel_of_pairwise_cons h hy hpy)
      rw [List.dropWhile_cons_of_neg hx, List.filter_cons_of_pos (by simp [hx]),
        List.filter_eq_self.2 hall]

theorem Partitioned.takeWhile_eq (h : Partitioned p xs) : xs.takeWhile p = xs.filter p := by
  induction xs with
  | nil => rfl
  | cons x xs ih =>
    by_cases hx : p x
    · rw [List.takeWhile_cons_of_pos hx, List.filter_cons_of_pos hx, ih h.of_cons]
    · have hnone : ∀ y ∈ xs, ¬ p y := fun y hy hpy => hx (List.rel_of_pairwise_cons h hy hpy)
      rw [List.takeWhile_cons_of_neg hx, List.filter_cons_of_neg hx,
        List.filter_eq_nil_iff.2 hnone]

end Bisection

-- ---------------------------------------------------------------------------
-- Tokens
-- ---------------------------------------------------------------------------

open Bisection

namespace Text

variable (t : Text) (offset : Nat)

theorem partitioned_stop : Partitioned (fun tok : Token => tok.stop ≤ offset) (tokenize t) := by
  refine (pairwise_tokenize t).imp_of_mem fun {a b} _ hb hab => ?_
  have hinside := (inside_of_mem_tokenize hb).2.1
  simp only [decide_eq_true_eq]
  omega

theorem partitioned_start : Partitioned (fun tok : Token => tok.start < offset) (tokenize t) :=
  (pairwise_tokenize t).imp fun {a b} hab => by
    simp only [decide_eq_true_eq]
    omega

end Text

namespace Script

/-- The tokens within a range, as bisection finds them. -/
theorem bisect_tokensWithin (t : Text) (range : Span) :
    ((parse t).tokens.drop (partitionPoint (·.stop ≤ range.start) (parse t).tokens)).takeWhile
      (·.start < range.stop) = (parse t).tokensWithin range :=
  congrArg (List.takeWhile _) (drop_partitionPoint (t.partitioned_stop range.start))

/-- The tokens within a range are those that end behind its start and start before its end. -/
theorem tokensWithin_eq_filter (t : Text) (range : Span) :
    (parse t).tokensWithin range =
      (tokenize t).filter fun tok => tok.start < range.stop && range.start < tok.stop := by
  have hrest : Partitioned (fun tok : Token => tok.start < range.stop)
      ((tokenize t).filter fun tok => !decide (tok.stop ≤ range.start)) :=
    (t.partitioned_start range.stop).sublist List.filter_sublist
  rw [tokensWithin, parse, (t.partitioned_stop range.start).dropWhile_eq, hrest.takeWhile_eq,
    List.filter_filter]
  simp only [← decide_not, Nat.not_le]

theorem mem_tokensWithin {t : Text} {tok : Token} {range : Span} :
    tok ∈ (parse t).tokensWithin range ↔
      tok ∈ tokenize t ∧ range.start < tok.stop ∧ tok.start < range.stop := by
  rw [tokensWithin_eq_filter, List.mem_filter, Bool.and_eq_true, decide_eq_true_eq,
    decide_eq_true_eq, and_comm (a := tok.start < range.stop)]

/-- The tokens within a range that is not empty are those that share a byte with it. -/
theorem tokensWithin_eq (t : Text) {range : Span} (h : range.start < range.stop) :
    (parse t).tokensWithin range =
      (parse t).tokens.filter fun tok => tok.span.Overlaps range := by
  refine (tokensWithin_eq_filter t range).trans (List.filter_congr fun tok htok => ?_)
  have hinside := (Text.inside_of_mem_tokenize htok).2.1
  rw [Bool.eq_iff_iff, decide_eq_true_eq, Span.overlaps_iff]
  simp only [Bool.and_eq_true, decide_eq_true_eq, Token.span]
  omega

end Script

end TidyImports
