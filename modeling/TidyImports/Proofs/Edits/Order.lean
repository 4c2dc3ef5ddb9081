-- SUMMARY: Edits applied together are a splice of the text, whatever order they are listed in.
import Mathlib.Data.List.Pairwise
import TidyImports.Proofs.Text.Splicing

/-!
# Edits in any order

A splice says of each place in a text what stands there afterwards: what the
edits put in, and the character itself unless it is cut out. Edits of which no
two share a byte make the splice, and the order in which they are listed matters
only among those of one span. An insertion may touch the span of another edit or
stand inside of it.
-/

namespace TidyImports

open Text

-- ---------------------------------------------------------------------------
-- Stable sorting
-- ---------------------------------------------------------------------------

namespace Sorting

variable {α : Type} {before : α → α → Bool} {p : α → Bool} {xs ys : List α}

theorem filter_insert {x : α} (h : ∀ y ∈ ys, p x → p y → before x y) :
    (insert before x ys).filter p = (x :: ys).filter p := by
  induction ys with
  | nil => rfl
  | cons y ys ih =>
    rw [insert]
    split
    · rfl
    · next hxy =>
      rw [List.filter_cons, ih fun z hz => h z (List.mem_cons_of_mem _ hz)]
      by_cases hx : p x
      · have hy : ¬ p y := fun hy => hxy (h y (List.mem_cons_self ..) hx hy)
        simp [hx, hy]
      · simp [hx, List.filter_cons]

/-- Elements that may all precede each other keep their order. -/
theorem filter_sort (h : ∀ x ∈ xs, ∀ y ∈ xs, p x → p y → before x y) :
    (sort before xs).filter p = xs.filter p := by
  induction xs with
  | nil => rfl
  | cons x xs ih =>
    rw [sort, filter_insert fun y hy =>
        h x (List.mem_cons_self ..) y (List.mem_cons_of_mem _ (mem_sort.1 hy)),
      List.filter_cons, List.filter_cons, ih fun y hy z hz =>
        h y (List.mem_cons_of_mem _ hy) z (List.mem_cons_of_mem _ hz)]

theorem mem_of_filter_eq {κ : Type} [DecidableEq κ] {key : α → κ} {x : α}
    (h : ∀ k, xs.filter (key · == k) = ys.filter (key · == k)) (hx : x ∈ xs) : x ∈ ys := by
  have hkey : x ∈ xs.filter (key · == key x) := List.mem_filter.2 ⟨hx, beq_self_eq_true _⟩
  rw [h] at hkey
  exact (List.mem_filter.1 hkey).1

/-- Lists in order are the same if they list the same elements with each key. -/
theorem eq_of_filter_eq {κ : Type} [DecidableEq κ] {key : α → κ} {R : α → α → Prop}
    (hkey : ∀ a b, R a b → R b a → key a = key b) (hxs : xs.Pairwise R) (hys : ys.Pairwise R)
    (h : ∀ k, xs.filter (key · == k) = ys.filter (key · == k)) : xs = ys := by
  induction xs generalizing ys with
  | nil =>
    refine (List.eq_nil_iff_forall_not_mem.2 fun y hy => ?_).symm
    cases mem_of_filter_eq (fun k => (h k).symm) hy
  | cons x xs ih =>
    cases ys with
    | nil => cases mem_of_filter_eq h (List.mem_cons_self ..)
    | cons y ys =>
      -- If they were different, the first of each list would come behind that of the other.
      have hsame : key x = key y := by
        rcases List.mem_cons.1 (mem_of_filter_eq h (List.mem_cons_self ..)) with rfl | hx
        · rfl
        have h' := mem_of_filter_eq (fun k => (h k).symm) (List.mem_cons_self ..)
        rcases List.mem_cons.1 h' with rfl | hy
        · rfl
        exact hkey x y (List.rel_of_pairwise_cons hxs hy) (List.rel_of_pairwise_cons hys hx)
      have hhead := h (key x)
      rw [List.filter_cons, List.filter_cons, if_pos (beq_self_eq_true _),
        if_pos (beq_iff_eq.2 hsame.symm)] at hhead
      obtain ⟨rfl, -⟩ := List.cons.inj hhead
      refine congrArg (x :: ·) (ih hxs.of_cons hys.of_cons fun k => ?_)
      have hk := h k
      rw [List.filter_cons, List.filter_cons] at hk
      split at hk
      · exact (List.cons.inj hk).2
      · exact hk

end Sorting

-- ---------------------------------------------------------------------------
-- Splices
-- ---------------------------------------------------------------------------

namespace Edit

/-- Is the edit an insertion at the offset? -/
def insertsAt (offset : Nat) (e : Edit) : Bool := e.span == ⟨offset, offset⟩

/-- Does the edit replace text that starts at the offset? -/
def replacesFrom (offset : Nat) (e : Edit) : Bool :=
  e.span.start == offset && offset < e.span.stop

/-- What edits put in at an offset: the insertions there, as they are listed, and behind them what
replaces the text that starts there. -/
def putAt (es : List Edit) (offset : Nat) : Text :=
  (es.filter (insertsAt offset)).flatMap (·.replacement) ++
    (es.filter (replacesFrom offset)).flatMap (·.replacement)

end Edit

/-- A text that starts at `offset`, with the replacements of edits put in and spans cut out. -/
def Text.splicedFrom (es : List Edit) (cuts : List Span) (offset : Nat) : Text → Text
  | [] => Edit.putAt es offset
  | c :: cs =>
    Edit.putAt es offset ++
      (if cuts.any fun s => s.start ≤ offset && offset < s.stop then
        splicedFrom es cuts (offset + c.utf8Size) cs
      else c :: splicedFrom es cuts (offset + c.utf8Size) cs)

/-- The text with each span replaced: everything that is put in and everything that is kept, in the
order of its place. -/
def Text.spliced (es : List Edit) (t : Text) : Text := splicedFrom es (es.map (·.span)) 0 t

-- ---------------------------------------------------------------------------
-- One edit
-- ---------------------------------------------------------------------------

section

variable {cuts : List Span} {offset : Nat} {e : Edit} {es : List Edit}

namespace Edit

theorem insertsAt_iff : e.insertsAt offset ↔ e.span.start = offset ∧ e.span.stop = offset := by
  rw [insertsAt, beq_iff_eq, Span.eq_iff]

theorem replacesFrom_iff : e.replacesFrom offset ↔ e.span.start = offset ∧ offset < e.span.stop := by
  simp [replacesFrom]

theorem putAt_eq_nil (h : ∀ e ∈ es, e.span.start ≠ offset) : putAt es offset = [] := by
  have hinsertions : es.filter (insertsAt offset) = [] :=
    List.filter_eq_nil_iff.2 fun e he hat => h e he (insertsAt_iff.1 hat).1
  have hreplacements : es.filter (replacesFrom offset) = [] :=
    List.filter_eq_nil_iff.2 fun e he hfrom => h e he (replacesFrom_iff.1 hfrom).1
  rw [putAt, hinsertions, hreplacements]
  rfl

theorem putAt_cons_of_ne (h : e.span.start ≠ offset) : putAt (e :: es) offset = putAt es offset := by
  have hinsertion : ¬ e.insertsAt offset := fun hat => h (insertsAt_iff.1 hat).1
  have hreplacement : ¬ e.replacesFrom offset := fun hfrom => h (replacesFrom_iff.1 hfrom).1
  rw [putAt, putAt, List.filter_cons_of_neg hinsertion, List.filter_cons_of_neg hreplacement]

/-- What the first of edits in order puts in comes first. -/
theorem putAt_cons_self (hspan : e.span.start ≤ e.span.stop) (h : ∀ e' ∈ es, e.before e') :
    putAt (e :: es) e.span.start = e.replacement ++ putAt es e.span.start := by
  rcases Nat.eq_or_lt_of_le hspan with heq | hlt
  · have hinsertion : e.insertsAt e.span.start := insertsAt_iff.2 ⟨rfl, heq.symm⟩
    have hreplacement : ¬ e.replacesFrom e.span.start := fun hfrom =>
      Nat.ne_of_lt (replacesFrom_iff.1 hfrom).2 heq
    rw [putAt, putAt, List.filter_cons_of_pos hinsertion, List.filter_cons_of_neg hreplacement,
      List.flatMap_cons, List.append_assoc]
  · have hinsertion : ¬ e.insertsAt e.span.start := fun hat =>
      Nat.ne_of_gt hlt (insertsAt_iff.1 hat).2
    have hreplacement : e.replacesFrom e.span.start := replacesFrom_iff.2 ⟨rfl, hlt⟩
    -- No insertion is left at this place, since it would have come before.
    have hnone : es.filter (insertsAt e.span.start) = [] := by
      refine List.filter_eq_nil_iff.2 fun e' he' hat => ?_
      have hbefore := before_iff.1 (h e' he')
      obtain ⟨hstart, hstop⟩ := insertsAt_iff.1 hat
      omega
    rw [putAt, putAt, List.filter_cons_of_neg hinsertion, List.filter_cons_of_pos hreplacement,
      hnone, List.flatMap_cons]
    rfl

end Edit

namespace Text

/-- Where no edit starts, a splice only cuts out. -/
theorem splicedFrom_append {a : Text} (h : ∀ e ∈ es, offset + a.size ≤ e.span.start) (b : Text) :
    splicedFrom es cuts offset (a ++ b) =
      withoutFrom cuts offset a ++ splicedFrom es cuts (offset + a.size) b := by
  induction a generalizing offset with
  | nil => rfl
  | cons c a ih =>
    have hpos := c.utf8Size_pos
    rw [size_cons] at h
    have hnothing : Edit.putAt es offset = [] := Edit.putAt_eq_nil fun e he => by
      have := h e he
      omega
    have hrec := @ih (offset + c.utf8Size) fun e he => by
      have := h e he
      omega
    rw [List.cons_append, splicedFrom, withoutFrom, hnothing, hrec, size_cons, Nat.add_assoc]
    split <;> rfl

theorem splicedFrom_nil (t : Text) : splicedFrom [] cuts offset t = withoutFrom cuts offset t := by
  have h := @splicedFrom_append cuts offset [] t (fun e he => nomatch he) []
  rw [List.append_nil] at h
  rw [h]
  exact List.append_nil _

/-- An edit puts nothing in behind its start. -/
theorem splicedFrom_cons_of_lt (h : e.span.start < offset) (t : Text) :
    splicedFrom (e :: es) cuts offset t = splicedFrom es cuts offset t := by
  induction t generalizing offset with
  | nil => exact Edit.putAt_cons_of_ne (Nat.ne_of_lt h)
  | cons c t ih =>
    rw [splicedFrom, splicedFrom, Edit.putAt_cons_of_ne (Nat.ne_of_lt h), ih (by omega)]

theorem splicedFrom_cons_self (hspan : e.span.start ≤ e.span.stop) (h : ∀ e' ∈ es, e.before e')
    (t : Text) :
    splicedFrom (e :: es) cuts e.span.start t =
      e.replacement ++ splicedFrom es cuts e.span.start t := by
  cases t with
  | nil => exact Edit.putAt_cons_self hspan h
  | cons c t =>
    have hpos := c.utf8Size_pos
    rw [splicedFrom, splicedFrom, Edit.putAt_cons_self hspan h,
      splicedFrom_cons_of_lt (by omega), List.append_assoc]

/-- A splice up to the first of edits in order, and behind what that one puts in. -/
theorem splicedFrom_append_cons {a : Text} (hsize : offset + a.size = e.span.start)
    (hspan : e.span.start ≤ e.span.stop) (h : ∀ e' ∈ es, e.before e') (b : Text) :
    splicedFrom (e :: es) cuts offset (a ++ b) =
      withoutFrom cuts offset a ++ (e.replacement ++ splicedFrom es cuts e.span.start b) := by
  have hstart : ∀ e' ∈ e :: es, offset + a.size ≤ e'.span.start := by
    refine List.forall_mem_cons.2 ⟨Nat.le_of_eq hsize, fun e' he' => ?_⟩
    have := Edit.before_iff.1 (h e' he')
    omega
  rw [splicedFrom_append hstart, hsize, splicedFrom_cons_self hspan h]

end Text

end

-- ---------------------------------------------------------------------------
-- Edits in order
-- ---------------------------------------------------------------------------

namespace Edit

/-- Edits of a text with no character cut, no two of which share a byte. -/
structure NoOverlap (t : Text) (es : List Edit) : Prop where
  inside : ∀ e ∈ es, e.span.start ≤ e.span.stop ∧ t.IsCut e.span.start ∧ t.IsCut e.span.stop
  apart : es.Pairwise fun a b => ¬ a.span.Overlaps b.span

variable {t : Text} {e : Edit} {es : List Edit} {cuts : List Span}

theorem NoOverlap.of_cons (h : NoOverlap t (e :: es)) : NoOverlap t es :=
  ⟨fun e' he' => h.inside e' (List.mem_cons_of_mem _ he'), h.apart.of_cons⟩

theorem NoOverlap.stop_le (h : NoOverlap t (e :: es)) {e' : Edit} (he' : e' ∈ es)
    (hbefore : e.before e') (hne : e'.span.start ≠ e'.span.stop) :
    e.span.stop ≤ e'.span.start := by
  have hspan := (h.inside e' (List.mem_cons_of_mem _ he')).1
  have hapart := List.rel_of_pairwise_cons h.apart he'
  have hstart := before_iff.1 hbefore
  by_contra hlt
  exact hapart ⟨e'.span.start, ⟨by omega, by omega⟩, ⟨Nat.le_refl _, by omega⟩⟩

theorem applyInOrder_cons_of_lt {offset : Nat} (hempty : e.span.start = e.span.stop)
    (hlt : e.span.start < offset) (t : Text) :
    applyInOrder offset (e :: es) t = e.replacement ++ applyInOrder offset es t := by
  have hmax : max e.span.start offset = offset := by omega
  have hmax' : max e.span.stop offset = offset := by omega
  simp only [applyInOrder, hmax, hmax', Nat.sub_self, takeBytes_zero, dropBytes_zero,
    List.nil_append]

theorem covers_cons_iff {n : Nat} (h : e.span.stop ≤ n) :
    (∃ e' ∈ e :: es, e'.span.Covers n) ↔ ∃ e' ∈ es, e'.span.Covers n := by
  simp only [List.mem_cons, exists_eq_or_imp]
  exact or_iff_right fun hcover => Nat.not_lt_of_le h hcover.2

/-- What holds between edits: `front` is done with, `x` has been cut out, and `r` is still to come.
Those that are left start behind `front`, and only insertions among them start in `x`. -/
structure Pending (cuts : List Span) (front x r : Text) (es : List Edit) : Prop where
  apart : NoOverlap (front ++ (x ++ r)) es
  sorted : es.Pairwise fun a b => a.before b
  start : ∀ e ∈ es, front.size ≤ e.span.start
  cursor : ∀ e ∈ es, e.span.start = e.span.stop ∨ (front ++ x).size ≤ e.span.start
  gone : withoutFrom cuts front.size x = []
  /-- In the text to come, what is cut out are the spans of the edits that are left. -/
  covers_iff : ∀ n, (front ++ x).size ≤ n →
    ((∃ s ∈ cuts, s.Covers n) ↔ ∃ e ∈ es, e.span.Covers n)

namespace Pending

variable {front x x₁ x₂ r kept cut : Text}

theorem before (h : Pending cuts front x r (e :: es)) : ∀ e' ∈ es, e.before e' :=
  fun _ he' => List.rel_of_pairwise_cons h.sorted he'

theorem start_le (h : Pending cuts front x r (e :: es)) :
    ∀ e' ∈ es, e.span.start ≤ e'.span.start := fun e' he' => by
  have := before_iff.1 (h.before e' he')
  omega

theorem inside (h : Pending cuts front x r (e :: es)) :
    e.span.start ≤ e.span.stop ∧ (front ++ (x ++ r)).IsCut e.span.start ∧
      (front ++ (x ++ r)).IsCut e.span.stop := h.apart.inside e (List.mem_cons_self ..)

/-- An insertion in the text that has been cut out is made. -/
theorem insertion (h : Pending cuts front (x₁ ++ x₂) r (e :: es))
    (hstart : (front ++ x₁).size = e.span.start) (hempty : e.span.start = e.span.stop)
    (hlt : e.span.start < (front ++ (x₁ ++ x₂)).size) :
    withoutFrom cuts front.size x₁ = [] ∧ Pending cuts (front ++ x₁) x₂ r es := by
  have hgone := h.gone
  rw [withoutFrom_append, ← size_append, List.append_eq_nil_iff] at hgone
  refine ⟨hgone.1, ?_, h.sorted.of_cons, ?_, ?_, hgone.2, ?_⟩
  · simpa using h.apart.of_cons
  · rw [hstart]
    exact h.start_le
  · rw [List.append_assoc]
    exact fun e' he' => h.cursor e' (List.mem_cons_of_mem _ he')
  · rw [List.append_assoc]
    exact fun n hn => (h.covers_iff n hn).trans (covers_cons_iff (by omega))

/-- An edit of text to come is made: what stands before it is kept. -/
theorem replacement (h : Pending cuts front x (kept ++ (cut ++ r)) (e :: es))
    (hstart : (front ++ x ++ kept).size = e.span.start)
    (hstop : (front ++ x ++ kept ++ cut).size = e.span.stop) :
    withoutFrom cuts front.size (x ++ kept) = kept ∧
      Pending cuts (front ++ x ++ kept) cut r es := by
  have hsize := size_append (front ++ x) kept
  have hsize' := size_append (front ++ x ++ kept) cut
  refine ⟨?_, ?_, h.sorted.of_cons, ?_, fun e' he' => ?_, ?_, fun n hn => ?_⟩
  · rw [withoutFrom_append, h.gone, ← size_append]
    refine withoutFrom_of_free fun n hn hlt hcover => ?_
    obtain ⟨e', he', hcover⟩ := (h.covers_iff n hn).1 hcover
    have := hcover.1
    rcases List.mem_cons.1 he' with rfl | he'
    · omega
    · have := h.start_le e' he'
      omega
  · simpa using h.apart.of_cons
  · rw [hstart]
    exact h.start_le
  · by_cases hempty : e'.span.start = e'.span.stop
    · exact .inl hempty
    · rw [hstop]
      exact .inr (h.apart.stop_le he' (h.before e' he') hempty)
  · refine withoutFrom_of_all_covered fun n hn hlt => (h.covers_iff n (by omega)).2 ?_
    exact ⟨e, List.mem_cons_self .., by omega, by omega⟩
  · have := h.inside.1
    exact (h.covers_iff n (by omega)).trans (covers_cons_iff (by omega))

/-- In the order of their places the edits that are left make the splice of the text to come. -/
theorem applyInOrder_eq (h : Pending cuts front x r es) :
    applyInOrder (front ++ x).size es r = splicedFrom es cuts front.size (x ++ r) := by
  induction es generalizing front x r with
  | nil =>
    have hr : withoutFrom cuts (front ++ x).size r = r :=
      withoutFrom_of_free fun n hn _ hcover => by
        obtain ⟨e, he, -⟩ := (h.covers_iff n hn).1 hcover
        cases he
    rw [splicedFrom_nil, withoutFrom_append, h.gone, ← size_append, hr]
    rfl
  | cons e es ih =>
    obtain ⟨hspan, hstart, hstop⟩ := h.inside
    rw [← List.append_assoc] at hstart hstop
    rcases Nat.lt_or_ge e.span.start (front ++ x).size with hlt | hge
    · have hempty : e.span.start = e.span.stop :=
        (h.cursor e (List.mem_cons_self ..)).resolve_right (Nat.not_le_of_lt hlt)
      obtain ⟨x₁, x₂, rfl, hsize⟩ := (hstart.of_append (Nat.le_of_lt hlt)).exists_behind
        (h.start e (List.mem_cons_self ..))
      obtain ⟨hgone, hrest⟩ := h.insertion hsize hempty hlt
      have hrec := ih hrest
      rw [hsize, List.append_assoc] at hrec
      rw [size_append] at hsize
      rw [applyInOrder_cons_of_lt hempty hlt, hrec, List.append_assoc x₁,
        splicedFrom_append_cons hsize hspan h.before, hgone]
      rfl
    · obtain ⟨kept, r, rfl, hkept⟩ := hstart.exists_behind hge
      rw [← List.append_assoc] at hstop
      obtain ⟨cut, r, rfl, hcut⟩ := hstop.exists_behind (by rw [hkept]; exact hspan)
      obtain ⟨hfront, hrest⟩ := h.replacement hkept hcut
      have hrec := ih hrest
      have hplace : e.span = ⟨(front ++ x).size + kept.size,
          (front ++ x).size + (kept.size + cut.size)⟩ := by
        rw [← Nat.add_assoc, ← size_append, ← size_append, hkept, hcut]
      have hoffset : front.size + (x ++ kept).size = e.span.start := by
        rw [← size_append, ← List.append_assoc, hkept]
      rw [hkept, size_append, size_append, Nat.add_assoc] at hrec
      rw [applyInOrder_cons_append hplace, hrec, ← List.append_assoc x,
        splicedFrom_append_cons hoffset hspan h.before, hfront]

end Pending

-- ---------------------------------------------------------------------------
-- Edits in any order
-- ---------------------------------------------------------------------------

theorem before_of_span_eq {a b : Edit} (h : a.span = b.span) : a.before b := by
  rw [before_iff, h]
  exact .inr ⟨rfl, Nat.le_refl _⟩

theorem NoOverlap.sort (h : NoOverlap t es) : NoOverlap t (Sorting.sort before es) :=
  ⟨fun e he => h.inside e (Sorting.mem_sort.1 he),
    ((Sorting.sort_perm before es).pairwise_iff fun h h' => h h'.symm).2 h.apart⟩

/-- What goes in at an offset does not change when the edits are put in order: insertions there keep
theirs, and there is at most one replacement. -/
theorem NoOverlap.putAt_sort (h : NoOverlap t es) (offset : Nat) :
    putAt (Sorting.sort before es) offset = putAt es offset := by
  have hinsertions : (Sorting.sort before es).filter (insertsAt offset) =
      es.filter (insertsAt offset) :=
    Sorting.filter_sort fun a _ b _ ha hb =>
      before_of_span_eq ((eq_of_beq ha).trans (eq_of_beq hb).symm)
  have hreplacements : (Sorting.sort before es).filter (replacesFrom offset) =
      es.filter (replacesFrom offset) := by
    refine Sorting.filter_sort fun a ha b hb hfrom hfrom' => ?_
    have hsymm : Std.Symm fun a b : Edit => ¬ a.span.Overlaps b.span :=
      ⟨fun _ _ h h' => h h'.symm⟩
    rw [replacesFrom_iff] at hfrom hfrom'
    have heq : a = b := by
      by_contra hne
      exact h.apart.forall ha hb hne
        ⟨offset, ⟨Nat.le_of_eq hfrom.1, hfrom.2⟩, Nat.le_of_eq hfrom'.1, hfrom'.2⟩
    exact before_of_span_eq (congrArg span heq)
  rw [putAt, putAt, hinsertions, hreplacements]

theorem NoOverlap.pending (h : NoOverlap t es) :
    Pending (es.map (·.span)) [] [] t (Sorting.sort before es) where
  apart := h.sort
  sorted := pairwise_sort es
  start _ _ := Nat.zero_le _
  cursor _ _ := .inr (Nat.zero_le _)
  gone := rfl
  covers_iff n _ := by simp

/-- The same edits listed in another order, in which those of one span keep theirs. -/
def Relists (es es' : List Edit) : Prop :=
  ∀ s, es'.filter (·.span == s) = es.filter (·.span == s)

theorem Relists.applyAll_eq {es' : List Edit} (h : Relists es es') (t : Text) :
    applyAll es' t = applyAll es t := by
  have hfilter : ∀ (es : List Edit) s,
      (Sorting.sort before es).filter (·.span == s) = es.filter (·.span == s) := fun es s =>
    Sorting.filter_sort fun a _ b _ ha hb =>
      before_of_span_eq ((eq_of_beq ha).trans (eq_of_beq hb).symm)
  have hanti : ∀ a b : Edit, a.before b → b.before a → a.span = b.span := fun a b hab hba => by
    rw [before_iff] at hab hba
    rw [Span.eq_iff]
    omega
  have hsort : Sorting.sort before es' = Sorting.sort before es :=
    Sorting.eq_of_filter_eq hanti (pairwise_sort es') (pairwise_sort es) fun s => by
      rw [hfilter, hfilter, h s]
  rw [applyAll, hsort, applyAll]

end Edit

theorem Text.splicedFrom_congr {es es' : List Edit} {cuts : List Span}
    (h : ∀ n, Edit.putAt es n = Edit.putAt es' n) (offset : Nat) (t : Text) :
    splicedFrom es cuts offset t = splicedFrom es' cuts offset t := by
  induction t generalizing offset with
  | nil => exact h offset
  | cons c t ih => rw [splicedFrom, splicedFrom, h, ih]

/-- Edits that do not overlap make the splice of their text, also when they are listed in another
order, as long as those of one span keep theirs. -/
theorem Edit.applyAll_splices {t : Text} {es : List Edit} (h : NoOverlap t es) :
    applyAll es t = t.spliced es ∧ ∀ es', Relists es es' → applyAll es' t = applyAll es t := by
  refine ⟨?_, fun es' hlist => hlist.applyAll_eq t⟩
  calc applyAll es t = splicedFrom (Sorting.sort before es) (es.map (·.span)) 0 t :=
        h.pending.applyInOrder_eq
    _ = t.spliced es := splicedFrom_congr h.putAt_sort 0 t

/-- Two insertions before a replacement and one inside of it, listed in two orders. -/
theorem Edit.applyAll_splices_four :
    NoOverlap ['a', 'b', 'c', 'd', 'e']
        [⟨⟨2, 4⟩, ['R']⟩, insertion 2 ['1'], insertion 2 ['2'], insertion 3 ['i']] ∧
      applyAll [⟨⟨2, 4⟩, ['R']⟩, insertion 2 ['1'], insertion 2 ['2'], insertion 3 ['i']]
        ['a', 'b', 'c', 'd', 'e'] = ['a', 'b', '1', '2', 'R', 'i', 'e'] ∧
      applyAll [insertion 3 ['i'], insertion 2 ['1'], ⟨⟨2, 4⟩, ['R']⟩, insertion 2 ['2']]
        ['a', 'b', 'c', 'd', 'e'] = ['a', 'b', '1', '2', 'R', 'i', 'e'] := by
  have hcut : ∀ n, n = 2 ∨ n = 3 ∨ n = 4 → IsCut ['a', 'b', 'c', 'd', 'e'] n := by
    rintro n (rfl | rfl | rfl)
    · exact ⟨['a', 'b'], ['c', 'd', 'e'], rfl, rfl⟩
    · exact ⟨['a', 'b', 'c'], ['d', 'e'], rfl, rfl⟩
    · exact ⟨['a', 'b', 'c', 'd'], ['e'], rfl, rfl⟩
  have hapart : NoOverlap ['a', 'b', 'c', 'd', 'e']
      [⟨⟨2, 4⟩, ['R']⟩, insertion 2 ['1'], insertion 2 ['2'], insertion 3 ['i']] := by
    constructor
    · simp [insertion, hcut]
    · simp [insertion, Span.Overlaps, Span.Covers]
  have hlist : Relists
      [⟨⟨2, 4⟩, ['R']⟩, insertion 2 ['1'], insertion 2 ['2'], insertion 3 ['i']]
      [insertion 3 ['i'], insertion 2 ['1'], ⟨⟨2, 4⟩, ['R']⟩, insertion 2 ['2']] := by
    intro s
    by_cases htwo : s = ⟨2, 2⟩
    · subst htwo
      rfl
    · have hnone : ∀ replacement, ((insertion 2 replacement).span == s) = false :=
        fun _ => beq_eq_false_iff_ne.2 (Ne.symm htwo)
      by_cases hthree : s = ⟨3, 3⟩
      · subst hthree
        rfl
      · have hnone' : ((insertion 3 ['i']).span == s) = false :=
          beq_eq_false_iff_ne.2 (Ne.symm hthree)
        simp [List.filter_cons, hnone, hnone']
  have hsplice := applyAll_splices hapart
  have hresult : spliced [⟨⟨2, 4⟩, ['R']⟩, insertion 2 ['1'], insertion 2 ['2'], insertion 3 ['i']]
      ['a', 'b', 'c', 'd', 'e'] = ['a', 'b', '1', '2', 'R', 'i', 'e'] := by
    decide
  exact ⟨hapart, hsplice.1.trans hresult, (hsplice.2 _ hlist).trans (hsplice.1.trans hresult)⟩

end TidyImports
