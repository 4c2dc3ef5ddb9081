-- SUMMARY: Edits that do not overlap: they take effect in full, and touch nothing but their spans.
import Mathlib.Algebra.GroupWithZero.Nat
import TidyImports.Proofs.Text.Cutting

/-!
# Splicing

Edits that lie in a text one behind the other cut it into pieces: text that is
kept, text that is cut out, and what is put in its place. Applying the edits
exchanges the one for the other in each piece, so exchanging them back is again
a matter of edits, and what is kept is the same before and after.
-/

namespace TidyImports

open Text

-- ---------------------------------------------------------------------------
-- Bytes of spans
-- ---------------------------------------------------------------------------

namespace Span

/-- Does a byte offset lie in the span? -/
def Covers (s : Span) (n : Nat) : Prop := s.start ≤ n ∧ n < s.stop

/-- Do two spans share a byte? -/
def Overlaps (a b : Span) : Prop := ∃ n, a.Covers n ∧ b.Covers n

theorem Overlaps.symm {a b : Span} (h : a.Overlaps b) : b.Overlaps a := by
  obtain ⟨n, ha, hb⟩ := h
  exact ⟨n, hb, ha⟩

/-- Spans share the byte at the later of their starts, or none. -/
theorem overlaps_iff {a b : Span} : a.Overlaps b ↔ max a.start b.start < min a.stop b.stop := by
  constructor
  · rintro ⟨n, ⟨ha, ha'⟩, hb, hb'⟩
    omega
  · intro h
    exact ⟨max a.start b.start, ⟨by omega, by omega⟩, by omega, by omega⟩

instance (a b : Span) : Decidable (a.Overlaps b) := decidable_of_iff _ overlaps_iff.symm

end Span

-- ---------------------------------------------------------------------------
-- Text outside spans
-- ---------------------------------------------------------------------------

/-- The characters that start in none of the spans, of a text that starts at `offset`. -/
def Text.withoutFrom (spans : List Span) (offset : Nat) : Text → Text
  | [] => []
  | c :: cs =>
    if spans.any fun s => s.start ≤ offset && offset < s.stop then
      withoutFrom spans (offset + c.utf8Size) cs
    else c :: withoutFrom spans (offset + c.utf8Size) cs

/-- A text with spans cut out. -/
def Text.without (spans : List Span) (t : Text) : Text := withoutFrom spans 0 t

namespace Text

variable {spans : List Span} {offset : Nat}

theorem withoutFrom_congr {spans' : List Span} (h : ∀ s, s ∈ spans ↔ s ∈ spans') (t : Text) :
    withoutFrom spans offset t = withoutFrom spans' offset t := by
  induction t generalizing offset with
  | nil => rfl
  | cons c t ih =>
    have hany : (spans.any fun s => s.start ≤ offset && offset < s.stop) =
        spans'.any fun s => s.start ≤ offset && offset < s.stop := by
      rw [Bool.eq_iff_iff, List.any_eq_true, List.any_eq_true]
      simp only [h]
    rw [withoutFrom, withoutFrom, hany, ih]

theorem withoutFrom_append (a b : Text) :
    withoutFrom spans offset (a ++ b) =
      withoutFrom spans offset a ++ withoutFrom spans (offset + a.size) b := by
  induction a generalizing offset with
  | nil => rfl
  | cons c a ih =>
    rw [List.cons_append, withoutFrom, withoutFrom, ih, size_cons, Nat.add_assoc]
    split <;> rfl

theorem any_covers_iff {n : Nat} :
    (spans.any fun s => s.start ≤ n && n < s.stop) ↔ ∃ s ∈ spans, s.Covers n := by
  simp [Span.Covers]

theorem withoutFrom_of_free {a : Text}
    (h : ∀ n, offset ≤ n → n < offset + a.size → ¬ ∃ s ∈ spans, s.Covers n) :
    withoutFrom spans offset a = a := by
  induction a generalizing offset with
  | nil => rfl
  | cons c a ih =>
    have hpos := c.utf8Size_pos
    rw [size_cons] at h
    rw [withoutFrom, if_neg (any_covers_iff.not.2 (h offset (Nat.le_refl _) (by omega))),
      ih fun n hle hlt => h n (by omega) (by omega)]

theorem withoutFrom_of_all_covered {a : Text}
    (h : ∀ n, offset ≤ n → n < offset + a.size → ∃ s ∈ spans, s.Covers n) :
    withoutFrom spans offset a = [] := by
  induction a generalizing offset with
  | nil => rfl
  | cons c a ih =>
    have hpos := c.utf8Size_pos
    rw [size_cons] at h
    rw [withoutFrom, if_pos (any_covers_iff.2 (h offset (Nat.le_refl _) (by omega))),
      ih fun n hle hlt => h n (by omega) (by omega)]

theorem withoutFrom_of_apart {a : Text}
    (h : ∀ s ∈ spans, s.stop ≤ offset ∨ offset + a.size ≤ s.start) :
    withoutFrom spans offset a = a := by
  refine withoutFrom_of_free fun n hle hlt ⟨s, hs, hstart, hstop⟩ => ?_
  have := h s hs
  omega

theorem withoutFrom_of_covered {a : Text}
    (h : ∃ s ∈ spans, s.start ≤ offset ∧ offset + a.size ≤ s.stop) :
    withoutFrom spans offset a = [] := by
  obtain ⟨s, hs, hstart, hstop⟩ := h
  exact withoutFrom_of_all_covered fun n hle hlt => ⟨s, hs, by omega, by omega⟩

end Text

-- ---------------------------------------------------------------------------
-- Pieces
-- ---------------------------------------------------------------------------

/-- Text that is kept, the text behind it that is cut out, and what is put in place of that. -/
structure Piece where
  kept : Text
  cut : Text
  put : Text

namespace Piece

open Edit

def before (p : Piece) : Text := p.kept ++ p.cut

def after (p : Piece) : Text := p.kept ++ p.put

/-- The piece for the way back. -/
def swap (p : Piece) : Piece := ⟨p.kept, p.put, p.cut⟩

/-- The edits that pieces in a row stand for, the first of which starts at `offset`. -/
def edits (offset : Nat) : List Piece → List Edit
  | [] => []
  | p :: ps =>
    ⟨⟨offset + p.kept.size, offset + p.before.size⟩, p.put⟩ :: edits (offset + p.before.size) ps

/-- Where the texts that are cut out lie. -/
def cuts (offset : Nat) (ps : List Piece) : List Span := (edits offset ps).map (·.span)

variable {offset : Nat} {ps : List Piece}

theorem size_before (p : Piece) : p.before.size = p.kept.size + p.cut.size := size_append _ _

theorem le_start_of_mem_edits {e : Edit} (h : e ∈ edits offset ps) : offset ≤ e.span.start := by
  induction ps generalizing offset with
  | nil => cases h
  | cons p ps ih =>
    rcases List.mem_cons.1 h with rfl | h
    · exact Nat.le_add_right ..
    · exact Nat.le_trans (Nat.le_add_right ..) (ih h)

theorem map_replacement_edits (offset : Nat) (ps : List Piece) :
    (edits offset ps).map (·.replacement) = ps.map put := by
  induction ps generalizing offset with
  | nil => rfl
  | cons p ps ih => rw [edits, List.map_cons, List.map_cons, ih]

theorem pairwise_edits (offset : Nat) (ps : List Piece) :
    (edits offset ps).Pairwise fun a b => a.span.stop ≤ b.span.start := by
  induction ps generalizing offset with
  | nil => exact List.Pairwise.nil
  | cons p ps ih => exact List.Pairwise.cons (fun e he => le_start_of_mem_edits he) (ih _)

/-- Edits exchange what is cut out for what is put in its place, and nothing else. -/
theorem applyInOrder_edits (offset : Nat) (ps : List Piece) (tail : Text) :
    applyInOrder offset (edits offset ps) (ps.flatMap before ++ tail) =
      ps.flatMap after ++ tail := by
  induction ps generalizing offset with
  | nil => rfl
  | cons p ps ih =>
    have hbefore : (p :: ps).flatMap before ++ tail =
        p.kept ++ (p.cut ++ (ps.flatMap before ++ tail)) := by simp [before]
    have hafter : (p :: ps).flatMap after ++ tail =
        p.kept ++ (p.put ++ (ps.flatMap after ++ tail)) := by simp [after]
    rw [hbefore, hafter, edits, applyInOrder_cons_append (by rw [size_before]), ← size_before, ih]

/-- Of what stands before an edit, the cut is left out. -/
theorem withoutFrom_before {done more : List Span} (p : Piece)
    (hdone : ∀ s ∈ done, s.stop ≤ offset)
    (hmore : ∀ s ∈ more, offset + p.before.size ≤ s.start) :
    withoutFrom (done ++ ⟨offset + p.kept.size, offset + p.before.size⟩ :: more) offset p.before =
      p.kept := by
  have hsize := p.size_before
  rw [before, withoutFrom_append, withoutFrom_of_apart, withoutFrom_of_covered, List.append_nil]
  · refine ⟨_, List.mem_append_right _ (List.mem_cons_self ..), Nat.le_refl _, Nat.le_of_eq ?_⟩
    rw [size_append, Nat.add_assoc]
  · intro s hs
    rcases List.mem_append.1 hs with hs | hs
    · exact .inl (hdone s hs)
    · rcases List.mem_cons.1 hs with rfl | hs
      · exact .inr (Nat.le_refl _)
      · have hstart := hmore s hs
        exact .inr (by omega)

/-- What is left between the cuts is what is kept. -/
theorem withoutFrom_cuts (done : List Span) (h : ∀ s ∈ done, s.stop ≤ offset) (tail : Text) :
    withoutFrom (done ++ cuts offset ps) offset (ps.flatMap before ++ tail) =
      ps.flatMap kept ++ tail := by
  induction ps generalizing offset done with
  | nil => exact withoutFrom_of_apart fun s hs => .inl (h s (by simpa [cuts, edits] using hs))
  | cons p ps ih =>
    have hcut : cuts offset (p :: ps) =
        ⟨offset + p.kept.size, offset + p.before.size⟩ :: cuts (offset + p.before.size) ps := rfl
    have hmore : ∀ s ∈ cuts (offset + p.before.size) ps, offset + p.before.size ≤ s.start := by
      intro s hs
      obtain ⟨e, he, rfl⟩ := List.mem_map.1 hs
      exact le_start_of_mem_edits he
    have hdone : ∀ s ∈ done ++ [⟨offset + p.kept.size, offset + p.before.size⟩],
        s.stop ≤ offset + p.before.size := by
      intro s hs
      rcases List.mem_append.1 hs with hs | hs
      · exact Nat.le_trans (h s hs) (Nat.le_add_right ..)
      · exact Nat.le_of_eq (congrArg Span.stop (List.mem_singleton.1 hs))
    rw [List.flatMap_cons, List.flatMap_cons, List.append_assoc, withoutFrom_append, hcut,
      withoutFrom_before p h hmore, List.append_assoc, ← List.singleton_append,
      ← List.append_assoc done, ih _ hdone]

@[simp] theorem before_swap (p : Piece) : p.swap.before = p.after := rfl

@[simp] theorem kept_swap (p : Piece) : p.swap.kept = p.kept := rfl

theorem flatMap_before_swap (ps : List Piece) : (ps.map swap).flatMap before = ps.flatMap after := by
  rw [List.flatMap_map]
  rfl

theorem flatMap_kept_swap (ps : List Piece) : (ps.map swap).flatMap kept = ps.flatMap kept := by
  rw [List.flatMap_map]
  rfl

/-- The text in a cut is the one that is cut out. -/
theorem map_slice_cuts (front : Text) (ps : List Piece) (tail : Text) :
    (cuts front.size ps).map (slice · (front ++ (ps.flatMap before ++ tail))) = ps.map cut := by
  induction ps generalizing front with
  | nil => rfl
  | cons p ps ih =>
    have hfront : front ++ ((p :: ps).flatMap before ++ tail) =
        front ++ p.kept ++ p.cut ++ (ps.flatMap before ++ tail) := by
      rw [List.flatMap_cons, before]
      simp
    have hfirst := slice_append (front ++ p.kept) p.cut (ps.flatMap before ++ tail)
    have hmore := ih (front ++ p.before)
    rw [size_append] at hmore hfirst
    rw [List.map_cons, ← hmore, cuts, edits, List.map_cons, List.map_cons, hfront]
    rw [size_before, ← Nat.add_assoc, hfirst]
    simp [cuts, before]

/-- What is put in adds as much to a text as what is cut out takes from it. -/
theorem measure_after {f : Text → Nat} (hf : ∀ a b, f (a ++ b) = f a + f b) (ps : List Piece)
    (tail : Text) :
    f (ps.flatMap after ++ tail) + (ps.map fun p => f p.cut).sum =
      f (ps.flatMap before ++ tail) + (ps.map fun p => f p.put).sum := by
  induction ps with
  | nil => rfl
  | cons p ps ih =>
    simp only [List.flatMap_cons, List.append_assoc, List.map_cons, List.sum_cons, before, after,
      hf] at ih ⊢
    omega

/-- Edits that lie in a text one behind the other cut it into pieces. -/
theorem exists_pieces {front t : Text} {es : List Edit}
    (hin : ∀ e ∈ es, front.size ≤ e.span.start ∧ e.span.start ≤ e.span.stop ∧
      (front ++ t).IsCut e.span.start ∧ (front ++ t).IsCut e.span.stop)
    (hes : es.Pairwise fun a b => a.span.stop ≤ b.span.start) :
    ∃ ps tail, es = edits front.size ps ∧ t = ps.flatMap before ++ tail := by
  induction es generalizing front t with
  | nil => exact ⟨[], t, rfl, rfl⟩
  | cons e es ih =>
    obtain ⟨⟨hle, hspan, hstart, hstop⟩, hmore⟩ := List.forall_mem_cons.1 hin
    obtain ⟨hfirst, hes⟩ := List.pairwise_cons.1 hes
    obtain ⟨kept, r, rfl, hkept⟩ := hstart.exists_behind hle
    rw [← List.append_assoc] at hstop
    obtain ⟨cut, b, rfl, hcut⟩ := hstop.exists_behind (by rwa [hkept])
    have hnext : (front ++ (kept ++ cut)).size = e.span.stop := by rw [← List.append_assoc, hcut]
    have hsplit : front ++ (kept ++ (cut ++ b)) = front ++ (kept ++ cut) ++ b := by simp
    obtain ⟨ps, tail, hps, rfl⟩ := @ih (front ++ (kept ++ cut)) b
      (fun e' he' => by
        obtain ⟨-, hspan', hstart', hstop'⟩ := hmore e' he'
        rw [← hsplit, hnext]
        exact ⟨hfirst e' he', hspan', hstart', hstop'⟩) hes
    refine ⟨⟨kept, cut, e.replacement⟩ :: ps, tail, ?_, by simp [before]⟩
    rw [hps, edits, before, ← size_append, ← size_append, hnext, hkept]

end Piece

-- ---------------------------------------------------------------------------
-- Separate edits
-- ---------------------------------------------------------------------------

namespace Edit

/-- Edits of a text with no character cut, none of which overlaps another. -/
structure Separate (t : Text) (es : List Edit) : Prop where
  inside : ∀ e ∈ es, e.span.start ≤ e.span.stop ∧ t.IsCut e.span.start ∧ t.IsCut e.span.stop
  apart : es.Pairwise fun a b => a.span.stop ≤ b.span.start ∨ b.span.stop ≤ a.span.start

theorem before_iff {a b : Edit} : a.before b ↔
    a.span.start < b.span.start ∨ a.span.start = b.span.start ∧ a.span.stop ≤ b.span.stop := by
  simp [before]

/-- Edits are applied in the order of their starts. -/
theorem pairwise_sort (es : List Edit) :
    (Sorting.sort before es).Pairwise fun a b => a.before b := by
  refine Sorting.pairwise_sort (fun a b c hab hbc => ?_) fun a b => ?_
  · rw [before_iff] at hab hbc ⊢
    omega
  · rw [before_iff, before_iff]
    omega

variable {t : Text} {es : List Edit}

/-- In the order in which separate edits are applied, each is over before the next one starts. -/
theorem Separate.ascending (h : Separate t es) :
    (Sorting.sort before es).Pairwise fun a b => a.span.stop ≤ b.span.start := by
  have hapart : (Sorting.sort before es).Pairwise fun a b =>
      a.span.stop ≤ b.span.start ∨ b.span.stop ≤ a.span.start :=
    ((Sorting.sort_perm before es).pairwise_iff Or.symm).2 h.apart
  refine ((pairwise_sort es).and hapart).imp_of_mem fun ha hb hab => ?_
  have hle := (h.inside _ (Sorting.mem_sort.1 ha)).1
  have hle' := (h.inside _ (Sorting.mem_sort.1 hb)).1
  obtain ⟨hbefore, hapart⟩ := hab
  rw [before_iff] at hbefore
  omega

/-- Separate edits cut their text into pieces. -/
theorem Separate.exists_pieces (h : Separate t es) :
    ∃ ps tail, Sorting.sort before es = Piece.edits 0 ps ∧ t = ps.flatMap Piece.before ++ tail ∧
      applyAll es t = ps.flatMap Piece.after ++ tail := by
  obtain ⟨ps, tail, hps, ht⟩ := @Piece.exists_pieces [] t _
    (fun e he => ⟨Nat.zero_le _, h.inside e (Sorting.mem_sort.1 he)⟩) h.ascending
  refine ⟨ps, tail, hps, ht, ?_⟩
  rw [applyAll, hps, ht]
  exact Piece.applyInOrder_edits 0 ps tail

/-- What can be counted in texts is counted up by what edits put in, and down by what they take
out. -/
theorem Separate.measure {f : Text → Nat} (hf : ∀ a b, f (a ++ b) = f a + f b)
    (h : Separate t es) :
    f (applyAll es t) + (es.map fun e => f (t.slice e.span)).sum =
      f t + (es.map fun e => f e.replacement).sum := by
  obtain ⟨ps, tail, hps, ht, hafter⟩ := h.exists_pieces
  have hsorted : ∀ k : Edit → Nat, (es.map k).sum = ((Piece.edits 0 ps).map k).sum := fun k => by
    rw [← hps]
    exact ((Sorting.sort_perm before es).map k).sum_nat.symm
  have hcut : (Piece.edits 0 ps).map (fun e => f (t.slice e.span)) = ps.map fun p => f p.cut := by
    have hslices := congrArg (List.map f) (Piece.map_slice_cuts [] ps tail)
    rw [List.nil_append, ← ht, Piece.cuts, List.map_map, List.map_map, List.map_map] at hslices
    exact hslices
  have hput : (Piece.edits 0 ps).map (fun e => f e.replacement) = ps.map fun p => f p.put := by
    have hreplacements := congrArg (List.map f) (Piece.map_replacement_edits 0 ps)
    rw [List.map_map, List.map_map] at hreplacements
    exact hreplacements
  have hmeasure := Piece.measure_after hf ps tail
  rw [hsorted, hsorted, hcut, hput, hafter, hmeasure, ← ht]

/-- What edits write and what they leave: the texts they put in stand in the new text in order,
and the rest of it is what is left of the old one when the spans are cut out. -/
def KeepsRest (t : Text) (es : List Edit) : Prop :=
  ∃ written : List Span, written.Pairwise (fun a b => a.stop ≤ b.start) ∧
    written.map (slice · (applyAll es t)) = (Sorting.sort before es).map (·.replacement) ∧
    (applyAll es t).without written = t.without (es.map (·.span))

theorem Separate.keepsRest (h : Separate t es) : KeepsRest t es := by
  obtain ⟨ps, tail, hps, ht, hafter⟩ := h.exists_pieces
  have hspans : ∀ s, s ∈ es.map (·.span) ↔ s ∈ Piece.cuts 0 ps := fun s => by
    rw [Piece.cuts, ← hps]
    simp
  refine ⟨Piece.cuts 0 (ps.map Piece.swap), ?_, ?_, ?_⟩
  · exact List.pairwise_map.2 (Piece.pairwise_edits 0 _)
  · have hslices := Piece.map_slice_cuts [] (ps.map Piece.swap) tail
    rw [Piece.flatMap_before_swap, List.map_map] at hslices
    rw [hps, Piece.map_replacement_edits, hafter]
    exact hslices
  · have hback := @Piece.withoutFrom_cuts 0 (ps.map Piece.swap) [] (by simp) tail
    have hforth := @Piece.withoutFrom_cuts 0 ps [] (by simp) tail
    rw [Piece.flatMap_before_swap, Piece.flatMap_kept_swap, List.nil_append] at hback
    rw [List.nil_append] at hforth
    rw [without, without, hafter, hback, withoutFrom_congr hspans, ht, hforth]

end Edit

end TidyImports
