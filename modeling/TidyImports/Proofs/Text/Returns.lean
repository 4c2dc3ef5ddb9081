-- SUMMARY: Texts whose line feeds all follow carriage returns, and the edits that keep them so.
import Mathlib.Data.List.Chain
import TidyImports.Proofs.Text.Splicing

/-!
# Carriage returns

In a text of the other convention each line feed follows a carriage return. Such
texts can be put together, and cut anywhere but between the two. So edits keep
the convention if none of them ends between the two, and if what they put in
keeps it too.
-/

namespace TidyImports

open Text

namespace Text

/-- Does each line feed follow a carriage return? -/
def IsCrlf (t : Text) : Prop :=
  t.head? ≠ some '\n' ∧ List.IsChain (fun a b => b = '\n' → a = '\r') t

instance (t : Text) : Decidable t.IsCrlf := inferInstanceAs (Decidable (_ ∧ _))

theorem isCrlf_nil : IsCrlf [] := ⟨by simp, List.isChain_nil⟩

theorem isCrlf_of_not_mem {t : Text} (h : '\n' ∉ t) : t.IsCrlf := by
  refine ⟨fun hhead => h (List.mem_of_mem_head? hhead), ?_⟩
  induction t with
  | nil => exact List.isChain_nil
  | cons c t ih =>
    obtain ⟨-, ht⟩ := not_or.1 (mt List.mem_cons.2 h)
    refine List.isChain_cons.2 ⟨fun d hd hn => ?_, ih ht⟩
    exact absurd (List.mem_of_mem_head? (hn ▸ hd)) ht

namespace IsCrlf

variable {a b : Text}

theorem append (ha : a.IsCrlf) (hb : b.IsCrlf) : (a ++ b).IsCrlf := by
  constructor
  · cases a with
    | nil => exact hb.1
    | cons c a => exact ha.1
  · exact List.isChain_append.2 ⟨ha.2, hb.2, fun _ _ d hd hn => absurd (hn ▸ hd) hb.1⟩

theorem left (h : (a ++ b).IsCrlf) : a.IsCrlf := by
  refine ⟨fun hhead => h.1 ?_, (List.isChain_append.1 h.2).1⟩
  rw [List.head?_append, hhead]
  rfl

theorem right (h : (a ++ b).IsCrlf) (hb : b.head? ≠ some '\n') : b.IsCrlf :=
  ⟨hb, (List.isChain_append.1 h.2).2.1⟩

theorem getLast? {t : Text} (h : t.IsCrlf) (ht : t = a ++ '\n' :: b) : a.getLast? = some '\r' := by
  subst ht
  cases hlast : a.getLast? with
  | none =>
    rw [List.getLast?_eq_none_iff.1 hlast] at h
    exact absurd rfl h.1
  | some c => rw [(List.isChain_append.1 h.2).2.2 c hlast '\n' rfl rfl]

/-- No line feed follows what does not end with a carriage return. -/
theorem head?_ne {t : Text} (h : t.IsCrlf) (ht : t = a ++ b) (ha : a.getLast? ≠ some '\r') :
    b.head? ≠ some '\n' := by
  intro hhead
  obtain ⟨b, rfl⟩ := List.head?_eq_some_iff.1 hhead
  exact ha (h.getLast? ht)

end IsCrlf

theorem mem_of_hasInfix {t needle : Text} (h : t.hasInfix needle) : needle <:+: t := by
  induction t with
  | nil =>
    rw [hasInfix, List.isEmpty_iff] at h
    exact h ▸ List.infix_refl _
  | cons c t ih =>
    rcases Bool.or_eq_true_iff.1 h with h | h
    · exact (List.isPrefixOf_iff_prefix.1 h).isInfix
    · exact (ih h).trans (List.suffix_cons c t).isInfix

theorem hasInfix_append (a needle b : Text) : (a ++ (needle ++ b)).hasInfix needle := by
  induction a with
  | nil =>
    have hprefix : needle.isPrefixOf (needle ++ b) :=
      List.isPrefixOf_iff_prefix.2 (List.prefix_append ..)
    cases hb : needle ++ b with
    | nil => rw [List.nil_append, hasInfix, (List.append_eq_nil_iff.1 hb).1]; rfl
    | cons c t =>
      rw [List.nil_append, hasInfix, ← hb, hprefix]
      rfl
  | cons c a ih => exact Bool.or_eq_true_iff.2 (.inr ih)

/-- Such a text has a line break if it has a line feed. -/
theorem IsCrlf.hasInfix_iff {t : Text} (h : t.IsCrlf) :
    t.hasInfix ['\r', '\n'] ↔ '\n' ∈ t := by
  constructor
  · intro hinfix
    exact (mem_of_hasInfix hinfix).subset (by simp)
  · intro hmem
    obtain ⟨a, b, rfl⟩ := List.append_of_mem hmem
    obtain ⟨a, rfl⟩ := List.getLast?_eq_some_iff.1 (h.getLast? rfl)
    have := hasInfix_append a ['\r', '\n'] b
    simpa using this

theorem mem_of_lineBreak {t : Text} (h : t.hasInfix ['\r', '\n']) : '\r' ∈ t :=
  (mem_of_hasInfix h).subset (List.mem_cons_self ..)

end Text

-- ---------------------------------------------------------------------------
-- Edits
-- ---------------------------------------------------------------------------

/-- Does the text behind an offset open with something else than a line feed? -/
def Text.SplitsNoBreak (t : Text) (n : Nat) : Prop :=
  ∀ a b, t = a ++ b → a.size = n → b.head? ≠ some '\n'

namespace Text.IsCrlf

variable {t : Text} {n : Nat}

theorem splitsNoBreak {x y : Text} (h : t.IsCrlf) (ht : t = x ++ y)
    (hx : x.getLast? ≠ some '\r') : t.SplitsNoBreak x.size := by
  intro a b hab ha
  obtain ⟨rfl, rfl⟩ := append_inj_size (ht.symm.trans hab) ha.symm
  exact h.head?_ne ht hx

theorem splitsNoBreak_of_isLineEdge (h : t.IsCrlf) (hn : t.IsLineEdge n) : t.SplitsNoBreak n := by
  obtain ⟨above, below, ht, rfl, hedge⟩ := hn
  rcases hedge with rfl | hlast | rfl
  · exact h.splitsNoBreak ht (by simp)
  · exact h.splitsNoBreak ht (by simp [hlast])
  · intro a b hab ha
    obtain ⟨-, rfl⟩ := append_inj_size (ht.symm.trans hab) ha.symm
    simp

end Text.IsCrlf

namespace Piece

open Edit

/-- Edits that end in no line break put texts together as they were. -/
theorem isCrlf_after {front tail : Text} {ps : List Piece}
    (h : IsCrlf (ps.flatMap before ++ tail))
    (hstop : ∀ e ∈ edits front.size ps,
      SplitsNoBreak (front ++ (ps.flatMap before ++ tail)) e.span.stop)
    (hput : ∀ e ∈ edits front.size ps, e.replacement.IsCrlf) :
    IsCrlf (ps.flatMap after ++ tail) := by
  induction ps generalizing front with
  | nil => exact h
  | cons p ps ih =>
    obtain ⟨hstop, hmore⟩ := List.forall_mem_cons.1 hstop
    obtain ⟨hfirst, hput⟩ := List.forall_mem_cons.1 hput
    rw [List.flatMap_cons, List.append_assoc] at h
    have hfront : front ++ ((p :: ps).flatMap before ++ tail) =
        front ++ p.before ++ (ps.flatMap before ++ tail) := by simp
    have hsize : front.size + p.before.size = (front ++ p.before).size := (size_append ..).symm
    rw [hfront, hsize] at hstop hmore
    rw [hsize] at hput
    have hrest := h.right (hstop _ _ rfl rfl)
    have hkept : p.kept.IsCrlf := h.left.left
    have := (hkept.append hfirst).append (ih hrest hmore hput)
    simpa [after] using this

end Piece

namespace Edit.Separate

variable {t : Text} {es : List Edit} {e : Edit}

/-- Edits that end in no line break keep each line feed behind a carriage return. -/
theorem isCrlf (h : Separate t es) (ht : t.IsCrlf) (hstop : ∀ e ∈ es, t.SplitsNoBreak e.span.stop)
    (hput : ∀ e ∈ es, e.replacement.IsCrlf) : (applyAll es t).IsCrlf := by
  obtain ⟨ps, tail, hps, hbefore, hafter⟩ := h.exists_pieces
  have hmem : ∀ e ∈ Piece.edits 0 ps, e ∈ es := fun e he => Sorting.mem_sort.1 (hps ▸ he)
  rw [hafter]
  refine @Piece.isCrlf_after [] tail ps (hbefore ▸ ht) (fun e he => ?_)
    fun e he => hput e (hmem e he)
  rw [List.nil_append, ← hbefore]
  exact hstop e (hmem e he)

/-- What separate edits put in stands in the new text. -/
theorem exists_put (h : Separate t es) (he : e ∈ es) :
    ∃ x y, applyAll es t = x ++ (e.replacement ++ y) := by
  obtain ⟨ps, tail, hps, -, hafter⟩ := h.exists_pieces
  have hmem : e.replacement ∈ ps.map Piece.put := by
    rw [← Piece.map_replacement_edits 0, ← hps]
    exact List.mem_map_of_mem (Sorting.mem_sort.2 he)
  obtain ⟨p, hp, hput⟩ := List.mem_map.1 hmem
  obtain ⟨front, back, rfl⟩ := List.append_of_mem hp
  refine ⟨front.flatMap Piece.after ++ p.kept, back.flatMap Piece.after ++ tail, ?_⟩
  rw [hafter, ← hput]
  simp [Piece.after]

end Edit.Separate

end TidyImports
