-- SUMMARY: An exchange of specifiers always leaves another text.
import TidyImports.Proofs.DataFile.Settling

/-!
# Effects of an exchange

Several specifiers may be exchanged at once, and what one exchange takes out of
a text another could put in. But no new specifier holds more quotes than the one
it replaces, so in a text that stayed the same each would hold as many. Then the
first of them would end at the quote at which the old one ended, and be the same.
-/

namespace TidyImports

open Text Edit

variable {g : Text → Option Text} {z : Mark × Bool} {zs : List (Mark × Bool)}

/-- The text of marks after the edits that exchange contents among them. -/
theorem applyInOrder_sources (h : ∀ z ∈ zs, z.1.Proper) (offset : Nat) (rest : Text) :
    applyInOrder offset (retargetEdits g offset zs) (Mark.sources (zs.map Prod.fst) ++ rest) =
      Mark.sources (zs.map (retarget g)) ++ rest := by
  induction zs generalizing offset with
  | nil => rfl
  | cons z zs ih =>
    obtain ⟨hz, hzs⟩ := List.forall_mem_cons.1 h
    have hrec := ih hzs (offset + z.1.source.size)
    have hnext : ∀ e ∈ (retargetEdits g (offset + z.1.source.size) zs).head?,
        offset + z.1.source.size ≤ e.span.start := fun e he =>
      Nat.le_of_lt (start_of_mem_retargetEdits (List.mem_of_head? he))
    have hsource : ∀ (m : Mark) (ms : List Mark),
        Mark.sources (m :: ms) ++ rest = m.source ++ (Mark.sources ms ++ rest) := fun m ms => by
      simp [Mark.source]
    rw [List.map_cons, List.map_cons, hsource, hsource, retargetEdits]
    cases hnew : retargeted? g z with
    | none =>
      rw [retarget_eq_none hnew]
      exact (applyInOrder_append hnext).trans (congrArg _ hrec)
    | some new =>
      obtain ⟨q, old, hq, -, -, -, -, htext, heq⟩ := retarget_eq_some hz hnew
      have hqsize : size [q] = 1 := by rcases hq with rfl | rfl <;> decide
      have hsize := Mark.size_source_of_string hq htext
      have hfront : size (z.1.gap ++ [q]) = z.1.gap.size + 1 := by rw [size_append, hqsize]
      have hold : z.1.source = z.1.gap ++ [q] ++ old ++ [q] := by rw [Mark.source, htext]; simp
      have hput : (retarget g z).source = z.1.gap ++ [q] ++ new ++ [q] := by
        rw [heq, Mark.source]
        simp
      -- the edit ends before the closing quote, and the others go on behind it
      have hclose : applyInOrder (offset + (z.1.gap.size + 1 + old.size))
          (retargetEdits g (offset + z.1.source.size) zs)
            ([q] ++ (Mark.sources (zs.map Prod.fst) ++ rest)) =
          [q] ++ (Mark.sources (zs.map (retarget g)) ++ rest) := by
        have hoffset : offset + (z.1.gap.size + 1 + old.size) + 1 = offset + z.1.source.size := by
          omega
        rw [applyInOrder_append (by rwa [hqsize, hoffset]), hqsize, hoffset, hrec]
      have hspan : (⟨offset + z.1.gap.size + 1, offset + z.1.source.size - 1⟩ : Span) =
          ⟨offset + size (z.1.gap ++ [q]), offset + (size (z.1.gap ++ [q]) + old.size)⟩ := by
        rw [hfront, hsize]
        simp only [Span.mk.injEq]
        omega
      have hedit := @applyInOrder_cons_append (z.1.gap ++ [q]) old
        ([q] ++ (Mark.sources (zs.map Prod.fst) ++ rest)) offset ⟨_, new⟩
        (retargetEdits g (offset + z.1.source.size) zs) hspan
      rw [hfront, hclose] at hedit
      rw [hold, hput]
      simpa [hold] using hedit

-- ---------------------------------------------------------------------------
-- Quotes
-- ---------------------------------------------------------------------------

/-- Are new contents other contents, with no more quotes in them? -/
def Disquoting (g : Text → Option Text) : Prop :=
  ∀ old new, g old = some new → new ≠ old ∧
    ∀ q, q = '\'' ∨ q = '"' → new.count q ≤ old.count q

/-- Contents that end at the same kind of quote and hold as many of it are the same. -/
theorem eq_of_append_quote {q : Char} {a b x y : Text} (h : a ++ q :: x = b ++ q :: y)
    (hcount : a.count q = b.count q) : a = b := by
  have hlonger : ∀ {a b c : Text} {x y : Text}, b = a ++ c → q :: x = c ++ q :: y →
      a.count q = b.count q → a = b := by
    intro a b c x y hb hc hcount
    cases c with
    | nil => rw [hb, List.append_nil]
    | cons k c =>
      obtain rfl := (List.cons.inj hc).1
      rw [hb, List.count_append, List.count_cons_self] at hcount
      omega
  rcases List.append_eq_append_iff.1 h with ⟨c, hb, hc⟩ | ⟨c, ha, hc⟩
  · exact hlonger hb hc hcount
  · exact (hlonger ha hc hcount.symm).symm

theorem count_sources_retarget_le (hg : Disquoting g) (h : ∀ z ∈ zs, z.1.Proper) {q : Char}
    (hq : q = '\'' ∨ q = '"') :
    (Mark.sources (zs.map (retarget g))).count q ≤ (Mark.sources (zs.map Prod.fst)).count q := by
  induction zs with
  | nil => exact Nat.le_refl _
  | cons z zs ih =>
    obtain ⟨hz, hzs⟩ := List.forall_mem_cons.1 h
    have hrec := ih hzs
    simp only [List.map_cons, Mark.sources_cons, List.count_append]
    cases hnew : retargeted? g z with
    | none =>
      rw [retarget_eq_none hnew]
      omega
    | some new =>
      obtain ⟨k, old, -, -, -, -, hold, htext, heq⟩ := retarget_eq_some hz hnew
      have hle := (hg old new hold).2 q hq
      rw [heq, htext]
      simp only [List.count_append, List.count_cons]
      omega

/-- If the text stays the same, no contents are exchanged. -/
theorem retargeted?_of_sources_eq (hg : Disquoting g) (h : ∀ z ∈ zs, z.1.Proper)
    (hs : Mark.sources (zs.map (retarget g)) = Mark.sources (zs.map Prod.fst)) :
    ∀ z ∈ zs, retargeted? g z = none := by
  induction zs with
  | nil => simp
  | cons z zs ih =>
    obtain ⟨hz, hzs⟩ := List.forall_mem_cons.1 h
    rw [List.map_cons, List.map_cons, Mark.sources_cons, Mark.sources_cons] at hs
    cases hnew : retargeted? g z with
    | none =>
      rw [retarget_eq_none hnew, List.append_cancel_left_eq] at hs
      exact List.forall_mem_cons.2 ⟨hnew, ih hzs hs⟩
    | some new =>
      obtain ⟨q, old, hq, -, -, -, hold, htext, heq⟩ := retarget_eq_some hz hnew
      obtain ⟨hne, hle⟩ := hg old new hold
      have hsplit : new ++ q :: Mark.sources (zs.map (retarget g)) =
          old ++ q :: Mark.sources (zs.map Prod.fst) := by
        rw [heq, htext] at hs
        simpa using hs
      have hcount := congrArg (List.count q) hsplit
      have hfirst := hle q hq
      have hrest := count_sources_retarget_le hg hzs hq
      rw [List.count_append, List.count_append, List.count_cons_self, List.count_cons_self] at hcount
      exact absurd (eq_of_append_quote hsplit (by omega)) hne

-- ---------------------------------------------------------------------------
-- The specifier step
-- ---------------------------------------------------------------------------

namespace DataDirectory

variable {d : DataDirectory} {isFile : Path → Bool} {file : Path} {t : Text}

theorem disquoting_target? (hroot : '\'' ∉ d.root.text.toList ∧ '"' ∉ d.root.text.toList)
    (fileDir : Path) : Disquoting (d.target? isFile fileDir) := by
  intro old new h
  have hverdict := verdict_of_target? h
  refine ⟨?_, fun q hq => ?_⟩
  · obtain ⟨-, -, -, -, hne⟩ := verdict_eq_retarget_iff.1 hverdict
    rintro rfl
    exact hne rfl
  · have hle : new.count q ≤ d.root.text.toList.count q + old.count q := by
      have hle := count_of_retarget (c := q) (by rcases hq with rfl | rfl <;> decide)
        (by rcases hq with rfl | rfl <;> decide) hverdict
      rwa [String.toList_ofList, String.toList_ofList] at hle
    have hnone : d.root.text.toList.count q = 0 := by
      rw [List.count_eq_zero]
      rcases hq with rfl | rfl
      · exact hroot.1
      · exact hroot.2
    omega

/-- The specifier step exchanges contents among the marks of a text. -/
theorem exists_sources (d : DataDirectory) (isFile : Path → Bool) (file : Path) (t : Text) :
    ∃ mark tail, t = mark ++ (Mark.sources ((Part.allFlags false t.parts).map Prod.fst) ++ tail) ∧
      applyAll (d.retargetScript isFile file (Script.parse t)).edits t =
        mark ++ (Mark.sources ((Part.allFlags false t.parts).map
          (retarget (d.target? isFile (d.directoryOf file)))) ++ tail) := by
  obtain ⟨mark, ht, hsize, -⟩ := t.exists_body
  obtain ⟨-, hbody⟩ := t.top_body_allFlags
  rw [Mark.sources_nil, List.nil_append] at hbody
  refine ⟨mark, _, hbody ▸ ht, ?_⟩
  have hfirst : ∀ e ∈ (retargetEdits (d.target? isFile (d.directoryOf file)) t.markSize
      (Part.allFlags false t.parts)).head?, 0 + mark.size ≤ e.span.start := fun e he => by
    have hstart := start_of_mem_retargetEdits (List.mem_of_head? he)
    omega
  have happly := applyInOrder_append (b := t.body) hfirst
  rw [← ht, hsize, Nat.zero_add] at happly
  rw [(d.applyAll_retargetScript isFile file t).2, happly]
  conv => lhs; rw [hbody]
  rw [applyInOrder_sources fun z hz => Part.proper_of_mem_allFlags hz]

/-- When no quote is in the path of the data directory, exchanged specifiers make another text. -/
theorem applyAll_retargetScript_ne
    (hroot : '\'' ∉ d.root.text.toList ∧ '"' ∉ d.root.text.toList)
    (h : (d.retargetScript isFile file (Script.parse t)).retargeted ≠ []) :
    applyAll (d.retargetScript isFile file (Script.parse t)).edits t ≠ t := by
  intro hsame
  obtain ⟨mark, tail, ht, happly⟩ := d.exists_sources isFile file t
  have hsources := happly.symm.trans (hsame.trans ht)
  rw [List.append_cancel_left_eq, List.append_cancel_right_eq] at hsources
  have hnone := retargeted?_of_sources_eq (disquoting_target? hroot _)
    (fun z hz => Part.proper_of_mem_allFlags hz) hsources
  refine h (retargeted_eq_nil ?_)
  rw [edits_retargetScript]
  exact retargetEdits_eq_nil hnone _

end DataDirectory

end TidyImports
