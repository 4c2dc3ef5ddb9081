-- SUMMARY: Clear edits seen on the list of imports, which they splice as they splice the text.
import TidyImports.Proofs.Edits.Several

/-!
# Edits on the list of imports

A clear edit does to the imports of a script, in their order, what it does to
the text: those above it stay, those of the text it puts in follow, and then
come those below, without the ones it takes out. Code outside imports stays
behind the code that is put in.
-/

namespace TidyImports

open Text Lexer

-- ---------------------------------------------------------------------------
-- Lists in order of places
-- ---------------------------------------------------------------------------

namespace Places

variable {α : Type} {ps : List (Nat × α)} {p : Nat → Bool} {n : Nat}

/-- A list in the order of its places comes in two pieces, above and below a place. -/
theorem filter_append_filter (h : ps.Pairwise fun a b => a.1 ≤ b.1) (n : Nat) (p : Nat → Bool) :
    (ps.filter fun q => q.1 < n && p q.1) ++ (ps.filter fun q => n ≤ q.1 && p q.1) =
      ps.filter fun q => p q.1 := by
  induction ps with
  | nil => rfl
  | cons q ps ih =>
    have hrec := ih h.of_cons
    by_cases hq : q.1 < n
    · have hle : ¬ n ≤ q.1 := by omega
      by_cases hp : p q.1 <;> simpa [List.filter_cons, hq, hle, hp] using hrec
    · -- All that follows is below the place as well.
      have hle : n ≤ q.1 := by omega
      have hnil : (ps.filter fun r => r.1 < n && p r.1) = [] := by
        refine List.filter_eq_nil_iff.2 fun r hr hlt => ?_
        have := List.rel_of_pairwise_cons h hr
        simp only [Bool.and_eq_true, decide_eq_true_eq] at hlt
        omega
      rw [hnil, List.nil_append] at hrec
      by_cases hp : p q.1 <;> simpa [List.filter_cons, hq, hle, hp, hnil] using hrec

end Places

-- ---------------------------------------------------------------------------
-- What is put in, read by itself
-- ---------------------------------------------------------------------------

/-- White space may stand before what is put in. -/
theorem Inserts.spaces {l y : Text} {new : List Part} (hl : l.all isSpace) (hy : Inserts y new) :
    Inserts (l ++ y) new := by
  intro s gap after
  obtain ⟨s', gap', after', hd, hread⟩ := hy s (gap ++ l) after
  refine ⟨s', gap', after', hd, fun q => ?_⟩
  rw [List.append_assoc, marks_spaces hl, lineBlank_of_spaces hl, hread]

theorem Text.flushed_nil : Text.flushed [] = [] := by
  rw [Text.flushed, Text.parts, show Text.body [] = [] from rfl, top_of_not_shebang (by simp),
    marks, outline]
  rfl

/-- What is put in has the same parts by itself. -/
theorem Inserts.flushed {y : Text} {new : List Part} (hy : Inserts y new) (hf : Fresh y) :
    y.flushed = new := by
  have hopens : Opens ([] ++ []) (size []) := by
    refine ⟨by simp [Fresh], fun tok htok => ?_⟩
    simp [tokenize, runFromTop, run, markSize] at htok
  obtain ⟨back, hold, hnew⟩ := Text.Stands.insert (p := []) (q := []) (.inl rfl) hy
    (by rwa [List.append_nil]) hopens
  have hback : back = [] := List.self_eq_append_right.1 hold
  rw [hback, List.append_nil, List.append_nil, List.nil_append, flushed_nil] at hnew
  exact hnew

namespace Edit

/-- The imports of the text that an edit puts in. -/
def imports (e : Edit) : List WrittenImport := (Script.parse e.replacement).imports.map Prod.snd

/-- The code of the text that an edit puts in. -/
def code (e : Edit) : List Token := (Script.parse e.replacement).bareCode

theorem all_isSpace_lead (e : Edit) : e.lead.all isSpace := by
  rw [List.all_eq_true]
  intro c hc
  have := List.all_eq_true.1 List.all_takeWhile c hc
  simp only [Bool.or_eq_true, beq_iff_eq] at this
  rcases this with rfl | rfl <;> rfl

variable {t a b y : Text} {e : Edit} {new : List Part}

/-- The parts of a line that is put in are those of the edit's text. -/
theorem flushed_replacement (hrep : e.replacement = e.lead ++ y) (hy : Inserts y new)
    (hf : Fresh y) : e.replacement.flushed = new := by
  rw [hrep]
  exact (hy.spaces e.all_isSpace_lead).flushed (Fresh.spaces_append e.all_isSpace_lead hf)

end Edit

-- ---------------------------------------------------------------------------
-- One edit
-- ---------------------------------------------------------------------------

/-- A declaration stands among the imports between those above it and those below. -/
theorem Declaration.Found.imports {t x y z : Text} {d : Declaration} {ps qs : List Part}
    {head : Mark} {body : List Mark} {at? : Option Nat}
    (h : d.Found t ps head body at? qs x y z) :
    ∃ w, (Script.parse t).imports = Part.importsFrom t.markSize ps ++
      (d.span.start, w) :: Part.importsFrom d.span.stop qs := by
  obtain ⟨w, hw⟩ : ∃ w, (Part.statement head body at?).written? = some w := ⟨_, rfl⟩
  refine ⟨w, ?_⟩
  rw [Script.imports_parse, h.parts, Part.importsFrom_append, Part.importsFrom, hw, ← h.spanAt_eq]
  rfl

namespace Edit

variable {t t' a b y : Text} {e : Edit} {new : List Part} {removed : List Nat}

/-- An edit of `t` splices its imports: those above the edit stay where they are, its own come next,
and behind these the ones below that do not start at a place in `removed`. -/
structure Splices (t t' : Text) (e : Edit) (removed : List Nat) : Prop where
  imports : (Script.parse t').imports.map Prod.snd =
    ((Script.parse t).imports.filter fun q => q.1 < e.span.start).map Prod.snd ++ e.imports ++
      ((Script.parse t).imports.filter fun q =>
        e.span.start ≤ q.1 && !removed.contains q.1).map Prod.snd
  above : ((Script.parse t').imports.filter fun q => q.1 < e.span.start) =
    (Script.parse t).imports.filter fun q => q.1 < e.span.start
  code : (Script.parse t').bareCode = e.code ++ (Script.parse t).bareCode

/-- Imports above and below a place are told apart by it. -/
theorem filter_lt_append {above below : List (Nat × WrittenImport)} {n : Nat}
    (ha : ∀ q ∈ above, q.1 < n) (hb : ∀ q ∈ below, n ≤ q.1) :
    (above ++ below).filter (fun q => q.1 < n) = above := by
  rw [List.filter_append, List.filter_eq_self.2 fun q hq => decide_eq_true (ha q hq),
    List.filter_eq_nil_iff.2 fun q hq => by simpa using hb q hq, List.append_nil]

theorem filter_le_append {above below : List (Nat × WrittenImport)} {n : Nat} {p : Nat → Bool}
    (ha : ∀ q ∈ above, q.1 < n) (hb : ∀ q ∈ below, n ≤ q.1) :
    (above ++ below).filter (fun q => n ≤ q.1 && p q.1) = below.filter fun q => p q.1 := by
  rw [List.filter_append, List.filter_eq_nil_iff.2 fun q hq => by
    simp [Nat.not_le.2 (ha q hq)], List.nil_append]
  exact List.filter_congr fun q hq => by simp [hb q hq]

/-- A line that is put in above all code, or without code in it, splices the imports. -/
theorem Insertable.splices (h : e.Insertable t) (ht : t = a ++ b) (hspan : e.span = ⟨a.size, a.size⟩)
    (hrep : e.replacement = e.lead ++ y) (hy : Inserts y new) (hfy : Fresh y)
    (hf : Fresh (y ++ b)) (hcode : Part.code (a ++ e.lead).flushed = [] ∨ Part.code new = []) :
    e.Splices t (applyInOrder 0 [e] t) [] := by
  obtain ⟨habove, htokens, hstatements, hbelow⟩ := h.around ht hspan
  obtain ⟨back, hold, hnew⟩ := h.flushed ht hspan hrep hy hf
  obtain ⟨himports, hbare⟩ := Script.imports_congr htokens hstatements
  have hb : Fresh b := by
    have := hbelow.1
    rwa [dropBytes_append] at this
  obtain ⟨below, hbase, hlt, hle⟩ := habove.imports_append hb
  obtain ⟨below', hafter, -, hle'⟩ := habove.imports_append hf
  have hown := flushed_replacement hrep hy hfy
  have hstart : e.span.start = a.size := by rw [hspan]
  -- No import starts in the line break that ends an unfinished line.
  have hlt : ∀ q ∈ (Script.parse (a ++ e.lead)).imports, q.1 < a.size := fun q hq => by
    obtain ⟨pre, rest, hpre, hplace⟩ := Script.exists_text_of_mem_imports hq
    have hcut : a ++ (e.lead ++ []) = pre ++ 'i' :: rest := by rw [List.append_nil, hpre]
    have hapart := apart_of_spaces e.all_isSpace_lead hcut
    have := hlt q hq
    rw [size_append] at this
    omega
  have hsize : a.size ≤ (a ++ e.lead).size := by rw [size_append]; omega
  have hle : ∀ q ∈ below, a.size ≤ q.1 := fun q hq => Nat.le_trans hsize (hle q hq)
  have hle' : ∀ q ∈ below', a.size ≤ q.1 := fun q hq => Nat.le_trans hsize (hle' q hq)
  rw [himports] at hbase
  rw [← apply_insertion ht hspan hrep] at hafter
  constructor
  case imports =>
    have hbelow : back.filterMap Part.written? = below.map Prod.snd := by
      have hsnd := Script.map_snd_imports (a ++ e.lead ++ b)
      rw [himports, hbase, hold, List.map_append, List.filterMap_append,
        ← Script.map_snd_imports] at hsnd
      exact (List.append_cancel_left hsnd).symm
    rw [Script.map_snd_imports, hnew, List.filterMap_append, List.filterMap_append, hbelow,
      ← Script.map_snd_imports, hstart, hbase, filter_lt_append hlt hle,
      filter_le_append (p := fun k => !([].contains k)) hlt hle, Edit.imports,
      Script.map_snd_imports e.replacement, hown]
    simp
  case above =>
    rw [hstart, hafter, hbase, filter_lt_append hlt hle, filter_lt_append hlt hle']
  case code =>
    rw [← hbare, Script.bareCode_parse, Script.bareCode_parse, hnew, hold, Edit.code,
      Script.bareCode_parse, hown]
    rcases hcode with hc | hc <;> simp [hc]

/-- What is left in place of a declaration is no longer than its indentation. -/
theorem CutsOut.size_left_le {above line u w v : Text} (h : e.CutsOut t b above line u w v) :
    v.size ≤ line.size := by
  obtain ⟨rest, hrest⟩ := h.left
  have hcut : above ++ (v ++ rest) = (above ++ line) ++ 'i' :: (u ++ (w ++ b)) := by
    rw [← List.append_assoc, hrest, h.text, List.append_assoc]
    rfl
  have := apart_of_spaces h.spacesLeft hcut
  rw [size_append] at this
  omega

/-- A declaration that is taken out is taken from the imports. -/
theorem Removable.splices {d : Declaration} (h : e.Removable t)
    (hd : d ∈ (Script.parse t).declarations) (ho : e.TakesOut t d) (ht : t = a ++ (y ++ b))
    (hspan : e.span = ⟨a.size, a.size + y.size⟩) :
    e.Splices t (applyInOrder 0 [e] t) [d.span.start] := by
  obtain ⟨ps, head, body, at?, qs, x, u, z, hfound⟩ := Script.found_of_mem hd
  obtain ⟨u', rfl⟩ := hfound.exists_text
  obtain ⟨above, line, w, v, hcut, habove, hb, rfl, hplace, hnew⟩ := h.flushed hfound ho ht hspan
  obtain ⟨below, hafter, hlt, hbelow⟩ := habove.imports_append hb
  rw [← hcut.applied] at hafter hnew
  obtain ⟨w₀, hbase⟩ := hfound.imports
  have hmark : t.markSize = above.markSize := by
    obtain ⟨-, -, -, hmark, -, -⟩ := habove.parts_below hcut.fresh
    rwa [← hcut.text] at hmark
  rw [hmark, ← Script.imports_parse] at hbase
  have hrest : ∀ q ∈ Part.importsFrom d.span.stop qs, d.span.start < q.1 := fun q hq =>
    Nat.lt_of_lt_of_le (Script.exists_keyword hd).1
      (Part.le_of_mem_importsFrom (n := 0) hq fun _ _ => Nat.zero_le _)
  have hstart : e.span.start ≤ d.span.start := by
    have := hcut.size_left_le
    rw [hcut.start, hplace]
    omega
  have hlt : ∀ q ∈ (Script.parse above).imports, q.1 < e.span.start := fun q hq => by
    rw [hcut.start]
    exact Nat.lt_of_lt_of_le (hlt q hq) (Nat.le_add_right ..)
  have hle : ∀ q ∈ (d.span.start, w₀) :: Part.importsFrom d.span.stop qs, e.span.start ≤ q.1 :=
    List.forall_mem_cons.2 ⟨hstart, fun q hq => Nat.le_trans hstart (Nat.le_of_lt (hrest q hq))⟩
  have hbelow : ∀ q ∈ below, e.span.start ≤ q.1 := fun q hq => by
    have hmem : q ∈ (Script.parse (applyInOrder 0 [e] t)).imports := by
      rw [hafter]
      exact List.mem_append_right _ hq
    obtain ⟨pre, behind, hpre, hplace⟩ := Script.exists_text_of_mem_imports hmem
    have hapart := apart_of_spaces hcut.spacesLeft (hcut.applied.symm.trans hpre)
    have := hbelow q hq
    rw [hcut.start]
    omega
  have hown : e.replacement.flushed = [] := by rw [ho.replacement, flushed_nil]
  constructor
  case imports =>
    have hkept : ((d.span.start, w₀) :: Part.importsFrom d.span.stop qs).filter
        (fun q => !([d.span.start].contains q.1)) = Part.importsFrom d.span.stop qs := by
      rw [List.filter_cons_of_neg (by simp), List.filter_eq_self]
      intro q hq
      simpa using Nat.ne_of_gt (hrest q hq)
    rw [Script.map_snd_imports, hnew, List.filterMap_append, Part.filterMap_written?_flush,
      ← Script.map_snd_imports, hbase, filter_lt_append hlt hle,
      filter_le_append (p := fun k => !([d.span.start].contains k)) hlt hle, hkept, Edit.imports,
      Script.map_snd_imports e.replacement, hown, Part.map_snd_importsFrom]
    simp
  case above =>
    rw [hafter, hbase, filter_lt_append hlt hle, filter_lt_append hlt hbelow]
  case code =>
    rw [Script.bareCode_parse, Script.bareCode_parse, hnew, Edit.code, Script.bareCode_parse, hown]
    simp [Text.flushed, Part.code_flush, hfound.parts, Part.flush]

end Edit

-- ---------------------------------------------------------------------------
-- Edits in order
-- ---------------------------------------------------------------------------

/-- Are the imports of a text those of a list in order, and do those above `n` stand where the list
says? -/
structure Text.Lists (t : Text) (ps : List (Nat × WrittenImport)) (n : Nat) : Prop where
  ordered : ps.Pairwise fun a b => a.1 ≤ b.1
  imports : (Script.parse t).imports.map Prod.snd = ps.map Prod.snd
  above : ((Script.parse t).imports.filter fun q => q.1 < n) = ps.filter fun q => q.1 < n

namespace Text.Lists

variable {t : Text} {ps : List (Nat × WrittenImport)} {n k : Nat} {p : Nat → Bool}

theorem self (t : Text) (n : Nat) : t.Lists (Script.parse t).imports n :=
  ⟨(Script.pairwise_imports t).imp Nat.le_of_lt, rfl, rfl⟩

/-- The imports above a place are listed above all places before it. -/
theorem filter_lt (h : t.Lists ps n) (p : Nat → Bool) :
    ((Script.parse t).imports.filter fun q => q.1 < n && p q.1) =
      ps.filter fun q => q.1 < n && p q.1 := by
  have hand : ∀ qs : List (Nat × WrittenImport), (qs.filter fun q => q.1 < n && p q.1) =
      (qs.filter fun q => q.1 < n).filter fun q => p q.1 := fun qs => by
    rw [List.filter_filter]
    exact List.filter_congr fun q _ => Bool.and_comm ..
  rw [hand, hand, h.above]

theorem mono (h : t.Lists ps n) (hk : k ≤ n) : t.Lists ps k := by
  refine ⟨h.ordered, h.imports, ?_⟩
  have hlt : ∀ qs : List (Nat × WrittenImport), (qs.filter fun q => q.1 < k) =
      qs.filter fun q => q.1 < n && decide (q.1 < k) := fun qs =>
    List.filter_congr fun q _ => by
      rw [Bool.eq_iff_iff, Bool.and_eq_true, decide_eq_true_eq, decide_eq_true_eq]
      omega
  rw [hlt, hlt, h.filter_lt fun i => decide (i < k)]

/-- Where the places from `n` on are not told apart, nor are the imports. -/
theorem map_filter (h : t.Lists ps n) (hp : ∀ k, n ≤ k → p k) :
    ((Script.parse t).imports.filter fun q => p q.1).map Prod.snd =
      (ps.filter fun q => p q.1).map Prod.snd := by
  have hbelow : ∀ qs : List (Nat × WrittenImport), (qs.filter fun q => n ≤ q.1 && p q.1) =
      qs.filter fun q => n ≤ q.1 && true := fun qs => List.filter_congr fun q _ => by
    rw [Bool.eq_iff_iff, Bool.and_eq_true, Bool.and_true, decide_eq_true_eq]
    exact and_iff_left_of_imp (hp q.1)
  have hall := h.imports
  have hordered := (self t n).ordered
  have hself : ∀ qs : List (Nat × WrittenImport), qs = qs.filter fun _ => true := fun qs =>
    (List.filter_eq_self.2 fun _ _ => rfl).symm
  rw [hself (Script.parse t).imports, hself ps,
    ← Places.filter_append_filter hordered n fun _ => true,
    ← Places.filter_append_filter h.ordered n fun _ => true, List.map_append, List.map_append,
    h.filter_lt fun _ => true, List.append_cancel_left_eq] at hall
  rw [← Places.filter_append_filter hordered n p, ← Places.filter_append_filter h.ordered n p,
    List.map_append, List.map_append, h.filter_lt, hbelow, hbelow, hall]

end Text.Lists

namespace Exchange

open Edit

variable {t t' : Text} {x : Exchange} {ps : List (Nat × WrittenImport)} {xs : List Exchange}

/-- Where the declarations that an exchange takes out start. -/
def places (x : Exchange) : List Nat := x.removed.map (·.span.start)

/-- What an exchange makes of a list of imports in order. -/
def splice (x : Exchange) (ps : List (Nat × WrittenImport)) : List (Nat × WrittenImport) :=
  (ps.filter fun q => q.1 < x.edit.span.start) ++ x.edit.imports.map (x.edit.span.start, ·) ++
    ps.filter fun q => x.edit.span.start ≤ q.1 && !x.places.contains q.1

theorem pairwise_splice (h : ps.Pairwise fun a b => a.1 ≤ b.1) :
    (x.splice ps).Pairwise fun a b => a.1 ≤ b.1 := by
  have hself : (x.edit.imports.map (x.edit.span.start, ·)).Pairwise fun a b => a.1 ≤ b.1 :=
    List.pairwise_map.2 (List.pairwise_of_forall fun _ _ => Nat.le_refl _)
  rw [splice, List.pairwise_append, List.pairwise_append]
  refine ⟨⟨h.sublist List.filter_sublist, hself, ?_⟩, h.sublist List.filter_sublist, ?_⟩
  · intro a ha b hb
    obtain ⟨w, -, rfl⟩ := List.mem_map.1 hb
    exact Nat.le_of_lt (of_decide_eq_true (List.mem_filter.1 ha).2)
  · intro a ha b hb
    have hb : x.edit.span.start ≤ b.1 :=
      of_decide_eq_true (Bool.and_eq_true_iff.1 (List.mem_filter.1 hb).2).1
    refine Nat.le_trans ?_ hb
    rcases List.mem_append.1 ha with ha | ha
    · exact Nat.le_of_lt (of_decide_eq_true (List.mem_filter.1 ha).2)
    · obtain ⟨w, -, rfl⟩ := List.mem_map.1 ha
      exact Nat.le_refl _

/-- An edit that splices the imports of a text splices the list of them. -/
theorem lists_splice (h : t.Lists ps x.edit.span.stop) (hs : x.edit.Splices t t' x.places)
    (hle : x.edit.span.start ≤ x.edit.span.stop) (hp : ∀ k ∈ x.places, k < x.edit.span.stop) :
    t'.Lists (x.splice ps) x.edit.span.start := by
  have habove := (h.mono hle).above
  constructor
  case ordered => exact pairwise_splice h.ordered
  case imports =>
    have hbelow := h.map_filter (p := fun k => x.edit.span.start ≤ k && !x.places.contains k)
      fun k hk => by
        have hmem : k ∉ x.places := fun hmem => absurd (hp k hmem) (Nat.not_lt.2 hk)
        simpa [hmem] using Nat.le_trans hle hk
    rw [hs.imports, habove, hbelow, splice, List.map_append, List.map_append, List.map_map]
    congr 2
    exact (List.map_id _).symm
  case above =>
    rw [hs.above, habove, splice, List.append_assoc]
    refine (filter_lt_append (fun q hq => of_decide_eq_true (List.mem_filter.1 hq).2)
      fun q hq => ?_).symm
    rcases List.mem_append.1 hq with hq | hq
    · obtain ⟨w, -, rfl⟩ := List.mem_map.1 hq
      exact Nat.le_refl _
    · exact of_decide_eq_true (Bool.and_eq_true_iff.1 (List.mem_filter.1 hq).2).1

/-- An exchange splices the imports of the text that it changes. -/
theorem Fits.splices (h : x.Fits t) : x.edit.Splices t (applyInOrder 0 [x.edit] t) x.places := by
  cases h with
  | line hins ht hspan hrep hc hr he hn =>
    exact hins.splices ht hspan hrep (Canonical.inserts_rendered hc hr he hn)
      (Canonical.fresh_rendered hr _) (by rw [List.append_assoc]; exact Canonical.fresh_rendered hr _)
      (.inr rfl)
  | directive hins ht hspan hrep hx he hn hcode =>
    exact hins.splices ht hspan hrep (inserts_directive hx he hn) (by simp [Fresh, byteOrderMark])
      (by simp [Fresh, byteOrderMark]) (.inl hcode)
  | removal hrem hd ho ht hspan => exact hrem.splices hd ho ht hspan

/-- What an exchange takes out starts in its edit. -/
theorem Holds.within (h : x.Holds t) :
    ∀ k ∈ x.places, x.edit.span.start ≤ k ∧ k < x.edit.span.stop := by
  cases h with
  | line => exact fun k hk => absurd hk List.not_mem_nil
  | directive => exact fun k hk => absurd hk List.not_mem_nil
  | @removal d hd =>
    intro k hk
    cases List.mem_singleton.1 hk
    obtain ⟨pre, u, w, b, a, y, -, hay, hspan, hd', -, hle, -⟩ := removeDeclaration_span hd
    have hsize := congrArg size hay
    have hpos := ('i' : Char).utf8Size_pos
    simp only [hspan, hd', size_append, size_cons] at hsize ⊢
    omega

/-- An exchange that adds no declaration puts in no import. -/
theorem Holds.imports_eq_nil (h : x.Holds t) (ha : x.added = []) : x.edit.imports = [] := by
  cases h with
  | line => cases ha
  | directive ht hspan hrep hx he hn hcode =>
    rw [Edit.imports, Script.map_snd_imports, flushed_replacement hrep (inserts_directive hx he hn)
      (by simp [Fresh, byteOrderMark])]
    rfl
  | removal hd =>
    rw [Edit.imports, Script.map_snd_imports, removeDeclaration, Edit.removal, flushed_nil]
    rfl

/-- Clear edits in order splice the imports of a text, one after the other. -/
theorem lists (h : ∀ x ∈ xs, x.Holds t) (hc : AllClear t (xs.map edit)) :
    ((∀ n, (∀ e ∈ (xs.map edit).head?, n ≤ e.span.start) →
        (applyInOrder 0 (xs.map edit) t).Lists (xs.foldr splice (Script.parse t).imports) n)) ∧
      (Script.parse (applyInOrder 0 (xs.map edit) t)).bareCode =
        xs.flatMap (·.edit.code) ++ (Script.parse t).bareCode := by
  induction xs with
  | nil => exact ⟨fun n _ => Text.Lists.self t n, rfl⟩
  | cons x xs ih =>
    have hall : ∀ y ∈ xs, y.Holds t := fun y hy => h y (List.mem_cons_of_mem _ hy)
    obtain ⟨hrest, hclear, hnext⟩ := hc
    obtain ⟨hlists, hcode⟩ := ih hall hrest
    have hx := h x (List.mem_cons_self ..)
    obtain ⟨hle, happly, hfits⟩ := hx.fits hclear hnext ((reading hall hrest).2 _ hnext)
    have hs := hfits.splices
    rw [List.map_cons, happly]
    refine ⟨fun n hn => ?_, ?_⟩
    · refine (lists_splice (hlists _ hnext) hs hle fun k hk => (hx.within k hk).2).mono ?_
      exact hn x.edit rfl
    · rw [hs.code, hcode, List.flatMap_cons, List.append_assoc]

-- ---------------------------------------------------------------------------
-- One line among removals
-- ---------------------------------------------------------------------------

/-- Where the declarations start that exchanges take out. -/
def placesOf (xs : List Exchange) : List Nat := xs.flatMap places

/-- Exchanges that put in no import filter the list. -/
theorem foldr_splice_of_imports (ho : ps.Pairwise fun a b => a.1 ≤ b.1)
    (h : ∀ x ∈ xs, x.edit.imports = [] ∧ ∀ k ∈ x.places, x.edit.span.start ≤ k) :
    xs.foldr splice ps = ps.filter fun q => !(placesOf xs).contains q.1 := by
  induction xs with
  | nil => exact (List.filter_eq_self.2 fun _ _ => rfl).symm
  | cons x xs ih =>
    obtain ⟨⟨hnil, hplaces⟩, hxs⟩ := List.forall_mem_cons.1 h
    have habove : ∀ qs : List (Nat × WrittenImport), (qs.filter fun q => q.1 < x.edit.span.start) =
        qs.filter fun q => q.1 < x.edit.span.start && !x.places.contains q.1 := fun qs =>
      List.filter_congr fun q _ => by
        rw [Bool.eq_iff_iff, Bool.and_eq_true, decide_eq_true_eq]
        refine (and_iff_left_of_imp fun hlt => ?_).symm
        have hmem : q.1 ∉ x.places := fun hmem => Nat.not_le.2 hlt (hplaces _ hmem)
        simpa using hmem
    rw [List.foldr_cons, ih hxs, splice, hnil, List.map_nil, List.append_nil, habove,
      Places.filter_append_filter (ho.sublist List.filter_sublist) x.edit.span.start fun k =>
        !x.places.contains k, List.filter_filter]
    refine List.filter_congr fun q _ => ?_
    simp [placesOf]

/-- Where one exchange puts imports in and the others put in none, these come between those above
and those below, without the ones that are taken out. -/
theorem foldr_splice {ys zs : List Exchange} (ho : ps.Pairwise fun a b => a.1 ≤ b.1)
    (hx : x.places = [])
    (h : ∀ y ∈ ys ++ zs, y.edit.imports = [] ∧ ∀ k ∈ y.places, y.edit.span.start ≤ k)
    (hys : ∀ k ∈ placesOf ys, k < x.edit.span.start) :
    (ys ++ x :: zs).foldr splice ps =
      (ps.filter fun q => q.1 < x.edit.span.start && !(placesOf (ys ++ zs)).contains q.1) ++
        x.edit.imports.map (x.edit.span.start, ·) ++
          ps.filter fun q => x.edit.span.start ≤ q.1 && !(placesOf (ys ++ zs)).contains q.1 := by
  have hzs : zs.foldr splice ps = ps.filter fun q => !(placesOf zs).contains q.1 :=
    foldr_splice_of_imports ho fun y hy => h y (List.mem_append_right _ hy)
  have hordered : (x.splice (zs.foldr splice ps)).Pairwise fun a b => a.1 ≤ b.1 := by
    rw [hzs]
    exact pairwise_splice (ho.sublist List.filter_sublist)
  have hself : (x.edit.imports.map (x.edit.span.start, ·)).filter (fun q =>
      !(placesOf ys).contains q.1) = x.edit.imports.map (x.edit.span.start, ·) := by
    refine List.filter_eq_self.2 fun q hq => ?_
    obtain ⟨w, -, rfl⟩ := List.mem_map.1 hq
    have hmem : x.edit.span.start ∉ placesOf ys := fun hmem => Nat.lt_irrefl _ (hys _ hmem)
    simpa using hmem
  rw [List.foldr_append, List.foldr_cons,
    foldr_splice_of_imports hordered fun y hy => h y (List.mem_append_left _ hy), hzs, splice, hx,
    List.filter_append, List.filter_append, hself]
  simp only [List.filter_filter]
  congr 2
  · refine List.filter_congr fun q _ => ?_
    simp [placesOf, Bool.and_left_comm]
  · funext q
    simp [placesOf, Bool.and_left_comm]

/-- In order, edits end before the next one starts. -/
theorem stop_le_of_allClear {e : Edit} {es fs : List Edit} (h : AllClear t (es ++ e :: fs))
    (hle : ∀ a ∈ es, a.span.start ≤ a.span.stop) : ∀ a ∈ es, a.span.stop ≤ e.span.start := by
  induction es with
  | nil => exact fun a ha => absurd ha List.not_mem_nil
  | cons b es ih =>
    obtain ⟨hrest, -, hnext⟩ := h
    have hes := ih hrest fun a ha => hle a (List.mem_cons_of_mem _ ha)
    refine List.forall_mem_cons.2 ⟨?_, hes⟩
    cases es with
    | nil => exact hnext e rfl
    | cons c es =>
      exact Nat.le_trans (hnext c rfl) (Nat.le_trans (hle c (by simp)) (hes c (List.mem_cons_self ..)))

theorem Holds.start_le_stop (h : x.Holds t) : x.edit.span.start ≤ x.edit.span.stop := by
  cases h with
  | line ht hspan => exact Nat.le_of_eq (by rw [hspan])
  | directive ht hspan => exact Nat.le_of_eq (by rw [hspan])
  | removal hd =>
    obtain ⟨pre, u, w, b, a, y, -, -, hspan, -⟩ := removeDeclaration_span hd
    rw [hspan]
    exact Nat.le_add_right ..

/-- Exchanges in any order, of which one puts imports in and the others do not: the new imports
stand where its edit does, among those that are not taken out. -/
theorem imports_applyAll {others : List Exchange} (h : ∀ y ∈ xs, y.Holds t)
    (hperm : xs.Perm (x :: others)) (hx : x.removed = []) (ho : ∀ y ∈ others, y.added = [])
    (hc : AllClear t (Sorting.sort Edit.before (xs.map edit))) :
    (Script.parse (Edit.applyAll (xs.map edit) t)).imports.map Prod.snd =
        ((Script.parse t).imports.filter fun q =>
          q.1 < x.edit.span.start && !(placesOf others).contains q.1).map Prod.snd ++
        x.edit.imports ++
        ((Script.parse t).imports.filter fun q =>
          x.edit.span.start ≤ q.1 && !(placesOf others).contains q.1).map Prod.snd ∧
      (Script.parse (Edit.applyAll (xs.map edit) t)).bareCode =
        (Sorting.sort Edit.before (xs.map edit)).flatMap Edit.code ++ (Script.parse t).bareCode := by
  have hsort := Sorting.sort_perm (fun a b : Exchange => Edit.before a.edit b.edit) xs
  have hmap := Sorting.map_sort Edit.before edit xs
  have happly : Edit.applyAll (xs.map edit) t = applyInOrder 0 ((Sorting.sort
      (fun a b : Exchange => Edit.before a.edit b.edit) xs).map edit) t := by rw [hmap]; rfl
  rw [happly, ← hmap]
  rw [← hmap] at hc
  have hss : ∀ y ∈ Sorting.sort (fun a b : Exchange => Edit.before a.edit b.edit) xs, y.Holds t :=
    fun y hy => h y (hsort.mem_iff.1 hy)
  have hxss := (hsort.trans hperm).mem_iff.2 (List.mem_cons_self ..)
  have hperm := hsort.trans hperm
  generalize Sorting.sort (fun a b : Exchange => Edit.before a.edit b.edit) xs = ss at *
  obtain ⟨ys, zs, rfl⟩ := List.append_of_mem hxss
  have hothers : (ys ++ zs).Perm others := (List.perm_middle.symm.trans hperm).cons_inv
  obtain ⟨hlists, hcode⟩ := lists hss hc
  refine ⟨?_, by rw [hcode, List.flatMap_map]⟩
  have hnil : ∀ y ∈ ys ++ zs, y.edit.imports = [] ∧ ∀ k ∈ y.places, y.edit.span.start ≤ k :=
    fun y hy => by
      have hy' := hss y (by
        rw [List.mem_append, List.mem_cons]
        exact (List.mem_append.1 hy).imp_right .inr)
      exact ⟨hy'.imports_eq_nil (ho y (hothers.mem_iff.1 hy)), fun k hk => (hy'.within k hk).1⟩
  have hys : ∀ k ∈ placesOf ys, k < x.edit.span.start := fun k hk => by
    obtain ⟨y, hy, hk⟩ := List.mem_flatMap.1 hk
    have hstop := stop_le_of_allClear (by simpa using hc) (fun a ha => by
      obtain ⟨y, hy, rfl⟩ := List.mem_map.1 ha
      exact (hss y (List.mem_append_left _ hy)).start_le_stop) y.edit (List.mem_map_of_mem hy)
    exact Nat.lt_of_lt_of_le ((hss y (List.mem_append_left _ hy)).within k hk).2 hstop
  have hplaces : ∀ k, (placesOf (ys ++ zs)).contains k = (placesOf others).contains k := fun k => by
    rw [Bool.eq_iff_iff, List.contains_iff_mem, List.contains_iff_mem]
    exact (hothers.flatMap_right _).mem_iff
  rw [(hlists 0 fun e _ => Nat.zero_le _).imports,
    foldr_splice (Text.Lists.self t 0).ordered (by rw [places, hx]; rfl) hnil hys,
    List.map_append, List.map_append, List.map_map]
  simp only [hplaces]
  congr 2
  exact List.map_id _

end Exchange

end TidyImports
