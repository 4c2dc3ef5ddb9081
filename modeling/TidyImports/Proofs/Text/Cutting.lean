-- SUMMARY: Edits applied one at a time from the last to the first, and where lines are cut.
import Mathlib.Data.List.Basic
import TidyImports.Text.Edit
import TidyImports.Text.Blank

/-!
# Cutting and joining

Edits in order leave the text before the first of them alone. So the first one
can wait until the others are done, and each edit can be looked at alone, in
the text that the edits after it leave.
-/

namespace TidyImports

namespace Text

theorem size_pos {t : Text} (h : t ≠ []) : 0 < t.size := by
  obtain ⟨c, t, rfl⟩ := List.exists_cons_of_ne_nil h
  exact Nat.add_pos_left c.utf8Size_pos _

theorem takeBytes_append_add (a b : Text) (n : Nat) :
    takeBytes (a.size + n) (a ++ b) = a ++ takeBytes n b := by
  induction a with
  | nil => simp
  | cons c a ih =>
    have hne : c.utf8Size + size a + n ≠ 0 := by
      have := c.utf8Size_pos
      omega
    have hsub : c.utf8Size + size a + n - c.utf8Size = size a + n := by omega
    rw [List.cons_append, takeBytes, size_cons, if_neg hne, hsub, ih]
    rfl

theorem dropBytes_append_add (a b : Text) (n : Nat) :
    dropBytes (size a + n) (a ++ b) = dropBytes n b := by
  induction a with
  | nil => simp
  | cons c a ih =>
    have hne : c.utf8Size + size a + n ≠ 0 := by
      have := c.utf8Size_pos
      omega
    have hsub : c.utf8Size + size a + n - c.utf8Size = size a + n := by omega
    rw [List.cons_append, dropBytes, size_cons, if_neg hne, hsub, ih]

theorem append_inj_size {a b c d : Text} (h : a ++ b = c ++ d) (hs : size a = c.size) :
    a = c ∧ b = d := by
  have htake := congrArg (takeBytes a.size) h
  have hdrop := congrArg (dropBytes a.size) h
  rw [takeBytes_append, hs, takeBytes_append] at htake
  rw [dropBytes_append, hs, dropBytes_append] at hdrop
  exact ⟨htake, hdrop⟩

/-- Of two front parts of a text, the longer starts with the shorter. -/
theorem exists_of_size_le {a b c d : Text} (h : a ++ b = c ++ d) (hs : a.size ≤ c.size) :
    ∃ w, c = a ++ w ∧ b = w ++ d := by
  rcases List.append_eq_append_iff.1 h with ⟨w, hc, hb⟩ | ⟨w, rfl, rfl⟩
  · exact ⟨w, hc, hb⟩
  · have hnil : w = [] := by
      by_contra hne
      have := size_pos hne
      rw [size_append] at hs
      omega
    subst hnil
    exact ⟨[], by simp, by simp⟩

/-- The text between the ends of a part is that part. -/
theorem slice_append (pre x tail : Text) :
    (pre ++ x ++ tail).slice ⟨pre.size, pre.size + x.size⟩ = x := by
  rw [slice, List.append_assoc, dropBytes_append, Nat.add_sub_cancel_left, takeBytes_append]

-- ---------------------------------------------------------------------------
-- Lines
-- ---------------------------------------------------------------------------

/-- Where the line of a place starts, after the byte order mark. -/
def edge (t : Text) (offset : Nat) : Nat := max (t.lineStart offset) t.markSize

/-- What comes before the last line is empty or ends with a line feed. -/
theorem exists_lastLine (t : Text) :
    ∃ above, t = above ++ lastLine t ∧ (above = [] ∨ above.getLast? = some '\n') := by
  refine ⟨(t.reverse.dropWhile (· != '\n')).reverse, ?_, ?_⟩
  · have := congrArg List.reverse (List.takeWhile_append_dropWhile (p := (· != '\n'))
      (l := t.reverse))
    rw [List.reverse_append, List.reverse_reverse] at this
    exact this.symm
  · have hhead := List.head?_dropWhile_not (· != '\n') t.reverse
    cases h : t.reverse.dropWhile (· != '\n') with
    | nil => exact .inl rfl
    | cons c cs =>
      rw [h] at hhead
      right
      rw [List.getLast?_reverse, List.head?_cons]
      simpa using hhead

theorem not_mem_lastLine (t : Text) : '\n' ∉ lastLine t := by
  rw [lastLine, List.mem_reverse]
  intro h
  have hall := List.all_takeWhile (p := (· != '\n')) (l := t.reverse)
  simpa using List.all_eq_true.1 hall _ h

theorem lastLine_append {above line : Text} (hline : '\n' ∉ line)
    (h : above = [] ∨ above.getLast? = some '\n') : lastLine (above ++ line) = line := by
  have htake : above.reverse.takeWhile (· != '\n') = [] := by
    rw [← List.head?_reverse] at h
    cases hr : above.reverse with
    | nil => rfl
    | cons c cs => simp_all
  have hall : ∀ c ∈ line.reverse, (c != '\n') = true := fun c hc => by
    rw [bne_iff_ne]
    rintro rfl
    exact hline (List.mem_reverse.1 hc)
  rw [lastLine, List.reverse_append, List.takeWhile_append_of_pos hall, htake, List.append_nil,
    List.reverse_reverse]

theorem lineStart_append {above line : Text} (y : Text) (hline : '\n' ∉ line)
    (h : above = [] ∨ above.getLast? = some '\n') :
    (above ++ line ++ y).lineStart (above ++ line).size = above.size := by
  rw [lineStart, takeBytes_append, lastLine_append hline h, size_append]
  omega

/-- A line is cut off where it starts, after the byte order mark. -/
theorem exists_edge (pre y : Text) (h : (pre ++ y).markSize ≤ pre.size) :
    ∃ above line, pre = above ++ line ∧ (∀ c ∈ line, c ∈ lastLine pre) ∧
      (pre ++ y).edge pre.size = above.size ∧ (pre ++ y).edge above.size = above.size := by
  obtain ⟨above, hpre, habove⟩ := exists_lastLine pre
  have hstart : (pre ++ y).lineStart pre.size = above.size := by
    have := lineStart_append y (not_mem_lastLine pre) habove
    rwa [← hpre] at this
  have hstart' : (pre ++ y).lineStart above.size = above.size := by
    have := lineStart_append (lastLine pre ++ y) List.not_mem_nil habove
    rw [List.append_nil, ← List.append_assoc, ← hpre] at this
    exact this
  by_cases hmark : (pre ++ y).markSize ≤ above.size
  · refine ⟨above, lastLine pre, hpre, fun _ h => h, ?_, ?_⟩
    · rw [edge, hstart, Nat.max_eq_left hmark]
    · rw [edge, hstart', Nat.max_eq_left hmark]
  · -- The line is the first one and starts with the byte order mark.
    have hhead : (pre ++ y).head? = some byteOrderMark := by
      by_cases hb : (pre ++ y).head? = some byteOrderMark
      · exact hb
      · exact absurd (by rw [markSize, if_neg hb]; exact Nat.zero_le _) hmark
    have hsize : (pre ++ y).markSize = byteOrderMark.utf8Size := by rw [markSize, if_pos hhead]
    have hnil : above = [] := by
      cases above with
      | nil => rfl
      | cons c cs =>
        rw [hpre, List.cons_append, List.cons_append, List.head?_cons, Option.some_inj] at hhead
        subst hhead
        rw [hsize, size_cons] at hmark
        omega
    subst hnil
    cases pre with
    | nil =>
      rw [hsize] at h
      exact absurd h (by decide)
    | cons c cs =>
      rw [List.cons_append, List.head?_cons, Option.some_inj] at hhead
      subst hhead
      refine ⟨[byteOrderMark], cs, rfl, fun c hc => ?_, ?_, ?_⟩
      · rw [List.nil_append] at hpre
        rw [← hpre]
        exact List.mem_cons_of_mem _ hc
      · rw [edge, hstart, hsize]
        rfl
      · have hline : lineStart ([] ++ [byteOrderMark] ++ (cs ++ y)) (size ([] ++ [byteOrderMark])) =
            size [] := lineStart_append (cs ++ y) (by decide) (.inl rfl)
        rw [edge, hsize]
        exact congrArg (max · byteOrderMark.utf8Size) hline

/-- Where a line starts does not depend on what follows the place. -/
theorem edge_congr {pre y y' : Text} (h : (pre ++ y').markSize = (pre ++ y).markSize) :
    (pre ++ y').edge pre.size = (pre ++ y).edge pre.size := by
  rw [edge, edge, h, lineStart, lineStart, takeBytes_append, takeBytes_append]

theorem exists_firstLine (t : Text) : ∃ rest, t = firstLine t ++ rest := by
  induction t with
  | nil => exact ⟨[], rfl⟩
  | cons c cs ih =>
    obtain ⟨rest, hrest⟩ := ih
    by_cases hc : c = '\n'
    · exact ⟨cs, by simp [firstLine, hc]⟩
    · exact ⟨rest, by rw [firstLine, if_neg hc, List.cons_append, ← hrest]⟩

theorem firstLine_append {line : Text} (h : '\n' ∉ line) (more : Text) :
    firstLine (line ++ '\n' :: more) = line ++ ['\n'] := by
  induction line with
  | nil => rfl
  | cons c line ih =>
    obtain ⟨hc, hline⟩ := not_or.1 (mt List.mem_cons.2 h)
    rw [List.cons_append, firstLine, if_neg (Ne.symm hc), ih hline, List.cons_append]

theorem size_firstLine_append_le {x y : Text} (h : '\n' ∈ x ∨ y = []) :
    (firstLine (x ++ y)).size ≤ x.size := by
  induction x with
  | nil =>
    rw [h.resolve_left List.not_mem_nil]
    exact Nat.le_refl _
  | cons c x ih =>
    rw [List.cons_append, firstLine]
    split
    · exact Nat.le_add_right ..
    · next hc =>
      have hx : '\n' ∈ x ∨ y = [] := h.imp_left fun hmem =>
        (List.mem_cons.1 hmem).resolve_left (Ne.symm hc)
      exact Nat.add_le_add_left (ih hx) _

-- ---------------------------------------------------------------------------
-- Places between characters
-- ---------------------------------------------------------------------------

/-- Does an offset lie between two characters, or at an end of the text? -/
def IsCut (t : Text) (n : Nat) : Prop := ∃ a b, t = a ++ b ∧ a.size = n

section

variable {t : Text} {n m : Nat}

theorem isCut_zero (t : Text) : t.IsCut 0 := ⟨[], t, rfl, rfl⟩

theorem IsCut.le_size (h : t.IsCut n) : n ≤ t.size := by
  obtain ⟨a, b, rfl, rfl⟩ := h
  rw [size_append]
  exact Nat.le_add_right ..

/-- A place in a text that lies in its front part. -/
theorem IsCut.of_append {a b : Text} (h : (a ++ b).IsCut n) (hle : n ≤ a.size) : a.IsCut n := by
  obtain ⟨x, y, hxy, rfl⟩ := h
  obtain ⟨z, rfl, -⟩ := exists_of_size_le hxy.symm hle
  exact ⟨x, z, rfl, rfl⟩

theorem IsCut.max (hn : t.IsCut n) (hm : t.IsCut m) : t.IsCut (max n m) := by
  rcases Nat.le_total n m with h | h
  · rwa [Nat.max_eq_right h]
  · rwa [Nat.max_eq_left h]

/-- A text is cut at two places in order. -/
theorem IsCut.exists_between (hn : t.IsCut n) (hm : t.IsCut m) (h : n ≤ m) :
    ∃ a x b, t = a ++ (x ++ b) ∧ a.size = n ∧ a.size + x.size = m := by
  obtain ⟨a, b, rfl, rfl⟩ := hn
  obtain ⟨c, d, hcd, rfl⟩ := hm
  obtain ⟨x, rfl, rfl⟩ := exists_of_size_le hcd h
  exact ⟨a, x, d, rfl, rfl, (size_append a x).symm⟩

/-- A place behind the front part of a text cuts the rest of it. -/
theorem IsCut.exists_behind {front : Text} (h : (front ++ t).IsCut n)
    (hle : front.size ≤ n) : ∃ a b, t = a ++ b ∧ (front ++ a).size = n := by
  obtain ⟨a, b, hab, rfl⟩ := h
  obtain ⟨x, rfl, rfl⟩ := exists_of_size_le hab hle
  exact ⟨x, b, rfl, rfl⟩

theorem IsCut.slice_append {k : Nat} (hn : t.IsCut n) (hm : t.IsCut m) (hk : t.IsCut k)
    (hnm : n ≤ m) (hmk : m ≤ k) : t.slice ⟨n, k⟩ = t.slice ⟨n, m⟩ ++ t.slice ⟨m, k⟩ := by
  obtain ⟨a, x, b, ht, rfl, rfl⟩ := hn.exists_between hm hnm
  obtain ⟨a', y, b', ht', ha', rfl⟩ := hm.exists_between hk hmk
  rw [ht, ← List.append_assoc] at ht'
  obtain ⟨rfl, rfl⟩ := append_inj_size ht' (by rw [size_append, ha'])
  have hall := Text.slice_append a (x ++ y) b'
  have hfirst := Text.slice_append a x (y ++ b')
  have hrest := Text.slice_append (a ++ x) y b'
  simp only [size_append, List.append_assoc] at hall hfirst hrest
  rw [ht, size_append, hfirst, hrest, Nat.add_assoc, hall]

/-- What lies between cuts holds what lies between others further in. -/
theorem IsCut.slice_inside {s s' : Span} (hn : t.IsCut s'.start) (hm : t.IsCut s.start)
    (hk : t.IsCut s.stop) (hl : t.IsCut s'.stop) (hstart : s'.start ≤ s.start)
    (hspan : s.start ≤ s.stop) (hstop : s.stop ≤ s'.stop) : t.slice s <:+: t.slice s' := by
  rw [hn.slice_append hm hl hstart (Nat.le_trans hspan hstop), hm.slice_append hk hl hspan hstop]
  exact ⟨_, _, List.append_assoc ..⟩

end

-- ---------------------------------------------------------------------------
-- Places between lines
-- ---------------------------------------------------------------------------

/-- Is an offset the start of a line, or the end of the text? -/
def IsLineEdge (t : Text) (n : Nat) : Prop :=
  ∃ above below, t = above ++ below ∧ above.size = n ∧
    (above = [] ∨ above.getLast? = some '\n' ∨ below = [])

section

variable {t : Text} {n m : Nat}

theorem IsLineEdge.isCut (h : t.IsLineEdge n) : t.IsCut n := by
  obtain ⟨above, below, ht, hn, -⟩ := h
  exact ⟨above, below, ht, hn⟩

theorem isLineEdge_zero (t : Text) : t.IsLineEdge 0 := ⟨[], t, rfl, rfl, .inl rfl⟩

/-- A first line ends with its line feed, or it is all of the text. -/
theorem firstLine_ends {rest : Text} (h : t = firstLine t ++ rest) :
    (firstLine t).getLast? = some '\n' ∨ rest = [] := by
  induction t with
  | nil => exact .inr (by simpa [firstLine] using h.symm)
  | cons c t ih =>
    by_cases hc : c = '\n'
    · rw [firstLine, if_pos hc, hc]
      exact .inl rfl
    · rw [firstLine, if_neg hc, List.cons_append, List.cons.injEq] at h
      refine (ih h.2).imp_left fun hlast => ?_
      rw [firstLine, if_neg hc, List.getLast?_cons, hlast]
      rfl

theorem isLineEdge_nextLine (h : t.IsCut n) : t.IsLineEdge (t.nextLine n) := by
  obtain ⟨a, b, rfl, rfl⟩ := h
  obtain ⟨rest, hrest⟩ := exists_firstLine b
  refine ⟨a ++ firstLine b, rest, by rw [List.append_assoc, ← hrest], ?_, ?_⟩
  · rw [nextLine, dropBytes_append, size_append]
  · rcases firstLine_ends hrest with hlast | hnil
    · exact .inr (.inl (by simp [hlast]))
    · exact .inr (.inr hnil)

theorem lines_eq_cons {line : Text} {more : List Text} (h : lines t = line :: more) :
    ∃ rest, t = line ++ rest ∧ firstLine t = line ∧ lines rest = more := by
  induction t generalizing line more with
  | nil => cases h
  | cons c t ih =>
    rw [lines] at h
    by_cases hc : c = '\n'
    · rw [if_pos hc] at h
      obtain ⟨rfl, rfl⟩ := List.cons.inj h
      exact ⟨t, rfl, by rw [firstLine, if_pos hc], rfl⟩
    · rw [if_neg hc] at h
      rw [firstLine, if_neg hc]
      cases hl : lines t with
      | nil =>
        rw [hl] at h
        obtain ⟨rfl, rfl⟩ := List.cons.inj h
        have ht : t = [] := by rw [← flatten_lines t, hl, List.flatten_nil]
        exact ⟨[], by rw [ht]; rfl, by rw [ht]; rfl, rfl⟩
      | cons l ls =>
        rw [hl] at h
        obtain ⟨rfl, rfl⟩ := List.cons.inj h
        obtain ⟨rest, hrest, hfirst, hmore⟩ := ih hl
        exact ⟨rest, by rw [hrest]; rfl, by rw [hfirst], hmore⟩

/-- The lines behind a place are its line and those behind the next. -/
theorem lines_dropBytes {line : Text} {more : List Text} (hn : t.IsCut n)
    (h : lines (t.dropBytes n) = line :: more) :
    t.nextLine n = n + line.size ∧ lines (t.dropBytes (t.nextLine n)) = more := by
  obtain ⟨rest, hrest, hfirst, hmore⟩ := lines_eq_cons h
  have hnext : t.nextLine n = n + line.size := by rw [nextLine, hfirst]
  refine ⟨hnext, ?_⟩
  obtain ⟨a, b, rfl, rfl⟩ := hn
  rw [dropBytes_append] at hrest
  rw [hnext, dropBytes_append_add, hrest, dropBytes_append, hmore]

theorem IsLineEdge.add_lines {ls : List Text} (h : t.IsLineEdge n)
    (hl : ls <+: lines (t.dropBytes n)) : t.IsLineEdge (n + size ls.flatten) := by
  induction ls generalizing n with
  | nil => exact h
  | cons l ls ih =>
    obtain ⟨more, hmore⟩ := hl
    obtain ⟨hnext, hlines⟩ := lines_dropBytes h.isCut hmore.symm
    rw [List.flatten_cons, size_append, ← Nat.add_assoc, ← hnext]
    exact ih (isLineEdge_nextLine h.isCut) ⟨more, hlines.symm⟩

/-- No line starts inside another. -/
theorem IsLineEdge.le_of_lt_nextLine (hm : t.IsLineEdge m) (hn : t.IsCut n)
    (h : m < t.nextLine n) : m ≤ n := by
  obtain ⟨above, below, hbelow, rfl, hedge⟩ := hm
  obtain ⟨a, b, rfl, rfl⟩ := hn
  rw [nextLine, dropBytes_append] at h
  refine Nat.le_of_not_lt fun hlt => ?_
  rcases List.append_eq_append_iff.1 hbelow with ⟨x, rfl, rfl⟩ | ⟨x, rfl, -⟩
  · -- What stands between the two places is at least a line.
    have hline : '\n' ∈ x ∨ below = [] := by
      have hne : x ≠ [] := by
        rintro rfl
        simp at hlt
      rcases hedge with hnil | hlast | hnil
      · simp [List.append_eq_nil_iff, hne] at hnil
      · rw [List.getLast?_append_of_ne_nil _ hne] at hlast
        exact .inl (List.mem_of_getLast? hlast)
      · exact .inr hnil
    have := size_firstLine_append_le hline
    rw [size_append] at h
    omega
  · rw [size_append] at hlt
    omega

end

-- ---------------------------------------------------------------------------
-- Prefixes
-- ---------------------------------------------------------------------------

theorem mem_of_afterLast? {t needle rest : Text} {c : Char}
    (h : afterLast? t needle = some rest) (hc : c ∈ needle) : c ∈ t := by
  induction t generalizing rest with
  | nil =>
    rw [afterLast?] at h
    split at h
    · next hn =>
      rw [List.isEmpty_iff.1 hn] at hc
      cases hc
    · cases h
  | cons d t ih =>
    rw [afterLast?, Option.or_eq_some_iff] at h
    rcases h with h | ⟨-, h⟩
    · exact List.mem_cons_of_mem _ (ih h)
    · rw [← List.isPrefixOf?_eq_some_iff_append_eq.1 h]
      exact List.mem_append_left _ hc

-- ---------------------------------------------------------------------------
-- Characters of joined texts
-- ---------------------------------------------------------------------------

theorem not_mem_intercalate {c : Char} {separator : Text} {xs : List Text} (hs : c ∉ separator)
    (hxs : ∀ x ∈ xs, c ∉ x) : c ∉ separator.intercalate xs := by
  induction xs with
  | nil => simp
  | cons x xs ih =>
    have hx := hxs x (List.mem_cons_self ..)
    have hrest := ih fun y hy => hxs y (List.mem_cons_of_mem _ hy)
    cases xs with
    | nil => simpa using hx
    | cons y ys =>
      rw [List.intercalate_cons_cons]
      simp only [List.mem_append, not_or]
      exact ⟨⟨hx, hs⟩, hrest⟩

end Text

open Text

namespace Edit

/-- The text before the first edit stays. -/
theorem applyInOrder_append {a b : Text} {offset : Nat} {es : List Edit}
    (h : ∀ e ∈ es.head?, offset + a.size ≤ e.span.start) :
    applyInOrder offset es (a ++ b) = a ++ applyInOrder (offset + a.size) es b := by
  cases es with
  | nil => rfl
  | cons e es =>
    have hstart : offset + a.size ≤ e.span.start := h e rfl
    have h₁ : max e.span.start offset = e.span.start := by omega
    have h₂ : max e.span.start (offset + a.size) = e.span.start := by omega
    have h₃ : e.span.start - offset = a.size + (e.span.start - (offset + a.size)) := by omega
    have h₄ : max e.span.stop e.span.start - offset =
        a.size + (max e.span.stop e.span.start - (offset + a.size)) := by omega
    simp only [applyInOrder, h₁, h₂]
    rw [h₃, h₄, takeBytes_append_add, dropBytes_append_add]
    simp

/-- What the first edit does, and where the others go on. -/
theorem applyInOrder_cons_append {a x b : Text} {offset : Nat} {e : Edit} {es : List Edit}
    (hspan : e.span = ⟨offset + a.size, offset + (a.size + x.size)⟩) :
    applyInOrder offset (e :: es) (a ++ (x ++ b)) =
      a ++ (e.replacement ++ applyInOrder (offset + (a.size + x.size)) es b) := by
  have hstart : max e.span.start offset = offset + a.size := by rw [hspan]; simp only; omega
  have hstop : max e.span.stop (offset + a.size) = offset + (a.size + x.size) := by
    rw [hspan]
    simp only
    omega
  have hdrop : dropBytes (a.size + x.size) (a ++ (x ++ b)) = b := by
    rw [dropBytes_append_add, dropBytes_append]
  simp only [applyInOrder, hstart, hstop, Nat.add_sub_cancel_left]
  rw [takeBytes_append, hdrop, List.append_assoc]

/-- An edit can be made after those that follow it. -/
theorem applyInOrder_cons {a x b : Text} {e : Edit} {es : List Edit}
    (hspan : e.span = ⟨a.size, a.size + x.size⟩)
    (h : ∀ e' ∈ es.head?, a.size + x.size ≤ e'.span.start) :
    ∃ b', applyInOrder 0 es (a ++ (x ++ b)) = a ++ (x ++ b') ∧
      applyInOrder 0 (e :: es) (a ++ (x ++ b)) = a ++ (e.replacement ++ b') := by
  refine ⟨applyInOrder (a.size + x.size) es b, ?_, ?_⟩
  · rw [← List.append_assoc, applyInOrder_append (by simpa using h), List.append_assoc]
    simp
  · rw [applyInOrder_cons_append (by simpa using hspan), Nat.zero_add]

theorem applyInOrder_singleton {a x b : Text} {e : Edit}
    (hspan : e.span = ⟨a.size, a.size + x.size⟩) :
    applyInOrder 0 [e] (a ++ (x ++ b)) = a ++ (e.replacement ++ b) := by
  have hnone : ∀ e' ∈ ([] : List Edit).head?, a.size + x.size ≤ e'.span.start := by simp
  obtain ⟨b', h, h'⟩ := applyInOrder_cons (b := b) hspan hnone
  rw [h', List.append_cancel_left (List.append_cancel_left h)]

theorem applyAll_singleton (e : Edit) (t : Text) : applyAll [e] t = applyInOrder 0 [e] t := by
  rw [applyAll, Sorting.sort_eq_self (List.pairwise_singleton _ _)]

/-- One edit puts its text in the place of what its span holds. -/
theorem applyAll_around {t a x b : Text} {s : Span} (ht : t = a ++ (x ++ b))
    (hspan : s = ⟨a.size, a.size + x.size⟩) (w : Text) :
    applyAll [⟨s, w⟩] t = a ++ (w ++ b) := by
  rw [applyAll_singleton, ht]
  exact applyInOrder_singleton hspan

/-- The first edit can wait until the others are done. -/
theorem applyInOrder_eq {t a x b : Text} {e : Edit} {es : List Edit} (ht : t = a ++ (x ++ b))
    (hspan : e.span = ⟨a.size, a.size + x.size⟩)
    (h : ∀ e' ∈ es.head?, a.size + x.size ≤ e'.span.start) :
    ∃ b', applyInOrder 0 es t = a ++ (x ++ b') ∧
      applyInOrder 0 (e :: es) t = applyInOrder 0 [e] (applyInOrder 0 es t) := by
  obtain ⟨b', h₁, h₂⟩ := applyInOrder_cons (b := b) hspan h
  rw [← ht] at h₁ h₂
  refine ⟨b', h₁, ?_⟩
  rw [h₁, h₂, applyInOrder_singleton hspan]

end Edit

end TidyImports
