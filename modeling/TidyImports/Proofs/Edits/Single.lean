-- SUMMARY: One clear edit: a line put in, a declaration taken out, a declaration rewritten.
import TidyImports.Proofs.Edits.Clear
import TidyImports.Proofs.Outline.Imports

/-!
# Single edits

What one clear edit does to the reading of a script, wherever in the text it is.
-/

namespace TidyImports

open Text Lexer

-- ---------------------------------------------------------------------------
-- Declarations above an edit
-- ---------------------------------------------------------------------------

namespace Part

theorem declarationsFrom_append (offset : Nat) (ps qs : List Part) :
    declarationsFrom offset (ps ++ qs) = declarationsFrom offset ps ++
      declarationsFrom (offset + (Mark.sources (allMarks ps)).size) qs := by
  induction ps generalizing offset with
  | nil => simp [declarationsFrom]
  | cons p ps ih => simp [declarationsFrom, ih, Nat.add_assoc]

/-- A declaration among parts starts no earlier than the first of them. -/
theorem le_start_of_mem {offset n : Nat} {ps : List Part} {d : Declaration}
    (h : d ∈ declarationsFrom offset ps) (hn : ∀ m ∈ (allMarks ps).head?, n ≤ m.gap.size) :
    offset + n ≤ d.span.start := by
  obtain ⟨front, p, back, rfl, -, hspan⟩ := mem_declarationsFrom h
  rw [hspan]
  exact le_spanAt_start hn

end Part

namespace Text.Stands

variable {p x x' : Text} {d : Declaration}

theorem declarations_append (h : p.Stands) (hx : Fresh x) :
    ∃ below, (Script.parse (p ++ x)).declarations = (Script.parse p).declarations ++ below ∧
      ∀ d ∈ below, p.size ≤ d.span.start := by
  obtain ⟨below, n, hparts, hmark, hsize, hgap⟩ := h.parts_below hx
  refine ⟨_, by rw [Script.declarations_parse, hparts, hmark, Part.declarationsFrom_append,
    ← Script.declarations_parse], fun d hd => ?_⟩
  have := Part.le_start_of_mem hd hgap
  omega

/-- A declaration above the place where a text stands on its own is there whatever follows. -/
theorem mem_declarations (h : p.Stands) (hx : Fresh x) (hx' : Fresh x')
    (hd : d ∈ (Script.parse (p ++ x)).declarations) (hstart : d.span.start < p.size) :
    d ∈ (Script.parse (p ++ x')).declarations := by
  obtain ⟨below, heq, hbelow⟩ := h.declarations_append hx
  obtain ⟨below', heq', -⟩ := h.declarations_append hx'
  rw [heq, List.mem_append] at hd
  rw [heq', List.mem_append]
  rcases hd with hd | hd
  · exact .inl hd
  · have := hbelow d hd
    omega

end Text.Stands

-- ---------------------------------------------------------------------------
-- Lines put in
-- ---------------------------------------------------------------------------

/-- A declaration starts with its keyword. -/
theorem Canonical.fresh_rendered {c : Canonical} {style : Style} {rendered : Text}
    (hr : c.render? style = some rendered) (x : Text) : Fresh (rendered ++ x) := by
  have hhead : (rendered ++ x).head? = some 'i' := by
    rw [Canonical.sources_bodyMarks hr]
    rfl
  rw [Fresh, hhead]
  decide

theorem Script.reading_congr {s s' : Script} (ht : s'.tokens = s.tokens)
    (hs : s'.statements = s.statements) : s'.reading = s.reading := by
  obtain ⟨text, tokens, statements⟩ := s
  obtain ⟨text', tokens', statements'⟩ := s'
  cases ht
  cases hs
  rfl

namespace Edit

variable {t a b y : Text} {e : Edit} {new : List Part}

/-- Do the declarations of `t` that end at `n` or before stand in `t'` where they stood? -/
def Keeps (t t' : Text) (n : Nat) : Prop :=
  ∀ d ∈ (Script.parse t).declarations, d.span.stop ≤ n → d ∈ (Script.parse t').declarations

theorem apply_insertion (ht : t = a ++ b) (hspan : e.span = ⟨a.size, a.size⟩)
    (hrep : e.replacement = e.lead ++ y) : applyInOrder 0 [e] t = a ++ e.lead ++ (y ++ b) := by
  have := applyInOrder_singleton (a := a) (x := []) (b := b) (e := e) (by simpa using hspan)
  rw [List.nil_append, ← ht] at this
  rw [this, hrep]
  simp

/-- The text around a line that is put in, with the line break it begins with. -/
theorem Insertable.around (h : e.Insertable t) (ht : t = a ++ b) (hspan : e.span = ⟨a.size, a.size⟩) :
    (a ++ e.lead).Stands ∧ tokenize (a ++ e.lead ++ b) = tokenize t ∧
      (Script.parse (a ++ e.lead ++ b)).statements = (Script.parse t).statements ∧
      (a ++ e.lead ++ b).Opens (a ++ e.lead).size := by
  have htake : t.takeBytes e.span.start = a := by rw [hspan, ht, takeBytes_append]
  have hdrop : t.dropBytes e.span.start = b := by rw [hspan, ht, dropBytes_append]
  obtain ⟨habove, htokens, hstatements, hbelow⟩ := h
  rw [htake] at habove
  rw [htake, hdrop] at htokens hstatements hbelow
  exact ⟨habove, htokens, hstatements, hbelow⟩

/-- A line that is put in adds its parts. -/
theorem Insertable.flushed (h : e.Insertable t) (ht : t = a ++ b)
    (hspan : e.span = ⟨a.size, a.size⟩) (hrep : e.replacement = e.lead ++ y)
    (hy : Inserts y new) (hf : Fresh (y ++ b)) :
    ∃ back, (a ++ e.lead ++ b).flushed = (a ++ e.lead).flushed ++ back ∧
      (applyInOrder 0 [e] t).flushed = (a ++ e.lead).flushed ++ (new ++ back) := by
  obtain ⟨habove, -, -, hbelow⟩ := h.around ht hspan
  rw [apply_insertion ht hspan hrep]
  exact habove.insert hy hf hbelow

/-- A line break that ends an unfinished line is not in the reading. -/
theorem Insertable.reading (h : e.Insertable t) (ht : t = a ++ b)
    (hspan : e.span = ⟨a.size, a.size⟩) :
    (Script.parse t).reading = Script.ofParts (a ++ e.lead ++ b).flushed := by
  obtain ⟨-, htokens, hstatements, -⟩ := h.around ht hspan
  rw [← Script.reading_eq_flushed]
  exact (Script.reading_congr htokens hstatements).symm

/-- The declarations above a line that is put in stay where they are. -/
theorem Insertable.keeps (h : e.Insertable t) (ht : t = a ++ b) (hspan : e.span = ⟨a.size, a.size⟩)
    (hrep : e.replacement = e.lead ++ y) (hf : Fresh (y ++ b)) :
    Keeps t (applyInOrder 0 [e] t) e.span.start := by
  intro d hd hstop
  obtain ⟨habove, -, hstatements, hbelow⟩ := h.around ht hspan
  have hb : Fresh b := by
    have := hbelow.1
    rwa [dropBytes_append] at this
  have hbase : d ∈ (Script.parse (a ++ e.lead ++ b)).declarations := by
    rw [Script.declarations, hstatements]
    exact hd
  have hstart : d.span.start < (a ++ e.lead).size := by
    have := (Script.exists_keyword hd).1
    rw [hspan] at hstop
    rw [size_append]
    simp only at hstop
    omega
  rw [apply_insertion ht hspan hrep]
  exact habove.mem_declarations hb hf hbase hstart

/-- A declaration in a line of its own is added to the reading. -/
theorem Insertable.declaration {c : Canonical} {style : Style} {rendered eol : Text}
    (h : e.Insertable t) (ht : t = a ++ b) (hspan : e.span = ⟨a.size, a.size⟩)
    (hrep : e.replacement = e.lead ++ (rendered ++ eol)) (hc : c.Writable)
    (hr : c.render? style = some rendered) (he : eol.all isSpace) (hn : '\n' ∈ eol) :
    (Script.parse t).reading.Updates (Script.parse (applyInOrder 0 [e] t)).reading []
      [c.declaration style] := by
  obtain ⟨back, hold, hnew⟩ := h.flushed ht hspan hrep (Canonical.inserts_rendered hc hr he hn)
    (by rw [List.append_assoc]; exact Canonical.fresh_rendered hr _)
  have hpart : (c.part style []).flush.declaration? = some (c.declaration style) :=
    Canonical.declaration?_part (hc.writableIn _).spelledIn []
  rw [h.reading ht hspan, hold, Script.reading_eq_flushed, hnew,
    ← Part.declarations_singleton hpart]
  exact Script.ofParts_updates Part.areDeclarations_nil (Part.areDeclarations_singleton hpart)

/-- A directive above all code leaves the reading as it is. -/
theorem Insertable.directive {x eol : Text} (h : e.Insertable t) (ht : t = a ++ b)
    (hspan : e.span = ⟨a.size, a.size⟩)
    (hrep : e.replacement = e.lead ++ ('\'' :: x ++ ['\'', ';'] ++ eol)) (hx : isPlain x)
    (he : eol.all isSpace) (hn : '\n' ∈ eol) (hcode : Part.code (a ++ e.lead).flushed = []) :
    (Script.parse (applyInOrder 0 [e] t)).reading = (Script.parse t).reading := by
  obtain ⟨back, hold, hnew⟩ := h.flushed ht hspan hrep (inserts_directive hx he hn)
    (by simp [Fresh, byteOrderMark])
  rw [h.reading ht hspan, hold, Script.reading_eq_flushed, hnew, Script.ofParts_directive hcode]

-- ---------------------------------------------------------------------------
-- Declarations taken out
-- ---------------------------------------------------------------------------

end Edit

theorem Text.slice_of_append {a x b : Text} :
    (a ++ (x ++ b)).slice ⟨a.size, a.size + x.size⟩ = x := by
  rw [slice, dropBytes_append, Nat.add_sub_cancel_left, takeBytes_append]

namespace Edit

variable {t a b y : Text} {e : Edit}

/-- An edit takes out a declaration: from the start of its line or its own, to its end or past
blanks behind it. -/
structure TakesOut (t : Text) (d : Declaration) (e : Edit) : Prop where
  replacement : e.replacement = []
  start : e.span.start = t.edge d.span.start ∨ e.span.start = d.span.start
  stop : d.span.stop ≤ e.span.stop
  blank : isBlank (t.slice ⟨d.span.stop, e.span.stop⟩)

/-- A declaration that ends in the white space below a text starts in that text. -/
theorem start_lt_of_spaces {d : Declaration} {above v rest : Text} (ht : t = above ++ (v ++ rest))
    (hd : d ∈ (Script.parse t).declarations) (hv : v.all isSpace)
    (hstop : d.span.stop ≤ above.size + v.size) : d.span.start < above.size := by
  obtain ⟨hlt, pre, behind, hpre, hstart⟩ := Script.exists_keyword hd
  have := apart_of_spaces hv (ht.symm.trans hpre)
  omega

/-- How an edit cuts a declaration out of `t`: below the lines `above` stand the indentation `line`,
the declaration, white space `w` that goes with it, and `b`; in its place the white space `v` is
left. -/
structure CutsOut (t b : Text) (e : Edit) (above line u w v : Text) : Prop where
  text : t = above ++ (line ++ ('i' :: u ++ (w ++ b)))
  left : above ++ v <+: t
  applied : applyInOrder 0 [e] t = above ++ (v ++ b)
  edge : t.edge e.span.start = above.size
  start : e.span.start = above.size + v.size
  stop : e.span.stop = above.size + (line ++ 'i' :: u ++ w).size
  spacesBefore : line.all isSpace
  spacesBehind : w.all isSpace
  spacesLeft : v.all isSpace

theorem Removable.exists_cutsOut {d : Declaration} {ps qs : List Part} {head : Mark}
    {body : List Mark} {at? : Option Nat} {x u z : Text} (h : e.Removable t)
    (hfound : d.Found t ps head body at? qs x ('i' :: u) z) (ho : e.TakesOut t d)
    (ht : t = a ++ (y ++ b)) (hspan : e.span = ⟨a.size, a.size + y.size⟩) :
    ∃ above line w v, e.CutsOut t b above line u w v ∧
      t.markSize + x.size = above.size + line.size := by
  obtain ⟨mark, htext, hdspan, hmarksize, hmarkblank⟩ := hfound.exists_around
  obtain ⟨above, line, hpre, hline, hedge, hedge'⟩ := exists_edge (mark ++ x) ('i' :: u ++ z)
    (by rw [← htext, ← hmarksize, size_append]; omega)
  rw [← htext] at hedge hedge'
  have hstart : d.span.start = (mark ++ x).size := congrArg Span.start hdspan
  have hstop : d.span.stop = (mark ++ x ++ 'i' :: u).size := by rw [hdspan, size_append _ (_ :: _)]
  obtain ⟨w, haw, rfl⟩ := exists_of_size_le (a := mark ++ x ++ 'i' :: u) (b := z) (c := a ++ y)
    (d := b) (by rw [List.append_assoc, ← htext, ht, List.append_assoc]) (by
      have := ho.stop
      rw [hstop, hspan] at this
      rw [size_append a y]
      exact this)
  have hcut : t = above ++ (line ++ ('i' :: u ++ (w ++ b))) := by
    rw [htext, hpre]
    simp
  have hcut' : t = above ++ (line ++ 'i' :: u ++ w ++ b) := by
    rw [hcut]
    simp
  have hend : e.span.stop = above.size + (line ++ 'i' :: u ++ w).size := by
    rw [hspan, ← size_append, haw, hpre, ← size_append]
    simp
  have hedge₀ : t.edge e.span.start = above.size := by
    rcases ho.start with hs | hs
    · rw [hs, hstart, hedge, hedge']
    · rw [hs, hstart, hedge]
  have hspaces := h.spaces
  rw [hedge₀, hend, hcut', slice_of_append] at hspaces
  -- Blanks around the declaration are white space between tokens.
  have hw : w.all isSpace := by
    have hblank := ho.blank
    have hd' : t = (mark ++ x ++ 'i' :: u) ++ (w ++ b) := by rw [htext]; simp
    have hstop' : e.span.stop = (mark ++ x ++ 'i' :: u).size + w.size := by
      rw [hspan, ← size_append, haw, size_append]
    rw [hstop, hstop', hd', slice_of_append, isBlank, List.all_eq_true] at hblank
    exact List.all_eq_true.2 fun c hc => hspaces c (by simp [hc]) (by simpa [isBlank] using hblank c hc)
  have hl : line.all isSpace := by
    have hblank : isBlank (lastLine (mark ++ x)) := by
      rw [← lineBlank_true, lineBlank_append, hmarkblank]
      exact hfound.lineBlank_before
    rw [isBlank, List.all_eq_true] at hblank
    exact List.all_eq_true.2 fun c hc =>
      hspaces c (by simp [hc]) (by simpa [isBlank] using hblank c (hline c hc))
  obtain ⟨v, ha, hv⟩ : ∃ v, a = above ++ v ∧ v.all isSpace := by
    have hasize : e.span.start = a.size := by rw [hspan]
    rcases ho.start with hs | hs
    · rw [hasize, hstart, hedge] at hs
      have := append_inj_size (ht.symm.trans hcut) hs
      exact ⟨[], by rw [this.1, List.append_nil], rfl⟩
    · rw [hasize, hstart] at hs
      have := append_inj_size (ht.symm.trans htext) hs
      exact ⟨line, by rw [this.1, hpre], hl⟩
  have happly : applyInOrder 0 [e] t = above ++ (v ++ b) := by
    rw [ht, applyInOrder_singleton hspan, ho.replacement, ha]
    simp
  refine ⟨above, line, w, v, ⟨hcut, ⟨y ++ b, ha ▸ ht.symm⟩, happly, hedge₀, ?_, hend, hl, hw, hv⟩, ?_⟩
  · rw [hspan, ha, size_append]
  · rw [← hmarksize, ← size_append, hpre, size_append]

/-- What is cut out starts with white space and the declaration. -/
theorem CutsOut.fresh {above line u w v : Text} (h : e.CutsOut t b above line u w v) :
    Fresh (line ++ ('i' :: u ++ (w ++ b))) :=
  Fresh.spaces_append h.spacesBefore ⟨by simp, by simp [byteOrderMark]⟩

/-- A declaration that is taken out takes its part with it: those before it are the parts of the text
above, and those behind it follow. -/
theorem Removable.flushed {d : Declaration} {ps qs : List Part} {head : Mark} {body : List Mark}
    {at? : Option Nat} {x u z : Text} (h : e.Removable t)
    (hfound : d.Found t ps head body at? qs x ('i' :: u) z) (ho : e.TakesOut t d)
    (ht : t = a ++ (y ++ b)) (hspan : e.span = ⟨a.size, a.size + y.size⟩) :
    ∃ above line w v, e.CutsOut t b above line u w v ∧ above.Stands ∧ Fresh (v ++ b) ∧
      ps = above.parts ∧ d.span.start = above.size + line.size ∧
      (above ++ (v ++ b)).flushed = above.flushed ++ qs.map Part.flush := by
  obtain ⟨above, line, w, v, hcut, hsize⟩ := h.exists_cutsOut hfound ho ht hspan
  have htext := hcut.text
  have hf := hcut.fresh
  obtain ⟨habove, -, hbelow⟩ := h
  rw [hcut.edge, htext, takeBytes_append] at habove
  have htext' : t = above ++ (line ++ 'i' :: u ++ (w ++ b)) := by
    rw [htext]
    simp
  have hb : Fresh (v ++ b) := by
    have := hbelow.1
    rw [hcut.stop, htext', ← List.append_assoc, ← List.append_assoc, List.append_assoc above,
      ← size_append, dropBytes_append] at this
    exact Fresh.spaces_append hcut.spacesLeft this
  -- What stands above the line of the declaration are the parts before it.
  have hmark : above.markSize = t.markSize := by
    rw [htext]
    cases above with
    | nil => exact (markSize_append (.inr hf.2)).symm
    | cons c above => rfl
  have hps : ps = above.parts := by
    refine habove.parts_eq hcut.spacesBefore hf (htext ▸ hfound.parts) ?_
    rw [hmark, hfound.spanAt_eq, hfound.span]
    exact hsize
  subst hps
  obtain ⟨back, hold, hnew⟩ := habove.remove (x := line ++ 'i' :: u) (v := v)
    (by simpa using hf) (htext' ▸ hfound.parts) hfound.declaration (by
      rw [hmark, hfound.spanAt_eq, hfound.span, hsize, size_append, Nat.add_assoc])
    hcut.spacesBehind hcut.spacesLeft hb (by
      rw [← htext']
      have hstop := hcut.stop
      rw [size_append _ w, ← Nat.add_assoc] at hstop
      rwa [← hstop])
  refine ⟨above, line, w, v, hcut, habove, hb, rfl, by rw [hfound.span]; exact hsize, ?_⟩
  rw [← htext', Text.flushed, hfound.parts, List.map_append, List.map_cons] at hold
  rw [hnew, (List.cons.inj (List.append_cancel_left hold)).2]

/-- A declaration that is taken out is taken from the reading. Those above stay where they are. -/
theorem Removable.reading {d : Declaration} (h : e.Removable t)
    (hd : d ∈ (Script.parse t).declarations) (ho : e.TakesOut t d) (ht : t = a ++ (y ++ b))
    (hspan : e.span = ⟨a.size, a.size + y.size⟩) :
    (Script.parse t).reading.Updates (Script.parse (applyInOrder 0 [e] t)).reading [d.bare] [] ∧
      Keeps t (applyInOrder 0 [e] t) e.span.start := by
  obtain ⟨ps, head, body, at?, qs, x, u, z, hfound⟩ := Script.found_of_mem hd
  obtain ⟨u', rfl⟩ := hfound.exists_text
  obtain ⟨above, line, w, v, hcut, habove, hb, rfl, -, hnew⟩ := h.flushed hfound ho ht hspan
  rw [hcut.applied]
  constructor
  · have hpart := (Part.declaration?_flush _).trans hfound.declaration
    rw [Script.reading_eq_flushed, Script.reading_eq_flushed, hnew, Text.flushed, hfound.parts,
      List.map_append, List.map_cons, ← Part.declarations_singleton hpart]
    exact Script.ofParts_updates (Part.areDeclarations_singleton hpart) Part.areDeclarations_nil
  · intro k hk hstop
    obtain ⟨rest, hrest⟩ := hcut.left
    rw [List.append_assoc] at hrest
    have hstart := start_lt_of_spaces hrest.symm hk hcut.spacesLeft (hcut.start ▸ hstop)
    rw [hcut.text] at hk
    exact habove.mem_declarations hcut.fresh hb hk hstart

-- ---------------------------------------------------------------------------
-- Declarations rewritten
-- ---------------------------------------------------------------------------

theorem exists_endsLine {l k : Text} (h : (l ++ k).hasLineEnd) (hk : '\n' ∉ k) :
    ∃ l' w, l = l' ++ w ∧ l'.EndsLine := by
  rw [hasLineEnd, List.any_eq_true] at h
  obtain ⟨n, -, hn⟩ := h
  have hn : EndsLine ((l ++ k).take n) := of_decide_eq_true hn
  rw [List.take_append] at hn
  by_cases hnil : k.take (n - l.length) = []
  · rw [hnil, List.append_nil] at hn
    exact ⟨l.take n, l.drop n, (List.take_append_drop n l).symm, hn⟩
  · have hmem := (hn.of_append hnil).1.subset (List.mem_singleton_self _)
    exact absurd (List.mem_of_mem_take hmem) hk

/-- The text between a token and a place behind it. -/
theorem slice_before {front back q : List Mark} {n m : Mark} {k r : Text} {start : Nat}
    (hm : top t.body = front ++ n :: (back ++ m :: q))
    (hb : t.body = Mark.sources (front ++ n :: back) ++ m.gap ++ (k ++ r))
    (hstart : start = t.markSize + (Mark.sources (front ++ n :: back) ++ m.gap ++ k).size) :
    tokenize t = Mark.place t.markSize front ++ n.placed (t.markSize + (Mark.sources front).size) ::
        Mark.place (t.markSize + (Mark.sources front).size + n.source.size) (back ++ m :: q) ∧
      (n.placed (t.markSize + (Mark.sources front).size)).stop ≤ start ∧
      t.slice ⟨(n.placed (t.markSize + (Mark.sources front).size)).stop, start⟩ =
        Mark.sources back ++ m.gap ++ k := by
  obtain ⟨mark, hmark, hmarksize, -⟩ := t.exists_body
  have htokens : tokenize t = Mark.place t.markSize (front ++ n :: (back ++ m :: q)) := by
    rw [← hm]
    exact runFromTop_eq_place _ _
  have hsplit : t = (mark ++ Mark.sources front ++ n.source) ++
      ((Mark.sources back ++ m.gap ++ k) ++ r) := by
    rw [hmark, hb]
    simp [Mark.source]
  have hstop : (n.placed (t.markSize + (Mark.sources front).size)).stop =
      (mark ++ Mark.sources front ++ n.source).size := by
    rw [Mark.stop_placed, size_append, size_append, hmarksize]
  have hend : start = (mark ++ Mark.sources front ++ n.source).size +
      (Mark.sources back ++ m.gap ++ k).size := by
    rw [hstart, ← hmarksize]
    simp [Mark.source]
    omega
  refine ⟨by rw [htokens, Mark.place_append, Mark.place_cons], by rw [hstop, hend]; omega, ?_⟩
  rw [hstop, hend, hsplit, slice_of_append]

/-- What is exchanged starts behind the end of a line, as seen from each lone `/`. -/
theorem Replaceable.slashesEnd {p q : List Mark} {m : Mark} {k r : Text} (h : e.Replaceable t)
    (hm : top t.body = p ++ m :: q) (hb : t.body = Mark.sources p ++ m.gap ++ (k ++ r))
    (hk : '\n' ∉ k)
    (hstart : e.span.start = t.markSize + (Mark.sources p ++ m.gap ++ k).size) :
    SlashesEnd p m.gap := by
  intro front n back hp hkind
  rw [hp] at hb hstart
  rw [hp, List.append_assoc, List.cons_append] at hm
  obtain ⟨htokens, hstop, hslice⟩ := slice_before hm hb hstart
  have hline := h _ (by rw [htokens]; simp) (by simp [Token.isPunct, Mark.placed, hkind]) hstop
  rw [hslice] at hline
  exact exists_endsLine hline hk

/-- A declaration that is rewritten in place becomes what is written. The parts around it stay. -/
theorem Replaceable.parts {d : Declaration} {c : Canonical} {style : Style} {ps qs : List Part}
    {head : Mark} {body : List Mark} {at? : Option Nat} {x u z : Text} (h : e.Replaceable t)
    (hfound : d.Found t ps head body at? qs x u z) (hspan : e.span = d.span) (hc : c.Writable)
    (hr : c.render? style = some e.replacement) (hstyle : style.semicolon = d.style.semicolon) :
    (applyInOrder 0 [e] t).markSize = t.markSize ∧
      (applyInOrder 0 [e] t).parts = ps ++ c.part style head.gap :: qs := by
  obtain ⟨u', rfl⟩ := hfound.exists_text
  obtain ⟨start, ht, hstart, hkept⟩ := exists_start (by decide) hfound.body_eq
  have hbefore : t.body = Mark.sources (Part.allMarks ps) ++ head.gap ++
      ([] ++ ('i' :: u' ++ z)) := by
    rw [hfound.body_eq, hfound.before]
    rfl
  have hslashes : SlashesEnd (Part.allMarks ps) head.gap :=
    h.slashesEnd (top_of_statement hfound.parts) hbefore (by simp) (by
      rw [hspan, hfound.span, ← hfound.before, List.append_nil])
  have hparts := hfound.parts
  rw [Text.parts, hfound.body_eq] at hparts
  have hnew := top_rewrite hparts hfound.declaration hfound.before hfound.text hslashes hc hr hstyle
  have happly : applyInOrder 0 [e] t = start ++ (e.replacement ++ z) := by
    rw [show t = start ++ ('i' :: u' ++ z) from ht, applyInOrder_singleton]
    rw [hspan, hfound.span, hstart]
  rw [Canonical.sources_bodyMarks hr] at happly hnew
  obtain ⟨hmark, hbody⟩ := hkept ("mport".toList ++ Mark.sources (c.bodyMarks style) ++ z)
  rw [happly]
  refine ⟨hmark, ?_⟩
  rw [Text.parts, ← hnew]
  exact congrArg (fun t => outline 0 false (top t)) hbody

/-- A declaration that is rewritten in place is exchanged in the reading. -/
theorem Replaceable.declaration {d : Declaration} {c : Canonical} {style : Style}
    (h : e.Replaceable t) (hd : d ∈ (Script.parse t).declarations) (hspan : e.span = d.span)
    (hc : c.Writable) (hr : c.render? style = some e.replacement)
    (hstyle : style.semicolon = d.style.semicolon) :
    (Script.parse t).reading.Updates (Script.parse (applyInOrder 0 [e] t)).reading [d.bare]
      [c.declaration style] := by
  obtain ⟨ps, head, body, at?, qs, x, u, z, hfound⟩ := Script.found_of_mem hd
  rw [Script.reading_parse, Script.reading_parse, hfound.parts,
    (h.parts hfound hspan hc hr hstyle).2]
  have hpart : (c.part style head.gap).declaration? = some (c.declaration style) :=
    Canonical.declaration?_part (hc.writableIn _).spelledIn _
  rw [← Part.declarations_singleton hfound.declaration, ← Part.declarations_singleton hpart]
  exact Script.ofParts_updates (Part.areDeclarations_singleton hfound.declaration)
    (Part.areDeclarations_singleton hpart)

end Edit

end TidyImports
