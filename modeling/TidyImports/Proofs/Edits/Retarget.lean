-- SUMMARY: The contents of specifiers exchanged in a text: what its marks and its reading become.
import TidyImports.Proofs.Edits.Several
import TidyImports.Proofs.Outline.Specifiers

/-!
# Specifiers exchanged

The edits that exchange the contents of specifiers are made from the last to the
first. Each of them leaves the marks before and after its string as they are, so
the marks of the new text are those of the old one with the contents exchanged.
-/

namespace TidyImports

open Text Lexer Edit

/-- The edits that exchange contents among marks in a row. -/
def retargetEdits (g : Text → Option Text) (offset : Nat) : List (Mark × Bool) → List Edit
  | [] => []
  | z :: zs =>
    ((retargeted? g z).map fun new =>
      ⟨⟨offset + z.1.gap.size + 1, offset + z.1.source.size - 1⟩, new⟩).toList ++
      retargetEdits g (offset + z.1.source.size) zs

variable {g : Text → Option Text} {t : Text}

/-- A string is read up to its closing quote, and what follows does not ask for its contents. -/
theorem marks_string (s : State) (blank : Bool) (gap : Text) {q : Char} {x : Text}
    (hq : q = '\'' ∨ q = '"') (hx : isPlain x) (y : Text) :
    marks s blank gap (q :: (x ++ [q] ++ y)) =
      ⟨gap, .string true, q :: x ++ [q], false⟩ :: marks (s.after (.string true) []) false [] y := by
  have hspace : isSpace q = false := by rcases hq with rfl | rfl <;> decide
  have hscan : s.scan q (x ++ [q] ++ y) = (.string true, (x ++ [q]).length) := State.scan_string hq hx
  have hline : ∀ blank, lineBlank blank [q] = false := by
    intro blank
    rcases hq with rfl | rfl <;> cases blank <;> decide
  rw [← List.cons_append, marks_token _ _ hspace hscan, ← List.cons_append, lineBlank_append, hline]
  rw [show isImport (.string true) (q :: x ++ [q]) = false from rfl, Bool.and_false]
  rfl

/-- What follows a string in a text does not ask for its contents. -/
theorem marks_after_string {s : State} {blank : Bool} {gap : Text} {q : Char} {old rest : Text}
    {m : Mark} {ms : List Mark} (hq : q = '\'' ∨ q = '"') (hm : m.kind = .string true)
    (htext : m.text = q :: old ++ [q]) (hgap : m.gap = gap)
    (h : marks s blank gap (q :: (old ++ [q] ++ rest)) = m :: ms) :
    ms = marks (s.after (.string true) []) false [] rest := by
  obtain ⟨spaces, c, cs, n, hspaces, ht, -, -, hmark, hms⟩ := marks_eq_cons h
  have hnil : spaces = [] := by
    have := congrArg Mark.gap hmark
    rw [hgap] at this
    exact List.append_right_eq_self.1 this.symm
  subst hnil
  obtain ⟨rfl, rfl⟩ := List.cons.inj ht
  have hcut : (old ++ [q] ++ rest).take n = old ++ [q] := by
    have := congrArg Mark.text hmark
    rw [htext] at this
    exact (List.cons.inj this).2.symm
  have hdrop : (old ++ [q] ++ rest).drop n = rest := by
    have := List.take_append_drop n (old ++ [q] ++ rest)
    rw [hcut] at this
    exact List.append_cancel_left this
  have hline : lineBlank blank ([] ++ m.text) = false := by
    rw [htext, List.nil_append, lineBlank_append]
    rcases hq with rfl | rfl <;> cases lineBlank blank _ <;> rfl
  rw [hms, hdrop, hline, hm]
  rfl

/-- A string takes up the white space before it, its contents and its quotes. -/
theorem Mark.size_source_of_string {m : Mark} {q : Char} {old : Text} (hq : q = '\'' ∨ q = '"')
    (htext : m.text = q :: old ++ [q]) : m.source.size = m.gap.size + 1 + old.size + 1 := by
  have hqsize : q.utf8Size = 1 := by rcases hq with rfl | rfl <;> decide
  rw [Mark.source, htext]
  simp only [size_append, size_cons, size_nil, hqsize]
  omega

/-- One specifier exchanged. -/
theorem retarget_one {z : Mark × Bool} {new rest : Text} {front back : List Mark} {e : Edit}
    (hz : retargeted? g z = some new) (hx : Exchangeable g z)
    (hslashes : SlashesSettle {} front z.1.gap) (hrep : e.replacement = new)
    (htop : top t.body = front ++ z.1 :: back)
    (hbody : t.body = Mark.sources front ++ (z.1.source ++ rest))
    (hspan : e.span = ⟨t.markSize + (Mark.sources front).size + z.1.gap.size + 1,
      t.markSize + (Mark.sources front).size + z.1.source.size - 1⟩) :
    (applyInOrder 0 [e] t).markSize = t.markSize ∧
      (applyInOrder 0 [e] t).body = Mark.sources front ++ ((retarget g z).source ++ rest) ∧
      top (applyInOrder 0 [e] t).body = front ++ retarget g z :: back := by
  obtain ⟨q, old, hq, -, hkind, hold, -, htext, heq⟩ := retarget_eq_some hx.1 hz
  have hplain := (hx.2 old new hold hz).2
  have hqsize : q.utf8Size = 1 := by rcases hq with rfl | rfl <;> decide
  have hqmark : q ≠ byteOrderMark := by rcases hq with rfl | rfl <;> decide
  have hleads : z.1.leads = false := by
    rw [← Bool.not_eq_true]
    intro h
    have := hx.1.leads h
    rw [isImport, hkind] at this
    cases this
  have hbody' : t.body = (Mark.sources front ++ z.1.gap) ++ q :: (old ++ [q] ++ rest) := by
    rw [hbody, Mark.source, htext]
    simp
  obtain ⟨start, ht, hstart, hkept⟩ := exists_start hqmark hbody'
  have happly : applyInOrder 0 [e] t = start ++ q :: (new ++ [q] ++ rest) := by
    have hsplit : t = (start ++ [q]) ++ (old ++ (q :: rest)) := by
      rw [ht]
      simp
    rw [hsplit, applyInOrder_singleton, hrep]
    · simp
    · rw [hspan, Mark.size_source_of_string hq htext, size_append, hstart]
      simp only [size_append, size_cons, size_nil, hqsize, Span.mk.injEq]
      omega
  obtain ⟨hsize, hnew⟩ := hkept (new ++ [q] ++ rest)
  obtain ⟨s, hs⟩ := top_replace (by rcases hq with rfl | rfl <;> decide) (hbody' ▸ htop) rfl
    hslashes
  have hback := hs (old ++ [q] ++ rest)
  rw [← hbody', htop, List.append_cancel_left_eq] at hback
  have hback := marks_after_string hq hkind htext rfl hback.symm
  rw [happly]
  refine ⟨hsize, ?_, ?_⟩
  · rw [hnew, heq, Mark.source]
    simp
  · rw [hnew, hs, marks_string _ _ _ hq hplain, ← hback]
    obtain ⟨⟨gap, kind, text, leads⟩, ready⟩ := z
    cases hkind
    cases hleads
    rw [heq]

-- ---------------------------------------------------------------------------
-- All specifiers
-- ---------------------------------------------------------------------------

/-- New contents are never empty, nor are those they replace. -/
def Substantial (g : Text → Option Text) : Prop :=
  ∀ old new, g old = some new → old ≠ [] ∧ new ≠ []

theorem start_of_mem_retargetEdits {offset : Nat} {zs : List (Mark × Bool)} {e : Edit}
    (h : e ∈ retargetEdits g offset zs) : offset < e.span.start := by
  induction zs generalizing offset with
  | nil => cases h
  | cons z zs ih =>
    rcases List.mem_append.1 h with h | h
    · obtain ⟨new, -, rfl⟩ := Option.map_eq_some_iff.1 (Option.mem_toList.1 h)
      simp only
      omega
    · have := ih h
      omega

/-- Edits of specifiers stand in the order of their places. -/
theorem pairwise_retargetEdits {offset : Nat} {zs : List (Mark × Bool)}
    (h : ∀ z ∈ zs, z.1.Proper) :
    (retargetEdits g offset zs).Pairwise fun a b => Edit.before a b := by
  induction zs generalizing offset with
  | nil => exact List.Pairwise.nil
  | cons z zs ih =>
    have hrest := @ih (offset + z.1.source.size) fun w hw => h w (List.mem_cons_of_mem _ hw)
    cases hz : retargeted? g z with
    | none =>
      rw [retargetEdits, hz]
      exact hrest
    | some new =>
      obtain ⟨q, old, -, -, -, -, -, htext, -⟩ := retarget_eq_some (h z (List.mem_cons_self ..)) hz
      rw [retargetEdits, hz]
      refine List.pairwise_cons.2 ⟨fun e he => ?_, hrest⟩
      have hstart := start_of_mem_retargetEdits he
      have hq := q.utf8Size_pos
      rw [Mark.source, htext, size_append, List.cons_append, size_cons] at hstart
      rw [Edit.before, Bool.or_eq_true, decide_eq_true_eq]
      left
      simp only
      omega

/-- Does a line end between each `/` that opens no regular expression and the specifiers behind it
that are exchanged? -/
def Settles (g : Text → Option Text) (front : List Mark) : List (Mark × Bool) → Prop
  | [] => True
  | z :: zs => ((retargeted? g z).isSome → SlashesSettle {} front z.1.gap) ∧
      Settles g (front ++ [z.1]) zs

/-- The edits of specifiers behind others do not reach back to them. -/
theorem applyInOrder_retargetEdits {z : Mark × Bool} {zs : List (Mark × Bool)} {front : List Mark}
    {new rest : Text} (hz : retargeted? g z = some new) (hproper : z.1.Proper)
    (hbody : t.body = Mark.sources front ++ (Mark.sources ((z :: zs).map Prod.fst) ++ rest)) :
    ∃ e : Edit, e.replacement = new ∧
      e.span = ⟨t.markSize + (Mark.sources front).size + z.1.gap.size + 1,
        t.markSize + (Mark.sources front).size + z.1.source.size - 1⟩ ∧
      retargetEdits g (t.markSize + (Mark.sources front).size) (z :: zs) =
        e :: retargetEdits g (t.markSize + (Mark.sources front).size + z.1.source.size) zs ∧
      applyInOrder 0 (retargetEdits g (t.markSize + (Mark.sources front).size) (z :: zs)) t =
        applyInOrder 0 [e] (applyInOrder 0
          (retargetEdits g (t.markSize + (Mark.sources front).size + z.1.source.size) zs) t) := by
  obtain ⟨q, old, hq, -, -, -, -, htext, -⟩ := retarget_eq_some hproper hz
  have hqsize : q.utf8Size = 1 := by rcases hq with rfl | rfl <;> decide
  have hsize := Mark.size_source_of_string hq htext
  refine ⟨_, rfl, rfl, by rw [retargetEdits, hz]; rfl, ?_⟩
  obtain ⟨mark, hmark, hmarksize, -⟩ := t.exists_body
  have ht : t = (mark ++ Mark.sources front ++ z.1.gap ++ [q]) ++
      (old ++ (q :: (Mark.sources (zs.map Prod.fst) ++ rest))) := by
    rw [List.map_cons, Mark.sources_cons, htext] at hbody
    rw [hmark, hbody]
    simp
  have hspan : (⟨t.markSize + (Mark.sources front).size + z.1.gap.size + 1,
      t.markSize + (Mark.sources front).size + z.1.source.size - 1⟩ : Span) =
        ⟨(mark ++ Mark.sources front ++ z.1.gap ++ [q]).size,
          (mark ++ Mark.sources front ++ z.1.gap ++ [q]).size + old.size⟩ := by
    rw [hsize, ← hmarksize]
    simp only [size_append, size_cons, size_nil, hqsize, Span.mk.injEq]
    exact ⟨trivial, by omega⟩
  rw [retargetEdits, hz]
  refine (applyInOrder_eq ht hspan fun next hnext => ?_).elim fun _ h => h.2
  have hstart := start_of_mem_retargetEdits (List.mem_of_head? hnext)
  rw [hsize, ← hmarksize] at hstart
  simp only [size_append, size_cons, size_nil, hqsize]
  omega

/-- Specifiers exchanged from the last to the first. -/
theorem retarget_all {zs : List (Mark × Bool)} {front : List Mark} {rest : Text}
    (hx : ∀ z ∈ zs, Exchangeable g z) (htop : top t.body = front ++ zs.map Prod.fst)
    (hbody : t.body = Mark.sources front ++ (Mark.sources (zs.map Prod.fst) ++ rest))
    (hs : Settles g front zs) :
    (applyInOrder 0 (retargetEdits g (t.markSize + (Mark.sources front).size) zs) t).markSize =
        t.markSize ∧
      (applyInOrder 0 (retargetEdits g (t.markSize + (Mark.sources front).size) zs) t).body =
        Mark.sources front ++ (Mark.sources (zs.map (retarget g)) ++ rest) ∧
      top (applyInOrder 0 (retargetEdits g (t.markSize + (Mark.sources front).size) zs) t).body =
        front ++ zs.map (retarget g) := by
  induction zs generalizing front with
  | nil => exact ⟨rfl, hbody, htop⟩
  | cons z zs ih =>
    obtain ⟨hthis, hnext⟩ := hs
    have hoffset : t.markSize + (Mark.sources (front ++ [z.1])).size =
        t.markSize + (Mark.sources front).size + z.1.source.size := by
      simp [Mark.source, Nat.add_assoc]
    have hrec := @ih (front ++ [z.1]) (fun w hw => hx w (List.mem_cons_of_mem _ hw))
      (by rw [htop]; simp) (by rw [hbody]; simp) hnext
    have hsource : ∀ more : Text, Mark.sources (front ++ [z.1]) ++ more =
        Mark.sources front ++ (z.1.source ++ more) := fun more => by simp [Mark.source]
    rw [hoffset] at hrec
    simp only [hsource, List.append_assoc, List.singleton_append] at hrec
    obtain ⟨h₁, h₂, h₃⟩ := hrec
    cases hz : retargeted? g z with
    | none =>
      have hedits : retargetEdits g (t.markSize + (Mark.sources front).size) (z :: zs) =
          retargetEdits g (t.markSize + (Mark.sources front).size + z.1.source.size) zs := by
        rw [retargetEdits, hz]
        rfl
      rw [hedits]
      refine ⟨h₁, ?_, ?_⟩
      · rw [h₂, List.map_cons, retarget_eq_none hz]
        simp [Mark.source]
      · rw [h₃, List.map_cons, retarget_eq_none hz]
    | some new =>
      have hz' := hx z (List.mem_cons_self ..)
      obtain ⟨e, hrep, hspan, -, happly⟩ := applyInOrder_retargetEdits hz hz'.1 hbody
      obtain ⟨k₁, k₂, k₃⟩ := retarget_one hz hz' (hthis (by rw [hz]; rfl)) hrep h₃ h₂
        (by rw [hspan, h₁])
      rw [happly]
      refine ⟨k₁.trans h₁, k₂.trans ?_, k₃⟩
      simp [Mark.source]

theorem retargetEdits_eq_nil {g : Text → Option Text} {zs : List (Mark × Bool)}
    (h : ∀ z ∈ zs, retargeted? g z = none) (offset : Nat) : retargetEdits g offset zs = [] := by
  induction zs generalizing offset with
  | nil => rfl
  | cons z zs ih =>
    rw [retargetEdits, h z (List.mem_cons_self ..), ih fun w hw => h w (List.mem_cons_of_mem _ hw)]
    rfl

/-- An exchanged specifier is not exchanged again. -/
theorem retargeted?_retarget {g : Text → Option Text} {z : Mark × Bool} (hp : z.1.Proper)
    (h : ∀ new, retargeted? g z = some new → g new = none) :
    retargeted? g (retarget g z, z.2) = none := by
  cases hz : retargeted? g z with
  | none => rwa [retarget_eq_none hz]
  | some new =>
    rw [retargeted?, contents?_retarget hp, hz]
    split
    · cases z.1.token.contents? with
      | none => rfl
      | some old => exact h new hz
    · rfl

/-- Clear edits of specifiers meet no `/` on their line. -/
theorem settles_of_allClear {zs : List (Mark × Bool)} {front : List Mark} {rest : Text}
    (hg : Substantial g) (hx : ∀ z ∈ zs, Exchangeable g z)
    (htop : top t.body = front ++ zs.map Prod.fst)
    (hbody : t.body = Mark.sources front ++ (Mark.sources (zs.map Prod.fst) ++ rest))
    (hclear : AllClear t (retargetEdits g (t.markSize + (Mark.sources front).size) zs)) :
    Settles g front zs := by
  induction zs generalizing front with
  | nil => trivial
  | cons z zs ih =>
    have hoffset : t.markSize + (Mark.sources (front ++ [z.1])).size =
        t.markSize + (Mark.sources front).size + z.1.source.size := by
      simp [Mark.source, Nat.add_assoc]
    have htop' : top t.body = (front ++ [z.1]) ++ zs.map Prod.fst := by
      rw [htop]
      simp
    have hbody' : t.body = Mark.sources (front ++ [z.1]) ++
        (Mark.sources (zs.map Prod.fst) ++ rest) := by
      rw [hbody]
      simp
    have hx' : ∀ w ∈ zs, Exchangeable g w := fun w hw => hx w (List.mem_cons_of_mem _ hw)
    have hrec := @ih (front ++ [z.1]) hx' htop' hbody'
    rw [hoffset] at hrec
    cases hz : retargeted? g z with
    | none =>
      rw [retargetEdits, hz] at hclear
      refine ⟨fun h => ?_, hrec hclear⟩
      rw [hz] at h
      cases h
    | some new =>
      have hz' := hx z (List.mem_cons_self ..)
      obtain ⟨q, old, hq, -, -, hold, hnew, htext, -⟩ := retarget_eq_some hz'.1 hz
      obtain ⟨hold', hnew'⟩ := hg old new hnew
      have hqsize : q.utf8Size = 1 := by rcases hq with rfl | rfl <;> decide
      have hsize := Mark.size_source_of_string hq htext
      obtain ⟨e, hrep, hspan, hedits, -⟩ := applyInOrder_retargetEdits hz hz'.1 hbody
      rw [hedits] at hclear
      obtain ⟨hrest, hthis, -⟩ := hclear
      have hsettles := hrec hrest
      obtain ⟨h₁, h₂, h₃⟩ := retarget_all hx' htop' hbody' hsettles
      rw [hoffset] at h₁ h₂ h₃
      -- The string that is exchanged is no shorter than its quotes.
      have hne : e.span.start ≠ e.span.stop := by
        obtain ⟨c, cs, rfl⟩ := List.exists_cons_of_ne_nil hold'
        have := c.utf8Size_pos
        rw [hspan, hsize, size_cons]
        simp only
        omega
      rw [Clear, if_neg hne, if_neg (by rw [hrep]; exact hnew')] at hthis
      refine ⟨fun _ => ?_, hsettles⟩
      refine SlashesEnd.settle ?_ _
      rw [List.append_assoc] at h₃
      refine hthis.slashesEnd (k := [q]) (r := old ++ (q :: (Mark.sources (zs.map (retarget g)) ++
        rest))) h₃ ?_ ?_ ?_
      · rw [h₂, Mark.sources_append, Mark.sources_cons, htext]
        simp
      · rcases hq with rfl | rfl <;> decide
      · rw [hspan, h₁]
        simp only [size_append, size_cons, size_nil, hqsize]
        omega

/-- The marks of a whole text, with what they stand in. -/
theorem Text.top_body_allFlags (t : Text) :
    top t.body = [] ++ (Part.allFlags false t.parts).map Prod.fst ∧
      t.body = Mark.sources [] ++
        (Mark.sources ((Part.allFlags false t.parts).map Prod.fst) ++ (leaveTop t.body).2) := by
  have hmarks : top t.body = [] ++ (Part.allFlags false t.parts).map Prod.fst := by
    rw [Part.map_fst_allFlags, allMarks_parts]
    rfl
  refine ⟨hmarks, ?_⟩
  rw [← List.nil_append (List.map _ _), ← hmarks]
  exact (sources_top_leaveTop t.body).symm

/-- The reading of a text whose specifiers are exchanged, its marks and its specifiers. -/
theorem reading_of_settles (hx : ∀ z ∈ Part.allFlags false t.parts, Exchangeable g z)
    (hs : Settles g [] (Part.allFlags false t.parts)) :
    (applyInOrder 0 (retargetEdits g t.markSize (Part.allFlags false t.parts)) t).markSize =
        t.markSize ∧
      top (applyInOrder 0 (retargetEdits g t.markSize (Part.allFlags false t.parts)) t).body =
        (Part.allFlags false t.parts).map (retarget g) ∧
      (Script.parse (applyInOrder 0 (retargetEdits g t.markSize (Part.allFlags false t.parts))
        t)).reading = (Script.parse t).reading.retarget g ∧
      Part.allFlags false (applyInOrder 0
        (retargetEdits g t.markSize (Part.allFlags false t.parts)) t).parts =
          (Part.allFlags false t.parts).map fun z => (retarget g z, z.2) := by
  obtain ⟨hmarks, hbody⟩ := t.top_body_allFlags
  obtain ⟨hsize, -, htop⟩ := retarget_all hx hmarks hbody hs
  have hparts : (applyInOrder 0 (retargetEdits g t.markSize (Part.allFlags false t.parts))
      t).parts = Part.retargetAll g false t.parts := by
    have := Part.outline_retargetAll hx
    rw [Text.parts]
    refine Eq.trans ?_ this
    exact congrArg _ htop
  rw [Script.reading_parse, Script.reading_parse, hparts, Script.ofParts_retargetAll hx,
    Part.allFlags_retargetAll hx]
  exact ⟨hsize, htop, rfl, rfl⟩

/-- The reading of a text whose specifiers are exchanged by clear edits, and its specifiers. -/
theorem reading_retarget (hg : Substantial g)
    (hx : ∀ z ∈ Part.allFlags false t.parts, Exchangeable g z)
    (hclear : AllClear t (retargetEdits g t.markSize (Part.allFlags false t.parts))) :
    (Script.parse (applyInOrder 0 (retargetEdits g t.markSize (Part.allFlags false t.parts))
        t)).reading = (Script.parse t).reading.retarget g ∧
      Part.allFlags false (applyInOrder 0
        (retargetEdits g t.markSize (Part.allFlags false t.parts)) t).parts =
          (Part.allFlags false t.parts).map fun z => (retarget g z, z.2) := by
  obtain ⟨hmarks, hbody⟩ := t.top_body_allFlags
  exact (reading_of_settles hx (settles_of_allClear hg hx hmarks hbody hclear)).2.2

-- ---------------------------------------------------------------------------
-- The specifier step
-- ---------------------------------------------------------------------------

theorem Part.proper_of_mem_allFlags {z : Mark × Bool} (h : z ∈ allFlags false t.parts) :
    z.1.Proper := by
  refine proper_parts t z.1 ?_
  rw [← map_fst_allFlags false]
  exact List.mem_map_of_mem h

theorem exists_specifierToken {z : Mark × Bool} {zs : List (Mark × Bool)} {old : Text}
    (offset : Nat) (hz : z ∈ zs) (hready : z.2) (hold : z.1.token.contents? = some old) :
    ∃ tok ∈ specifierTokens offset zs, tok.contents? = some old := by
  induction zs generalizing offset with
  | nil => cases hz
  | cons w zs ih =>
    rcases List.mem_cons.1 hz with rfl | hz
    · refine ⟨z.1.placed offset, ?_, hold⟩
      rw [specifierTokens, hready, hold]
      exact List.mem_append_left _ (List.mem_singleton_self _)
    · obtain ⟨tok, htok, hc⟩ := ih (offset + w.1.source.size) hz
      exact ⟨tok, List.mem_append_right _ htok, hc⟩

namespace DataDirectory

/-- The contents that a specifier is exchanged for, if it is. -/
def target? (d : DataDirectory) (isFile : Path → Bool) (fileDir : Path) (old : Text) :
    Option Text :=
  match d.verdict isFile fileDir (String.ofList old) with
  | .retarget new => some new.toList
  | _ => none

variable {d : DataDirectory} {isFile : Path → Bool} {fileDir file : Path}

theorem edits_specifierTokens (offset : Nat) (zs : List (Mark × Bool)) :
    ((specifierTokens offset zs).map fun tok =>
        let specifier := String.ofList (tok.contents?.getD [])
        (tok, specifier, d.verdict isFile fileDir specifier)).filterMap (fun (tok, _, verdict) =>
      match verdict with
      | .retarget new => some (⟨⟨tok.start + 1, tok.stop - 1⟩, new.toList⟩ : Edit)
      | _ => none) = retargetEdits (d.target? isFile fileDir) offset zs := by
  induction zs generalizing offset with
  | nil => rfl
  | cons z zs ih =>
    rw [specifierTokens, List.map_append, List.filterMap_append, ih, retargetEdits]
    congr 1
    by_cases hready : z.2
    · cases hc : z.1.token.contents? with
      | none => simp [retargeted?, hready, hc]
      | some old =>
        have hstart : (z.1.placed offset).start = offset + z.1.gap.size := rfl
        have hstop := z.1.stop_placed offset
        cases hv : d.verdict isFile fileDir (String.ofList old) <;>
          simp [retargeted?, hready, hc, target?, hv, hstart, hstop]
    · simp [retargeted?, hready]

/-- The edits of the specifier step, as edits of marks. -/
theorem edits_retargetScript (d : DataDirectory) (isFile : Path → Bool) (file : Path) (t : Text) :
    (d.retargetScript isFile file (Script.parse t)).edits =
      retargetEdits (d.target? isFile (d.directoryOf file)) t.markSize
        (Part.allFlags false t.parts) := by
  rw [← edits_specifierTokens, ← Script.specifiers_parse]
  rfl

/-- Each exchange of a specifier is among those the step reports. -/
theorem mem_retargeted {t : Text} {z : Mark × Bool} {old new : Text}
    (hz : z ∈ Part.allFlags false t.parts) (hold : z.1.token.contents? = some old)
    (hnew : retargeted? (d.target? isFile (d.directoryOf file)) z = some new) :
    (String.ofList old, String.ofList new) ∈
      (d.retargetScript isFile file (Script.parse t)).retargeted := by
  have hready : z.2 = true := by
    rw [retargeted?] at hnew
    split at hnew
    · next h => exact h
    · cases hnew
  rw [retargeted?, if_pos hready, hold, Option.bind_some, target?] at hnew
  obtain ⟨tok, htok, hc⟩ := exists_specifierToken t.markSize hz hready hold
  rw [← Script.specifiers_parse] at htok
  have hv : d.verdict isFile (d.directoryOf file) (String.ofList old) =
      .retarget (String.ofList new) := by
    split at hnew
    · next new' hv =>
      cases hnew
      rw [hv, String.ofList_toList]
    · cases hnew
  refine List.mem_filterMap.2 ⟨(tok, String.ofList old, .retarget (String.ofList new)), ?_, rfl⟩
  refine List.mem_map.2 ⟨tok, htok, ?_⟩
  simp only [hc, Option.getD_some, hv]

/-- As many specifiers are reported as are exchanged. -/
theorem retargeted_eq_nil {s : Script}
    (h : (d.retargetScript isFile file s).edits = []) :
    (d.retargetScript isFile file s).retargeted = [] := by
  rw [retargetScript, List.filterMap_eq_nil_iff] at h ⊢
  rintro ⟨tok, old, verdict⟩ hx
  have := h _ hx
  cases verdict with
  | keep => rfl
  | missing target => rfl
  | retarget new => cases this

/-- Specifiers can be exchanged when those that are replaced end no line and the new ones are
plain. -/
theorem exchangeable_of_plain {t : Text}
    (hplain : ∀ p ∈ (d.retargetScript isFile file (Script.parse t)).retargeted,
      '\n' ∉ p.1.toList ∧ isPlain p.2.toList) :
    ∀ z ∈ Part.allFlags false t.parts, Exchangeable (d.target? isFile (d.directoryOf file)) z := by
  refine fun z hz => ⟨Part.proper_of_mem_allFlags hz, fun old new hold hnew => ?_⟩
  simpa using hplain _ (mem_retargeted hz hold hnew)

/-- The edits of the specifier step stand in order. -/
theorem applyAll_retargetScript (d : DataDirectory) (isFile : Path → Bool) (file : Path)
    (t : Text) :
    Sorting.sort Edit.before (d.retargetScript isFile file (Script.parse t)).edits =
        retargetEdits (d.target? isFile (d.directoryOf file)) t.markSize
          (Part.allFlags false t.parts) ∧
      Edit.applyAll (d.retargetScript isFile file (Script.parse t)).edits t =
        applyInOrder 0 (retargetEdits (d.target? isFile (d.directoryOf file)) t.markSize
          (Part.allFlags false t.parts)) t := by
  have hsorted := Sorting.sort_eq_self (@pairwise_retargetEdits
    (d.target? isFile (d.directoryOf file)) t.markSize (Part.allFlags false t.parts)
    fun z hz => Part.proper_of_mem_allFlags hz)
  rw [edits_retargetScript, Edit.applyAll, hsorted]
  exact ⟨rfl, rfl⟩

end DataDirectory

end TidyImports
