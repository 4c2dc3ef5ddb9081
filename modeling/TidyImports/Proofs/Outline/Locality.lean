-- SUMMARY: An outline is local: what stands before and after leaves the parts of a text alone.
import TidyImports.Proofs.Outline.Reading

/-!
# Locality of outlines

A statement is looked for ahead, up to a `;` or an `import` that is first on its
line. So marks in a row have the same outline whatever follows on a new line,
when each of their searches ends among them; and they have the same outline
before any two texts that start with the same leading `import`.
-/

namespace TidyImports

open Token

namespace Part

/-- Brace depth after parts in a row. -/
def depthAfterAll (depth : Nat) (ps : List Part) : Nat := ps.foldl depthAfter depth

/-- Is a `;` the last code after parts in a row? -/
def afterSemicolonAll (after : Bool) (ps : List Part) : Bool :=
  ps.foldl (fun after p => p.afterSemicolon after) after

@[simp] theorem depthAfterAll_nil (depth : Nat) : depthAfterAll depth [] = depth := rfl

@[simp] theorem depthAfterAll_cons (depth : Nat) (p : Part) (ps : List Part) :
    depthAfterAll depth (p :: ps) = depthAfterAll (p.depthAfter depth) ps := rfl

@[simp] theorem afterSemicolonAll_nil (after : Bool) : afterSemicolonAll after [] = after := rfl

@[simp] theorem afterSemicolonAll_cons (after : Bool) (p : Part) (ps : List Part) :
    afterSemicolonAll after (p :: ps) = afterSemicolonAll (p.afterSemicolon after) ps := rfl

theorem afterSemicolonAll_eq (after : Bool) (ps : List Part) :
    afterSemicolonAll after ps =
      ((lastCode? ((allMarks ps).map Mark.token)).map (·.isPunct ';')).getD after := by
  induction ps generalizing after with
  | nil => rfl
  | cons p ps ih =>
    rw [afterSemicolonAll_cons, ih, allMarks_cons, List.map_append, lastCode?_append]
    cases lastCode? ((allMarks ps).map Mark.token) with
    | some tok => rfl
    | none =>
      rw [afterSemicolon]
      cases lastCode? (p.marks.map Mark.token) <;> rfl

end Part

namespace Mark

-- ---------------------------------------------------------------------------
-- Searches that end
-- ---------------------------------------------------------------------------

/-- A mark at which the search for a specifier stops. -/
def Stops (m : Mark) : Prop := m.token.isPunct ';' ∨ m.leads

/-- Does the search for `from` run off the end of the marks? -/
def runsOff : List Mark → Bool
  | [] => true
  | m :: rest =>
    if m.token.isPunct ';' then false
    else if m.leads then false
    else if m.token.isWord "from" then (nextCode? (rest.map token)).isNone
    else runsOff rest

/-- Does the search for a specifier run off the end of the marks? -/
def searches (rest : List Mark) : Bool :=
  match nextCode? (rest.map token) with
  | none => true
  | some (_, next) => !next.isString && runsOff rest

theorem isCode_of_isPunct {tok : Token} {c : Char} (h : tok.isPunct c) : tok.isCode := by
  obtain ⟨kind, start, text⟩ := tok
  cases kind <;> simp_all [isPunct, isCode, isComment]

theorem isCode_of_isIdent {tok : Token} (h : tok.isIdent) : tok.isCode := by
  obtain ⟨kind, start, text⟩ := tok
  cases kind <;> simp_all [isIdent, isCode, isComment]

theorem isImport_of_leads {m : Mark} (hp : m.Proper) (h : m.leads) :
    m.token.isWord "import" := hp.leads h

theorem isCode_of_stops {m : Mark} (hp : m.Proper) (h : m.Stops) : m.token.isCode := by
  rcases h with h | h
  · exact isCode_of_isPunct h
  · exact isCode_of_isIdent (Bool.and_eq_true_iff.1 (isImport_of_leads hp h)).1

theorem nextCode?_isSome {ms : List Mark} {m : Mark} (hm : m ∈ ms) (hc : m.token.isCode) :
    (nextCode? (ms.map token)).isSome := by
  induction ms with
  | nil => cases hm
  | cons n ms ih =>
    rw [List.map_cons, nextCode?_cons]
    split
    · rfl
    · rw [Option.isSome_map]
      rcases List.mem_cons.1 hm with rfl | hm
      · contradiction
      · exact ih hm

theorem runsOff_of_stops {ms : List Mark} (hp : ∀ m ∈ ms, m.Proper) (h : ∃ m ∈ ms, m.Stops) :
    runsOff ms = false := by
  obtain ⟨m, hm, hs⟩ := h
  fun_induction runsOff ms with
  | case1 => cases hm
  | case2 => rfl
  | case3 => rfl
  | case4 n rest h₁ h₂ h₃ =>
    rcases List.mem_cons.1 hm with rfl | hm
    · rcases hs with hs | hs <;> contradiction
    · have := nextCode?_isSome hm (isCode_of_stops (hp m (List.mem_cons_of_mem _ hm)) hs)
      rw [← Option.not_isSome, this]
      rfl
  | case5 n rest h₁ h₂ h₃ ih =>
    rcases List.mem_cons.1 hm with rfl | hm
    · rcases hs with hs | hs <;> contradiction
    · exact ih (fun m hm => hp m (List.mem_cons_of_mem _ hm)) hm

theorem runsOff_of_fromIndex? {ms : List Mark} {i : Nat} (h : fromIndex? ms = some i) :
    runsOff ms = false := by
  fun_induction fromIndex? ms generalizing i with
  | case1 => cases h
  | case2 => cases h
  | case3 => cases h
  | case4 m rest h₁ h₂ h₃ j s hnext hs => simp [runsOff, h₁, h₂, h₃, hnext]
  | case5 => cases h
  | case6 => cases h
  | case7 m rest h₁ h₂ h₃ ih =>
    obtain ⟨j, hj, rfl⟩ := Option.map_eq_some_iff.1 h
    simp [runsOff, h₁, h₂, h₃, ih hj]

theorem searches_of_specifierIndex? {ms : List Mark} {i : Nat} (h : specifierIndex? ms = some i) :
    searches ms = false := by
  rw [specifierIndex?] at h
  rw [searches]
  cases hnext : nextCode? (ms.map token) with
  | none =>
    rw [hnext] at h
    cases h
  | some found =>
    obtain ⟨j, next⟩ := found
    rw [hnext] at h
    by_cases hs : next.isString
    · simp [hs]
    · simp only [hs] at h
      simp [runsOff_of_fromIndex? h]

theorem searches_of_stops {ms : List Mark} (hp : ∀ m ∈ ms, m.Proper) (h : ∃ m ∈ ms, m.Stops) :
    searches ms = false := by
  have hrun := runsOff_of_stops hp h
  obtain ⟨m, hm, hs⟩ := h
  have hsome := nextCode?_isSome hm (isCode_of_stops (hp m hm) hs)
  rw [searches]
  cases hn : nextCode? (ms.map token) with
  | none => simp [hn] at hsome
  | some p => simp [hrun]

-- ---------------------------------------------------------------------------
-- What follows on a new line
-- ---------------------------------------------------------------------------

/-- Do the marks start on a new line, if there are any? -/
def StartsLine (ms : List Mark) : Prop := ∀ m, ms.head? = some m → '\n' ∈ m.gap

variable {ms ns : List Mark}

theorem lastCode?_of_nextCode? {ts : List Token} (h : nextCode? ts = none) :
    lastCode? ts = none := by
  induction ts with
  | nil => rfl
  | cons t ts ih =>
    rw [nextCode?_cons] at h
    split at h
    · cases h
    · next hc => rw [lastCode?_cons, ih (Option.map_eq_none_iff.1 h), if_neg hc]; rfl

theorem nextCode?_append (ts us : List Token) :
    nextCode? (ts ++ us) =
      (nextCode? ts).or ((nextCode? us).map fun (i, tok) => (ts.length + i, tok)) := by
  induction ts with
  | nil =>
    rw [List.nil_append]
    cases nextCode? us <;> simp
  | cons t ts ih =>
    rw [List.cons_append, nextCode?_cons, nextCode?_cons, ih]
    split
    · rfl
    · cases nextCode? ts <;> cases nextCode? us <;> simp [Nat.add_right_comm]

theorem nextCode?_append_of_some {ts : List Token} {i : Nat} {tok : Token}
    (h : nextCode? ts = some (i, tok)) (us : List Token) :
    nextCode? (ts ++ us) = some (i, tok) := by
  rw [nextCode?_append, h]
  rfl

theorem fromIndex?_append (h : runsOff ms = false) :
    fromIndex? (ms ++ ns) = fromIndex? ms := by
  fun_induction runsOff ms with
  | case1 => cases h
  | case2 m rest h₁ => simp [fromIndex?, h₁]
  | case3 m rest h₁ h₂ => simp [fromIndex?, h₁, h₂]
  | case4 m rest h₁ h₂ h₃ =>
    obtain ⟨⟨i, s⟩, hn⟩ : ∃ p, nextCode? (rest.map token) = some p := by
      cases hn : nextCode? (rest.map token) with
      | none => simp [hn] at h
      | some p => exact ⟨p, rfl⟩
    have hn' := nextCode?_append_of_some hn (ns.map token)
    simp [fromIndex?, h₁, h₂, h₃, hn, hn', List.map_append]
  | case5 m rest h₁ h₂ h₃ ih => simp [fromIndex?, h₁, h₂, h₃, ih h]

theorem semicolonIndex?_append (hn : StartsLine ns) :
    semicolonIndex? (ms ++ ns) = semicolonIndex? ms := by
  induction ms with
  | nil =>
    cases ns with
    | nil => rfl
    | cons n ns => simp [semicolonIndex?, hn n rfl]
  | cons m ms ih => simp [semicolonIndex?, ih]

theorem lineCount_append (hn : StartsLine ns) : lineCount (ms ++ ns) = lineCount ms := by
  induction ms with
  | nil =>
    cases ns with
    | nil => rfl
    | cons n ns => simp [lineCount, hn n rfl]
  | cons m ms ih => simp [lineCount, ih]

theorem specifierIndex?_append (h : searches ms = false) (ns : List Mark) :
    specifierIndex? (ms ++ ns) = specifierIndex? ms := by
  rw [searches] at h
  cases hnext : nextCode? (ms.map token) with
  | none =>
    rw [hnext] at h
    cases h
  | some found =>
    obtain ⟨i, next⟩ := found
    have hnext' := nextCode?_append_of_some hnext (ns.map token)
    rw [hnext] at h
    rw [specifierIndex?, specifierIndex?, List.map_append, hnext', hnext]
    simp only
    split
    · rfl
    · next hs =>
      rw [fromIndex?_append (by simpa [hs] using h)]

theorem extent?_append (h : searches ms = false) (hn : StartsLine ns) :
    extent? (ms ++ ns) = extent? ms := by
  have hspec := specifierIndex?_append h ns
  rw [searches] at h
  split at h
  · cases h
  · next i next hnext =>
    have hnext' := nextCode?_append_of_some hnext (ns.map token)
    rw [extent?, extent?, List.map_append, hnext', hnext, hspec]
    simp only
    split
    · rfl
    · split
      · rw [lineCount_append hn]
      · next j hj =>
        have hlt := specifierIndex?_lt hj
        rw [List.drop_append_of_le_length hlt, semicolonIndex?_append hn]

end Mark

-- ---------------------------------------------------------------------------
-- Outlines in a row
-- ---------------------------------------------------------------------------

theorem outline_cons_some {depth n : Nat} {after : Bool} {m : Mark} {rest : List Mark}
    {at? : Option Nat} (h : m.begin? depth after rest = some (n, at?)) :
    outline depth after (m :: rest) =
      .statement m (rest.take n) at? ::
        outline depth ((Part.statement m (rest.take n) at?).afterSemicolon after)
          (rest.drop n) := by
  rw [outline, h]

theorem outline_cons_none {depth : Nat} {after : Bool} {m : Mark} {rest : List Mark}
    (h : m.begin? depth after rest = none) :
    outline depth after (m :: rest) =
      .token m :: outline ((Part.token m).depthAfter depth)
        ((Part.token m).afterSemicolon after) rest := by
  rw [outline, h]

theorem Mark.extent?_of_begin? {depth : Nat} {after : Bool} {m : Mark} {rest : List Mark}
    {e : Nat × Option Nat} (h : m.begin? depth after rest = some e) :
    Mark.extent? rest = some e := by
  rw [Mark.begin?] at h
  split at h
  · exact h
  · cases h

theorem Mark.depth_of_begin? {m : Mark} {rest : List Mark} {depth : Nat} {after : Bool}
    {e : Nat × Option Nat} (h : m.begin? depth after rest = some e) : depth = 0 := by
  rw [begin?] at h
  split at h
  · next hc => exact hc.1
  · cases h

theorem Mark.isWord_of_begin? {m : Mark} {rest : List Mark} {depth : Nat} {after : Bool}
    {e : Nat × Option Nat} (h : m.begin? depth after rest = some e) :
    m.token.isWord "import" := by
  rw [begin?] at h
  split at h
  · next hc => exact hc.2.1
  · cases h

/-- Each statement of an outline starts with an `import`. -/
theorem isWord_of_mem_outline {depth : Nat} {after : Bool} {ms : List Mark} {head : Mark}
    {body : List Mark} {at? : Option Nat} (h : .statement head body at? ∈ outline depth after ms) :
    head.token.isWord "import" := by
  fun_induction outline depth after ms with
  | case1 => cases h
  | case2 depth after m rest n at? hb p ih =>
    rcases List.mem_cons.1 h with h | h
    · obtain ⟨rfl, -⟩ := Part.statement.inj h
      exact Mark.isWord_of_begin? hb
    · exact ih h
  | case3 depth after m rest hb p ih =>
    rcases List.mem_cons.1 h with h | h
    · exact absurd h (by simp [p])
    · exact ih h

theorem Mark.snd_of_extent? {rest : List Mark} {n : Nat} {at? : Option Nat}
    (h : Mark.extent? rest = some (n, at?)) : at? = Mark.specifierIndex? rest := by
  rw [Mark.extent?] at h
  repeat' split at h
  all_goals simp_all

theorem Mark.begin?_congr {depth : Nat} {after : Bool} {m : Mark} {rest rest' : List Mark}
    (h : m.token.isWord "import" → Mark.extent? rest' = Mark.extent? rest) :
    m.begin? depth after rest' = m.begin? depth after rest := by
  rw [Mark.begin?, Mark.begin?]
  split
  · next hc => exact h hc.2.1
  · rfl

/-- What comes after parts is the outline of the marks that are left. -/
theorem outline_suffix {depth : Nat} {after : Bool} {ms : List Mark} {ps qs : List Part}
    (h : outline depth after ms = ps ++ qs) :
    qs = outline (Part.depthAfterAll depth ps) (Part.afterSemicolonAll after ps)
      (Part.allMarks qs) := by
  induction ps generalizing depth after ms with
  | nil =>
    have hms : Part.allMarks qs = ms := by
      rw [← allMarks_outline depth after ms, h, List.nil_append]
    rw [hms]
    exact h.symm
  | cons p ps ih =>
    cases ms with
    | nil => simp [outline] at h
    | cons m rest =>
      cases hb : m.begin? depth after rest with
      | none =>
        rw [outline_cons_none hb, List.cons_append] at h
        obtain ⟨rfl, htail⟩ := List.cons.inj h
        exact ih htail
      | some e =>
        obtain ⟨n, at?⟩ := e
        rw [outline_cons_some hb, List.cons_append] at h
        obtain ⟨rfl, htail⟩ := List.cons.inj h
        exact ih htail

namespace Part

/-- Does every search for a specifier among parts in a row end? -/
def Settled (ps : List Part) : Prop :=
  (∀ front head body at? back, ps = front ++ .statement head body at? :: back →
    at?.isSome ∨ ∃ m ∈ body ++ allMarks back, m.Stops) ∧
  ∀ tok, lastCode? ((allMarks ps).map Mark.token) = some tok → tok.isWord "import" = false

theorem Settled.of_cons {p : Part} {ps : List Part} (h : Settled (p :: ps)) : Settled ps := by
  refine ⟨fun front head body at? back heq => h.1 (p :: front) head body at? back (by simp [heq]),
    fun tok htok => h.2 tok ?_⟩
  rw [allMarks_cons, List.map_append, lastCode?_append, htok]
  rfl

end Part

/-- Code follows an `import` that begins no statement. -/
theorem Part.Settled.exists_code {depth : Nat} {after : Bool} {m : Mark} {rest : List Mark}
    (h : Part.Settled (.token m :: outline depth after rest)) (hm : m.token.isWord "import") :
    nextCode? (rest.map Mark.token) ≠ none := by
  intro hnone
  have hlast : lastCode? (rest.map Mark.token) = none := Mark.lastCode?_of_nextCode? hnone
  have hc : m.token.isCode := Mark.isCode_of_isIdent (Bool.and_eq_true_iff.1 hm).1
  have := h.2 m.token (by
    rw [Part.allMarks_cons, allMarks_outline, Part.marks, List.singleton_append, List.map_cons,
      lastCode?_cons, hlast, hc]
    rfl)
  rw [hm] at this
  cases this

theorem Mark.extent?_append_none {ms ns : List Mark} (h : Mark.extent? ms = none)
    (hn : nextCode? (ms.map Mark.token) ≠ none) : Mark.extent? (ms ++ ns) = none := by
  cases hnext : nextCode? (ms.map Mark.token) with
  | none => exact absurd hnext hn
  | some p =>
    obtain ⟨i, next⟩ := p
    have hnext' := Mark.nextCode?_append_of_some hnext (ns.map Mark.token)
    simp only [Mark.extent?, hnext] at h
    simp only [Mark.extent?, List.map_append, hnext']
    split at h
    · next hcall => exact if_pos hcall
    · repeat' split at h
      all_goals cases h

/-- What follows on a new line does not change the outline of marks whose searches end. -/
theorem outline_append {depth : Nat} {after : Bool} {ms ns : List Mark}
    (hp : ∀ m ∈ ms, m.Proper) (hn : Mark.StartsLine ns)
    (hs : Part.Settled (outline depth after ms)) :
    outline depth after (ms ++ ns) =
      outline depth after ms ++
        outline (Part.depthAfterAll depth (outline depth after ms))
          (Part.afterSemicolonAll after (outline depth after ms)) ns := by
  fun_induction outline depth after ms with
  | case1 => rfl
  | case2 depth after m rest n at? hb p =>
    rename_i ih
    have hprest : ∀ m ∈ rest, m.Proper := fun m hm => hp m (List.mem_cons_of_mem _ hm)
    have he := Mark.extent?_of_begin? hb
    have hsearch : Mark.searches rest = false := by
      rcases hs.1 [] m _ at? _ rfl with hat | hstop
      · obtain ⟨i, hi⟩ := Option.isSome_iff_exists.1 hat
        rw [Mark.snd_of_extent? he] at hi
        exact Mark.searches_of_specifierIndex? hi
      · rw [allMarks_outline, List.take_append_drop] at hstop
        exact Mark.searches_of_stops hprest hstop
    have hle := Mark.extent?_le he
    have hb' : m.begin? depth after (rest ++ ns) = some (n, at?) := by
      rw [← hb]
      exact Mark.begin?_congr fun _ => Mark.extent?_append hsearch hn
    rw [List.cons_append, outline_cons_some hb', List.take_append_of_le_length hle,
      List.drop_append_of_le_length hle,
      ih (fun m hm => hprest m (List.mem_of_mem_drop hm)) hs.of_cons]
    rfl
  | case3 depth after m rest hb p =>
    rename_i ih
    have hprest : ∀ m ∈ rest, m.Proper := fun m hm => hp m (List.mem_cons_of_mem _ hm)
    have hb' : m.begin? depth after (rest ++ ns) = none := by
      rw [Mark.begin?] at hb ⊢
      split at hb
      · next hc =>
        rw [if_pos hc]
        exact Mark.extent?_append_none hb (hs.exists_code hc.2.1)
      · next hc => rw [if_neg hc]
    rw [List.cons_append, outline_cons_none hb', ih hprest hs.of_cons]
    rfl

-- ---------------------------------------------------------------------------
-- What comes before a leading import
-- ---------------------------------------------------------------------------

namespace Mark

variable {x q q' : List Mark} {head : Mark}

theorem isCode_of_leads (hp : head.Proper) (hl : head.leads) : head.token.isCode :=
  isCode_of_stops hp (.inr hl)

theorem nextCode?_swap (hc : head.token.isCode) :
    nextCode? ((x ++ head :: q').map token) = nextCode? ((x ++ head :: q).map token) := by
  simp [nextCode?_append, nextCode?_cons, hc]

theorem fromIndex?_swap (hp : head.Proper) (hl : head.leads) :
    fromIndex? (x ++ head :: q') = fromIndex? (x ++ head :: q) := by
  induction x with
  | nil => simp [fromIndex?, hl]
  | cons m x ih =>
    have hnext : nextCode? ((x ++ head :: q').map token) =
        nextCode? ((x ++ head :: q).map token) := nextCode?_swap (isCode_of_leads hp hl)
    simp only [List.cons_append, fromIndex?, ih, hnext]

theorem specifierIndex?_swap (hp : head.Proper) (hl : head.leads) :
    specifierIndex? (x ++ head :: q') = specifierIndex? (x ++ head :: q) := by
  rw [specifierIndex?, specifierIndex?, nextCode?_swap (isCode_of_leads hp hl),
    fromIndex?_swap hp hl]

theorem semicolonIndex?_swap (hp : head.Proper) (hl : head.leads) :
    semicolonIndex? (x ++ head :: q') = semicolonIndex? (x ++ head :: q) := by
  induction x with
  | nil => simp [semicolonIndex?, isCode_of_leads hp hl]
  | cons m x ih => simp [semicolonIndex?, ih]

theorem lineCount_swap (h : lineCount (x ++ head :: q) ≤ x.length) :
    lineCount (x ++ head :: q') = lineCount (x ++ head :: q) := by
  induction x with
  | nil =>
    simp only [List.nil_append, lineCount] at h ⊢
    split
    · rfl
    · next hg =>
      rw [if_neg hg] at h
      split at h <;> simp at h
  | cons m x ih =>
    simp only [List.cons_append, lineCount] at h ⊢
    split
    · rfl
    · next hg =>
      split
      · rfl
      · next ht =>
        rw [if_neg hg, if_neg ht] at h
        rw [ih (by simpa using h)]

theorem extent?_swap {n : Nat} {at? : Option Nat} (hp : head.Proper) (hl : head.leads)
    (he : extent? (x ++ head :: q) = some (n, at?)) (hn : n ≤ x.length) :
    extent? (x ++ head :: q') = some (n, at?) := by
  rw [extent?] at he
  rw [extent?, nextCode?_swap (q := q) (isCode_of_leads hp hl), specifierIndex?_swap (q := q) hp hl]
  split at he
  · cases he
  · next j next hnext =>
    split at he
    · cases he
    · next hcall =>
      rw [if_neg hcall]
      split at he
      · next hspec =>
        cases he
        rw [lineCount_swap hn]
      · next i hspec =>
        have hi : i + 1 ≤ x.length := by
          split at he <;> cases he <;> omega
        rw [List.drop_append_of_le_length hi] at he ⊢
        rw [semicolonIndex?_swap (q := q) hp hl]
        exact he

theorem extent?_swap_none (hp : head.Proper) (hl : head.leads)
    (he : extent? (x ++ head :: q) = none) : extent? (x ++ head :: q') = none := by
  rw [extent?] at he
  rw [extent?, nextCode?_swap (q := q) (isCode_of_leads hp hl)]
  split at he
  · rfl
  · next j next hnext =>
    split at he
    · next hcall => rw [if_pos hcall]
    · repeat' split at he
      all_goals cases he

end Mark

/-- What stands before an `import` that is first on its line is read the same whatever follows. -/
theorem outline_swap {depth : Nat} {after : Bool} {head : Mark} {q q' : List Mark}
    {ps qs : List Part} (hp : head.Proper) (hl : head.leads)
    (ho : outline depth after (Part.allMarks ps ++ head :: q) = ps ++ qs) :
    outline depth after (Part.allMarks ps ++ head :: q') =
      ps ++ outline (Part.depthAfterAll depth ps) (Part.afterSemicolonAll after ps)
        (head :: q') := by
  induction ps generalizing depth after with
  | nil => rfl
  | cons p ps ih =>
    cases p with
    | token m =>
      simp only [Part.allMarks_cons, Part.marks, List.cons_append, List.nil_append] at ho ⊢
      cases hb : m.begin? depth after (Part.allMarks ps ++ head :: q) with
      | some e =>
        rw [outline_cons_some hb] at ho
        cases (List.cons.inj ho).1
      | none =>
        rw [outline_cons_none hb] at ho
        have hb' : m.begin? depth after (Part.allMarks ps ++ head :: q') = none := by
          rw [Mark.begin?] at hb ⊢
          split at hb
          · next hc => rw [if_pos hc, Mark.extent?_swap_none hp hl hb]
          · next hc => rw [if_neg hc]
        rw [outline_cons_none hb', ih (List.cons.inj ho).2]
        rfl
    | statement m body at? =>
      simp only [Part.allMarks_cons, Part.marks, List.cons_append, List.append_assoc] at ho ⊢
      cases hb : m.begin? depth after (body ++ (Part.allMarks ps ++ head :: q)) with
      | none =>
        rw [outline_cons_none hb] at ho
        cases (List.cons.inj ho).1
      | some e =>
        obtain ⟨n, at'⟩ := e
        rw [outline_cons_some hb] at ho
        obtain ⟨hhead, htail⟩ := List.cons.inj ho
        simp only [Part.statement.injEq, true_and] at hhead
        obtain ⟨hbody, rfl⟩ := hhead
        have he := Mark.extent?_of_begin? hb
        have hn : n = body.length := by
          have hle := Mark.extent?_le he
          have := congrArg List.length hbody
          rw [List.length_take_of_le hle] at this
          exact this
        subst hn
        rw [List.drop_left, hbody] at htail
        have he' : Mark.extent? (body ++ Part.allMarks ps ++ head :: q') =
            some (body.length, at') :=
          Mark.extent?_swap hp hl (by rwa [List.append_assoc]) (by simp)
        have hb' : m.begin? depth after (body ++ (Part.allMarks ps ++ head :: q')) =
            some (body.length, at') := by
          rw [← hb]
          exact Mark.begin?_congr fun _ => by rw [← List.append_assoc, he', he]
        rw [outline_cons_some hb', List.take_left, List.drop_left, ih htail]
        rfl

-- ---------------------------------------------------------------------------
-- What comes after other text
-- ---------------------------------------------------------------------------

theorem Part.afterSemicolon_of_code {p : Part} (after after' : Bool)
    (h : ∃ m ∈ p.marks, m.token.isCode) : p.afterSemicolon after' = p.afterSemicolon after := by
  obtain ⟨m, hm, hc⟩ := h
  have : (lastCode? (p.marks.map Mark.token)).isSome := by
    generalize p.marks = ms at hm
    induction ms with
    | nil => cases hm
    | cons n ms ih =>
      rw [List.map_cons, lastCode?_cons]
      rcases List.mem_cons.1 hm with rfl | hm
      · rw [hc]
        cases lastCode? (ms.map Mark.token) <;> rfl
      · obtain ⟨t, ht⟩ := Option.isSome_iff_exists.1 (ih hm)
        rw [ht]
        rfl
  obtain ⟨t, ht⟩ := Option.isSome_iff_exists.1 this
  rw [afterSemicolon, afterSemicolon, ht]

/-- Only an `import` that is not first on its line asks what code comes before. -/
theorem outline_congr {depth : Nat} {ms : List Mark} (after after' : Bool)
    (h : ∀ m, ms.find? (·.token.isCode) = some m → m.token.isWord "import" → m.leads) :
    outline depth after' ms = outline depth after ms := by
  induction ms with
  | nil => rw [outline, outline]
  | cons m ms ih =>
    by_cases hc : m.token.isCode
    · have hm : m.token.isWord "import" → m.leads := h m (by simp [hc])
      have hb : m.begin? depth after' ms = m.begin? depth after ms := by
        rw [Mark.begin?, Mark.begin?]
        by_cases hw : m.token.isWord "import" <;> simp_all
      have hsame : ∀ p : Part, m ∈ p.marks → p.afterSemicolon after' = p.afterSemicolon after :=
        fun p hp => p.afterSemicolon_of_code _ _ ⟨m, hp, hc⟩
      cases hb₁ : m.begin? depth after ms with
      | none =>
        rw [outline_cons_none hb₁, outline_cons_none (hb.trans hb₁), hsame]
        exact List.mem_cons_self ..
      | some e =>
        rw [outline_cons_some hb₁, outline_cons_some (hb.trans hb₁), hsame]
        exact List.mem_cons_self ..
    · have hnone : ∀ a, m.begin? depth a ms = none := fun a => by
        have hw : ¬m.token.isWord "import" := fun hw =>
          hc (Mark.isCode_of_isIdent (Bool.and_eq_true_iff.1 hw).1)
        rw [Mark.begin?, if_neg fun hb => hw hb.2.1]
      have hafter : ∀ a, (Part.token m).afterSemicolon a = a := fun a => by
        simp [Part.afterSemicolon, Part.marks, hc, lastCode?]
      rw [outline_cons_none (hnone after), outline_cons_none (hnone after'), hafter, hafter]
      have hdepth : (Part.token m).depthAfter depth = depth := by
        have hp : ∀ c, m.token.isPunct c = false := fun c => by
          cases hp : m.token.isPunct c with
          | false => rfl
          | true => exact absurd (Mark.isCode_of_isPunct hp) hc
        simp [Part.depthAfter, Statement.depthAfter, hp]
      rw [hdepth, ih fun n hn => h n (by simpa [List.find?_cons, hc] using hn)]

-- ---------------------------------------------------------------------------
-- White space in front
-- ---------------------------------------------------------------------------

namespace Part

/-- The part without the white space before it. -/
def flush : Part → Part
  | .token m => .token { m with gap := [] }
  | .statement head body at? => .statement { head with gap := [] } body at?

theorem code_flush (ps : List Part) : code (ps.map flush) = code ps := by
  rw [code, code, List.filterMap_map]
  congr 1
  funext p
  cases p <;> rfl

theorem ofParts_flush (ps : List Part) :
    Script.ofParts (ps.map flush) = Script.ofParts ps := by
  have hdecl : declarations (ps.map flush) = declarations ps := by
    rw [declarations, declarations, List.filterMap_map]
    congr 1
    funext p
    cases p <;> rfl
  have hun : (ps.map flush).flatMap unrecognized = ps.flatMap unrecognized := by
    rw [List.flatMap_map]
    congr 1
    funext p
    cases p <;> rfl
  rw [Script.ofParts, Script.ofParts, code_flush, hdecl, hun]

end Part

theorem outline_indent (depth : Nat) (after : Bool) (gap : Text) (ms : List Mark) :
    (outline depth after (Mark.indent gap ms)).map Part.flush =
      (outline depth after ms).map Part.flush := by
  cases ms with
  | nil => rfl
  | cons m ms =>
    have hb : Mark.begin? depth after { m with gap := gap ++ m.gap } ms =
        m.begin? depth after ms := rfl
    rw [Mark.indent]
    cases hm : m.begin? depth after ms with
    | none =>
      rw [outline_cons_none hm, outline_cons_none (hb.trans hm)]
      rfl
    | some e =>
      rw [outline_cons_some hm, outline_cons_some (hb.trans hm)]
      rfl

-- ---------------------------------------------------------------------------
-- Braces
-- ---------------------------------------------------------------------------

namespace Part

theorem foldl_depthAfter_code (depth : Nat) (ps : List Part) :
    (code ps).foldl Statement.depthAfter depth = depthAfterAll depth ps := by
  induction ps generalizing depth with
  | nil => rfl
  | cons p ps ih =>
    cases p with
    | statement head body at? => exact ih depth
    | token m =>
      rw [code_token, depthAfterAll_cons, ← ih]
      by_cases hc : m.token.isCode
      · rw [if_pos hc]
        rfl
      · have hp : ∀ c, m.token.isPunct c = false := fun c => by
          cases hp : m.token.isPunct c with
          | false => rfl
          | true => exact absurd (Mark.isCode_of_isPunct hp) hc
        rw [if_neg hc]
        simp [depthAfter, Statement.depthAfter, hp]

theorem foldl_depthAfter_bare (depth : Nat) (ts : List Token) :
    (ts.map Token.bare).foldl Statement.depthAfter depth =
      ts.foldl Statement.depthAfter depth := by
  rw [List.foldl_map]
  rfl

end Part

end TidyImports
