-- SUMMARY: A plan keeps the directives of a text and its first line, and adds the directive it owes.
import TidyImports.Proofs.DataFile.Places
import TidyImports.Proofs.Edits.Apart
import TidyImports.Proofs.Edits.Directive
import TidyImports.Proofs.Plan.Frame
import TidyImports.Proofs.Plan.Quiet

/-!
# Directives through a plan

A step that edits a text has found an identifier in it, and no identifier stands
in the prologue. So the prologue ends before the text does, and no edit but a new
directive reaches above its end: the directives there stay, those that are over
on their lines, and so does a `#!` line. A new directive opens the prologue, and
the ones that were there follow it.
-/

namespace TidyImports

open Text Lexer Edit

-- ---------------------------------------------------------------------------
-- Identifiers
-- ---------------------------------------------------------------------------

namespace Script

variable {t : Text}

/-- Does a script hold an identifier? -/
def HasWord (s : Script) : Prop := ∃ tok ∈ s.tokens, tok.isIdent

/-- The prologue ends before a text with an identifier does. -/
theorem HasWord.prologue_lt (h : (parse t).HasWord) : (parse t).prologue.1 < t.size := by
  obtain ⟨tok, htok, hident⟩ := h
  have hle := prologue_le_of_isIdent htok hident
  obtain ⟨-, hstart, hstop⟩ := inside_of_mem_tokenize htok
  omega

theorem hasWord_of_mem_declarations {d : Declaration} (h : d ∈ (parse t).declarations) :
    (parse t).HasWord := by
  obtain ⟨st, hst, -⟩ := exists_statement h
  obtain ⟨tok, htok, hword, -⟩ := exists_head hst
  exact ⟨tok, htok, (Bool.and_eq_true_iff.1 hword).1⟩

theorem mem_of_mem_codeFrom {index : Nat} {sts : List Statement} {tokens : List Token} {tok : Token}
    (h : tok ∈ codeFrom index sts tokens) : tok ∈ tokens := by
  induction tokens generalizing index sts with
  | nil => cases h
  | cons first rest ih =>
    rw [codeFrom] at h
    split at h
    · exact List.mem_cons_of_mem _ (ih h)
    · rcases List.mem_cons.1 h with rfl | h
      · exact List.mem_cons_self ..
      · exact List.mem_cons_of_mem _ (ih h)

theorem token_mem_of_mem_ofTokens {previous? : Option Token} {tokens : List Token} {o : Occurrence}
    (h : o ∈ Occurrence.ofTokens previous? tokens) : o.token ∈ tokens := by
  induction tokens generalizing previous? with
  | nil => cases h
  | cons tok rest ih =>
    rcases List.mem_cons.1 h with rfl | h
    · exact List.mem_cons_self ..
    · exact List.mem_cons_of_mem _ (ih h)

/-- What code uses is an identifier of the script. -/
theorem hasWord_of_mem_uses {s : Script} {use : Use} (h : use ∈ s.reading.uses) : s.HasWord := by
  obtain ⟨o, ho, -⟩ := List.mem_map.1 h
  obtain ⟨hmem, hbare⟩ := List.mem_filter.1 ho
  exact ⟨o.token, mem_of_mem_codeFrom (token_mem_of_mem_ofTokens hmem),
    (Bool.and_eq_true_iff.1 hbare).1⟩

-- ---------------------------------------------------------------------------
-- Specifiers
-- ---------------------------------------------------------------------------

theorem le_start_of_mem_specifierTokens {offset : Nat} {zs : List (Mark × Bool)} {tok : Token}
    (h : tok ∈ specifierTokens offset zs) : offset ≤ tok.start :=
  Mark.le_start_of_mem_place (specifierTokens_subset offset zs h)

/-- A string that names a module comes after `from` or after `import`. -/
theorem exists_isIdent_of_mem_specifierTokens {ready : Bool} {offset : Nat} {ps : List Part}
    {tok : Token} (hheads : ∀ head body at?, .statement head body at? ∈ ps →
      head.token.isWord "import")
    (h : tok ∈ specifierTokens offset (Part.allFlags ready ps)) :
    ready ∨ ∃ word ∈ Mark.place offset (Part.allMarks ps),
      word.isIdent ∧ word.start ≤ tok.start := by
  induction ps generalizing ready offset with
  | nil => cases h
  | cons p ps ih =>
    have hheads' : ∀ head body at?, .statement head body at? ∈ ps → head.token.isWord "import" :=
      fun head body at? hmem => hheads head body at? (List.mem_cons_of_mem _ hmem)
    have hfirst : ∀ m : Mark, offset + m.source.size ≤ tok.start →
        (m.placed offset).start ≤ tok.start := fun m hle => by
      rw [Mark.size_source] at hle
      exact Nat.le_trans (Nat.add_le_add_left (Nat.le_add_right ..) _) hle
    rw [Part.allMarks_cons]
    cases p with
    | token m =>
      rw [Part.marks, List.singleton_append, Mark.place_cons]
      rw [Part.allFlags, Part.flags, List.singleton_append, specifierTokens, List.mem_append] at h
      rcases h with h | h
      · left
        split at h
        · next hready => exact (Bool.and_eq_true_iff.1 hready).1
        · cases h
      · rcases ih hheads' h with hready | ⟨word, hword, hident, hle⟩
        · rw [Part.readies, Part.marks, List.foldl_cons, List.foldl_nil, Mark.readies] at hready
          split at hready
          · exact .inr ⟨m.placed offset, List.mem_cons_self .., (Bool.and_eq_true_iff.1 hready).1,
              hfirst m (le_start_of_mem_specifierTokens h)⟩
          · exact .inl hready
        · exact .inr ⟨word, List.mem_cons_of_mem _ hword, hident, hle⟩
    | statement head body at? =>
      right
      rw [Part.marks, List.cons_append, Mark.place_cons]
      rw [Part.allFlags, Part.flags, List.cons_append, specifierTokens, Bool.false_and,
        if_neg Bool.false_ne_true, List.nil_append] at h
      have hhead := hheads head body at? (List.mem_cons_self ..)
      exact ⟨head.placed offset, List.mem_cons_self .., (Bool.and_eq_true_iff.1 hhead).1,
        hfirst head (le_start_of_mem_specifierTokens h)⟩

/-- Strings that name modules stand below the prologue. -/
theorem prologue_le_of_mem_specifiers {tok : Token} (h : tok ∈ (parse t).specifiers) :
    (parse t).HasWord ∧ (parse t).prologue.1 ≤ tok.start := by
  rw [specifiers_parse] at h
  have hheads : ∀ head body at?, .statement head body at? ∈ t.parts → head.token.isWord "import" :=
    fun head body at? hmem => isWord_of_mem_outline hmem
  rcases exists_isIdent_of_mem_specifierTokens hheads h with hready | ⟨word, hword, hident, hle⟩
  · cases hready
  · rw [← tokenize_eq_place] at hword
    exact ⟨⟨word, hword, hident⟩, Nat.le_trans (prologue_le_of_isIdent hword hident) hle⟩

end Script

-- ---------------------------------------------------------------------------
-- Edits below the prologue
-- ---------------------------------------------------------------------------

/-- Is a change one that keeps the directives of the prologue that are over on their lines, and a
`#!` line? -/
structure KeepsPrologue (t t' : Text) : Prop where
  directive (v : Text) : '\n' ∉ v → v ∈ (Script.parse t).prologue.2 →
    v ∈ (Script.parse t').prologue.2
  interpreter : ['#', '!'] <+: t.body → ['#', '!'] <+: t'.body ∧ firstLine t' = firstLine t

theorem KeepsPrologue.refl (t : Text) : KeepsPrologue t t where
  directive _ _ h := h
  interpreter h := ⟨h, rfl⟩

theorem KeepsPrologue.trans {t t' t'' : Text} (h : KeepsPrologue t t') (h' : KeepsPrologue t' t'') :
    KeepsPrologue t t'' where
  directive v hv hmem := h'.directive v hv (h.directive v hv hmem)
  interpreter hbang := by
    obtain ⟨hbang', hline⟩ := h.interpreter hbang
    obtain ⟨hbang'', hline'⟩ := h'.interpreter hbang'
    exact ⟨hbang'', hline'.trans hline⟩

theorem Text.firstLine_append_of_mem {x : Text} (h : '\n' ∈ x) (y : Text) :
    firstLine (x ++ y) = firstLine x := by
  induction x with
  | nil => cases h
  | cons c x ih =>
    rw [List.cons_append, firstLine, firstLine]
    split
    · rfl
    · next hc => rw [ih ((List.mem_cons.1 h).resolve_left (Ne.symm hc))]

namespace Script

variable {t : Text}

/-- A `#!` line is the part of a script above its directives, and stays whatever changes below. -/
theorem exists_interpreter (hbang : ['#', '!'] <+: t.body) (hlt : (parse t).prologue.1 < t.size) :
    ∃ x r, t = x ++ r ∧ x.size = t.directiveOffset ∧ x.size ≤ (parse t).prologue.1 ∧
      ∀ r' : Text, ['#', '!'] <+: (x ++ r').body ∧ firstLine (x ++ r') = firstLine t := by
  have hoffset : t.directiveOffset = t.nextLine t.markSize :=
    if_pos (List.isPrefixOf_iff_prefix.2 hbang)
  have hedge : t.IsLineEdge t.directiveOffset := hoffset ▸ isLineEdge_nextLine (isCut_markSize t)
  have hle := directiveOffset_le_prologue hedge
  have hmark : t.markSize < t.directiveOffset := by
    obtain ⟨rest, hrest⟩ := hbang
    rw [hoffset, nextLine, ← body, ← hrest]
    refine Nat.lt_add_of_pos_right (size_pos ?_)
    simp [firstLine]
  obtain ⟨x, r, rfl, hsize, hends⟩ := hedge
  have hne : x ≠ [] := by
    rintro rfl
    rw [← hsize] at hmark
    exact Nat.not_lt_zero _ hmark
  have hlast : x.EndsLines := by
    rcases hends with rfl | hlast | rfl
    · exact absurd rfl hne
    · exact fun c hc => (Option.some.inj (hlast.symm.trans hc)).symm
    · rw [← hsize, List.append_nil] at hle
      rw [List.append_nil] at hlt
      exact absurd hlt (Nat.not_lt_of_le hle)
  obtain ⟨above, rfl⟩ := hlast.exists_concat hne
  have hbody : ∀ y : Text, (above ++ ['\n'] ++ y).body = (above ++ ['\n']).body ++ y :=
    fun y => body_append (.inl hne)
  have hmem : '\n' ∈ above ++ ['\n'] := List.mem_append_right _ (List.mem_singleton_self _)
  obtain ⟨mark, hsplit, hmarksize, -⟩ := (above ++ ['\n']).exists_body
  have hbodyne : (above ++ ['\n']).body ≠ [] := by
    intro hnil
    rw [hnil, List.append_nil] at hsplit
    rw [markSize_append (.inl hne), ← hmarksize, ← hsplit, hsize] at hmark
    exact Nat.lt_irrefl _ hmark
  rw [hbody] at hbang
  have hbodylast : (above ++ ['\n']).body.EndsLines := by
    rw [hsplit] at hlast
    exact EndsLines.of_append hlast
  obtain ⟨line, below, hshebang, -⟩ := shebang_of_endsLines hbodylast hbodyne hbang
  refine ⟨above ++ ['\n'], r, rfl, hsize, hsize ▸ hle, fun r' => ⟨?_, ?_⟩⟩
  · rw [hbody, hshebang]
    exact ⟨line ++ below ++ r', by simp⟩
  · rw [firstLine_append_of_mem hmem, firstLine_append_of_mem hmem]

/-- Edits below the prologue keep it. -/
theorem keepsPrologue_of_below {es : List Edit} (hlt : es ≠ [] → (parse t).prologue.1 < t.size)
    (hes : ∀ e ∈ es, (parse t).prologue.1 ≤ e.span.start) : KeepsPrologue t (applyAll es t) := by
  by_cases hnil : es = []
  · subst hnil
    exact KeepsPrologue.refl t
  have hlt := hlt hnil
  have hfront : ∀ x r : Text, t = x ++ r → x.size ≤ (parse t).prologue.1 →
      ∃ r', applyAll es t = x ++ r' := by
    rintro x r rfl hle
    refine ⟨_, applyInOrder_append fun e he => ?_⟩
    rw [Nat.zero_add]
    exact Nat.le_trans hle (hes e (Sorting.mem_sort.1 (List.mem_of_head? he)))
  constructor
  case directive =>
    intro v hv hmem
    rcases exists_directiveLine hmem with ⟨front, rest, n, ht, hline, hle⟩ | hall
    · obtain ⟨rest', hrest'⟩ := hfront front rest ht hle
      rw [hrest']
      exact (hline.below hv rest').mem_prologue
    · exact absurd hlt (Nat.not_lt_of_le (Nat.le_of_eq hall.symm))
  case interpreter =>
    intro hbang
    obtain ⟨x, r, ht, -, hle, hkeep⟩ := exists_interpreter hbang hlt
    obtain ⟨r', hr'⟩ := hfront x r ht hle
    rw [hr']
    exact hkeep r'

-- ---------------------------------------------------------------------------
-- A new directive
-- ---------------------------------------------------------------------------

/-- A new directive stands in its place, and what is above the place of a new line goes on behind
it. -/
theorem exists_applyAll_directive {p q d eol : Text} (h : Above p q) (line : Text) :
    ∃ more, applyAll [.insertion (p ++ q).directiveOffset (directiveText d eol),
        insertLine (p ++ q) (parse (p ++ q)).insertionOffset line eol] (p ++ q) =
          p ++ (directiveText d eol ++ more) ∧
      ∀ c rest : Text, q = c ++ rest → (p ++ c).size ≤ (parse (p ++ q)).insertionOffset →
        ∃ rest', more = c ++ rest' := by
  refine ⟨applyInOrder p.size
    [insertLine (p ++ q) (parse (p ++ q)).insertionOffset line eol] q, ?_, ?_⟩
  · have hbefore : before (.insertion (p ++ q).directiveOffset (directiveText d eol))
        (insertLine (p ++ q) (parse (p ++ q)).insertionOffset line eol) = true := by
      have hle := directiveOffset_le_insertionOffset (p ++ q)
      refine before_iff.2 ?_
      simp only [insertion, insertLine]
      omega
    have hspan : (insertion (p ++ q).directiveOffset (directiveText d eol)).span =
        ⟨0 + p.size, 0 + (p.size + size [])⟩ := by
      simp [insertion, h.size]
    have hcons := @applyInOrder_cons_append p [] q 0 _
      [insertLine (p ++ q) (parse (p ++ q)).insertionOffset line eol] hspan
    rw [applyAll, Sorting.sort_eq_self (List.pairwise_pair.2 hbefore)]
    simpa [insertion] using hcons
  · rintro c rest rfl hle
    refine ⟨_, applyInOrder_append fun e he => ?_⟩
    cases Option.some.inj he
    rwa [← size_append]

/-- A new directive and a line below the prologue: the directive is one of the prologue, and those
that were there are kept. -/
theorem keepsPrologue_of_directive {d eol : Text} (hd : isPlain d) (heol : IsLineBreak eol)
    (hlt : (parse t).prologue.1 < t.size) (line : Text) :
    let es := [.insertion t.directiveOffset (directiveText d eol),
      insertLine t (parse t).insertionOffset line eol]
    KeepsPrologue t (applyAll es t) ∧ d ∈ (parse (applyAll es t)).prologue.2 := by
  obtain ⟨tok, htok, hcode, -⟩ := exists_isCode_prologue hlt
  obtain ⟨p, q, rfl, habove⟩ := exists_above ⟨tok, htok, hcode⟩
  obtain ⟨more, happly, hmore⟩ := @exists_applyAll_directive p q d eol habove line
  intro es
  rw [happly]
  refine ⟨⟨fun v hv hmem => ?_, fun hbang => ?_⟩, ?_⟩
  · rcases exists_directiveLine hmem with ⟨front, rest, n, ht, hline, hle⟩ | hall
    · obtain ⟨c, n', rfl, hq, hbelow⟩ := habove.directiveLine_below hd heol ht hline
      obtain ⟨rest', rfl⟩ := hmore c rest hq (Nat.le_trans hle (prologue_le_insertionOffset _))
      rw [← List.append_assoc (directiveText d eol), ← List.append_assoc p,
        ← List.append_assoc p]
      exact (hbelow.below hv rest').mem_prologue
    · exact absurd hlt (Nat.not_lt_of_le (Nat.le_of_eq hall.symm))
  · obtain ⟨x, r, ht, hsize, -, hkeep⟩ := exists_interpreter hbang hlt
    obtain ⟨rfl, rfl⟩ := append_inj_size ht (habove.size.trans hsize.symm)
    exact hkeep _
  · obtain ⟨⟨n, hline⟩, -⟩ := habove.directive hd heol
    have ht' : p ++ (directiveText d eol ++ more) = p ++ directiveLine d eol ++ (eol ++ more) := by
      simp only [directiveText, directiveLine, List.append_assoc]
    rw [ht']
    exact (hline.below (isPlain_iff.1 hd).2.2.2 (eol ++ more)).mem_prologue

end Script

-- ---------------------------------------------------------------------------
-- Steps
-- ---------------------------------------------------------------------------

section

variable {t eol : Text} {v : Vocabulary} {m : ModuleRule}

/-- A new line below the prologue, with the directive a module owes. -/
theorem keepsPrologue_of_insert (hd : isPlain v.clientDirective.toList)
    (heol : IsLineBreak eol) (hword : (Script.parse t).HasWord) (line : Text) :
    let t' := applyAll (directiveEdits v m eol (Script.parse t) ++
      [insertLine t (Script.parse t).insertionOffset line eol]) t
    KeepsPrologue t t' ∧
      (m.requiresDirective → (Script.parse t').hasDirective v.clientDirective) := by
  rw [directiveEdits]
  split
  · obtain ⟨hkeeps, hmem⟩ := Script.keepsPrologue_of_directive hd heol hword.prologue_lt line
    exact ⟨hkeeps, fun _ => List.contains_iff_mem.2 hmem⟩
  · next howed =>
    have hkeeps : KeepsPrologue t (applyAll
        [insertLine t (Script.parse t).insertionOffset line eol] t) := by
      refine Script.keepsPrologue_of_below (fun _ => hword.prologue_lt) fun e he => ?_
      rw [List.mem_singleton.1 he]
      exact Script.prologue_le_insertionOffset t
    refine ⟨hkeeps, fun hrequires => ?_⟩
    have hthere : (Script.parse t).hasDirective v.clientDirective := by
      simpa [hrequires] using howed
    exact List.contains_iff_mem.2 (hkeeps.directive _ (isPlain_iff.1 hd).2.2.2
      (List.contains_iff_mem.1 hthere))

/-- Removals stay below the prologue. -/
theorem prologue_le_removeDeclaration {d : Declaration} (h : d ∈ (Script.parse t).declarations) :
    (Script.parse t).prologue.1 ≤ (removeDeclaration t d).span.start := by
  obtain ⟨st, hst, hspan⟩ := Script.exists_statement h
  have hstart := Script.prologue_le_start hst
  rw [hspan] at hstart
  exact Nat.le_trans
    (Script.le_edge_of_isLineEdge h (Script.isLineEdge_prologue (Script.parse t)) hstart)
    (around_removeDeclaration h).start_ge

/-- The step of a module keeps the prologue, and a module that is newly imported gets its
directive. -/
theorem moduleStep_keepsPrologue (hd : isPlain v.clientDirective.toList) (heol : IsLineBreak eol) :
    let step := moduleStep v m eol (Script.parse t)
    KeepsPrologue t (applyAll step.edits t) ∧
      ((∃ c ∈ step.changes, c.kind = .inserted) → m.requiresDirective →
        (Script.parse (applyAll step.edits t)).hasDirective v.clientDirective) := by
  intro step
  rcases moduleStep_cases v m eol (Script.parse t) with ⟨hedits, hchanges⟩ |
    ⟨canonical, rendered, -, hused, hedits, hchanges⟩
  · simp only [step, hedits, hchanges]
    exact ⟨KeepsPrologue.refl t, by simp⟩
  have hds : ∀ d ∈ (Script.parse t).declarationsOf m.specifier, d ∈ (Script.parse t).declarations :=
    fun d hd => (List.mem_filter.1 hd).1
  simp only [step, hedits, hchanges]
  generalize (Script.parse t).declarationsOf m.specifier = ds at hused hds
  match ds with
  | [] =>
    obtain ⟨u, hu⟩ := List.exists_mem_of_ne_nil _ (hused rfl)
    obtain ⟨-, -, -, -, -, -, use, huse, -⟩ := (Script.mem_usages_ofModule.1 hu).1
    have hinsert := keepsPrologue_of_insert (m := m) hd heol (Script.hasWord_of_mem_uses huse)
      rendered
    exact ⟨hinsert.1, fun _ => hinsert.2⟩
  | [d] =>
    have hmem := hds d (List.mem_singleton_self d)
    rw [canonicalStep]
    split
    · exact ⟨KeepsPrologue.refl t, by simp⟩
    · refine ⟨Script.keepsPrologue_of_below
        (fun _ => (Script.hasWord_of_mem_declarations hmem).prologue_lt) fun e he => ?_, by simp⟩
      obtain ⟨st, hst, hspan⟩ := Script.exists_statement hmem
      rw [List.mem_singleton.1 he]
      exact hspan ▸ Script.prologue_le_start hst
  | d :: d' :: more =>
    refine ⟨Script.keepsPrologue_of_below (fun _ => (Script.hasWord_of_mem_declarations
      (hds d (List.mem_cons_self ..))).prologue_lt) fun e he => ?_, by simp [canonicalStep]⟩
    rcases List.mem_cons.1 he with rfl | he
    · exact Script.prologue_le_insertionOffset t
    · obtain ⟨k, hk, rfl⟩ := List.mem_map.1 he
      exact prologue_le_removeDeclaration (hds k hk)

theorem dataStep_keepsPrologue (data : DataDirectory) (isFile : Path → Bool) (path : Path)
    (r : DataRule) (eol t : Text) :
    KeepsPrologue t (applyAll (dataStep data isFile path r eol (Script.parse t)).edits t) := by
  rw [dataStep]
  split
  · exact KeepsPrologue.refl t
  · next hdue =>
    simp only
    split
    · exact KeepsPrologue.refl t
    · have hunbound : (Script.parse t).hasUnbound r.binding := by
        simp_all
      obtain ⟨⟨use, huse, -⟩, -⟩ := Script.hasUnbound_iff.1 hunbound
      refine Script.keepsPrologue_of_below
        (fun _ => (Script.hasWord_of_mem_uses huse).prologue_lt) fun e he => ?_
      rw [List.mem_singleton.1 he]
      exact Script.prologue_le_insertionOffset t

theorem specifierStep_keepsPrologue (data : DataDirectory) (isFile : Path → Bool) (file : Path)
    (t : Text) :
    KeepsPrologue t (applyAll (specifierStep data isFile file (Script.parse t)).edits t) := by
  have hbelow : ∀ e ∈ (specifierStep data isFile file (Script.parse t)).edits,
      (Script.parse t).HasWord ∧ (Script.parse t).prologue.1 ≤ e.span.start := by
    intro e he
    obtain ⟨z, hz, hedit⟩ := List.mem_filterMap.1 he
    obtain ⟨tok, htok, rfl⟩ := List.mem_map.1 hz
    obtain ⟨hword, hle⟩ := Script.prologue_le_of_mem_specifiers htok
    simp only at hedit
    split at hedit
    · obtain rfl := Option.some.inj hedit
      exact ⟨hword, Nat.le_succ_of_le hle⟩
    · cases hedit
  refine Script.keepsPrologue_of_below (fun hne => ?_) fun e he => (hbelow e he).2
  obtain ⟨e, he⟩ := List.exists_mem_of_ne_nil _ hne
  exact (hbelow e he).1.prologue_lt

end

-- ---------------------------------------------------------------------------
-- Plans
-- ---------------------------------------------------------------------------

theorem Plan.keepsPrologue_foldl {steps : List (Script → Step)}
    (h : ∀ step ∈ steps, ∀ t : Text, KeepsPrologue t (applyAll (step (Script.parse t)).edits t))
    (plan : Plan) : KeepsPrologue plan.text (steps.foldl Plan.advance plan).text :=
  Plan.foldl_keeps (P := fun p => KeepsPrologue plan.text p.text)
    (fun step hstep p hp => hp.trans (h step hstep p.text)) (KeepsPrologue.refl plan.text)

theorem module_of_mem_changes {v : Vocabulary} {m : ModuleRule} {eol : Text} {s : Script}
    {c : Change} (h : c ∈ (moduleStep v m eol s).changes) : c.module = m.specifier := by
  rcases moduleStep_cases v m eol s with ⟨-, hnone⟩ | ⟨canonical, rendered, -, -, -, hchanges⟩
  · rw [hnone] at h
    cases h
  · rw [hchanges] at h
    generalize s.declarationsOf m.specifier = ds at h
    match ds with
    | [] => rw [List.mem_singleton.1 h]
    | [d] =>
      rw [canonicalStep] at h
      split at h
      · cases h
      · rw [List.mem_singleton.1 h]
    | d :: d' :: more => rw [List.mem_singleton.1 h]

/-- A change of a plan is one of a step, made to the text that the steps before it left. -/
theorem Plan.exists_step_of_mem_changes {steps : List (Script → Step)} {plan : Plan} {c : Change}
    (h : c ∈ (steps.foldl Plan.advance plan).changes) :
    c ∈ plan.changes ∨ ∃ above step below, steps = above ++ step :: below ∧
      c ∈ (step (Script.parse (above.foldl Plan.advance plan).text)).changes := by
  induction steps generalizing plan with
  | nil => exact .inl h
  | cons step steps ih =>
    rcases ih h with h | ⟨above, next, below, rfl, hc⟩
    · rcases List.mem_append.1 h with h | h
      · exact .inl h
      · exact .inr ⟨[], step, steps, rfl, h⟩
    · exact .inr ⟨step :: above, next, below, rfl, hc⟩

namespace Project

variable {p : Project} {isFile : Path → Bool} {file : Path} {t : Text}

/-- The plan of a text after the steps of some modules. -/
def planOfModules (p : Project) (t : Text) (ms : List ModuleRule) : Plan :=
  (ms.map fun m => moduleStep p.vocabulary m (lineBreakOf t)).foldl Plan.advance { text := t }

/-- Does the plan of a text put in a new import of a module? -/
def Inserts (p : Project) (t : Text) (m : ModuleRule) : Prop :=
  ∃ above below, p.vocabulary.sortedModules = above ++ m :: below ∧
    ∃ c ∈ (moduleStep p.vocabulary m (lineBreakOf t)
      (Script.parse (p.planOfModules t above).text)).changes, c.kind = .inserted

/-- A plan goes on from the steps of its first modules. -/
theorem plan_eq_foldl {above below : List ModuleRule}
    (h : p.vocabulary.sortedModules = above ++ below) :
    p.plan isFile file t = (below.map (fun m => moduleStep p.vocabulary m (lineBreakOf t)) ++
      p.vocabulary.data.rules.map (fun r =>
        dataStep p.data isFile (file.relativeTo p.root) r (lineBreakOf t)) ++
      [specifierStep p.data isFile file]).foldl Plan.advance (p.planOfModules t above) := by
  rw [plan, steps, h, planOfModules]
  simp only [List.map_append, List.append_assoc, List.foldl_append]

/-- What a plan records as put in is the import of a module or of a data file. -/
theorem inserts_of_mem_changes {c : Change} (hc : c ∈ (p.plan isFile file t).changes)
    (hkind : c.kind = .inserted) :
    (∃ m, p.Inserts t m ∧ c.module = m.specifier) ∨
      ∃ r ∈ p.vocabulary.data.rules, c.module = p.data.shorthand ++ r.file := by
  rw [plan_eq_foldl (List.append_nil _).symm, List.map_nil, List.nil_append] at hc
  rcases Plan.exists_step_of_mem_changes hc with hc | ⟨before, step, after, hsteps, hc⟩
  case inl =>
    left
    rcases Plan.exists_step_of_mem_changes hc with hc | ⟨before, step, after, hsteps, hc⟩
    · cases hc
    · obtain ⟨above, rest, hmodules, rfl, hrest⟩ := List.map_eq_append_iff.1 hsteps
      obtain ⟨m, below, rfl, rfl, -⟩ := List.map_eq_cons_iff.1 hrest
      exact ⟨m, ⟨above, below, hmodules, c, hc, hkind⟩, module_of_mem_changes hc⟩
  case inr =>
    have hmem : step ∈ before ++ step :: after := List.mem_append_right _ (List.mem_cons_self ..)
    rw [← hsteps, List.mem_append] at hmem
    rcases hmem with hmem | hmem
    · obtain ⟨r, hr, rfl⟩ := List.mem_map.1 hmem
      refine .inr ⟨r, hr, ?_⟩
      rw [dataStep] at hc
      split at hc
      · cases hc
      · simp only at hc
        split at hc
        · cases hc
        · rw [List.mem_singleton.1 hc]
    · obtain rfl := List.mem_singleton.1 hmem
      obtain ⟨q, -, rfl⟩ := List.mem_map.1 hc
      cases hkind

theorem keepsPrologue_of_mem_steps (hd : isPlain p.vocabulary.clientDirective.toList)
    {eol : Text} (heol : IsLineBreak eol) {step : Script → Step}
    (hstep : step ∈ p.steps isFile file eol) (t : Text) :
    KeepsPrologue t (applyAll (step (Script.parse t)).edits t) := by
  rw [steps, List.mem_append, List.mem_append] at hstep
  rcases hstep with (hstep | hstep) | hstep
  · obtain ⟨m, -, rfl⟩ := List.mem_map.1 hstep
    exact (moduleStep_keepsPrologue hd heol).1
  · obtain ⟨r, -, rfl⟩ := List.mem_map.1 hstep
    exact dataStep_keepsPrologue ..
  · obtain rfl := List.mem_singleton.1 hstep
    exact specifierStep_keepsPrologue ..

/-- A plan keeps the directives that are over on their lines, adds the client directive where it
imports a module that requires it, and keeps a `#!` line first. -/
theorem plan_keeps_directives (hd : isPlain p.vocabulary.clientDirective.toList) :
    let planned := Script.parse (p.plan isFile file t).text
    (∀ d : String, '\n' ∉ d.toList → (Script.parse t).hasDirective d → planned.hasDirective d) ∧
      (∀ m, p.Inserts t m → m.requiresDirective →
        planned.hasDirective p.vocabulary.clientDirective) ∧
      (['#', '!'] <+: t.body →
        ['#', '!'] <+: planned.text.body ∧ firstLine planned.text = firstLine t) := by
  have heol := isLineBreak_lineBreakOf t
  have hsteps := fun step => @keepsPrologue_of_mem_steps p isFile file hd _ heol step
  have hplan : KeepsPrologue t (p.plan isFile file t).text :=
    Plan.keepsPrologue_foldl hsteps { text := t }
  refine ⟨fun d hline hmem => ?_, fun m hinserts hrequires => ?_, hplan.interpreter⟩
  · exact List.contains_iff_mem.2 (hplan.directive _ hline (List.contains_iff_mem.1 hmem))
  · obtain ⟨above, below, hmodules, hinserted⟩ := hinserts
    have hthere := (moduleStep_keepsPrologue hd heol).2 hinserted hrequires
    obtain ⟨rest, hrest, hfoldl⟩ : ∃ rest : List (Script → Step),
        (∀ step ∈ rest, step ∈ p.steps isFile file (lineBreakOf t)) ∧
          p.plan isFile file t = rest.foldl Plan.advance
            ((p.planOfModules t above).advance (moduleStep p.vocabulary m (lineBreakOf t))) := by
      refine ⟨_, fun step hstep => ?_, by
        rw [plan_eq_foldl hmodules, List.map_cons, List.cons_append, List.cons_append,
          List.foldl_cons]⟩
      rw [steps, hmodules, List.map_append, List.map_cons]
      simp only [List.append_assoc, List.cons_append, List.mem_append, List.mem_cons] at hstep ⊢
      exact .inr (.inr hstep)
    have hafter := Plan.keepsPrologue_foldl (fun step hstep => hsteps step (hrest step hstep))
      ((p.planOfModules t above).advance (moduleStep p.vocabulary m (lineBreakOf t)))
    rw [hfoldl]
    exact List.contains_iff_mem.2 (hafter.directive _ (isPlain_iff.1 hd).2.2.2
      (List.contains_iff_mem.1 hthere))

/-- A hook that is not imported, below a `#!` line and a directive. -/
theorem plan_keeps_directives_interpreter :
    let p : Project := { root := ⟨"/proj"⟩ }
    let t := "#!/usr/bin/env node\n'use strict';\nuseState();\n".toList
    let planned := Script.parse (p.plan (fun _ => false) ⟨"a.js"⟩ t).text
    isPlain p.vocabulary.clientDirective.toList ∧ planned.hasDirective "use strict" ∧
      planned.hasDirective "use client" ∧
      firstLine planned.text = "#!/usr/bin/env node\n".toList := by
  intro p t planned
  have hd : isPlain p.vocabulary.clientDirective.toList := by decide
  obtain ⟨hkept, howed, hline⟩ := @plan_keeps_directives p (fun _ => false) ⟨"a.js"⟩ t hd
  have hinserts : p.Inserts t reactModule :=
    ⟨[linkModule], [], by decide +kernel, by decide +kernel⟩
  exact ⟨hd, hkept "use strict" (by decide) (by decide +kernel), howed reactModule hinserts rfl,
    (hline (by decide)).2⟩

end Project

end TidyImports
