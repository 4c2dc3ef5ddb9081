-- SUMMARY: What is used and bound in a script, told by its reading.
import TidyImports.Proofs.Edits.Clear

/-!
# Uses

The usages of a vocabulary and the names that are used unbound depend on the
reading of a script only, and on no order in it.
-/

namespace TidyImports

namespace Reading

variable (r : Reading)

/-- Is the name declared, or an identifier of an import in another form? -/
def bindsItself (name : String) : Prop := name ∈ r.declared ∨ name ∈ r.unrecognized

/-- Is the name bound by anything but a declaration of the module? -/
def bindsElsewhere (name specifier : String) : Prop :=
  r.bindsItself name ∨ ∃ d ∈ r.declarations, d.specifier ≠ specifier ∧ name ∈ d.localNames

def binds (name : String) : Prop :=
  r.bindsItself name ∨ ∃ d ∈ r.declarations, name ∈ d.localNames

/-- Has a use the shape a pattern asks for? -/
def Accepts (p : Pattern) (u : Use) : Prop :=
  match p with
  | .reference => True
  | .call => u.called
  | .element => u.called ∨ u.opened

/-- Does the script use a symbol of the vocabulary that it does not bind from elsewhere? -/
def Uses (v : Vocabulary) (u : Usage) : Prop :=
  ∃ m ∈ v.modules, ∃ s ∈ m.symbols, u = ⟨m.specifier, s.name, s.binding⟩ ∧
    ¬ r.bindsElsewhere s.name m.specifier ∧
      ∃ use ∈ r.uses, use.name = s.name ∧ Accepts s.pattern use

end Reading

/-- Sets with the same members are the same. -/
theorem SortedSet.eq_of_mem_iff {α : Type} [Ord α] [Std.TransOrd α] [Std.LawfulEqOrd α]
    {a b : SortedSet α} (h : ∀ x, x ∈ a ↔ x ∈ b) : a = b := by
  have hnodup : ∀ s : SortedSet α, s.toList.Nodup := fun s => s.ascending.imp fun {x y} hlt heq => by
    have hself : compare x y = .eq := heq ▸ Std.ReflCmp.compare_self
    rw [hself] at hlt
    cases hlt
  have hperm := (List.perm_ext_iff_of_nodup (hnodup a) (hnodup b)).2 h
  have hlist := hperm.eq_of_pairwise
    (fun x y _ _ hxy hyx => absurd (Std.OrientedCmp.gt_of_lt hxy) (by rw [hyx]; decide))
    a.ascending b.ascending
  obtain ⟨as, ha⟩ := a
  obtain ⟨bs, hb⟩ := b
  cases hlist
  rfl

namespace Script

variable {s : Script} {name specifier : String}

theorem mem_imported {p : String × String} :
    p ∈ (Bindings.ofScript s).imported ↔
      ∃ d ∈ s.reading.declarations, d.specifier = p.1 ∧ p.2 ∈ d.localNames := by
  simp only [Bindings.ofScript, List.mem_flatMap, List.mem_map, reading]
  constructor
  · rintro ⟨d, hd, n, hn, rfl⟩
    exact ⟨d.bare, ⟨d, hd, rfl⟩, rfl, hn⟩
  · rintro ⟨_, ⟨d, hd, rfl⟩, hspec, hn⟩
    exact ⟨d, hd, p.2, hn, congrArg (·, p.2) hspec⟩

theorem any_imported_elsewhere :
    ((Bindings.ofScript s).imported.any fun (module, n) => module != specifier && n == name) ↔
      ∃ d ∈ s.reading.declarations, d.specifier ≠ specifier ∧ name ∈ d.localNames := by
  rw [List.any_eq_true]
  constructor
  · rintro ⟨⟨module, n⟩, hp, h⟩
    obtain ⟨d, hd, hspec, hn⟩ := mem_imported.1 hp
    rw [Bool.and_eq_true, bne_iff_ne, beq_iff_eq] at h
    exact ⟨d, hd, hspec ▸ h.1, h.2 ▸ hn⟩
  · rintro ⟨d, hd, hspec, hn⟩
    refine ⟨(d.specifier, name), mem_imported.2 ⟨d, hd, rfl, hn⟩, ?_⟩
    rw [Bool.and_eq_true, bne_iff_ne, beq_iff_eq]
    exact ⟨hspec, rfl⟩

theorem bindsElsewhere_iff :
    (Bindings.ofScript s).bindsElsewhere name specifier ↔
      s.reading.bindsElsewhere name specifier := by
  rw [Bindings.bindsElsewhere, Bool.or_eq_true, Bool.or_eq_true, any_imported_elsewhere,
    List.contains_iff_mem, List.contains_iff_mem]
  rfl

theorem binds_iff : (Bindings.ofScript s).binds name ↔ s.reading.binds name := by
  have hany : ((Bindings.ofScript s).imported.any (·.2 == name)) ↔
      ∃ d ∈ s.reading.declarations, name ∈ d.localNames := by
    rw [List.any_eq_true]
    constructor
    · rintro ⟨p, hp, h⟩
      obtain ⟨d, hd, -, hn⟩ := mem_imported.1 hp
      exact ⟨d, hd, eq_of_beq h ▸ hn⟩
    · rintro ⟨d, hd, hn⟩
      exact ⟨(d.specifier, name), mem_imported.2 ⟨d, hd, rfl, hn⟩, beq_self_eq_true _⟩
  rw [Bindings.binds, Bool.or_eq_true, Bool.or_eq_true, hany, List.contains_iff_mem,
    List.contains_iff_mem]
  rfl

theorem accepts_use {p : Pattern} {o : Occurrence} : p.matches? o ↔ Reading.Accepts p o.use := by
  cases p with
  | reference => exact ⟨fun _ => trivial, fun _ => rfl⟩
  | call => exact Iff.rfl
  | element => exact Bool.or_eq_true _ _ ▸ Iff.rfl

/-- The usages of a script, told by its reading. -/
theorem mem_usages {v : Vocabulary} {u : Usage} : u ∈ s.usages v ↔ s.reading.Uses v u := by
  have hnot : ∀ name specifier, (!(Bindings.ofScript s).bindsElsewhere name specifier) = true ↔
      ¬ s.reading.bindsElsewhere name specifier := fun name specifier => by
    rw [← bindsElsewhere_iff, Bool.not_eq_true', Bool.not_eq_true]
  simp only [usages, SortedSet.mem_ofList, List.mem_flatMap, usagesAt, List.mem_map,
    List.mem_filter, Bool.and_eq_true, beq_iff_eq, hnot, accepts_use, Reading.Uses, reading]
  constructor
  · rintro ⟨o, ho, m, hm, sym, ⟨hsym, ⟨hname, hbinds⟩, haccepts⟩, rfl⟩
    exact ⟨m, hm, sym, hsym, rfl, hbinds, o.use, ⟨o, ho, rfl⟩, hname.symm, haccepts⟩
  · rintro ⟨m, hm, sym, hsym, rfl, hbinds, _, ⟨o, ho, rfl⟩, hname, haccepts⟩
    exact ⟨o, ho, m, hm, sym, ⟨hsym, ⟨hname.symm, hbinds⟩, haccepts⟩, rfl⟩

theorem hasUnbound_iff :
    s.hasUnbound name ↔ (∃ use ∈ s.reading.uses, use.name = name) ∧ ¬ s.reading.binds name := by
  rw [hasUnbound, Bool.and_eq_true, ← binds_iff, Bool.not_eq_true', Bool.not_eq_true,
    List.any_eq_true]
  simp only [reading, List.mem_map, beq_iff_eq]
  constructor
  · rintro ⟨⟨o, ho, hname⟩, hbinds⟩
    exact ⟨⟨o.use, ⟨o, ho, rfl⟩, hname⟩, hbinds⟩
  · rintro ⟨⟨_, ⟨o, ho, rfl⟩, hname⟩, hbinds⟩
    exact ⟨⟨o, ho, hname⟩, hbinds⟩

/-- Scripts that read the same use the same symbols. -/
theorem usages_congr {s s' : Script} (h : s.reading = s'.reading) (v : Vocabulary) :
    s.usages v = s'.usages v :=
  SortedSet.eq_of_mem_iff fun u => by rw [mem_usages, mem_usages, h]

theorem hasUnbound_congr {s s' : Script} (h : s.reading = s'.reading) (name : String) :
    s.hasUnbound name = s'.hasUnbound name := by
  rw [Bool.eq_iff_iff, hasUnbound_iff, hasUnbound_iff, h]

-- ---------------------------------------------------------------------------
-- Uses in code
-- ---------------------------------------------------------------------------

/-- Does the code before a token end with a dot? -/
def EndsDot (before : List Token) : Prop := before.getLast?.any (·.isPunct '.')

instance (before : List Token) : Decidable (EndsDot before) :=
  inferInstanceAs (Decidable (_ = true))

/-- Does it end with the three dots of a spread? -/
def EndsSpread (before : List Token) : Prop :=
  ∃ front a b c, before = front ++ [a, b, c] ∧
    a.isPunct '.' ∧ b.isPunct '.' ∧ c.isPunct '.'

/-- Is there code before which an identifier is a property? -/
def EndsAccess (before : List Token) : Prop := EndsDot before ∧ ¬ EndsSpread before

/-- Is the symbol of a rule somewhere in code, in the shape its rule asks for, where the code before
it is not `excluded`? -/
def Shows (s : Script) (excluded : List Token → Prop) (r : SymbolRule) : Prop :=
  ∃ before tok after, s.code = before ++ tok :: after ∧ tok.isWord r.name ∧
    r.pattern.matches? ⟨before.getLast?, tok, after.head?⟩ ∧ ¬ excluded before

theorem mem_ofTokens {o : Occurrence} {previous? : Option Token} {ts : List Token} :
    o ∈ Occurrence.ofTokens previous? ts ↔
      ∃ before after, ts = before ++ o.token :: after ∧
        o.previous? = before.getLast?.or previous? ∧ o.next? = after.head? := by
  induction ts generalizing previous? with
  | nil => simp [Occurrence.ofTokens]
  | cons tok ts ih =>
    rw [Occurrence.ofTokens, List.mem_cons, ih]
    constructor
    · rintro (rfl | ⟨before, after, rfl, hprevious, hnext⟩)
      · exact ⟨[], ts, rfl, rfl, rfl⟩
      · refine ⟨tok :: before, after, rfl, ?_, hnext⟩
        rw [hprevious, List.getLast?_cons]
        cases before.getLast? <;> rfl
    · rintro ⟨before, after, hts, hprevious, hnext⟩
      obtain ⟨token⟩ := o
      cases before with
      | nil =>
        cases hts
        exact .inl (by simp_all)
      | cons first before =>
        cases hts
        refine .inr ⟨before, after, rfl, ?_, hnext⟩
        rw [hprevious, List.getLast?_cons]
        cases before.getLast? <;> rfl

/-- The usages are the symbols that code shows with no dot before them and that nothing else binds.
The operand of a spread follows a dot, so it is none. -/
theorem mem_usages_iff_shows {v : Vocabulary} {u : Usage} :
    u ∈ s.usages v ↔ ∃ m ∈ v.modules, ∃ r ∈ m.symbols, u = ⟨m.specifier, r.name, r.binding⟩ ∧
      ¬ (Bindings.ofScript s).bindsElsewhere r.name m.specifier ∧ s.Shows EndsDot r := by
  have hword : ∀ (tok : Token) (r : SymbolRule), tok.isIdent ∧ r.name = tok.name ↔
      tok.isWord r.name := fun tok r => by
    rw [Token.isWord, Bool.and_eq_true, beq_iff_eq, Token.name]
    refine and_congr_right fun _ => ⟨fun h => ?_, fun h => ?_⟩
    · rw [h, String.toList_ofList]
    · rw [h, String.ofList_toList]
  simp only [usages, SortedSet.mem_ofList, List.mem_flatMap, usagesAt, List.mem_map,
    List.mem_filter, Bool.and_eq_true, beq_iff_eq, Bool.not_eq_true', Bool.not_eq_true,
    bareOccurrences, Occurrence.isBare, mem_ofTokens, Option.or_none]
  constructor
  · rintro ⟨o, ⟨⟨before, after, hcode, hprevious, hnext⟩, hident, hdot⟩, m, hm, r,
      ⟨hr, ⟨hname, hbinds⟩, hmatches⟩, rfl⟩
    obtain ⟨previous?, tok, next?⟩ := o
    obtain rfl : previous? = before.getLast? := hprevious
    obtain rfl : next? = after.head? := hnext
    exact ⟨m, hm, r, hr, rfl, hbinds, before, tok, after, hcode, (hword tok r).1 ⟨hident, hname⟩,
      hmatches, Bool.eq_false_iff.1 hdot⟩
  · rintro ⟨m, hm, r, hr, rfl, hbinds, before, tok, after, hcode, hw, hmatches, hdot⟩
    obtain ⟨hident, hname⟩ := (hword tok r).2 hw
    exact ⟨⟨before.getLast?, tok, after.head?⟩, ⟨⟨before, after, hcode, rfl, rfl⟩, hident,
      Bool.eq_false_iff.2 hdot⟩, m, hm, r, ⟨hr, ⟨hname, hbinds⟩, hmatches⟩, rfl⟩

example : (parse "f(...useState);\n".toList).usages {} = ∅ := by decide +kernel

/-- Where no identifier is the operand of a spread, only the property of a member access is no use
of its name. -/
theorem mem_usages_of_noSpread {v : Vocabulary} {u : Usage}
    (h : ∀ before tok after, s.code = before ++ tok :: after → tok.isIdent → ¬ EndsSpread before) :
    u ∈ s.usages v ↔ ∃ m ∈ v.modules, ∃ r ∈ m.symbols, u = ⟨m.specifier, r.name, r.binding⟩ ∧
      ¬ (Bindings.ofScript s).bindsElsewhere r.name m.specifier ∧ s.Shows EndsAccess r := by
  have hshows : ∀ r : SymbolRule, s.Shows EndsDot r ↔ s.Shows EndsAccess r := fun r => by
    constructor
    · rintro ⟨before, tok, after, hcode, hw, hmatches, hdot⟩
      exact ⟨before, tok, after, hcode, hw, hmatches, fun haccess => hdot haccess.1⟩
    · rintro ⟨before, tok, after, hcode, hw, hmatches, haccess⟩
      have hident : tok.isIdent := (Bool.and_eq_true_iff.1 hw).1
      exact ⟨before, tok, after, hcode, hw, hmatches,
        fun hdot => haccess ⟨hdot, h before tok after hcode hident⟩⟩
  rw [mem_usages_iff_shows]
  simp only [hshows]

/-- The argument of a method. -/
theorem mem_usages_of_noSpread_argument :
    let s := parse "a.f(useState);\n".toList
    (∀ before tok after, s.code = before ++ tok :: after → tok.isIdent → ¬ EndsSpread before) ∧
      ⟨"react", "useState", .named⟩ ∈ s.usages {} := by
  intro s
  have hspread : ∀ before tok after, s.code = before ++ tok :: after → tok.isIdent →
      ¬ EndsSpread before := by
    rintro before tok after hcode - ⟨front, a, b, c, rfl, ha, hb, hc⟩
    have hdots : s.code.countP (·.isPunct '.') = 1 := by decide +kernel
    rw [hcode] at hdots
    simp only [List.countP_append, List.countP_cons, ha, hb, hc, if_true] at hdots
    omega
  have hdot : ¬ EndsDot (s.code.take 4) := by decide +kernel
  have hshows : s.Shows EndsAccess { name := "useState" } :=
    ⟨s.code.take 4, ⟨.ident, 4, "useState".toList⟩, s.code.drop 5, by decide +kernel,
      by decide +kernel, by decide +kernel, fun haccess => hdot haccess.1⟩
  exact ⟨hspread, (mem_usages_of_noSpread hspread).2
    ⟨reactModule, by decide, { name := "useState" }, by decide, rfl, by decide +kernel, hshows⟩⟩

-- ---------------------------------------------------------------------------
-- Names
-- ---------------------------------------------------------------------------

/-- What code uses are identifiers. -/
theorem isWord_of_mem_uses {t : Text} {use : Use} (h : use ∈ (parse t).reading.uses) :
    Lexer.isWord use.name.toList := by
  rw [reading_parse] at h
  have hmem : ∀ (previous? : Option Token) (ts : List Token), use ∈ usesFrom previous? ts →
      ∃ tok ∈ ts, tok.isIdent ∧ use.name = tok.name := by
    intro previous? ts
    induction ts generalizing previous? with
    | nil => intro h; cases h
    | cons tok ts ih =>
      intro h
      rw [usesFrom_cons, List.mem_append] at h
      rcases h with h | h
      · split at h
        · next hc =>
          cases List.mem_singleton.1 h
          exact ⟨tok, List.mem_cons_self .., (Bool.and_eq_true_iff.1 hc).1, rfl⟩
        · cases h
      · obtain ⟨tok', htok', h'⟩ := ih _ h
        exact ⟨tok', List.mem_cons_of_mem _ htok', h'⟩
  obtain ⟨tok, htok, hi, hname⟩ := hmem none _ h
  have hmark : ∀ ps : List Part, tok ∈ Part.code ps → ∃ m ∈ Part.allMarks ps, tok = m.token := by
    intro ps htok
    obtain ⟨p, hp, heq⟩ := List.mem_filterMap.1 htok
    cases p with
    | statement head body at? => cases heq
    | token m =>
      simp only [Option.ite_none_right_eq_some, Option.some.injEq] at heq
      exact ⟨m, List.mem_flatMap.2 ⟨_, hp, List.mem_singleton_self _⟩, heq.2.symm⟩
  obtain ⟨m, hm, rfl⟩ := hmark _ htok
  have hshapes := (Part.proper_parts t m hm).shapes
  have hkind : m.kind = .ident := eq_of_beq hi
  rw [hkind] at hshapes
  rw [hname, Token.name, String.toList_ofList]
  exact hshapes

/-- What a recognized declaration binds can be written again. -/
theorem names_of_mem_declarations {t : Text} {d : Declaration} (h : d ∈ (parse t).declarations) :
    (∀ name ∈ d.default?, IsName name.toList) ∧ ∀ item ∈ d.named, Item.WellFormed item := by
  obtain ⟨clause, word, specifier, tail, hreads, hmem⟩ := reads_of_mem h
  exact hreads.names fun m hm => Lexer.proper_top _ m (hmem m (List.mem_append_left _ hm))

end Script

end TidyImports
