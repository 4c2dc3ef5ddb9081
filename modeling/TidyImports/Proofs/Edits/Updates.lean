-- SUMMARY: What an edit of import declarations does to the reading of a script.
import TidyImports.Proofs.Outline.Splice

/-!
# Updates of a reading

Edits of import declarations take declarations out of a reading and put others
in. Nothing else in the reading changes.
-/

namespace TidyImports

/-- The second reading is the first with some declarations taken out and others put in. -/
structure Reading.Updates (r r' : Reading) (removed added : List Declaration) : Prop where
  declared : r'.declared = r.declared
  uses : r'.uses = r.uses
  unrecognized : r'.unrecognized = r.unrecognized
  declarations : (r'.declarations ++ removed).Perm (r.declarations ++ added)

namespace Reading.Updates

variable {r r' r'' : Reading} {removed removed' added added' : List Declaration}

theorem refl (r : Reading) : r.Updates r [] [] :=
  ⟨rfl, rfl, rfl, List.Perm.refl _⟩

theorem trans (h : r.Updates r' removed added) (h' : r'.Updates r'' removed' added') :
    r.Updates r'' (removed' ++ removed) (added' ++ added) where
  declared := h'.declared.trans h.declared
  uses := h'.uses.trans h.uses
  unrecognized := h'.unrecognized.trans h.unrecognized
  declarations := by
    have h₁ := h'.declarations.append_right removed
    have h₂ := h.declarations.append_right added'
    have h₃ : (r'.declarations ++ added' ++ removed).Perm (r'.declarations ++ removed ++ added') := by
      simpa only [List.append_assoc] using (List.perm_append_comm.append_left r'.declarations)
    have h₄ : (r.declarations ++ added ++ added').Perm (r.declarations ++ (added' ++ added)) := by
      simpa only [List.append_assoc] using (List.perm_append_comm.append_left r.declarations)
    simpa only [List.append_assoc] using (h₁.trans (h₃.trans h₂)).trans h₄

end Reading.Updates

-- ---------------------------------------------------------------------------
-- Statements among parts
-- ---------------------------------------------------------------------------

/-- Parts that are declarations and nothing else. -/
def Part.AreDeclarations (ps : List Part) : Prop := ∀ p ∈ ps, p.declaration?.isSome

namespace Part.AreDeclarations

variable {ps : List Part}

theorem code_eq (h : AreDeclarations ps) : code ps = [] := by
  induction ps with
  | nil => rfl
  | cons p ps ih =>
    cases p with
    | token m => exact absurd (h _ (List.mem_cons_self ..)) (by simp [declaration?])
    | statement head body at? => exact ih fun p hp => h p (List.mem_cons_of_mem _ hp)

theorem unrecognized_eq (h : AreDeclarations ps) : ps.flatMap unrecognized = [] := by
  rw [List.flatMap_eq_nil_iff]
  intro p hp
  have := h p hp
  rw [unrecognized, Option.isNone_eq_false_iff.2 this, Bool.and_false]
  rfl

end Part.AreDeclarations

namespace Part

theorem areDeclarations_nil : AreDeclarations [] := fun p hp => by cases hp

theorem areDeclarations_singleton {p : Part} {d : Declaration} (h : p.declaration? = some d) :
    AreDeclarations [p] := by
  intro q hq
  cases List.mem_singleton.1 hq
  rw [h]
  rfl

theorem declarations_singleton {p : Part} {d : Declaration} (h : p.declaration? = some d) :
    declarations [p] = [d] := by
  rw [declarations, List.filterMap_cons, h]
  rfl

@[simp] theorem declaration?_flush (p : Part) : p.flush.declaration? = p.declaration? := by
  cases p <;> rfl

end Part

/-- Declarations among parts can be exchanged for others. -/
theorem Script.ofParts_updates {front old new back : List Part} (ho : Part.AreDeclarations old)
    (hn : Part.AreDeclarations new) :
    (ofParts (front ++ (old ++ back))).Updates (ofParts (front ++ (new ++ back)))
      (Part.declarations old) (Part.declarations new) where
  declared := by simp [ofParts, ho.code_eq, hn.code_eq]
  uses := by simp [ofParts, ho.code_eq, hn.code_eq]
  unrecognized := by simp [ofParts, ho.unrecognized_eq, hn.unrecognized_eq]
  declarations := by
    simp only [ofParts, Part.declarations_append, List.append_assoc]
    refine List.Perm.append_left _ (List.perm_append_comm.trans ?_)
    rw [← List.append_assoc]
    exact List.perm_append_comm.append_right _

/-- A directive above all other code changes nothing in a reading. -/
theorem Script.ofParts_directive {front back : List Part} {x : Text} (h : Part.code front = []) :
    ofParts (front ++ (directiveParts x ++ back)) = ofParts (front ++ back) := by
  have hcode : Part.code (front ++ (directiveParts x ++ back)) =
      ⟨.string true, 0, '\'' :: (x ++ ['\''])⟩ :: ⟨.punct ';', 0, [';']⟩ :: Part.code back := by
    rw [Part.code_append, h]
    rfl
  have hdecl : Part.declarations (front ++ (directiveParts x ++ back)) =
      Part.declarations (front ++ back) := by
    simp only [Part.declarations_append]
    rfl
  have hun : (front ++ (directiveParts x ++ back)).flatMap Part.unrecognized =
      (front ++ back).flatMap Part.unrecognized := by
    simp only [List.flatMap_append]
    rfl
  have huses : ∀ (tok : Token) (ts : List Token), tok.isPunct '.' = false →
      tok.isPunct '<' = false → usesFrom (some tok) ts = usesFrom none ts := by
    intro tok ts hdot hopen
    cases ts with
    | nil => rfl
    | cons t ts => simp [usesFrom_cons, hdot, hopen]
  rw [ofParts, ofParts, hcode, hdecl, hun, Part.code_append, h, List.nil_append, usesFrom_cons,
    usesFrom_cons, huses _ _ rfl rfl]
  rfl

theorem Script.reading_eq_flushed (t : Text) : (parse t).reading = ofParts t.flushed := by
  rw [reading_parse, Text.flushed, Part.ofParts_flush]

end TidyImports
