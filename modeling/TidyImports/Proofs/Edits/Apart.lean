-- SUMMARY: Specifiers exchanged where no slash reaches them: what the tokens of the text become.
import TidyImports.Proofs.Edits.Retarget

/-!
# Tokens of exchanged specifiers

A `/` that could open a regular expression, but finds no end for one, finds it in
a new specifier on its line. Where each such `/` has the end of its line before
the specifiers that are exchanged, all tokens stay but for what these say.
-/

namespace TidyImports

open Text Lexer Edit

/-- The state after tokens in a row. -/
def Lexer.State.afterTokens (s : State) (tokens : List Token) : State :=
  tokens.foldl (fun s tok => s.after tok.kind tok.text) s

@[simp] theorem Lexer.State.afterTokens_nil (s : State) : s.afterTokens [] = s := rfl

@[simp] theorem Lexer.State.afterTokens_cons (s : State) (tok : Token) (tokens : List Token) :
    s.afterTokens (tok :: tokens) = (s.after tok.kind tok.text).afterTokens tokens := rfl

theorem Lexer.State.afterTokens_place (s : State) (offset : Nat) (ms : List Mark) :
    s.afterTokens (Mark.place offset ms) = s.afterMarks ms := by
  induction ms generalizing s offset with
  | nil => rfl
  | cons m ms ih =>
    rw [Mark.place_cons, State.afterMarks_cons]
    exact ih _ _

/-- A line ends between each `/` that could have opened a regular expression and the text that is
exchanged. -/
def Edit.Apart (t : Text) (e : Edit) : Prop :=
  ∀ i < (tokenize t).length, ∀ tok ∈ (tokenize t)[i]?, tok.isPunct '/' →
    (State.afterTokens {} ((tokenize t).take i)).regexAllowed → tok.stop ≤ e.span.start →
      (t.slice ⟨tok.stop, e.span.start⟩).breaksLine

instance (t : Text) (e : Edit) : Decidable (e.Apart t) :=
  inferInstanceAs (Decidable (∀ i < (tokenize t).length, ∀ tok ∈ (tokenize t)[i]?, _ → _))

variable {g : Text → Option Text} {t : Text}

-- ---------------------------------------------------------------------------
-- Slashes before exchanged specifiers
-- ---------------------------------------------------------------------------

/-- What is exchanged starts behind the end of a line, as seen from each such `/`. -/
theorem Edit.Apart.slashesSettle {e : Edit} {p q : List Mark} {m : Mark} {k r : Text}
    (h : e.Apart t) (hm : top t.body = p ++ m :: q)
    (hb : t.body = Mark.sources p ++ m.gap ++ (k ++ r)) (hk : '\n' ∉ k)
    (hstart : e.span.start = t.markSize + (Mark.sources p ++ m.gap ++ k).size) :
    SlashesSettle {} p m.gap := by
  intro front n back hp hkind hreg
  rw [hp] at hb hstart
  rw [hp, List.append_assoc, List.cons_append] at hm
  obtain ⟨htokens, hstop, hslice⟩ := slice_before hm hb hstart
  have hget : n.placed (t.markSize + (Mark.sources front).size) ∈ (tokenize t)[front.length]? := by
    rw [htokens, List.getElem?_append_right (by simp)]
    simp
  have hbefore : (tokenize t).take front.length = Mark.place t.markSize front := by
    rw [htokens, List.take_append_of_le_length (by simp), List.take_of_length_le (by simp)]
  have hline := h front.length (by rw [htokens]; simp) _ hget
    (by simp [Token.isPunct, Mark.placed, hkind])
    (by rw [hbefore, State.afterTokens_place]; exact hreg) hstop
  rw [hslice] at hline
  exact breaksLine_of_append hk hline

theorem settles_of_apart {zs : List (Mark × Bool)} {front : List Mark} {rest : Text}
    (hproper : ∀ z ∈ zs, z.1.Proper) (htop : top t.body = front ++ zs.map Prod.fst)
    (hbody : t.body = Mark.sources front ++ (Mark.sources (zs.map Prod.fst) ++ rest))
    (h : ∀ e ∈ retargetEdits g (t.markSize + (Mark.sources front).size) zs, e.Apart t) :
    Settles g front zs := by
  induction zs generalizing front with
  | nil => trivial
  | cons z zs ih =>
    have hz := hproper z (List.mem_cons_self ..)
    refine ⟨fun hsome => ?_, ?_⟩
    · obtain ⟨new, hnew⟩ := Option.isSome_iff_exists.1 hsome
      obtain ⟨q, old, hq, -, -, -, -, htext, -⟩ := retarget_eq_some hz hnew
      obtain ⟨e, -, hspan, hedits, -⟩ := applyInOrder_retargetEdits hnew hz hbody
      have hqsize : q.utf8Size = 1 := by rcases hq with rfl | rfl <;> decide
      rw [hedits] at h
      refine (h e (List.mem_cons_self ..)).slashesSettle (k := [q])
        (r := old ++ (q :: (Mark.sources (zs.map Prod.fst) ++ rest))) htop ?_ ?_ ?_
      · rw [hbody, List.map_cons, Mark.sources_cons, htext]
        simp
      · rcases hq with rfl | rfl <;> decide
      · rw [hspan]
        simp only [size_append, size_cons, size_nil, hqsize]
        omega
    · have hoffset : t.markSize + (Mark.sources (front ++ [z.1])).size =
          t.markSize + (Mark.sources front).size + z.1.source.size := by
        simp [Mark.source, Nat.add_assoc]
      refine ih (fun w hw => hproper w (List.mem_cons_of_mem _ hw)) (by rw [htop]; simp)
        (by rw [hbody]; simp) fun e he => h e ?_
      rw [hoffset] at he
      rw [retargetEdits]
      exact List.mem_append_right _ he

-- ---------------------------------------------------------------------------
-- Specifiers among tokens
-- ---------------------------------------------------------------------------

theorem specifierTokens_subset (offset : Nat) (zs : List (Mark × Bool)) :
    specifierTokens offset zs ⊆ Mark.place offset (zs.map Prod.fst) := by
  induction zs generalizing offset with
  | nil => exact List.Subset.refl _
  | cons z zs ih =>
    intro tok htok
    rw [List.map_cons, Mark.place_cons]
    rw [specifierTokens] at htok
    rcases List.mem_append.1 htok with htok | htok
    · split at htok
      · exact List.mem_cons.2 (.inl (List.mem_singleton.1 htok))
      · cases htok
    · exact List.mem_cons_of_mem _ (ih _ htok)

/-- A token is a specifier where its mark is: tokens differ by their places. -/
theorem map_place_specifierTokens {α : Type} {f : Token → Bool → α}
    (hf : ∀ (m : Mark) offset b, f (m.placed offset) b = f m.token b) {zs : List (Mark × Bool)}
    (hproper : ∀ z ∈ zs, z.1.Proper) (offset : Nat) :
    (Mark.place offset (zs.map Prod.fst)).map (fun tok =>
        f tok (decide (tok ∈ specifierTokens offset zs))) =
      zs.map fun z => f z.1.token (z.2 && z.1.token.contents?.isSome) := by
  induction zs generalizing offset with
  | nil => rfl
  | cons z zs ih =>
    have hlt : ∀ tok ∈ Mark.place (offset + z.1.source.size) (zs.map Prod.fst),
        (z.1.placed offset).start < tok.start := fun tok htok => by
      obtain ⟨c, cs, htext, -⟩ := (hproper z (List.mem_cons_self ..)).start
      have hsize : z.1.source.size = z.1.gap.size + (c.utf8Size + size cs) := by
        rw [Mark.source, size_append, htext, size_cons]
      have hpos := c.utf8Size_pos
      have hle := Mark.le_start_of_mem_place htok
      rw [Mark.placed]
      simp only
      omega
    rw [List.map_cons, List.map_cons, Mark.place_cons, List.map_cons, hf]
    congr 1
    · congr 1
      rw [Bool.eq_iff_iff, decide_eq_true_eq, specifierTokens, List.mem_append]
      refine ⟨fun h => ?_, fun h => .inl ?_⟩
      · rcases h with h | h
        · split at h
          · assumption
          · cases h
        · exact absurd (hlt _ (specifierTokens_subset _ _ h)) (Nat.lt_irrefl _)
      · rw [if_pos h]
        exact List.mem_singleton_self _
    · rw [← ih (fun w hw => hproper w (List.mem_cons_of_mem _ hw)) (offset + z.1.source.size)]
      refine List.map_congr_left fun tok htok => congrArg (f tok) ?_
      rw [decide_eq_decide, specifierTokens, List.mem_append]
      refine or_iff_right fun h => ?_
      split at h
      · rw [List.mem_singleton.1 h] at htok
        exact Nat.lt_irrefl _ (hlt _ htok)
      · cases h

/-- What is asked of the contents of specifiers does not depend on their places. -/
theorem filterMap_specifierTokens {β : Type} (f : Text → Option β) (offset : Nat)
    (zs : List (Mark × Bool)) :
    (specifierTokens offset zs).filterMap (fun tok => f (tok.contents?.getD [])) =
      zs.filterMap fun z => if z.2 then z.1.token.contents?.bind f else none := by
  induction zs generalizing offset with
  | nil => rfl
  | cons z zs ih =>
    rw [specifierTokens, List.filterMap_append, ih, List.filterMap_cons]
    cases hready : z.2 with
    | false => rfl
    | true =>
      cases hc : z.1.token.contents? with
      | none => rfl
      | some old =>
        simp only [Bool.and_self, Option.isSome_some, if_true, Option.bind_some,
          List.filterMap_cons, Mark.contents?_placed, hc, Option.getD_some, List.filterMap_nil]
        cases f old <;> rfl

/-- What is asked of new contents is what was asked of the old ones. -/
theorem filterMap_retarget {β : Type} {f : Text → Option β}
    (h : ∀ old new, g old = some new → f new = f old) {zs : List (Mark × Bool)}
    (hproper : ∀ z ∈ zs, z.1.Proper) :
    ((zs.map fun z => (retarget g z, z.2)).filterMap fun z =>
        if z.2 then z.1.token.contents?.bind f else none) =
      zs.filterMap fun z => if z.2 then z.1.token.contents?.bind f else none := by
  rw [List.filterMap_map]
  refine List.filterMap_congr fun z hz => ?_
  rw [Function.comp_apply, contents?_retarget (hproper z hz), retargeted?]
  cases z.2 with
  | false => rfl
  | true =>
    cases z.1.token.contents? with
    | none => rfl
    | some old =>
      cases hnew : g old with
      | none => simp [hnew]
      | some new => simp [hnew, h old new hnew]

-- ---------------------------------------------------------------------------
-- Tokens of the new text
-- ---------------------------------------------------------------------------

/-- The characters of a token once the specifiers of its script are exchanged. -/
def Script.exchanged (s : Script) (g : Text → Option Text) (tok : Token) : Text :=
  if tok ∈ s.specifiers then
    ((tok.contents?.bind g).map fun new => tok.text.take 1 ++ new ++ tok.text.take 1).getD tok.text
  else tok.text

theorem kind_text_retarget (z : Mark × Bool) :
    ((retarget g z).kind, (retarget g z).text) =
      (z.1.kind, if z.2 && z.1.token.contents?.isSome then
        ((z.1.token.contents?.bind g).map fun new =>
          z.1.text.take 1 ++ new ++ z.1.text.take 1).getD z.1.text else z.1.text) := by
  rw [retarget, retargeted?]
  cases z.2 with
  | false => rfl
  | true =>
    cases z.1.token.contents? with
    | none => rfl
    | some old => cases hnew : g old <;> simp [hnew, Mark.withContents]

/-- The tokens of a text whose specifiers are exchanged are as they were, but for what these say. -/
theorem tokenize_of_settles (hx : ∀ z ∈ Part.allFlags false t.parts, Exchangeable g z)
    (hs : Settles g [] (Part.allFlags false t.parts)) :
    (tokenize (applyInOrder 0 (retargetEdits g t.markSize (Part.allFlags false t.parts)) t)).map
        (fun tok => (tok.kind, tok.text)) =
      (tokenize t).map fun tok => (tok.kind, (Script.parse t).exchanged g tok) := by
  obtain ⟨hsize, htop, -, -⟩ := reading_of_settles hx hs
  have hplace : ∀ offset (ms : List Mark), (Mark.place offset ms).map
      (fun tok => (tok.kind, tok.text)) = ms.map fun m => (m.kind, m.text) := fun offset ms => by
    induction ms generalizing offset with
    | nil => rfl
    | cons m ms ih => rw [Mark.place_cons, List.map_cons, List.map_cons, ih]; rfl
  generalize applyInOrder 0 (retargetEdits g t.markSize (Part.allFlags false t.parts)) t = after
    at hsize htop ⊢
  have htokens : tokenize after =
      Mark.place t.markSize ((Part.allFlags false t.parts).map (retarget g)) := by
    rw [← hsize, ← htop]
    exact runFromTop_eq_place after.markSize after.body
  have hold := map_place_specifierTokens (f := fun tok b => (tok.kind,
    if b then ((tok.contents?.bind g).map fun new => tok.text.take 1 ++ new ++ tok.text.take 1).getD
      tok.text else tok.text)) (fun _ _ _ => rfl) (fun z hz => (hx z hz).1) t.markSize
  rw [Part.map_fst_allFlags, ← tokenize_eq_place, ← Script.specifiers_parse] at hold
  rw [htokens, hplace, List.map_map]
  refine Eq.trans ?_ (hold.symm.trans ?_)
  · exact List.map_congr_left fun z _ => kind_text_retarget z
  · refine List.map_congr_left fun tok _ => ?_
    simp only [decide_eq_true_eq, Script.exchanged]

end TidyImports
