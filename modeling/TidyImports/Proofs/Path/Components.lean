-- SUMMARY: The components of paths: of two that are joined, and of one that is put together.
import Mathlib.Data.List.Induction
import TidyImports.Path.Basic

/-!
# Components

The components of a path are those of its pieces, with the root in front when it
is absolute. Joining a relative path appends its pieces, so components that are
put together are the components of the path they make.
-/

namespace TidyImports

-- ---------------------------------------------------------------------------
-- Pieces
-- ---------------------------------------------------------------------------

theorem not_mem_of_mem_slashPieces {s piece : String} (h : piece ∈ slashPieces s) :
    '/' ∉ piece.toList := by
  obtain ⟨x, hx, rfl⟩ := List.mem_map.1 h
  rw [String.toList_ofList]
  clear h
  generalize s.toList = cs at hx
  induction cs generalizing x with
  | nil =>
    cases List.mem_singleton.1 hx
    exact List.not_mem_nil
  | cons c cs ih =>
    rw [List.splitOn_cons_eq_if_modifyHead] at hx
    split at hx
    · rcases List.mem_cons.1 hx with rfl | hx
      · exact List.not_mem_nil
      · exact ih x hx
    · next hc =>
      obtain ⟨y, ys, hsplit⟩ := List.exists_cons_of_ne_nil (List.splitOn_ne_nil '/' cs)
      rw [hsplit] at hx ih
      rcases List.mem_cons.1 hx with rfl | hx
      · rw [List.mem_cons, not_or]
        exact ⟨fun heq => hc (beq_iff_eq.2 heq.symm), ih y (List.mem_cons_self ..)⟩
      · exact ih x (List.mem_cons_of_mem _ hx)

theorem slashPieces_ne_nil (s : String) : slashPieces s ≠ [] := by
  rw [slashPieces, ne_eq, List.map_eq_nil_iff]
  exact List.splitOn_ne_nil '/' s.toList

theorem slashPieces_ofSlashPieces {pieces : List String} (h : ∀ piece ∈ pieces, '/' ∉ piece.toList)
    (hne : pieces ≠ []) : slashPieces (ofSlashPieces pieces) = pieces := by
  have hsplit : (['/'].intercalate (pieces.map String.toList)).splitOn '/' =
      pieces.map String.toList :=
    List.splitOn_intercalate '/' (List.forall_mem_map.2 h) (by simpa using hne)
  rw [slashPieces, ofSlashPieces, String.toList_intercalate]
  have hslash : "/".toList = ['/'] := rfl
  rw [hslash, hsplit, List.map_map]
  simp

theorem ofSlashPieces_slashPieces (s : String) : ofSlashPieces (slashPieces s) = s := by
  have hslash : "/".toList = ['/'] := rfl
  have hpieces : (slashPieces s).map String.toList = s.toList.splitOn '/' := by
    rw [slashPieces, List.map_map]
    simp
  rw [← String.toList_inj, ofSlashPieces, String.toList_intercalate, hpieces, hslash,
    List.intercalate_splitOn]

theorem slashPieces_append_slash (a b : String) :
    slashPieces (a ++ "/" ++ b) = slashPieces a ++ slashPieces b := by
  have hlist : (a ++ "/" ++ b).toList = a.toList ++ '/' :: b.toList := by
    simp [String.toList_append]
  rw [slashPieces, hlist, List.splitOn_append_cons_self, List.map_append]
  rfl

/-- A name leads from a directory to what is in it. -/
structure Path.IsName (name : String) : Prop where
  noSlash : '/' ∉ name.toList
  notVoid : ¬ Path.isVoid name
  notParent : name ≠ ".."

instance (name : String) : Decidable (Path.IsName name) :=
  decidable_of_iff (_ ∧ _ ∧ _) ⟨fun h => ⟨h.1, h.2.1, h.2.2⟩,
    fun h => ⟨h.noSlash, h.notVoid, h.notParent⟩⟩

theorem slashPieces_of_noSlash {s : String} (h : '/' ∉ s.toList) : slashPieces s = [s] := by
  rw [slashPieces, List.splitOn_eq_singleton h, List.map_singleton, String.ofList_toList]

theorem isAbsolute_of_noSlash {s : String} (h : '/' ∉ s.toList) :
    (Path.mk s).isAbsolute = false := by
  rw [Path.isAbsolute, beq_eq_false_iff_ne]
  intro hhead
  exact h (List.mem_of_head? hhead)

namespace Path

variable {piece : String} {pieces : List String}

theorem component_of_ne (h : piece ≠ "..") : component piece = .normal piece :=
  if_neg (by simpa using h)

theorem inner_append (a b : List String) : inner (a ++ b) = inner a ++ inner b := by
  rw [inner, List.filter_append, List.map_append]
  rfl

theorem inner_cons_of_isVoid (h : isVoid piece) : inner (piece :: pieces) = inner pieces := by
  rw [inner, List.filter_cons_of_neg (by simpa using h)]
  rfl

theorem inner_cons_of_not_isVoid (h : ¬ isVoid piece) :
    inner (piece :: pieces) = component piece :: inner pieces := by
  rw [inner, List.filter_cons_of_pos (by simpa using h)]
  rfl

/-- Pieces that do not climb go down by names. -/
theorem inner_of_not_mem (h : ".." ∉ pieces) :
    inner pieces = (pieces.filter (!isVoid ·)).map .normal := by
  rw [inner]
  refine List.map_congr_left fun piece hpiece => component_of_ne ?_
  rintro rfl
  exact h (List.mem_filter.1 hpiece).1

theorem isName_of_mem_filter (hslash : ∀ piece ∈ pieces, '/' ∉ piece.toList) (h : ".." ∉ pieces) :
    ∀ name ∈ pieces.filter (!isVoid ·), IsName name := by
  intro name hname
  obtain ⟨hmem, hvoid⟩ := List.mem_filter.1 hname
  refine ⟨hslash name hmem, by simpa using hvoid, ?_⟩
  rintro rfl
  exact h hmem

theorem parent_mem_inner : .parent ∈ inner pieces ↔ ".." ∈ pieces := by
  constructor
  · intro h
    refine Decidable.byContradiction fun hne => ?_
    rw [inner_of_not_mem hne] at h
    obtain ⟨name, -, hname⟩ := List.mem_map.1 h
    cases hname
  · exact fun h => List.mem_map.2 ⟨"..", List.mem_filter.2 ⟨h, rfl⟩, rfl⟩

end Path

-- ---------------------------------------------------------------------------
-- Components inside a path
-- ---------------------------------------------------------------------------

/-- Can a component stand anywhere in a path but at its start? -/
def Component.IsInner : Component → Prop
  | .parent => True
  | .normal name => Path.IsName name
  | _ => False

/-- What an absolute path starts with, and no other. -/
def Component.start (absolute : Bool) : List Component := if absolute then [.root] else []

namespace Component

variable {c : Component} {cs : List Component}

theorem IsInner.ne_root (h : c.IsInner) : c ≠ .root := by
  rintro rfl
  exact h

theorem IsInner.ne_current (h : c.IsInner) : c ≠ .current := by
  rintro rfl
  exact h

theorem IsInner.noSlash (h : c.IsInner) : '/' ∉ c.text.toList := by
  cases c with
  | root => exact h.elim
  | current => exact h.elim
  | parent => decide
  | normal name => exact Path.IsName.noSlash h

theorem IsInner.not_isVoid (h : c.IsInner) : ¬ Path.isVoid c.text := by
  cases c with
  | root => exact h.elim
  | current => exact h.elim
  | parent => decide
  | normal name => exact Path.IsName.notVoid h

theorem IsInner.component_text (h : c.IsInner) : Path.component c.text = c := by
  cases c with
  | root => exact h.elim
  | current => exact h.elim
  | parent => rfl
  | normal name => exact Path.component_of_ne h.notParent

/-- The pieces of components are read as them. -/
theorem inner_map_text (h : ∀ c ∈ cs, c.IsInner) : Path.inner (cs.map text) = cs := by
  induction cs with
  | nil => rfl
  | cons c cs ih =>
    have hc := h c (List.mem_cons_self ..)
    rw [List.map_cons, Path.inner_cons_of_not_isVoid hc.not_isVoid, hc.component_text,
      ih fun k hk => h k (List.mem_cons_of_mem _ hk)]

theorem isInner_of_mem_inner {pieces : List String} (h : ∀ piece ∈ pieces, '/' ∉ piece.toList)
    (hc : c ∈ Path.inner pieces) : c.IsInner := by
  obtain ⟨piece, hpiece, rfl⟩ := List.mem_map.1 hc
  obtain ⟨hmem, hvoid⟩ := List.mem_filter.1 hpiece
  by_cases hparent : piece = ".."
  · rw [hparent]
    exact trivial
  · rw [Path.component_of_ne hparent]
    exact ⟨h piece hmem, by simpa using hvoid, hparent⟩

end Component

-- ---------------------------------------------------------------------------
-- Components of a path
-- ---------------------------------------------------------------------------

namespace Path

variable {p q : Path} {cs : List Component} {pieces : List String}

theorem isInner_of_mem_inner (s : String) : ∀ c ∈ inner (slashPieces s), c.IsInner := fun _ =>
  Component.isInner_of_mem_inner fun _ => not_mem_of_mem_slashPieces

/-- The pieces of an absolute path, after the slash it starts with. -/
theorem slashPieces_of_isAbsolute {p : Path} (h : p.isAbsolute) :
    slashPieces p.text = "" :: p.body := by
  have hlead : p.lead? = some .root := if_pos h
  rw [isAbsolute, beq_iff_eq] at h
  obtain ⟨cs, hcs⟩ := List.head?_eq_some_iff.1 h
  have hpieces : slashPieces p.text = "" :: (cs.splitOn '/').map String.ofList := by
    rw [slashPieces, hcs, List.splitOn_cons_eq_if_modifyHead, beq_self_eq_true, if_pos rfl]
    rfl
  rw [body, hlead, hpieces]
  rfl

/-- All pieces may be looked at: the one that a path starts with is void when it is special. -/
theorem components_eq (p : Path) : p.components = p.lead?.toList ++ inner (slashPieces p.text) := by
  rw [components]
  congr 1
  by_cases hp : p.isAbsolute
  · rw [slashPieces_of_isAbsolute hp, inner_cons_of_isVoid rfl]
  · rw [body, lead?, if_neg hp]
    split
    · next hdot =>
      rw [beq_iff_eq] at hdot
      obtain ⟨rest, hrest⟩ := List.head?_eq_some_iff.1 hdot
      rw [hrest, inner_cons_of_isVoid rfl]
      rfl
    · rfl

/-- Names that are put together make a relative path. -/
theorem isAbsolute_ofSlashPieces (h : ∀ name ∈ pieces, IsName name) :
    (Path.mk (ofSlashPieces pieces)).isAbsolute = false := by
  cases pieces with
  | nil => rfl
  | cons name names =>
    rw [Bool.eq_false_iff]
    intro habsolute
    have hpieces := slashPieces_of_isAbsolute habsolute
    rw [slashPieces_ofSlashPieces (fun piece hpiece => (h piece hpiece).noSlash)
      (List.cons_ne_nil _ _)] at hpieces
    obtain ⟨rfl, -⟩ := List.cons.inj hpieces
    exact (h "" (List.mem_cons_self ..)).notVoid rfl

theorem inner_of_isName (h : ∀ name ∈ pieces, IsName name) : inner pieces = pieces.map .normal := by
  have htext : (pieces.map Component.normal).map Component.text = pieces := by
    rw [List.map_map]
    exact List.map_id' pieces
  have hinner : ∀ c ∈ pieces.map Component.normal, c.IsInner := List.forall_mem_map.2 h
  have := Component.inner_map_text hinner
  rwa [htext] at this

theorem lead?_of_isAbsolute (h : p.isAbsolute) : p.lead? = some .root := if_pos h

theorem components_of_isAbsolute (h : p.isAbsolute) :
    p.components = .root :: inner (slashPieces p.text) := by
  rw [components_eq, lead?_of_isAbsolute h]
  rfl

theorem lead?_of_not_isAbsolute (h : p.isAbsolute = false) :
    p.lead? = none ∨ p.lead? = some .current := by
  rw [lead?, h, if_neg Bool.false_ne_true]
  split
  · exact .inr rfl
  · exact .inl rfl

theorem isAbsolute_iff : p.isAbsolute ↔ .root ∈ p.components := by
  have hinner : .root ∉ inner (slashPieces p.text) := fun h =>
    (isInner_of_mem_inner _ _ h).ne_root rfl
  cases hp : p.isAbsolute with
  | true => simp [components_of_isAbsolute hp]
  | false =>
    rw [components_eq]
    rcases lead?_of_not_isAbsolute hp with h | h <;> simp [h, hinner]

theorem parent_mem_components : .parent ∈ p.components ↔ ".." ∈ slashPieces p.text := by
  rw [components_eq, List.mem_append, parent_mem_inner]
  cases hp : p.isAbsolute with
  | true => simp [lead?_of_isAbsolute hp]
  | false => rcases lead?_of_not_isAbsolute hp with h | h <;> simp [h]

theorem components_empty : (Path.mk "").components = [] := rfl

-- ---------------------------------------------------------------------------
-- Joined paths
-- ---------------------------------------------------------------------------

/-- The pieces of a joined path are those of both, but for an empty one between them. -/
theorem slashPieces_join (hq : q.isAbsolute = false) :
    ∃ front, slashPieces (p.join q).text = front ++ slashPieces q.text ∧
      (slashPieces p.text = front ∨ slashPieces p.text = front ++ [""]) := by
  rw [join, if_neg (by simp [hq])]
  split
  · next hend =>
    rcases Bool.or_eq_true_iff.1 hend with hend | hend
    · rw [String.isEmpty_iff.1 hend, String.empty_append]
      exact ⟨[], rfl, .inr rfl⟩
    · -- The text ends with a slash, and so its pieces with an empty one.
      obtain ⟨cs, hcs⟩ := List.getLast?_eq_some_iff.1 (eq_of_beq hend)
      have htext : p.text = String.ofList cs ++ "/" := by
        rw [← String.toList_inj, hcs, String.toList_append, String.toList_ofList]
        rfl
      have hp := slashPieces_append_slash (String.ofList cs) ""
      rw [String.append_empty] at hp
      refine ⟨slashPieces (String.ofList cs), ?_, .inr ?_⟩
      · rw [htext, slashPieces_append_slash]
      · rw [htext, hp]
        rfl
  · exact ⟨slashPieces p.text, slashPieces_append_slash .., .inl rfl⟩

theorem inner_join (hq : q.isAbsolute = false) :
    inner (slashPieces (p.join q).text) =
      inner (slashPieces p.text) ++ inner (slashPieces q.text) := by
  obtain ⟨front, hpieces, hfront | hfront⟩ := slashPieces_join (p := p) hq
  · rw [hpieces, inner_append, hfront]
  · have hlast : inner [""] = [] := rfl
    rw [hpieces, inner_append, hfront, inner_append, hlast, List.append_nil]

theorem isAbsolute_join {p q : Path} (hp : p.isAbsolute) : (p.join q).isAbsolute := by
  have happend : ∀ x : String, (Path.mk (p.text ++ x)).isAbsolute := fun x => by
    rw [isAbsolute, beq_iff_eq] at hp ⊢
    rw [String.toList_append, List.head?_append, hp]
    rfl
  rw [join]
  split
  · next h => exact h
  · split
    · exact happend _
    · rw [String.append_assoc]
      exact happend _

/-- What a path starts with does not change when something is joined to it. -/
theorem lead?_join (hp : p.text ≠ "") (hq : q.isAbsolute = false) : (p.join q).lead? = p.lead? := by
  obtain ⟨c, cs, hcs⟩ := List.exists_cons_of_ne_nil (mt String.toList_eq_nil_iff.1 hp)
  have habsolute : (p.join q).isAbsolute = p.isAbsolute := by
    rw [join, if_neg (by simp [hq])]
    split <;> simp [isAbsolute, String.toList_append, hcs]
  obtain ⟨front, hpieces, hfront⟩ := slashPieces_join (p := p) hq
  have hhead : (slashPieces (p.join q).text).head? = (slashPieces p.text).head? := by
    cases front with
    | cons piece front =>
      rw [hpieces]
      rcases hfront with hfront | hfront <;> rw [hfront] <;> rfl
    | nil =>
      -- Only the empty path has no piece in front of an empty one.
      refine absurd ?_ hp
      rcases hfront with hfront | hfront
      · exact absurd hfront (slashPieces_ne_nil _)
      · rw [← ofSlashPieces_slashPieces p.text, hfront]
        rfl
  rw [lead?, lead?, habsolute, hhead]

theorem components_join (hp : p.text ≠ "") (hq : q.isAbsolute = false) :
    (p.join q).components = p.components ++ inner (slashPieces q.text) := by
  rw [components_eq, components_eq, lead?_join hp hq, inner_join hq, List.append_assoc]

theorem components_join_of_isAbsolute (hp : p.isAbsolute) (hq : q.isAbsolute = false) :
    (p.join q).components = p.components ++ inner (slashPieces q.text) := by
  rw [components_of_isAbsolute (isAbsolute_join hp), components_of_isAbsolute hp, inner_join hq,
    List.cons_append]

theorem empty_join (q : Path) : (Path.mk "").join q = q := by
  rw [join]
  split
  · rfl
  · simp

-- ---------------------------------------------------------------------------
-- Paths put together
-- ---------------------------------------------------------------------------

theorem components_text {c : Component} (h : c.IsInner) : (Path.mk c.text).components = [c] := by
  have hpieces : slashPieces c.text = [c.text] := slashPieces_of_noSlash h.noSlash
  have hlead : (Path.mk c.text).lead? = none := by
    have hdot : (some c.text == some ".") = false := by
      rw [beq_eq_false_iff_ne]
      intro heq
      exact h.not_isVoid (by rw [Option.some.inj heq]; rfl)
    rw [lead?, isAbsolute_of_noSlash h.noSlash, hpieces, List.head?_cons, hdot]
    rfl
  rw [components_eq, hlead, hpieces, inner_cons_of_not_isVoid h.not_isVoid, h.component_text]
  rfl

theorem components_ofComponents {absolute : Bool} (h : ∀ c ∈ cs, c.IsInner) :
    (ofComponents (Component.start absolute ++ cs)).components =
      Component.start absolute ++ cs := by
  induction cs using List.reverseRecOn with
  | nil => cases absolute <;> rfl
  | append_singleton cs c ih =>
    have hc := h c (by simp)
    have ih := ih fun k hk => h k (List.mem_append_left _ hk)
    have hjoin : ofComponents (Component.start absolute ++ (cs ++ [c])) =
        (ofComponents (Component.start absolute ++ cs)).join ⟨c.text⟩ := by
      simp [ofComponents]
    by_cases hempty : (ofComponents (Component.start absolute ++ cs)).text = ""
    · have hnil : Component.start absolute ++ cs = [] := by
        rw [← ih, ← components_empty, ← hempty]
      rw [hjoin, ← List.append_assoc, hnil, List.nil_append, ← components_text hc]
      exact congrArg components (empty_join _)
    · rw [hjoin, components_join hempty (isAbsolute_of_noSlash hc.noSlash), ih,
        slashPieces_of_noSlash hc.noSlash, inner_cons_of_not_isVoid hc.not_isVoid,
        hc.component_text, List.append_assoc]
      rfl

end Path

end TidyImports
