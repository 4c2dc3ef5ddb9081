-- SUMMARY: Normal paths: what normalizing leaves, and what it makes of two paths that are joined.
import TidyImports.Path.Normal
import TidyImports.Proofs.Path.Components

/-!
# Normal paths

A normal path may start at the root; then it climbs, then it goes down by names.
Normalizing makes every path such a one and keeps those that are. It follows the
components one by one, so of a joined path it follows those of the first and then
those of the second.
-/

namespace TidyImports

namespace Component

variable {c : Component} {cs ds stack : List Component}

/-- Do components climb first, and then only go down? The root may stand before them. -/
def IsNormal (cs : List Component) : Prop :=
  ∃ (absolute : Bool) (climbs : Nat) (names : List String), (∀ name ∈ names, Path.IsName name) ∧
    cs = start absolute ++ List.replicate climbs .parent ++ names.map .normal

-- ---------------------------------------------------------------------------
-- Following components
-- ---------------------------------------------------------------------------

theorem foldl_push_names (stack : List Component) (names : List String) :
    (names.map normal).foldl push stack = (names.map normal).reverse ++ stack := by
  induction names generalizing stack with
  | nil => rfl
  | cons name names ih =>
    rw [List.map_cons, List.foldl_cons, ih, List.reverse_cons, List.append_assoc]
    rfl

/-- Where there is no name to take back, climbs are kept. -/
theorem foldl_push_climbs (absolute : Bool) (climbs : Nat) :
    (List.replicate climbs parent).foldl push (start absolute) =
      List.replicate climbs parent ++ start absolute := by
  induction climbs with
  | zero => rfl
  | succ climbs ih =>
    rw [List.replicate_succ', List.foldl_append, ih, ← List.replicate_succ']
    cases climbs <;> cases absolute <;> rfl

/-- As many climbs as names lead back to where the names started. -/
theorem foldl_push_back (stack : List Component) (names : List String) :
    (List.replicate names.length parent).foldl push ((names.map normal).reverse ++ stack) =
      stack := by
  induction names using List.reverseRecOn with
  | nil => rfl
  | append_singleton names name ih =>
    rw [List.length_append, List.length_singleton, List.replicate_succ, List.map_append,
      List.reverse_append, List.foldl_cons]
    exact ih

theorem IsNormal.foldl_push (h : IsNormal cs) : cs.foldl push [] = cs.reverse := by
  obtain ⟨absolute, climbs, names, -, rfl⟩ := h
  have hstart : (start absolute).foldl push [] = start absolute := by cases absolute <;> rfl
  have hreverse : (start absolute).reverse = start absolute := by cases absolute <;> rfl
  rw [List.foldl_append, List.foldl_append, hstart, foldl_push_climbs, foldl_push_names]
  simp [hreverse]

theorem root_mem_foldl_push {cs stack : List Component} :
    root ∈ cs.foldl push stack ↔ root ∈ stack ∨ root ∈ cs := by
  have hpush : ∀ (stack : List Component) c, root ∈ push stack c ↔ root ∈ stack ∨ root = c := by
    intro stack c
    cases c with
    | root => simp [push]
    | current => simp [push]
    | normal name => simp [push]
    | parent =>
      cases stack with
      | nil => simp [push]
      | cons top outer => cases top <;> simp [push]
  induction cs generalizing stack with
  | nil => simp
  | cons c cs ih =>
    rw [List.foldl_cons, List.mem_cons, ← or_assoc, ← hpush]
    exact ih

theorem IsNormal.normalize_eq (h : IsNormal cs) : normalize cs = cs := by
  rw [normalize, h.foldl_push, List.reverse_reverse]

-- ---------------------------------------------------------------------------
-- Normal components
-- ---------------------------------------------------------------------------

theorem isNormal_start (absolute : Bool) : IsNormal (start absolute) :=
  ⟨absolute, 0, [], by simp, by simp⟩

theorem IsNormal.isInner (h : IsNormal cs) :
    ∃ absolute inner, cs = start absolute ++ inner ∧ ∀ c ∈ inner, c.IsInner := by
  obtain ⟨absolute, climbs, names, hnames, rfl⟩ := h
  refine ⟨absolute, List.replicate climbs .parent ++ names.map .normal, List.append_assoc .., ?_⟩
  intro c hc
  rcases List.mem_append.1 hc with hc | hc
  · rw [List.eq_of_mem_replicate hc]
    exact trivial
  · obtain ⟨name, hname, rfl⟩ := List.mem_map.1 hc
    exact hnames name hname

/-- What the last of normal components can be, and what is before it. -/
theorem IsNormal.of_concat (h : IsNormal (cs ++ [c])) : IsNormal cs := by
  obtain ⟨absolute, climbs, names, hnames, heq⟩ := h
  rcases List.eq_nil_or_concat names with rfl | ⟨names, name, rfl⟩
  · cases climbs with
    | zero =>
      cases absolute with
      | false => simp [start] at heq
      | true =>
        have hnil : cs = [] := by
          have hlen := congrArg List.length heq
          exact List.length_eq_zero_iff.1 (by simpa [start] using hlen)
        rw [hnil]
        exact isNormal_start false
    | succ climbs =>
      rw [List.replicate_succ', List.map_nil, List.append_nil, ← List.append_assoc] at heq
      obtain ⟨rfl, -⟩ := List.append_inj' heq rfl
      exact ⟨absolute, climbs, [], by simp, by simp⟩
  · rw [List.concat_eq_append, List.map_append, ← List.append_assoc] at heq
    obtain ⟨rfl, -⟩ := List.append_inj' heq rfl
    exact ⟨absolute, climbs, names, fun n hn => hnames n (by simp [hn]), rfl⟩

theorem IsNormal.append_names {names : List String} (h : IsNormal cs)
    (hnames : ∀ name ∈ names, Path.IsName name) : IsNormal (cs ++ names.map normal) := by
  obtain ⟨absolute, climbs, first, hfirst, rfl⟩ := h
  refine ⟨absolute, climbs, first ++ names, fun name hname => ?_, by simp⟩
  exact (List.mem_append.1 hname).elim (hfirst name) (hnames name)

theorem IsNormal.of_append (h : IsNormal (cs ++ ds)) : IsNormal cs := by
  induction ds using List.reverseRecOn with
  | nil => rwa [List.append_nil] at h
  | append_singleton ds c ih =>
    rw [← List.append_assoc] at h
    exact ih h.of_concat

/-- Behind a name there are only names. -/
theorem IsNormal.names_of_cons {name : String} (h : IsNormal (cs ++ normal name :: ds)) :
    ∃ names : List String, ds = names.map .normal ∧ ∀ n ∈ names, Path.IsName n := by
  induction ds using List.reverseRecOn with
  | nil => exact ⟨[], rfl, by simp⟩
  | append_singleton ds c ih =>
    rw [← List.cons_append, ← List.append_assoc] at h
    obtain ⟨front, hfront, hnames⟩ := ih h.of_concat
    obtain ⟨absolute, climbs, names, hall, heq⟩ := h
    rcases List.eq_nil_or_concat names with rfl | ⟨names, last, rfl⟩
    · -- Without a name the components would be the root and climbs.
      have hmem : normal name ∈ start absolute ++ List.replicate climbs parent ++ [] := by
        rw [List.map_nil] at heq
        rw [← heq]
        simp
      cases absolute <;> simp [start] at hmem
    · rw [List.concat_eq_append, List.map_append, ← List.append_assoc] at heq
      obtain ⟨-, hc⟩ := List.append_inj' heq rfl
      refine ⟨front ++ [last], by rw [hfront, hc, List.map_append], fun n hn => ?_⟩
      rcases List.mem_append.1 hn with hn | hn
      · exact hnames n hn
      · rw [List.mem_singleton.1 hn]
        exact hall last (by simp)

theorem IsNormal.push (h : IsNormal stack.reverse) (hc : c.IsInner) :
    IsNormal (push stack c).reverse := by
  obtain ⟨absolute, climbs, names, hnames, heq⟩ := h
  rw [List.reverse_eq_iff] at heq
  subst heq
  cases c with
  | root => exact hc.elim
  | current => exact hc.elim
  | normal name =>
    refine ⟨absolute, climbs, names ++ [name], fun n hn => ?_, by simp [Component.push]⟩
    rcases List.mem_append.1 hn with hn | hn
    · exact hnames n hn
    · rw [List.mem_singleton.1 hn]
      exact hc
  | parent =>
    rcases List.eq_nil_or_concat names with rfl | ⟨names, name, rfl⟩
    · refine ⟨absolute, climbs + 1, [], by simp, ?_⟩
      rw [List.replicate_succ', List.map_nil, List.append_nil, List.append_nil]
      cases climbs with
      | zero => cases absolute <;> rfl
      | succ climbs =>
        rw [List.replicate_succ', ← List.append_assoc, List.reverse_append]
        simp [Component.push]
    · exact ⟨absolute, climbs, names, fun n hn => hnames n (by simp [hn]), by simp [Component.push]⟩

theorem IsNormal.foldl (h : IsNormal stack.reverse) (hcs : ∀ c ∈ cs, c.IsInner) :
    IsNormal (cs.foldl Component.push stack).reverse := by
  induction cs generalizing stack with
  | nil => exact h
  | cons c cs ih =>
    exact ih (h.push (hcs c (List.mem_cons_self ..))) fun k hk => hcs k (List.mem_cons_of_mem _ hk)

end Component

-- ---------------------------------------------------------------------------
-- Paths
-- ---------------------------------------------------------------------------

namespace Path

open Component (IsNormal push start)

variable {p q : Path}

theorem isNormal_normalize (p : Path) : IsNormal (Component.normalize p.components) := by
  have hinner := isInner_of_mem_inner p.text
  rw [Component.normalize, components_eq, List.foldl_append]
  cases hp : p.isAbsolute with
  | true =>
    rw [lead?_of_isAbsolute hp]
    have hstart : IsNormal ([.root] : List Component).reverse := Component.isNormal_start true
    exact hstart.foldl hinner
  | false =>
    have hnil : p.lead?.toList.foldl push [] = [] := by
      rcases lead?_of_not_isAbsolute hp with h | h <;> rw [h] <;> rfl
    rw [hnil]
    have hstart : IsNormal ([] : List Component).reverse := Component.isNormal_start false
    exact hstart.foldl hinner

theorem components_of_isNormal {cs : List Component} (h : IsNormal cs) :
    (ofComponents cs).components = cs := by
  obtain ⟨absolute, inner, rfl, hinner⟩ := h.isInner
  exact components_ofComponents hinner

theorem components_normalize (p : Path) :
    p.normalize.components = Component.normalize p.components :=
  components_of_isNormal (isNormal_normalize p)

theorem normalize_eq_iff :
    p.normalize = q.normalize ↔
      Component.normalize p.components = Component.normalize q.components := by
  refine ⟨fun h => ?_, congrArg ofComponents⟩
  rw [← components_normalize, h, components_normalize]

@[simp] theorem isAbsolute_normalize (p : Path) : p.normalize.isAbsolute = p.isAbsolute := by
  rw [Bool.eq_iff_iff, isAbsolute_iff, isAbsolute_iff, components_normalize, Component.normalize,
    List.mem_reverse, Component.root_mem_foldl_push]
  simp

theorem normalize_normalize (p : Path) : p.normalize.normalize = p.normalize := by
  rw [normalize_eq_iff, components_normalize, (isNormal_normalize p).normalize_eq]

/-- A relative path is followed by its pieces. -/
theorem foldl_push_inner (hq : q.isAbsolute = false) (stack : List Component) :
    (inner (slashPieces q.text)).foldl push stack = q.components.foldl push stack := by
  rw [components_eq]
  rcases lead?_of_not_isAbsolute hq with h | h <;> rw [h] <;> rfl

/-- Of a joined path, the components of the first are followed and then those of the second. -/
theorem foldl_push_join (hq : q.isAbsolute = false) :
    (p.join q).components.foldl push [] =
      q.components.foldl push (p.components.foldl push []) := by
  by_cases hp : p.text = ""
  · obtain rfl : p = ⟨""⟩ := congrArg Path.mk hp
    rw [empty_join]
    rfl
  · rw [components_join hp hq, List.foldl_append, foldl_push_inner hq]

/-- An absolute path that does not climb goes down from the root by names. -/
theorem exists_names (hp : p.isAbsolute) (hclimb : .parent ∉ p.components) :
    ∃ names : List String, (∀ name ∈ names, IsName name) ∧
      p.components = start true ++ names.map .normal := by
  rw [parent_mem_components] at hclimb
  refine ⟨_, isName_of_mem_filter (fun _ => not_mem_of_mem_slashPieces) hclimb, ?_⟩
  rw [components_of_isAbsolute hp, inner_of_not_mem hclimb]
  rfl

theorem isNormal_of_not_climbing (hp : p.isAbsolute) (hclimb : .parent ∉ p.components) :
    IsNormal p.components := by
  obtain ⟨names, hnames, heq⟩ := exists_names hp hclimb
  exact ⟨true, 0, names, hnames, by rw [heq]; rfl⟩

/-- The directory of a normal path is normal, and the path is in it. -/
theorem components_of_parent? (hp : IsNormal p.components) (h : p.parent? = some q) :
    ∃ c, p.components = q.components ++ [c] ∧ IsNormal q.components ∧
      q.isAbsolute = p.isAbsolute := by
  rw [parent?] at h
  split at h
  · cases h
  · cases h
  · next c outer hne hreverse =>
    rw [List.reverse_eq_cons_iff] at hreverse
    cases h
    rw [hreverse] at hp
    have hq := components_of_isNormal hp.of_concat
    refine ⟨c, by rw [hq, hreverse], by rw [hq]; exact hp.of_concat, ?_⟩
    rw [Bool.eq_iff_iff, isAbsolute_iff, isAbsolute_iff, hq, hreverse, List.mem_append,
      List.mem_singleton]
    have hc : .root ≠ c := by
      rintro rfl
      exact hne rfl
    simp [hc]

end Path

end TidyImports
