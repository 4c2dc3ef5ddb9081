-- SUMMARY: The way from a directory to a target leads to the target.
import TidyImports.Path.Relative
import TidyImports.Proofs.Path.Normal

/-!
# Ways

From a directory to a target one climbs out of what they do not share, and then
goes down. Followed from the directory, this way and the specifier that is made
of it lead to the target, unless only one of the two is absolute.
-/

namespace TidyImports

namespace Component

variable {c : Component} {cs target base shared ts bs way : List Component} {names : List String}

-- ---------------------------------------------------------------------------
-- What two paths share
-- ---------------------------------------------------------------------------

theorem exists_shared (target base : List Component) :
    ∃ shared ts bs, target = shared ++ ts ∧ base = shared ++ bs ∧ ∀ c ∈ ts.head?, c ∉ bs.head? := by
  induction target generalizing base with
  | nil => exact ⟨[], [], base, rfl, rfl, by simp⟩
  | cons t target ih =>
    cases base with
    | nil => exact ⟨[], t :: target, [], rfl, rfl, by simp⟩
    | cons b base =>
      by_cases h : t = b
      · obtain ⟨shared, ts, bs, rfl, rfl, hne⟩ := ih base
        exact ⟨t :: shared, ts, bs, rfl, by rw [h]; rfl, hne⟩
      · exact ⟨[], t :: target, b :: base, rfl, rfl, by simpa using Ne.symm h⟩

theorem difference?_append (shared ts bs : List Component) :
    difference? false (shared ++ ts) (shared ++ bs) = difference? false ts bs := by
  induction shared with
  | nil => rfl
  | cons c shared ih =>
    rw [List.cons_append, List.cons_append, difference?, if_pos (by simp), ih]

theorem difference?_nil (started : Bool) (bs : List Component) :
    difference? started [] bs = some (List.replicate bs.length parent) := by
  induction bs generalizing started with
  | nil => rw [difference?]; rfl
  | cons b bs ih => rw [difference?, ih]; rfl

/-- Where a directory goes on by a name and the target does not go on like it, the rest of the
directory is climbed out of. -/
theorem difference?_apart (hne : ∀ c ∈ ts.head?, c ∉ bs.head?)
    (hbs : ∀ c ∈ bs.head?, c ≠ current ∧ c ≠ parent) :
    difference? false ts bs = some (List.replicate bs.length parent ++ ts) := by
  cases bs with
  | nil => cases ts <;> rw [difference?] <;> rfl
  | cons b bs =>
    cases ts with
    | nil => rw [difference?_nil, List.append_nil]
    | cons t ts =>
      obtain ⟨hcurrent, hparent⟩ := hbs b rfl
      have htb : ¬ (!false && t == b) = true := by simpa using Ne.symm (by simpa using hne t rfl)
      rw [difference?, if_neg htb, if_neg hcurrent, if_neg hparent, List.map_const']
      rfl

/-- From a directory that does not climb there is a way to every target. -/
theorem difference?_isSome (hcurrent : current ∉ base) (hparent : parent ∉ base) :
    (difference? false target base).isSome := by
  obtain ⟨shared, ts, bs, rfl, rfl, hne⟩ := exists_shared target base
  rw [difference?_append, difference?_apart hne fun c hc => ?_]
  · rfl
  · have hmem : c ∈ shared ++ bs := List.mem_append_right _ (List.mem_of_head? hc)
    exact ⟨fun h => hcurrent (h ▸ hmem), fun h => hparent (h ▸ hmem)⟩

-- ---------------------------------------------------------------------------
-- Ways between normal paths
-- ---------------------------------------------------------------------------

theorem IsNormal.eq_nil_of_root (h : IsNormal (cs ++ root :: ts)) : cs = [] := by
  obtain ⟨absolute, inner, heq, hinner⟩ := h.isInner
  cases cs with
  | nil => rfl
  | cons c cs =>
    have hroot : root ∈ inner := by
      cases absolute with
      | false =>
        rw [show start false ++ inner = inner from rfl] at heq
        exact heq ▸ List.mem_cons_of_mem _ (by simp)
      | true =>
        have hinner : cs ++ root :: ts = inner := (List.cons.inj heq).2
        rw [← hinner]
        simp
    exact absurd rfl (hinner root hroot).ne_root

theorem IsNormal.current_not_mem (h : IsNormal cs) : current ∉ cs := by
  obtain ⟨absolute, inner, rfl, hinner⟩ := h.isInner
  have hcurrent : current ∉ inner := fun hmem => (hinner _ hmem).ne_current rfl
  cases absolute <;> simp [start, hcurrent]

theorem IsNormal.isInner_of_mem (h : IsNormal cs) (hc : c ∈ cs) (hne : c ≠ root) : c.IsInner := by
  obtain ⟨absolute, inner, rfl, hinner⟩ := h.isInner
  rcases List.mem_append.1 hc with hc | hc
  · cases absolute with
    | false => cases hc
    | true => exact absurd (List.mem_singleton.1 hc) hne
  · exact hinner c hc

/-- What a target does not share with a directory, is below its root. -/
theorem root_not_mem_apart (ht : IsNormal (shared ++ ts)) (hroot : root ∈ shared ++ bs)
    (hne : ∀ c ∈ ts.head?, c ∉ bs.head?) (hb : IsNormal (shared ++ bs)) : root ∉ ts := by
  intro hmem
  obtain ⟨front, back, rfl⟩ := List.append_of_mem hmem
  rw [← List.append_assoc] at ht
  obtain ⟨rfl, rfl⟩ := List.append_eq_nil_iff.1 ht.eq_nil_of_root
  obtain ⟨front, back, hbs⟩ := List.append_of_mem hroot
  rw [List.nil_append] at hb hbs
  rw [hbs] at hb hne
  obtain rfl := hb.eq_nil_of_root
  exact absurd rfl (hne root rfl)

/-- What a directory does not share with a target that there is a way to, are names. -/
theorem names_of_apart (ht : IsNormal (shared ++ ts)) (hb : IsNormal (shared ++ bs))
    (hroot : root ∈ shared ++ ts ↔ root ∈ shared ++ bs) (hne : ∀ c ∈ ts.head?, c ∉ bs.head?)
    (hname : parent ∈ shared ++ bs → ∃ name, (shared ++ ts).getLast? = some (normal name))
    (h : (difference? false ts bs).isSome) : ∃ names : List String, bs = names.map normal := by
  cases bs with
  | nil => exact ⟨[], rfl⟩
  | cons b bs =>
    cases b with
    | root =>
      refine absurd (List.mem_cons_self ..) (root_not_mem_apart hb (hroot.2 (by simp)) ?_ ht)
      exact fun c hc ht => hne c ht hc
    | current => exact absurd (by simp) hb.current_not_mem
    | normal name =>
      obtain ⟨names, rfl, -⟩ := hb.names_of_cons
      exact ⟨name :: names, rfl⟩
    | parent =>
      cases ts with
      | cons t ts =>
        have htb : ¬ (!false && t == parent) = true := by
          simpa using Ne.symm (by simpa using hne t rfl)
        rw [difference?, if_neg htb, if_neg (by simp), if_pos rfl] at h
        cases h
      | nil =>
        -- A name of the target would stand before a climb of the directory.
        obtain ⟨name, hlast⟩ := hname (by simp)
        rw [List.append_nil] at hlast
        obtain ⟨front, rfl⟩ := List.getLast?_eq_some_iff.1 hlast
        rw [List.append_assoc] at hb
        obtain ⟨names, hnames, -⟩ := IsNormal.names_of_cons hb
        cases names <;> cases hnames

/-- The way from a normal directory to a normal target: names are climbed out of, and what follows
is gone down. It must not be asked for from a directory that climbs to a place above it. -/
theorem exists_way (ht : IsNormal target) (hb : IsNormal base) (hroot : root ∈ target ↔ root ∈ base)
    (hname : parent ∈ base → ∃ name, target.getLast? = some (normal name))
    (h : difference? false target base = some way) :
    ∃ (shared ts : List Component) (names : List String),
      target = shared ++ ts ∧ base = shared ++ names.map normal ∧
        way = List.replicate names.length parent ++ ts ∧ ∀ c ∈ ts, c.IsInner := by
  obtain ⟨shared, ts, bs, rfl, rfl, hne⟩ := exists_shared target base
  rw [difference?_append] at h
  obtain ⟨names, rfl⟩ := names_of_apart ht hb hroot hne hname (Option.isSome_of_eq_some h)
  refine ⟨shared, ts, names, rfl, rfl, ?_, fun c hc => ht.isInner_of_mem (by simp [hc]) ?_⟩
  · rw [difference?_apart hne fun c hc => ?_] at h
    · rw [List.length_map] at h
      exact (Option.some.inj h).symm
    · obtain ⟨name, -, rfl⟩ := List.mem_map.1 (List.mem_of_head? hc)
      exact ⟨Component.noConfusion, Component.noConfusion⟩
  · rintro rfl
    exact root_not_mem_apart ht (hroot.1 (by simp [hc])) hne hb hc

/-- The way leads from the directory to the target. -/
theorem foldl_push_way (ht : IsNormal (shared ++ ts)) :
    (List.replicate names.length parent ++ ts).foldl push (shared ++ names.map normal).reverse =
      (shared ++ ts).reverse := by
  rw [List.foldl_append, List.reverse_append, foldl_push_back, ← ht.of_append.foldl_push,
    ← List.foldl_append, ht.foldl_push]

end Component

-- ---------------------------------------------------------------------------
-- Specifiers
-- ---------------------------------------------------------------------------

namespace Path

open Component (IsNormal push start)

variable {target dir : Path} {way : List Component} {new : String}

/-- The module specifier that goes a way. -/
def specifierOf (way : List Component) : String :=
  let joined := ofSlashPieces (way.map Component.text)
  if isRelativeSpecifier joined then joined else "./" ++ joined

theorem head?_of_isRelativeSpecifier {s : String} (h : isRelativeSpecifier s) :
    s.toList.head? = some '.' := by
  rcases Bool.or_eq_true_iff.1 h with h | h
  all_goals
    obtain ⟨rest, hrest⟩ := List.isPrefixOf_iff_prefix.1 h
    rw [← hrest]
    rfl

theorem isAbsolute_of_isRelativeSpecifier {s : String} (h : isRelativeSpecifier s) :
    (Path.mk s).isAbsolute = false := by
  rw [isAbsolute, head?_of_isRelativeSpecifier h]
  rfl

theorem isRelativeSpecifier_specifierOf (way : List Component) :
    isRelativeSpecifier (specifierOf way) := by
  rw [specifierOf]
  split
  · next hrelative => exact hrelative
  · simp [isRelativeSpecifier]

theorem isRelativeSpecifier_relativeSpecifier? (h : relativeSpecifier? target dir = some new) :
    isRelativeSpecifier new := by
  obtain ⟨path, -, rfl⟩ := Option.map_eq_some_iff.1 h
  exact isRelativeSpecifier_specifierOf path.components

/-- The specifier's pieces are those of the way, perhaps after a `.`. -/
theorem slashPieces_specifierOf (hway : ∀ c ∈ way, c.IsInner) (hne : way ≠ []) :
    slashPieces (specifierOf way) = way.map Component.text ∨
      slashPieces (specifierOf way) = "." :: way.map Component.text := by
  have hpieces : slashPieces (ofSlashPieces (way.map Component.text)) = way.map Component.text :=
    slashPieces_ofSlashPieces (List.forall_mem_map.2 fun c hc => (hway c hc).noSlash)
      (by simpa using hne)
  rw [specifierOf]
  split
  · exact .inl hpieces
  · right
    have := slashPieces_append_slash "." (ofSlashPieces (way.map Component.text))
    rw [hpieces] at this
    exact this

theorem inner_specifierOf (hway : ∀ c ∈ way, c.IsInner) :
    inner (slashPieces (specifierOf way)) = way := by
  cases way with
  | nil => rfl
  | cons c way =>
    rcases slashPieces_specifierOf hway (List.cons_ne_nil _ _) with h | h
    · rw [h, Component.inner_map_text hway]
    · rw [h, inner_cons_of_isVoid rfl, Component.inner_map_text hway]

theorem isInner_way {names : List String} {ts : List Component} (hts : ∀ c ∈ ts, c.IsInner) :
    ∀ c ∈ List.replicate names.length .parent ++ ts, c.IsInner := by
  intro c hc
  rcases List.mem_append.1 hc with hc | hc
  · rw [List.eq_of_mem_replicate hc]
    exact trivial
  · exact hts c hc

/-- The specifier for a normal target in a normal directory, by what they share. -/
theorem exists_specifierOf (ht : IsNormal target.components) (hd : IsNormal dir.components)
    (hsame : target.isAbsolute = dir.isAbsolute)
    (hname : .parent ∈ dir.components → target.fileName?.isSome)
    (h : relativeSpecifier? target dir = some new) :
    ∃ (shared ts : List Component) (names : List String), target.components = shared ++ ts ∧
      dir.components = shared ++ names.map .normal ∧ (∀ c ∈ ts, c.IsInner) ∧
      new = specifierOf (List.replicate names.length .parent ++ ts) := by
  obtain ⟨path, hpath, rfl⟩ := Option.map_eq_some_iff.1 h
  rw [difference?, hsame, bne_self_eq_false, if_neg Bool.false_ne_true] at hpath
  obtain ⟨way, hway, rfl⟩ := Option.map_eq_some_iff.1 hpath
  have hroot : .root ∈ target.components ↔ .root ∈ dir.components := by
    rw [← isAbsolute_iff, ← isAbsolute_iff, hsame]
  have hlast : .parent ∈ dir.components →
      ∃ name, target.components.getLast? = some (.normal name) := fun hparent => by
    obtain ⟨name, hname⟩ := Option.isSome_iff_exists.1 (hname hparent)
    rw [fileName?] at hname
    obtain ⟨c, hc, hcname⟩ := Option.bind_eq_some_iff.1 hname
    cases c <;> cases hcname
    exact ⟨_, hc⟩
  obtain ⟨shared, ts, names, htarget, hdir, rfl, hts⟩ := Component.exists_way ht hd hroot hlast hway
  refine ⟨shared, ts, names, htarget, hdir, hts, ?_⟩
  have hcomponents :
      (ofComponents (start false ++ (List.replicate names.length .parent ++ ts))).components =
        start false ++ (List.replicate names.length .parent ++ ts) :=
    components_ofComponents (isInner_way hts)
  rw [show start false ++ _ = _ from List.nil_append _] at hcomponents
  simp only [hcomponents]
  rfl

/-- The specifier leads from the directory to the target. -/
theorem normalize_join_relativeSpecifier? (ht : IsNormal target.components)
    (hd : IsNormal dir.components) (hsame : target.isAbsolute = dir.isAbsolute)
    (hname : .parent ∈ dir.components → target.fileName?.isSome)
    (h : relativeSpecifier? target dir = some new) :
    (dir.join ⟨new⟩).normalize = target.normalize := by
  obtain ⟨shared, ts, names, htarget, hdir, hts, rfl⟩ := exists_specifierOf ht hd hsame hname h
  have hrelative := isAbsolute_of_isRelativeSpecifier (isRelativeSpecifier_specifierOf
    (List.replicate names.length .parent ++ ts))
  rw [normalize_eq_iff, Component.normalize, foldl_push_join hrelative,
    ← foldl_push_inner hrelative, inner_specifierOf (isInner_way hts), hd.foldl_push, hdir,
    Component.foldl_push_way (htarget ▸ ht), ht.normalize_eq, htarget, List.reverse_reverse]

/-- From a directory that does not climb there is a specifier for every target, unless only one of
them is absolute. -/
theorem exists_relativeSpecifier? (hsame : target.isAbsolute = dir.isAbsolute)
    (hcurrent : .current ∉ dir.components) (hclimb : .parent ∉ dir.components) :
    ∃ new, relativeSpecifier? target dir = some new := by
  have hway := @Component.difference?_isSome target.components dir.components hcurrent hclimb
  rw [← Option.isSome_iff_exists, relativeSpecifier?, difference?, hsame, bne_self_eq_false,
    if_neg Bool.false_ne_true, Option.isSome_map, Option.isSome_map]
  exact hway

/-- There is a specifier for every absolute target in an absolute directory that does not climb. -/
theorem relativeSpecifier?_isSome (ht : target.isAbsolute) (hd : dir.isAbsolute)
    (hclimb : .parent ∉ dir.components) : (relativeSpecifier? target dir).isSome :=
  Option.isSome_iff_exists.2 (exists_relativeSpecifier? (ht.trans hd.symm)
    (isNormal_of_not_climbing hd hclimb).current_not_mem hclimb)

end Path

end TidyImports
