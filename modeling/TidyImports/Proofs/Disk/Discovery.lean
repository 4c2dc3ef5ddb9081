-- SUMMARY: What discovery finds: files with a listed extension, named from the directory on.
import TidyImports.Disk.Discovery
import TidyImports.Proofs.Disk.Changes
import TidyImports.Proofs.Disk.Relative

/-!
# Discovered files

A file is discovered under the path of the directory, joined to the names that
lead to it from there. Its place has the last of these names, whose extension is
one of those asked for.
-/

namespace TidyImports

open Disk (descend)

-- ---------------------------------------------------------------------------
-- Joined paths
-- ---------------------------------------------------------------------------

namespace Path

variable {p q r : Path}

/-- What is put between two paths that are joined. -/
def separator (p : Path) : String :=
  if p.text.isEmpty || p.text.toList.getLast? == some '/' then "" else "/"

theorem text_join (hq : q.isAbsolute = false) :
    (p.join q).text = p.text ++ p.separator ++ q.text := by
  rw [join, separator, if_neg (by simp [hq])]
  split
  · rw [String.append_empty]
  · rfl

theorem isAbsolute_join_eq_false (hp : p.isAbsolute = false) (hq : q.isAbsolute = false) :
    (p.join q).isAbsolute = false := by
  by_cases hempty : p.text = ""
  · have hjoin : (p.join q).text = q.text := by
      rw [text_join hq, separator, hempty]
      simp
    rw [isAbsolute, hjoin]
    exact hq
  · obtain ⟨c, cs, hcs⟩ := List.exists_cons_of_ne_nil (mt String.toList_eq_nil_iff.1 hempty)
    rw [isAbsolute, hcs] at hp
    rw [isAbsolute, text_join hq, String.append_assoc, String.toList_append, hcs]
    exact hp

/-- A path that is joined to another ends as it does, unless it is empty. -/
theorem separator_join (hq : q.isAbsolute = false) (hne : q.text ≠ "") :
    (p.join q).separator = q.separator := by
  have hq' : q.text.toList ≠ [] := mt String.toList_eq_nil_iff.1 hne
  have hlast : (p.text ++ p.separator ++ q.text).toList.getLast? = q.text.toList.getLast? := by
    rw [String.toList_append, List.getLast?_append, List.getLast?_eq_some_getLast hq']
    rfl
  have hempty : (p.text ++ p.separator ++ q.text).isEmpty = false := by
    rw [Bool.eq_false_iff, ne_eq, String.isEmpty_iff, ← String.toList_eq_nil_iff,
      String.toList_append, List.append_eq_nil_iff]
    exact fun h => hq' h.2
  have hempty' : q.text.isEmpty = false := by
    rwa [Bool.eq_false_iff, ne_eq, String.isEmpty_iff]
  rw [separator, text_join hq, hlast, hempty, separator, hempty']

theorem join_join (hq : q.isAbsolute = false) (hr : r.isAbsolute = false) :
    (p.join q).join r = p.join (q.join r) := by
  have htext : ((p.join q).join r).text = (p.join (q.join r)).text := by
    rw [text_join hr, text_join (isAbsolute_join_eq_false hq hr), text_join hr]
    by_cases hempty : q.text = ""
    · have hsep : q.separator = "" := by rw [separator, hempty]; rfl
      have hjoin : (p.join q).text = p.text ++ p.separator := by
        rw [text_join hq, hempty, String.append_empty]
      have hlast : (p.join q).separator = "" := by
        rw [separator, hjoin, separator]
        split
        · next h => simp_all
        · simp
      rw [hjoin, hlast, hsep, hempty]
      simp
    · rw [separator_join hq hempty, text_join hq]
      simp only [String.append_assoc]
  exact congrArg Path.mk htext

end Path

-- ---------------------------------------------------------------------------
-- Names
-- ---------------------------------------------------------------------------

namespace Path

variable {p : Path} {name : String}

theorem IsName.isAbsolute (h : IsName name) : (Path.mk name).isAbsolute = false :=
  isAbsolute_of_noSlash h.noSlash

theorem IsName.descend (h : IsName name) (here : Location) :
    Disk.descend here name = here ++ [name] := by
  rw [Disk.descend, if_neg h.notVoid, if_neg h.notParent]

theorem slashPieces_join_name (h : IsName name) :
    ∃ front, slashPieces (p.join ⟨name⟩).text = front ++ [name] := by
  obtain ⟨front, hpieces, -⟩ := slashPieces_join (p := p) h.isAbsolute
  rw [slashPieces_of_noSlash h.noSlash] at hpieces
  exact ⟨front, hpieces⟩

theorem target_join_name {d : Disk} (hp : p.isAbsolute) (h : IsName name) :
    d.target (p.join ⟨name⟩) = d.target p ++ [name] := by
  rw [Disk.target, Disk.target, isAbsolute_join hp, hp, if_pos rfl, foldl_join h.isAbsolute,
    slashPieces_of_noSlash h.noSlash, List.foldl_cons, List.foldl_nil, h.descend]

theorem inner_append_name (h : IsName name) (pieces : List String) :
    inner (pieces ++ [name]) = inner pieces ++ [.normal name] := by
  rw [inner_append, inner_cons_of_not_isVoid h.notVoid, component_of_ne h.notParent]
  rfl

theorem fileName?_name (h : IsName name) : (Path.mk name).fileName? = some name := by
  have hcomponents : (Path.mk name).components = [.normal name] :=
    components_text (c := .normal name) h
  rw [fileName?, hcomponents]
  rfl

theorem body_join_name (hp : p.isAbsolute) (h : IsName name) :
    ∃ front, (p.join ⟨name⟩).body = front ++ [name] := by
  obtain ⟨front, hpieces⟩ := slashPieces_join_name (p := p) h
  rw [slashPieces_of_isAbsolute (isAbsolute_join hp)] at hpieces
  cases front with
  | nil =>
    have hname := (List.cons.inj hpieces).1
    exact absurd (by rw [← hname]; rfl) h.notVoid
  | cons piece front => exact ⟨front, (List.cons.inj hpieces).2⟩

theorem fileName?_join (hp : p.isAbsolute) (h : IsName name) :
    (p.join ⟨name⟩).fileName? = some name := by
  obtain ⟨front, hbody⟩ := body_join_name hp h
  rw [fileName?, components, hbody, inner_append_name h, ← List.append_assoc,
    List.getLast?_concat]
  rfl

/-- The extension of a path is that of its last name. -/
theorem extension?_join (hp : p.isAbsolute) (h : IsName name) :
    (p.join ⟨name⟩).extension? = (Path.mk name).extension? := by
  rw [extension?, extension?, fileName?_join hp h, fileName?_name h]

theorem suffix_dropComponents {cs : List Component} {pieces rest : List String}
    (h : dropComponents cs pieces = some rest) : rest <:+ pieces := by
  induction pieces generalizing cs with
  | nil =>
    cases cs with
    | nil =>
      cases h
      exact List.suffix_refl _
    | cons c cs => cases h
  | cons piece pieces ih =>
    cases cs with
    | nil =>
      cases h
      exact List.suffix_refl _
    | cons c cs =>
      rw [dropComponents] at h
      split at h
      · exact (ih h).trans (List.suffix_cons ..)
      · split at h
        · exact (ih h).trans (List.suffix_cons ..)
        · cases h

theorem trimEnd_append_name (h : IsName name) (pieces : List String) :
    trimEnd (pieces ++ [name]) = pieces ++ [name] := by
  rw [trimEnd, List.reverse_append, List.reverse_singleton, List.singleton_append,
    List.dropWhile_cons_of_neg (by simpa using h.notVoid), List.reverse_cons, List.reverse_reverse]

/-- As seen from an absolute base and joined to it again, a path still ends with its name, unless
nothing was left of it. -/
theorem slashPieces_relativeTo {base : Path} (hbase : base.isAbsolute) (hp : p.isAbsolute)
    (h : IsName name) :
    ∃ front last,
      slashPieces (((p.join ⟨name⟩).relativeTo base).under base).text = front ++ [last] ∧
      (last = name ∨ isVoid last) := by
  have hfile := isAbsolute_join (q := ⟨name⟩) hp
  rw [relativeTo]
  cases hstrip : (p.join ⟨name⟩).stripPrefix? base with
  | none =>
    obtain ⟨front, hpieces⟩ := slashPieces_join_name (p := p) h
    refine ⟨front, name, ?_, .inl rfl⟩
    rw [Option.getD_none, under, if_pos hfile, hpieces]
  | some rest =>
    have hlead : base.lead? = some .root := if_pos hbase
    have hlead' : (p.join ⟨name⟩).lead? = some .root := if_pos hfile
    obtain ⟨front, hbody⟩ := body_join_name hp h
    have hcomponents : base.components = .root :: inner base.body := by
      rw [components, hlead]
      rfl
    simp only [stripPrefix?, hcomponents, hlead', if_pos] at hstrip
    obtain ⟨pieces, hpieces, rfl⟩ := Option.map_eq_some_iff.1 hstrip
    have hsuffix := (List.dropWhile_suffix isVoid).trans (suffix_dropComponents hpieces)
    have hslash : ∀ piece ∈ pieces, '/' ∉ piece.toList := by
      intro piece hpiece
      refine not_mem_of_mem_slashPieces (s := (p.join ⟨name⟩).text) ?_
      rw [slashPieces_of_isAbsolute hfile]
      exact List.mem_cons_of_mem _ ((suffix_dropComponents hpieces).subset hpiece)
    have hrelative := isAbsolute_strip hslash
    rw [Option.getD_some, under, if_neg (by simp [hrelative])]
    obtain ⟨front', hjoin, -⟩ := slashPieces_join (p := base) hrelative
    rw [hjoin]
    rw [hbody] at hsuffix
    rcases List.suffix_concat_iff.1 hsuffix with hnil | ⟨kept, hconcat, -⟩
    · refine ⟨front', "", ?_, .inr rfl⟩
      rw [hnil]
      rfl
    · have hkept : ∀ piece ∈ kept ++ [name], '/' ∉ piece.toList := fun piece hpiece =>
        hslash piece ((List.dropWhile_suffix isVoid).subset (hconcat ▸ hpiece))
      refine ⟨front' ++ kept, name, ?_, .inl rfl⟩
      rw [hconcat, trimEnd_append_name h,
        slashPieces_ofSlashPieces hkept
          (List.append_ne_nil_of_right_ne_nil _ (List.cons_ne_nil _ _)),
        List.append_assoc]

end Path

-- ---------------------------------------------------------------------------
-- Paths of what is found
-- ---------------------------------------------------------------------------

namespace Disk

variable {d : Disk} {place : Location} {p q : Path}

/-- No name has a slash. -/
def NamesHaveNoSlash (d : Disk) : Prop := ∀ x ∈ d.nodes, ∀ name ∈ x.1, '/' ∉ name.toList

instance (d : Disk) : Decidable d.NamesHaveNoSlash :=
  inferInstanceAs (Decidable (∀ x ∈ d.nodes, ∀ name ∈ x.1, _))

theorem isAbsolute_of_mem_namesIn (hd : d.NamesHaveNoSlash) {name : String}
    (h : name ∈ d.namesIn place) : (Path.mk name).isAbsolute = false := by
  rw [namesIn, List.mem_mergeSort, List.mem_filterMap] at h
  obtain ⟨x, hx, hname⟩ := h
  simp only [Option.ite_none_right_eq_some] at hname
  have hslash := hd x hx name (List.mem_of_getLast? hname.2)
  rw [Path.isAbsolute, beq_eq_false_iff_ne]
  intro hhead
  exact hslash (List.mem_of_head? hhead)

/-- What is found below a directory is named from there on. -/
theorem mem_filesBelow (hd : d.NamesHaveNoSlash) {depth : Nat} {inside : List Location}
    {file : Path} (hq : q.isAbsolute = false)
    (h : file ∈ d.filesBelow depth inside place (p.join q)) :
    ∃ q' : Path, q'.isAbsolute = false ∧ file = p.join q' := by
  induction depth generalizing inside place q with
  | zero => cases h
  | succ depth ih =>
    rw [filesBelow, List.mem_flatMap] at h
    obtain ⟨name, hname, h⟩ := h
    have hentry := isAbsolute_of_mem_namesIn hd hname
    have hnext := Path.isAbsolute_join_eq_false hq hentry
    have hself : file = (p.join q).join ⟨name⟩ →
        ∃ q' : Path, q'.isAbsolute = false ∧ file = p.join q' := fun heq =>
      ⟨_, hnext, heq.trans (Path.join_join hq hentry)⟩
    simp only at h
    split at h
    · cases h
    · exact hself (List.mem_singleton.1 h)
    · split at h
      · exact hself (List.mem_singleton.1 h)
      · split at h
        · cases h
        · rw [Path.join_join hq hentry] at h
          exact ih hnext h
      · cases h

theorem mem_discover (hd : d.NamesHaveNoSlash) {extensions : List String} {files : List Path}
    {file : Path} (hq : q.isAbsolute = false) (h : d.discover (p.join q) extensions = .ok files)
    (hfile : file ∈ files) : ∃ q' : Path, q'.isAbsolute = false ∧ file = p.join q' := by
  rw [discover] at h
  split at h
  · cases h
  · cases h
    exact mem_filesBelow hd hq ((List.mem_filter.1 hfile).1)
  · cases h

/-- What stands on the disk stands there under names. -/
def NamesAreProper (d : Disk) : Prop :=
  ∀ place, (d.node? place).isSome → ∀ name ∈ place, Path.IsName name

theorem namesAreProper_iff : d.NamesAreProper ↔ ∀ x ∈ d.nodes, ∀ name ∈ x.1, Path.IsName name := by
  constructor
  · exact fun h x hx => h x.1 (isSome_node?_of_mem hx)
  · intro h place hsome name hname
    obtain ⟨n, hn⟩ := Option.isSome_iff_exists.1 hsome
    exact h _ (mem_nodes_of_node? (List.ne_nil_of_mem hname) hn) name hname

instance (d : Disk) : Decidable d.NamesAreProper := decidable_of_iff _ namesAreProper_iff.symm

theorem isName_of_mem_namesIn (hd : d.NamesAreProper) {name : String}
    (h : name ∈ d.namesIn place) : Path.IsName name := by
  rw [namesIn, List.mem_mergeSort, List.mem_filterMap] at h
  obtain ⟨x, hx, hname⟩ := h
  simp only [Option.ite_none_right_eq_some] at hname
  exact hd x.1 (isSome_node?_of_mem hx) name (List.mem_of_getLast? hname.2)

/-- A file in a directory, with a path that has the name at its end. -/
def HoldsFile (d : Disk) (root here : Location) (name : String) (file : Path) : Prop :=
  Path.IsName name ∧ root <+: here ∧ (∃ bytes, d.node? (here ++ [name]) = some (.file bytes)) ∧
    ∃ p : Path, p.isAbsolute ∧ d.target p = here ∧ file = p.join ⟨name⟩

theorem holdsFile_of_mem_filesBelow (hd : d.Linkless) (hnames : d.NamesAreProper) {depth : Nat}
    {inside : List Location} {file : Path} (hp : p.isAbsolute) (hplace : place = d.target p)
    (h : file ∈ d.filesBelow depth inside place p) :
    ∃ here name, d.HoldsFile place here name file := by
  induction depth generalizing inside place p with
  | zero => cases h
  | succ depth ih =>
    rw [filesBelow, List.mem_flatMap] at h
    obtain ⟨name, hname, h⟩ := h
    have hproper := isName_of_mem_namesIn hnames hname
    have htarget : d.target (p.join ⟨name⟩) = place ++ [name] := by
      rw [Path.target_join_name hp hproper, hplace]
    have hself : file = p.join ⟨name⟩ →
        (∃ bytes, d.node? (place ++ [name]) = some (.file bytes)) →
          ∃ here name, d.HoldsFile place here name file := fun hfile hnode =>
      ⟨place, name, hproper, List.prefix_refl _, hnode, p, hp, hplace.symm, hfile⟩
    simp only at h
    split at h
    · cases h
    · next bytes hn => exact hself (List.mem_singleton.1 h) ⟨bytes, hn⟩
    · split at h
      · next found bytes hfind =>
        obtain ⟨hresolve, hn⟩ := find_eq_ok.1 hfind
        rw [target_of_resolve hd hresolve, htarget] at hn
        exact hself (List.mem_singleton.1 h) ⟨bytes, hn⟩
      · next found hfind =>
        split at h
        · cases h
        · have hfound := target_of_resolve hd (find_eq_ok.1 hfind).1
          obtain ⟨here, last, hlast, hprefix, hmore⟩ := ih (Path.isAbsolute_join hp) hfound h
          rw [hfound, htarget] at hprefix
          exact ⟨here, last, hlast, (List.prefix_append _ _).trans hprefix, hmore⟩
      · cases h

/-- A file that is discovered lies below the directory, and its name has one of the extensions. -/
theorem holdsFile_of_mem_discover (hd : d.Linkless) (hnames : d.NamesAreProper)
    {extensions : List String} {files : List Path} {file : Path} (hp : p.isAbsolute)
    (h : d.discover p extensions = .ok files) (hfile : file ∈ files) :
    ∃ here name, d.HoldsFile (d.target p) here name file ∧
      (Path.mk name).extension?.any extensions.contains := by
  rw [discover] at h
  split at h
  · cases h
  · next place hfind =>
    cases h
    obtain ⟨hbelow, hext⟩ := List.mem_filter.1 hfile
    have hplace := target_of_resolve hd (find_eq_ok.1 hfind).1
    obtain ⟨here, name, hholds⟩ := holdsFile_of_mem_filesBelow hd hnames hp hplace hbelow
    have hpath := hholds
    obtain ⟨hname, -, -, p', hp', -, rfl⟩ := hpath
    rw [Path.extension?_join hp' hname] at hext
    exact ⟨here, name, hplace ▸ hholds, hext⟩
  · cases h

end Disk

end TidyImports
