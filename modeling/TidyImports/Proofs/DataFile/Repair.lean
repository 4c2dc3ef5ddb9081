-- SUMMARY: A data specifier that broke when its file moved is exchanged for one that leads there.
import Mathlib.Data.List.Basic
import TidyImports.Proofs.DataFile.Places

/-!
# Repaired specifiers

From outside the data directory, the way to a data file passes through that
directory, so what follows its name in the specifier leads to the file from
there. The name that is looked for is the last one in the specifier: where it
occurs again below the data directory, the specifier stands for another place.
-/

namespace TidyImports

open Component (IsNormal)

-- ---------------------------------------------------------------------------
-- Ways into a directory
-- ---------------------------------------------------------------------------

namespace Path

variable {p target dir root : Path} {names : List String} {name old : String}

theorem fileName?_eq_getLast? {front : List Component}
    (h : p.components = front ++ names.map .normal) (hne : names ≠ []) :
    p.fileName? = names.getLast? := by
  rcases List.eq_nil_or_concat names with rfl | ⟨names, last, rfl⟩
  · exact absurd rfl hne
  · rw [fileName?, h, List.concat_eq_append, List.map_append, ← List.append_assoc,
      List.map_singleton, List.getLast?_concat, List.getLast?_concat]
    rfl

/-- A path that ends with names ends with the last of them. -/
theorem fileName?_of_slashPieces {front : List String} (hpieces : slashPieces p.text = front ++ names)
    (hne : names ≠ []) (hnames : ∀ n ∈ names, IsName n) : p.fileName? = names.getLast? := by
  have hcomponents : p.components =
      (p.lead?.toList ++ inner front) ++ names.map .normal := by
    rw [components_eq, hpieces, inner_append, inner_of_isName hnames, List.append_assoc]
  exact fileName?_eq_getLast? hcomponents hne

/-- A place is the same when it is reached by the names on the way to it. -/
theorem normalize_join_names {q : Path} (hp : p.isAbsolute) (hq : q.isAbsolute = false)
    (hinner : inner (slashPieces q.text) = names.map .normal) (hne : names ≠ [])
    (hnames : ∀ n ∈ names, IsName n) :
    (p.join ⟨ofSlashPieces names⟩).normalize = (p.join q).normalize := by
  have hpieces : slashPieces (ofSlashPieces names) = names :=
    slashPieces_ofSlashPieces (fun n hn => (hnames n hn).noSlash) hne
  rw [normalize_eq_iff, components_join_of_isAbsolute hp hq,
    components_join_of_isAbsolute hp (isAbsolute_ofSlashPieces hnames), hpieces, hinner,
    inner_of_isName hnames]

theorem extension?_congr {q : Path} (h : p.fileName? = q.fileName?) :
    p.extension? = q.extension? := by
  rw [extension?, extension?, h]

theorem fileName?_isSome (h : p.extension?.isSome) : p.fileName?.isSome := by
  rw [extension?] at h
  cases hname : p.fileName? with
  | none =>
    rw [hname] at h
    cases h
  | some name => rfl

/-- What is below another path ends with a name. -/
theorem IsBelow.exists_concat {base : Path} (h : p.IsBelow base) :
    ∃ outer name, p.components = outer ++ [.normal name] := by
  obtain ⟨names, hne, -, hcomponents⟩ := h
  rcases List.eq_nil_or_concat names with rfl | ⟨names, name, rfl⟩
  · exact absurd rfl hne
  · refine ⟨base.components ++ names.map .normal, name, ?_⟩
    rw [hcomponents, List.concat_eq_append, List.map_append, List.append_assoc]
    rfl

/-- A relative path that does not climb and has a file name goes down by names, of which that is
the last. -/
theorem names_of_relative (hrelative : p.isAbsolute = false) (hclimb : ".." ∉ slashPieces p.text)
    (hname : p.fileName?.isSome) :
    ∃ names : List String, names ≠ [] ∧ (∀ n ∈ names, IsName n) ∧
      inner (slashPieces p.text) = names.map .normal ∧ p.fileName? = names.getLast? := by
  have hinner := inner_of_not_mem hclimb
  have hcomponents := components_eq p
  rw [hinner] at hcomponents
  have hne : (slashPieces p.text).filter (!isVoid ·) ≠ [] := by
    intro hnil
    rw [hnil, List.map_nil, List.append_nil] at hcomponents
    rw [fileName?, hcomponents] at hname
    rcases lead?_of_not_isAbsolute hrelative with h | h <;> rw [h] at hname <;> cases hname
  exact ⟨_, hne, isName_of_mem_filter (fun _ => not_mem_of_mem_slashPieces) hclimb, hinner,
    fileName?_eq_getLast? hcomponents hne⟩

/-- The specifier of a place in a directory names the directory, when it stands outside of it. -/
theorem slashPieces_of_outside {outer : List Component}
    (htarget : target.components = outer ++ .normal name :: names.map .normal)
    (ht : IsNormal target.components) (hd : IsNormal dir.components)
    (hsame : target.isAbsolute = dir.isAbsolute) (hclimb : .parent ∉ dir.components)
    (houtside : ¬ outer ++ [.normal name] <+: dir.components)
    (hold : relativeSpecifier? target dir = some old) :
    ∃ front, slashPieces old = front ++ name :: names := by
  obtain ⟨shared, ts, climbs, hshared, hdir, hts, rfl⟩ :=
    exists_specifierOf ht hd hsame (fun h => absurd h hclimb) hold
  have hway : ∃ between, ts = between ++ .normal name :: names.map .normal := by
    have hsplit : (outer ++ [.normal name]) ++ names.map .normal = shared ++ ts := by
      rw [← hshared, htarget, List.append_assoc]
      rfl
    rcases List.append_eq_append_iff.1 hsplit with ⟨more, hmore, -⟩ | ⟨between, houter, hbetween⟩
    · -- The directory would be shared, and the specifier stand inside of it.
      rw [hdir, hmore, List.append_assoc] at houtside
      exact absurd (List.prefix_append ..) houtside
    · rcases List.eq_nil_or_concat between with rfl | ⟨between, c, rfl⟩
      · rw [houter, List.append_nil, hdir] at houtside
        exact absurd (List.prefix_append ..) houtside
      · rw [List.concat_eq_append, ← List.append_assoc] at houter
        obtain ⟨-, hc⟩ := List.append_inj' houter rfl
        cases hc
        exact ⟨between, by rw [hbetween, List.concat_eq_append, List.append_assoc]; rfl⟩
  obtain ⟨between, rfl⟩ := hway
  have htext : (List.replicate climbs.length Component.parent ++
      (between ++ Component.normal name :: names.map .normal)).map Component.text =
        (List.replicate climbs.length Component.parent ++ between).map Component.text ++
          name :: names := by
    rw [← List.append_assoc, List.map_append, List.map_cons, List.map_map]
    exact congrArg _ (congrArg _ (List.map_id' names))
  rcases slashPieces_specifierOf (@isInner_way climbs _ hts) (by simp) with hpieces | hpieces
  · rw [htext] at hpieces
    exact ⟨_, hpieces⟩
  · rw [htext, ← List.cons_append] at hpieces
    exact ⟨_, hpieces⟩

end Path

-- ---------------------------------------------------------------------------
-- The remainder of a broken specifier
-- ---------------------------------------------------------------------------

namespace DataDirectory

variable {d : DataDirectory} {isFile : Path → Bool} {fileDir file before : Path}
  {name old new rem : String} {pieces front names : List String}

theorem afterLastPiece?_of_not_mem (h : name ∉ pieces) : afterLastPiece? name pieces = none := by
  induction pieces with
  | nil => rfl
  | cons piece pieces ih =>
    rw [List.mem_cons, not_or] at h
    rw [afterLastPiece?, ih h.2, Option.none_or, if_neg (by simpa using Ne.symm h.1)]

theorem afterLastPiece?_append (h : name ∉ names) :
    afterLastPiece? name (front ++ name :: names) = some names := by
  induction front with
  | nil => rw [List.nil_append, afterLastPiece?, afterLastPiece?_of_not_mem h, Option.none_or,
      if_pos (beq_self_eq_true name)]
  | cons piece front ih => rw [List.cons_append, afterLastPiece?, ih, Option.some_or]

/-- A broken specifier stands for what follows the name of the data directory in it. -/
theorem remainder?_of_broken (hshorthand : ¬ d.shorthand.toList <+: old.toList)
    (hrelative : Path.isRelativeSpecifier old) (hextension : (Path.mk old).extension?.isSome)
    (hbroken : isFile (fileDir.join ⟨old⟩).normalize = false) (hname : d.root.fileName? = some name)
    (hpieces : slashPieces old = front ++ name :: names) (honce : name ∉ names) :
    d.remainder? isFile fileDir old = some (ofSlashPieces names) := by
  rw [remainder?]
  split
  · next rest hrest =>
    exact absurd ⟨rest, List.isPrefixOf?_eq_some_iff_append_eq.1 hrest⟩ hshorthand
  · rw [hrelative, Bool.not_true, if_neg Bool.false_ne_true,
      if_neg (by simpa using Option.isSome_iff_ne_none.1 hextension), hbroken,
      if_neg Bool.false_ne_true, hname, hpieces]
    simp only [Option.bind_eq_bind, Option.bind_some]
    rw [afterLastPiece?_append honce]
    rfl

/-- A specifier that broke is exchanged for one that leads to the same file. -/
theorem verdict_of_broken (hroot : d.projectRoot.isAbsolute) (hbelow : d.root.IsBelow d.projectRoot)
    (hrelative : (Path.mk rem).isAbsolute = false) (hclimb : .parent ∉ (Path.mk rem).components)
    (hextension : (Path.mk rem).extension?.isSome)
    (hexists : isFile (d.root.join ⟨rem⟩).normalize)
    (honce : ∀ name ∈ d.root.fileName?, .normal name ∉ (Path.mk rem).components)
    (hbefore : before.isAbsolute) (hbeforeclimb : .parent ∉ before.components)
    (houtside : ¬ d.root.components <+: before.components)
    (hdir : fileDir.isAbsolute) (hdirclimb : .parent ∉ fileDir.components)
    (hold : Path.relativeSpecifier? (d.root.join ⟨rem⟩) before = some old)
    (hbroken : isFile (fileDir.join ⟨old⟩).normalize = false)
    (hshorthand : ¬ d.shorthand.toList <+: old.toList) :
    ∃ new, d.verdict isFile fileDir old = .retarget new ∧
      (fileDir.join ⟨new⟩).normalize = (d.root.join ⟨rem⟩).normalize := by
  have hrootabsolute := isAbsolute_root hroot
  obtain ⟨outer, name, houter⟩ := hbelow.exists_concat
  have hname : d.root.fileName? = some name := by
    rw [Path.fileName?, houter, List.getLast?_concat]
    rfl
  rw [Path.parent_mem_components] at hclimb
  obtain ⟨names, hne, hnames, hinner, hlast⟩ :=
    Path.names_of_relative hrelative hclimb (Path.fileName?_isSome hextension)
  have hnone : name ∉ names := fun hmem => by
    refine honce name hname ?_
    rw [Path.components_eq, hinner]
    exact List.mem_append_right _ (List.mem_map_of_mem hmem)
  have hjoin : (d.root.join ⟨rem⟩).components = d.root.components ++ names.map .normal := by
    rw [Path.components_join_of_isAbsolute hrootabsolute hrelative, hinner]
  obtain ⟨front, hfront⟩ : ∃ front, slashPieces old = front ++ name :: names := by
    have htarget : (d.root.join ⟨rem⟩).components = outer ++ .normal name :: names.map .normal := by
      rw [hjoin, houter, List.append_assoc]
      rfl
    refine Path.slashPieces_of_outside htarget ?_
      (Path.isNormal_of_not_climbing hbefore hbeforeclimb) ?_ hbeforeclimb (houter ▸ houtside) hold
    · rw [hjoin]
      exact d.isNormal_root.append_names hnames
    · rw [Path.isAbsolute_join hrootabsolute, hbefore]
  have holdextension : (Path.mk old).extension?.isSome := by
    have hpieces : slashPieces old = (front ++ [name]) ++ names := by
      rw [hfront, List.append_assoc]
      rfl
    rw [Path.extension?_congr ((Path.fileName?_of_slashPieces hpieces hne hnames).trans hlast.symm)]
    exact hextension
  have hremainder := remainder?_of_broken hshorthand
    (Path.isRelativeSpecifier_relativeSpecifier? hold) holdextension hbroken hname hfront hnone
  have htarget : d.dataFile? isFile fileDir old = some (d.root.join ⟨rem⟩).normalize := by
    have hpieces : slashPieces (ofSlashPieces names) = names :=
      slashPieces_ofSlashPieces (fun n hn => (hnames n hn).noSlash) hne
    refine dataFile?_eq_some_iff.2 ⟨_, hremainder, ?_, ?_,
      Path.normalize_join_names hrootabsolute hrelative hinner hne hnames⟩
    · intro hempty
      rw [hempty] at hpieces
      exact (hnames "" (hpieces ▸ List.mem_singleton_self "")).notVoid rfl
    · rw [hpieces]
      exact fun hmem => (hnames ".." hmem).notParent rfl
  obtain ⟨new, hnew⟩ := Option.isSome_iff_exists.1
    (Path.relativeSpecifier?_isSome (isAbsolute_dataFile hroot htarget) hdir hdirclimb)
  have hleads := normalize_join_of_not_climbing hroot hdir hdirclimb htarget hnew
  refine ⟨new, verdict_eq_retarget_iff.2 ⟨_, htarget, hexists, hnew, ?_⟩, hleads⟩
  rintro rfl
  rw [hleads, hexists] at hbroken
  cases hbroken

/-- A data specifier that was written in another directory, and that leads to no file where the
importing file is now, is exchanged for one that leads to the same data file. -/
theorem retargeted_of_moved (hroot : d.projectRoot.isAbsolute)
    (hbelow : d.root.IsBelow d.projectRoot)
    (hrelative : (Path.mk rem).isAbsolute = false) (hclimb : .parent ∉ (Path.mk rem).components)
    (hextension : (Path.mk rem).extension?.isSome)
    (hexists : isFile (d.root.join ⟨rem⟩).normalize)
    (honce : ∀ name ∈ d.root.fileName?, .normal name ∉ (Path.mk rem).components)
    (hbefore : before.isAbsolute) (hbeforeclimb : .parent ∉ before.components)
    (houtside : ¬ d.root.components <+: before.components)
    (hdir : (d.directoryOf file).isAbsolute) (hdirclimb : .parent ∉ (d.directoryOf file).components) :
    ∃ old, Path.relativeSpecifier? (d.root.join ⟨rem⟩) before = some old ∧
      (isFile ((d.directoryOf file).join ⟨old⟩).normalize = false →
        ¬ d.shorthand.toList <+: old.toList →
          ∀ (s : Script), ∀ tok ∈ s.specifiers, tok.contents? = some old.toList →
            ∃ new, ⟨⟨tok.start + 1, tok.stop - 1⟩, new.toList⟩ ∈
                (d.retargetScript isFile file s).edits ∧
              (old, new) ∈ (d.retargetScript isFile file s).retargeted ∧
              ((d.directoryOf file).join ⟨new⟩).normalize = (d.root.join ⟨rem⟩).normalize) := by
  obtain ⟨old, hold⟩ := Option.isSome_iff_exists.1 (Path.relativeSpecifier?_isSome
    (Path.isAbsolute_join (q := ⟨rem⟩) (isAbsolute_root hroot)) hbefore hbeforeclimb)
  refine ⟨old, hold, fun hbroken hshorthand s tok htok hcontents => ?_⟩
  obtain ⟨new, hverdict, hleads⟩ := verdict_of_broken hroot hbelow hrelative hclimb hextension
    hexists honce hbefore hbeforeclimb houtside hdir hdirclimb hold hbroken hshorthand
  have hmem : (tok, old, .retarget new) ∈ d.verdicts isFile (d.directoryOf file) s := by
    refine List.mem_map.2 ⟨tok, htok, ?_⟩
    simp only [hcontents, Option.getD_some, String.ofList_toList, hverdict]
  exact ⟨new, List.mem_filterMap.2 ⟨_, hmem, rfl⟩, List.mem_filterMap.2 ⟨_, hmem, rfl⟩, hleads⟩

theorem isBelow_root_sample : sample.root.IsBelow sample.projectRoot :=
  ⟨["data"], by decide, fun name h => by
    rw [List.mem_singleton.1 h]
    exact ⟨by decide, by decide, by decide⟩, by decide +kernel⟩

/-- A text that imports a data file. -/
def importText (specifier : String) : Text := ("import x from '" ++ specifier ++ "';\n").toList

/-- A file that moved two directories down gets its data back. -/
theorem retargeted_of_moved_jobs :
    ∃ new, ⟨⟨15, 37⟩, new.toList⟩ ∈
        (sample.retargetScript (· == ⟨"/proj/data/open/jobs.json"⟩) ⟨"app/careers/jobs/page.js"⟩
          (Script.parse (importText "../data/open/jobs.json"))).edits ∧
      ("../data/open/jobs.json", new) ∈
        (sample.retargetScript (· == ⟨"/proj/data/open/jobs.json"⟩) ⟨"app/careers/jobs/page.js"⟩
          (Script.parse (importText "../data/open/jobs.json"))).retargeted ∧
      ((Path.mk "/proj/app/careers/jobs").join ⟨new⟩).normalize =
        ⟨"/proj/data/open/jobs.json"⟩ := by
  obtain ⟨old, hold, hmoved⟩ := @retargeted_of_moved sample
    (· == ⟨"/proj/data/open/jobs.json"⟩) ⟨"app/careers/jobs/page.js"⟩ ⟨"/proj/app"⟩
    "open/jobs.json" (by decide +kernel) isBelow_root_sample
    (by decide +kernel) (by decide +kernel) (by decide +kernel) (by decide +kernel)
    (by decide +kernel) (by decide +kernel) (by decide +kernel) (by decide +kernel)
    (by decide +kernel) (by decide +kernel)
  have hsample : Path.relativeSpecifier? (sample.root.join ⟨"open/jobs.json"⟩) ⟨"/proj/app"⟩ =
      some "../data/open/jobs.json" := by decide +kernel
  obtain rfl : old = "../data/open/jobs.json" := Option.some.inj (hold.symm.trans hsample)
  obtain ⟨new, hedit, hretargeted, hleads⟩ := hmoved (by decide +kernel) (by decide +kernel)
    (Script.parse (importText "../data/open/jobs.json"))
    ⟨.string true, 14, "'../data/open/jobs.json'".toList⟩ (by decide +kernel) (by decide +kernel)
  exact ⟨new, hedit, hretargeted, hleads.trans (by decide +kernel)⟩

/-- Does a path lead to one of two files, of which one is in a second data directory? -/
def isNestedFile (p : Path) : Bool :=
  p == ⟨"/proj/data/data/x.json"⟩ || p == ⟨"/proj/data/x.json"⟩

/-- A directory below the data directory that has its name takes its place. -/
theorem retargeted_of_moved_name_twice :
    ¬ ∀ (d : DataDirectory) (isFile : Path → Bool) (rem : String) (before file : Path),
      d.projectRoot.isAbsolute → d.projectRoot.normalize = d.projectRoot →
      d.root.IsBelow d.projectRoot → (Path.mk rem).isAbsolute = false →
      .parent ∉ (Path.mk rem).components → (Path.mk rem).extension?.isSome →
      isFile (d.root.join ⟨rem⟩).normalize →
      before.isAbsolute → before.normalize = before → .parent ∉ before.components →
      ¬ d.root.components <+: before.components →
      (d.directoryOf file).isAbsolute → (d.directoryOf file).normalize = d.directoryOf file →
      .parent ∉ (d.directoryOf file).components →
      ∃ old, Path.relativeSpecifier? (d.root.join ⟨rem⟩) before = some old ∧
        (isFile ((d.directoryOf file).join ⟨old⟩).normalize = false →
          ¬ d.shorthand.toList <+: old.toList →
            ∀ (s : Script), ∀ tok ∈ s.specifiers, tok.contents? = some old.toList →
              ∃ new, (old, new) ∈ (d.retargetScript isFile file s).retargeted ∧
                ((d.directoryOf file).join ⟨new⟩).normalize = (d.root.join ⟨rem⟩).normalize) := by
  intro hall
  obtain ⟨old, hold, hmoved⟩ := hall sample isNestedFile "data/x.json" ⟨"/proj/app"⟩
    ⟨"app/a/page.js"⟩ (by decide +kernel) (by decide +kernel) isBelow_root_sample
    (by decide +kernel) (by decide +kernel) (by decide +kernel) (by decide +kernel)
    (by decide +kernel) (by decide +kernel) (by decide +kernel) (by decide +kernel)
    (by decide +kernel) (by decide +kernel) (by decide +kernel)
  have hsample : Path.relativeSpecifier? (sample.root.join ⟨"data/x.json"⟩) ⟨"/proj/app"⟩ =
      some "../data/data/x.json" := by decide +kernel
  obtain rfl : old = "../data/data/x.json" := Option.some.inj (hold.symm.trans hsample)
  obtain ⟨new, hretargeted, hleads⟩ := hmoved (by decide +kernel) (by decide +kernel)
    (Script.parse (importText "../data/data/x.json"))
    ⟨.string true, 14, "'../data/data/x.json'".toList⟩ (by decide +kernel) (by decide +kernel)
  have hother : ∀ r ∈ (sample.retargetScript isNestedFile ⟨"app/a/page.js"⟩ (Script.parse
      (importText "../data/data/x.json"))).retargeted,
        ((sample.directoryOf ⟨"app/a/page.js"⟩).join ⟨r.2⟩).normalize ≠
          (sample.root.join ⟨"data/x.json"⟩).normalize := by decide +kernel
  exact hother _ hretargeted hleads

end DataDirectory

end TidyImports
