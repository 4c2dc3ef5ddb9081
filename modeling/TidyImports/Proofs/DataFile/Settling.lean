-- SUMMARY: Exchanged specifiers are settled: other tokens stay, and a second exchange does nothing.
import TidyImports.Proofs.DataFile.Places
import TidyImports.Proofs.Edits.Apart
import TidyImports.Proofs.Path.Characters

/-!
# Settled specifiers

A new specifier leads to an existing file, so it is left alone from then on. It
is made of the characters of the old one and of the data directory, so its string
ends where the old one did, and the tokens around it stay as they are, as long as
no `/` before it on its line was waiting for the end of a regular expression.
-/

namespace TidyImports

open Text Lexer Edit

namespace DataDirectory

variable {d : DataDirectory} {isFile : Path → Bool} {fileDir file target : Path}
  {specifier remainder name new old : String} {c : Char} {t : Text}

-- ---------------------------------------------------------------------------
-- Characters of new specifiers
-- ---------------------------------------------------------------------------

theorem afterLastPiece?_suffix {pieces below : List String}
    (h : afterLastPiece? name pieces = some below) : below <:+ pieces := by
  induction pieces with
  | nil => cases h
  | cons piece rest ih =>
    rw [afterLastPiece?] at h
    rcases Option.or_eq_some_iff.1 h with h | ⟨-, h⟩
    · exact (ih h).trans (List.suffix_cons ..)
    · split at h
      · cases h
        exact List.suffix_cons ..
      · cases h

/-- What stands for a place below the data directory is written with the characters of the
specifier. -/
theorem count_remainder?_le (hslash : c ≠ '/')
    (h : d.remainder? isFile fileDir specifier = some remainder) :
    remainder.toList.count c ≤ specifier.toList.count c := by
  rw [remainder?] at h
  split at h
  · next rest hrest =>
    cases h
    rw [← List.isPrefixOf?_eq_some_iff_append_eq.1 hrest, String.toList_ofList, List.count_append]
    exact Nat.le_add_left ..
  · split at h
    · cases h
    split at h
    · cases h
    split at h
    · cases h
    obtain ⟨name, -, h⟩ := Option.bind_eq_some_iff.1 h
    obtain ⟨below, hbelow, h⟩ := Option.bind_eq_some_iff.1 h
    cases h
    rw [count_ofSlashPieces hslash, ← count_slashPieces hslash]
    exact ((afterLastPiece?_suffix hbelow).sublist.flatMap _).count_le c

/-- What stands in a new specifier stood in the old one or stands in the path of the data
directory. -/
theorem count_of_retarget (hslash : c ≠ '/') (hdot : c ≠ '.')
    (h : d.verdict isFile fileDir specifier = .retarget new) :
    new.toList.count c ≤ d.root.text.toList.count c + specifier.toList.count c := by
  obtain ⟨target, htarget, -, hnew, -⟩ := verdict_eq_retarget_iff.1 h
  obtain ⟨remainder, hremainder, -, -, rfl⟩ := dataFile?_eq_some_iff.1 htarget
  calc new.toList.count c
      ≤ Component.count c (d.root.join ⟨remainder⟩).normalize.components :=
        Path.count_relativeSpecifier?_le hslash hdot hnew
    _ ≤ (d.root.join ⟨remainder⟩).text.toList.count c :=
        Path.count_components_normalize_le hslash hdot _
    _ ≤ d.root.text.toList.count c + remainder.toList.count c := Path.count_join_le hslash _ _
    _ ≤ d.root.text.toList.count c + specifier.toList.count c :=
        Nat.add_le_add_left (count_remainder?_le hslash hremainder) _

theorem not_mem_of_retarget (hslash : c ≠ '/') (hdot : c ≠ '.')
    (hrootc : c ∉ d.root.text.toList) (hc : c ∉ specifier.toList)
    (h : d.verdict isFile fileDir specifier = .retarget new) : c ∉ new.toList := by
  have hle := count_of_retarget hslash hdot h
  rw [List.count_eq_zero.2 hrootc, List.count_eq_zero.2 hc] at hle
  exact List.count_eq_zero.1 (Nat.le_zero.1 hle)

/-- New specifiers are plain in plain places. -/
theorem isPlain_of_retarget (hrootplain : isPlain d.root.text.toList)
    (hplain : isPlain specifier.toList) (h : d.verdict isFile fileDir specifier = .retarget new) :
    isPlain new.toList := by
  obtain ⟨hr₁, hr₂, hr₃, hr₄⟩ := isPlain_iff.1 hrootplain
  obtain ⟨hs₁, hs₂, hs₃, hs₄⟩ := isPlain_iff.1 hplain
  refine isPlain_iff.2 ⟨?_, ?_, ?_, ?_⟩
  · exact not_mem_of_retarget (by decide) (by decide) hr₁ hs₁ h
  · exact not_mem_of_retarget (by decide) (by decide) hr₂ hs₂ h
  · exact not_mem_of_retarget (by decide) (by decide) hr₃ hs₃ h
  · exact not_mem_of_retarget (by decide) (by decide) hr₄ hs₄ h

-- ---------------------------------------------------------------------------
-- Verdicts on new specifiers
-- ---------------------------------------------------------------------------

/-- A new specifier leads to a file, and so it is kept. -/
theorem verdict_of_exchanged (hroot : d.projectRoot.isAbsolute) (hdir : fileDir.isAbsolute)
    (hclimb : .parent ∉ fileDir.components) (hshorthand : d.shorthand ≠ "")
    (hdot : d.shorthand.toList.head? ≠ some '.')
    (h : d.verdict isFile fileDir specifier = .retarget new) :
    d.verdict isFile fileDir new = .keep := by
  obtain ⟨target, htarget, hfile, hnew, -⟩ := verdict_eq_retarget_iff.1 h
  have hrelative := Path.isRelativeSpecifier_relativeSpecifier? hnew
  have hleads := normalize_join_of_not_climbing hroot hdir hclimb htarget hnew
  have hnone : d.remainder? isFile fileDir new = none := by
    rw [remainder?]
    split
    · next rest hrest =>
      refine absurd ?_ hdot
      obtain ⟨k, ks, hks⟩ := List.exists_cons_of_ne_nil (mt String.toList_eq_nil_iff.1 hshorthand)
      have hhead := Path.head?_of_isRelativeSpecifier hrelative
      rw [← List.isPrefixOf?_eq_some_iff_append_eq.1 hrest, hks] at hhead
      rw [hks]
      exact hhead
    · rw [hrelative, Bool.not_true, if_neg Bool.false_ne_true, hleads, if_pos hfile]
      split <;> rfl
  rw [verdict, hnone]

/-- The place of the data file that a specifier addresses, when there is no file. -/
def missing? (d : DataDirectory) (isFile : Path → Bool) (fileDir : Path) (specifier : String) :
    Option Path :=
  (d.dataFile? isFile fileDir specifier).filter fun target => !isFile target

theorem missing?_eq_some_iff :
    d.missing? isFile fileDir specifier = some target ↔
      d.verdict isFile fileDir specifier = .missing target := by
  rw [verdict_eq_missing_iff, missing?, Option.filter_eq_some_iff, Bool.not_eq_true']

/-- The warning about a specifier, when it addresses a data file that does not exist. -/
def warning? (d : DataDirectory) (isFile : Path → Bool) (file : Path) (specifier : String) :
    Option Warning :=
  (d.missing? isFile (d.directoryOf file) specifier).map fun target =>
    .missingDataFile specifier (d.display target)

theorem warning?_eq_none (h : ∀ target, d.verdict isFile (d.directoryOf file) specifier ≠
    .missing target) : d.warning? isFile file specifier = none := by
  rw [warning?, Option.map_eq_none_iff, Option.eq_none_iff_forall_ne_some]
  exact fun target htarget => h target (missing?_eq_some_iff.1 htarget)

/-- Each occurrence of a specifier has its own warning. -/
theorem warnings_retargetScript (s : Script) :
    (d.retargetScript isFile file s).warnings = s.specifiers.filterMap fun tok =>
      d.warning? isFile file (String.ofList (tok.contents?.getD [])) := by
  rw [retargetScript, verdicts]
  simp only [List.filterMap_map]
  refine List.filterMap_congr fun tok _ => ?_
  simp only [Function.comp_apply]
  cases hv : d.verdict isFile (d.directoryOf file) (String.ofList (tok.contents?.getD [])) with
  | missing target => rw [warning?, missing?_eq_some_iff.2 hv]; rfl
  | keep =>
    refine (warning?_eq_none fun target => ?_).symm
    rw [hv]
    exact Verdict.noConfusion
  | retarget new =>
    refine (warning?_eq_none fun target => ?_).symm
    rw [hv]
    exact Verdict.noConfusion

theorem verdict_of_target? {old new : Text} (h : d.target? isFile fileDir old = some new) :
    d.verdict isFile fileDir (String.ofList old) = .retarget (String.ofList new) := by
  rw [target?] at h
  split at h
  · next new' hv =>
    cases h
    rw [hv, String.ofList_toList]
  · cases h

-- ---------------------------------------------------------------------------
-- Scripts
-- ---------------------------------------------------------------------------

theorem exchanged_of_missing {s : Script} {tok : Token}
    (h : (d.missing? isFile fileDir (String.ofList (tok.contents?.getD []))).isSome) :
    s.exchanged (d.target? isFile fileDir) tok = tok.text := by
  obtain ⟨target, htarget⟩ := Option.isSome_iff_exists.1 h
  have hverdict := missing?_eq_some_iff.1 htarget
  have hnone : tok.contents?.bind (d.target? isFile fileDir) = none := by
    cases hcontents : tok.contents? with
    | none => rfl
    | some old =>
      rw [hcontents, Option.getD_some] at hverdict
      rw [Option.bind_some, target?, hverdict]
  rw [Script.exchanged, hnone]
  exact ite_self _

/-- Where new specifiers are kept, a second exchange does nothing, and warns of the same. -/
theorem retargetScript_of_kept
    (hx : ∀ z ∈ Part.allFlags false t.parts,
      Exchangeable (d.target? isFile (d.directoryOf file)) z)
    (hs : Settles (d.target? isFile (d.directoryOf file)) [] (Part.allFlags false t.parts))
    (hkept : ∀ old new, d.target? isFile (d.directoryOf file) old = some new →
      d.verdict isFile (d.directoryOf file) (String.ofList new) = .keep) :
    d.retargetScript isFile file
        (Script.parse (Edit.applyAll (d.retargetScript isFile file (Script.parse t)).edits t)) =
      { warnings := (d.retargetScript isFile file (Script.parse t)).warnings } := by
  obtain ⟨-, -, -, hflags⟩ := reading_of_settles hx hs
  rw [(d.applyAll_retargetScript isFile file t).2]
  generalize applyInOrder 0 (retargetEdits (d.target? isFile (d.directoryOf file)) t.markSize
    (Part.allFlags false t.parts)) t = after at hflags ⊢
  have hedits : (d.retargetScript isFile file (Script.parse after)).edits = [] := by
    rw [edits_retargetScript, hflags]
    refine retargetEdits_eq_nil (fun w hw => ?_) _
    obtain ⟨z, hz, rfl⟩ := List.mem_map.1 hw
    refine retargeted?_retarget (hx z hz).1 fun new hnew => ?_
    obtain ⟨q, old, -, -, -, -, hold, -, -⟩ := retarget_eq_some (hx z hz).1 hnew
    rw [target?, hkept old new hold]
  have hwarnings : (d.retargetScript isFile file (Script.parse after)).warnings =
      (d.retargetScript isFile file (Script.parse t)).warnings := by
    rw [warnings_retargetScript, warnings_retargetScript, Script.specifiers_parse,
      Script.specifiers_parse,
      filterMap_specifierTokens fun old => d.warning? isFile file (String.ofList old),
      filterMap_specifierTokens fun old => d.warning? isFile file (String.ofList old), hflags]
    refine filterMap_retarget (fun old new hnew => ?_) fun z hz => (hx z hz).1
    rw [warning?_eq_none fun target => ?_, warning?_eq_none fun target => ?_]
    · rw [verdict_of_target? hnew]
      exact Verdict.noConfusion
    · rw [hkept old new hnew]
      exact Verdict.noConfusion
  rw [← hwarnings, ← hedits, ← retargeted_eq_nil hedits]

/-- An exchange of specifiers leaves all other tokens as they are, says of each specifier whose file
does not exist that it is missing, and is done at once. -/
theorem retargetScript_settles (hroot : d.projectRoot.isAbsolute)
    (hrootclimb : .parent ∉ d.projectRoot.components) (hfileclimb : .parent ∉ file.components)
    (hshorthand : d.shorthand ≠ "") (hdot : d.shorthand.toList.head? ≠ some '.')
    (hrootplain : isPlain d.root.text.toList)
    (hplain : ∀ tok ∈ (Script.parse t).specifiers, isPlain (tok.contents?.getD []))
    (hapart : ∀ e ∈ (d.retargetScript isFile file (Script.parse t)).edits, e.Apart t) :
    (tokenize (Edit.applyAll (d.retargetScript isFile file (Script.parse t)).edits t)).map
        (fun tok => (tok.kind, tok.text)) =
      (tokenize t).map (fun tok => (tok.kind,
        (Script.parse t).exchanged (d.target? isFile (d.directoryOf file)) tok)) ∧
    (∀ tok ∈ (Script.parse t).specifiers,
      (d.missing? isFile (d.directoryOf file) (String.ofList (tok.contents?.getD []))).isSome →
        (Script.parse t).exchanged (d.target? isFile (d.directoryOf file)) tok = tok.text) ∧
    ((d.retargetScript isFile file (Script.parse t)).warnings =
      (Script.parse t).specifiers.filterMap fun tok =>
        d.warning? isFile file (String.ofList (tok.contents?.getD []))) ∧
    d.retargetScript isFile file
        (Script.parse (Edit.applyAll (d.retargetScript isFile file (Script.parse t)).edits t)) =
      { warnings := (d.retargetScript isFile file (Script.parse t)).warnings } := by
  obtain ⟨hdir, hclimb⟩ := directoryOf_of_not_climbing hroot hrootclimb hfileclimb
  have hx : ∀ z ∈ Part.allFlags false t.parts,
      Exchangeable (d.target? isFile (d.directoryOf file)) z := by
    refine exchangeable_of_plain fun p hp => ?_
    obtain ⟨⟨tok, htok, hold⟩, hverdict⟩ := exists_specifier_of_mem_retargeted hp
    have hspecifier : isPlain p.1.toList := by
      rw [hold, String.toList_ofList]
      exact hplain tok htok
    exact ⟨isPlain_not_mem hspecifier,
      isPlain_of_retarget hrootplain hspecifier hverdict⟩
  have hs : Settles (d.target? isFile (d.directoryOf file)) [] (Part.allFlags false t.parts) := by
    obtain ⟨htop, hbody⟩ := t.top_body_allFlags
    rw [edits_retargetScript] at hapart
    exact settles_of_apart (fun z hz => (hx z hz).1) htop hbody hapart
  refine ⟨?_, fun tok _ => exchanged_of_missing, warnings_retargetScript _, ?_⟩
  · rw [(d.applyAll_retargetScript isFile file t).2]
    exact tokenize_of_settles hx hs
  · exact retargetScript_of_kept hx hs fun old new hnew =>
      verdict_of_exchanged hroot hdir hclimb hshorthand hdot (verdict_of_target? hnew)

/-- A text that imports a data file that exists and one that does not, below a lone `/`. -/
def twoImports : Text :=
  "x = / y;\nimport a from '@/data/a.json';\nimport b from '@/data/b.json';\n".toList

/-- The first specifier is settled, and the second warned of each time. -/
theorem retargetScript_settles_two :
    sample.retargetScript (· == ⟨"/proj/data/a.json"⟩) ⟨"app/page.js"⟩ (Script.parse
        (Edit.applyAll (sample.retargetScript (· == ⟨"/proj/data/a.json"⟩) ⟨"app/page.js"⟩
          (Script.parse twoImports)).edits twoImports)) =
      { warnings := [.missingDataFile "@/data/b.json" "data/b.json"] } := by
  obtain ⟨-, -, -, hsettled⟩ := @retargetScript_settles sample
    (· == ⟨"/proj/data/a.json"⟩) ⟨"app/page.js"⟩ twoImports
    (by decide +kernel) (by decide +kernel) (by decide +kernel) (by decide +kernel)
    (by decide +kernel) (by decide +kernel) (by decide +kernel) (by decide +kernel)
  rw [hsettled]
  decide +kernel

/-- A `/` that finds no end becomes a regular expression when a new specifier follows it, and a
string behind that specifier is then read as code. -/
theorem retargetScript_settles_slash :
    ¬ ∀ (d : DataDirectory) (isFile : Path → Bool) (file : Path) (t : Text),
      d.projectRoot.isAbsolute → .parent ∉ d.projectRoot.components → .parent ∉ file.components →
      d.shorthand ≠ "" → d.shorthand.toList.head? ≠ some '.' → isPlain d.root.text.toList →
      (∀ tok ∈ (Script.parse t).specifiers, isPlain (tok.contents?.getD [])) →
      d.retargetScript isFile file
          (Script.parse (Edit.applyAll (d.retargetScript isFile file (Script.parse t)).edits t)) =
        { warnings := (d.retargetScript isFile file (Script.parse t)).warnings } := by
  intro hall
  have hsettled := hall ⟨⟨"/proj"⟩, ⟨"data"⟩, "@"⟩
    (fun p => p == ⟨"/proj/data/a.json"⟩ || p == ⟨"/proj/data/b.json"⟩) ⟨"app/page.js"⟩
    "x = / from \"@a.json\" + \" from '@b.json' \"\n".toList (by decide +kernel)
    (by decide +kernel) (by decide +kernel) (by decide +kernel) (by decide +kernel)
    (by decide +kernel) (by decide +kernel)
  revert hsettled
  decide +kernel

end DataDirectory

end TidyImports
