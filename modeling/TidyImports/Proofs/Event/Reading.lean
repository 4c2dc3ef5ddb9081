-- SUMMARY: Reading takes back an event from the document that writing makes of it.
import TidyImports.Event.Document
import TidyImports.Proofs.Json.Lexemes

/-!
# Reading events back

Each reader is inverse to its writer, from the parts of an event up to the event
itself. A field is the one given last, so that a field in front of an event's own
fields does not get in their way.
-/

namespace TidyImports

variable {α : Type} {depth n : Nat} {read : Document → Option α} {write : α → Document}

-- ---------------------------------------------------------------------------
-- Scalars, fields and lists
-- ---------------------------------------------------------------------------

namespace Document

@[simp] theorem asText?_text (s : String) : asText? (.text s) = some s := rfl

@[simp] theorem asBool?_bool (b : Bool) : asBool? (.bool b) = some b := rfl

@[simp] theorem asKind?_text (dialect : Dialect) (kinds : List String) (word : String) :
    asKind? dialect kinds (.text word) = some word := rfl

@[simp] theorem inRange_text (s : String) : (text s).inRange := by rw [inRange]

@[simp] theorem field?_nil (name : String) : (table []).field? name = none := rfl

@[simp] theorem field?_cons (k name : String) (d : Document) (fs : List (String × Document)) :
    (table ((k, d) :: fs)).field? name =
      ((table fs).field? name).or (if k = name then some d else none) := by
  simp only [field?, List.findRev?, beq_iff_eq]
  cases fs.findRev? (·.1 == name) <;> by_cases h : k = name <;> simp [h]

theorem asListOf?_map (h : ∀ x, read (write x) = some x) (xs : List α) :
    asListOf? read (.list (xs.map write)) = some xs := by
  have hread : read ∘ write = pure := funext h
  rw [asListOf?, List.mapM_map, hread]
  exact (List.mapM_pure ..).trans (congrArg some (List.map_id xs))

theorem asCount?_ofNat (h : n ≤ 0xFFFFFFFFFFFFFFFF) : asCount? (ofNat n) = some n := by
  have hle : (n : Int) ≤ 0xFFFFFFFFFFFFFFFF := by omega
  simp [asCount?, ofNat, hle]

end Document

theorem Json.isReadable_ofNat (h : n ≤ 0xFFFFFFFFFFFFFFFF) : isReadable depth (.ofNat n) := by
  have hlow : -0x8000000000000000 ≤ (n : Int) := by omega
  have hhigh : (n : Int) ≤ 0xFFFFFFFFFFFFFFFF := by omega
  exact isReadable_integer.2 ⟨hlow, hhigh⟩

theorem Json.itemsReadable_map (h : ∀ x, isReadable depth (write x)) (xs : List α) :
    itemsReadable depth (xs.map write) := by
  induction xs with
  | nil => rfl
  | cons x xs ih => exact itemsReadable_cons.2 ⟨h x, ih⟩

-- ---------------------------------------------------------------------------
-- The parts of events
-- ---------------------------------------------------------------------------

open Document Json

theorem Change.Kind.ofDocument?_word (dialect : Dialect) (kind : Change.Kind) :
    Kind.ofDocument? dialect (.text kind.word) = some kind := by
  cases kind <;> rfl

theorem Change.ofDocument?_toDocument (dialect : Dialect) (c : Change) :
    Change.ofDocument? dialect c.toDocument = some c := by
  simp [ofDocument?, toDocument, asRecord?, required, Kind.ofDocument?_word]

theorem Change.isReadable_toDocument (h : 0 < depth) (c : Change) :
    isReadable depth c.toDocument := by
  simp [toDocument, h]

theorem Warning.ofDocument?_toDocument (w : Warning) :
    Warning.ofDocument? w.toDocument = some w := by
  cases w <;> simp [ofDocument?, toDocument, fields, tagged?, asRecord?, required]

theorem Warning.isReadable_toDocument (h : 0 < depth) (w : Warning) :
    isReadable depth w.toDocument := by
  cases w <;> simp [toDocument, fields, h]

theorem Tool.ofDocument?_toDocument (t : Tool) : Tool.ofDocument? t.toDocument = some t := by
  obtain ⟨name, version?⟩ := t
  cases version? <;>
    simp [ofDocument?, toDocument, present, asRecord?, required, Document.optional]

theorem Tool.isReadable_toDocument (h : 0 < depth) (t : Tool) : isReadable depth t.toDocument := by
  obtain ⟨name, version?⟩ := t
  cases version? <;> simp [toDocument, present, h]

/-- Each counter is a number of 64 bits. -/
structure Summary.IsCounted (s : Summary) : Prop where
  filesScanned : s.filesScanned ≤ 0xFFFFFFFFFFFFFFFF
  filesChanged : s.filesChanged ≤ 0xFFFFFFFFFFFFFFFF
  backupsCreated : s.backupsCreated ≤ 0xFFFFFFFFFFFFFFFF
  warnings : s.warnings ≤ 0xFFFFFFFFFFFFFFFF

instance (s : Summary) : Decidable s.IsCounted :=
  decidable_of_iff (s.filesScanned ≤ 0xFFFFFFFFFFFFFFFF ∧ s.filesChanged ≤ 0xFFFFFFFFFFFFFFFF ∧
      s.backupsCreated ≤ 0xFFFFFFFFFFFFFFFF ∧ s.warnings ≤ 0xFFFFFFFFFFFFFFFF)
    ⟨fun ⟨hscanned, hchanged, hbackups, hwarnings⟩ => ⟨hscanned, hchanged, hbackups, hwarnings⟩,
      fun ⟨hscanned, hchanged, hbackups, hwarnings⟩ => ⟨hscanned, hchanged, hbackups, hwarnings⟩⟩

theorem Summary.ofDocument?_toDocument {s : Summary} (h : s.IsCounted) :
    Summary.ofDocument? s.toDocument = some s := by
  obtain ⟨hscanned, hchanged, hbackups, hwarnings⟩ := h
  obtain ⟨scanned, changed, backups, warnings, dryRun, startedAt?, endedAt?⟩ := s
  cases startedAt? <;> cases endedAt? <;>
    simp [ofDocument?, toDocument, present, asRecord?, required, Document.optional,
      asCount?_ofNat hscanned, asCount?_ofNat hchanged, asCount?_ofNat hbackups,
      asCount?_ofNat hwarnings]

theorem Summary.isReadable_toDocument {s : Summary} (h : s.IsCounted) (hdepth : 0 < depth) :
    isReadable depth s.toDocument := by
  obtain ⟨hscanned, hchanged, hbackups, hwarnings⟩ := h
  obtain ⟨scanned, changed, backups, warnings, dryRun, startedAt?, endedAt?⟩ := s
  cases startedAt? <;> cases endedAt? <;>
    simp [toDocument, present, hdepth, isReadable_ofNat hscanned, isReadable_ofNat hchanged,
      isReadable_ofNat hbackups, isReadable_ofNat hwarnings]

-- ---------------------------------------------------------------------------
-- Events
-- ---------------------------------------------------------------------------

namespace Event

/-- Each counter that the event holds is a number of 64 bits. -/
def IsCounted : Event → Prop
  | .completed summary => summary.IsCounted
  | .started .. | .filePatched .. | .filePreview .. | .warning .. => True

instance : (e : Event) → Decidable e.IsCounted
  | .completed summary => inferInstanceAs (Decidable summary.IsCounted)
  | .started .. | .filePatched .. | .filePreview .. | .warning .. => .isTrue trivial

variable {e : Event}

/-- A field in front of its own does not keep an event from being read. -/
theorem ofDocument?_fields (h : e.IsCounted) (k : String) {d : Document} (hd : d.inRange) :
    ofDocument? (.table ((k, d) :: e.fields)) = some e := by
  have hchanges := asListOf?_map (Change.ofDocument?_toDocument .taggedJson)
  cases e with
  | started tool scanRoot =>
    simp [ofDocument?, fields, tagged?, asRecord?, required, pathIn, hd,
      Tool.ofDocument?_toDocument]
  | filePatched path changes backupCreated =>
    simp [ofDocument?, fields, tagged?, asRecord?, required, pathIn, hd, hchanges]
  | filePreview path changes diff =>
    simp [ofDocument?, fields, tagged?, asRecord?, required, pathIn, hd, hchanges]
  | warning path w =>
    simp [ofDocument?, fields, tagged?, asRecord?, required, pathIn, hd,
      Warning.ofDocument?_toDocument]
  | completed summary =>
    simp [ofDocument?, fields, tagged?, asRecord?, required, hd, Summary.ofDocument?_toDocument h]

theorem fieldsReadable_fields (h : e.IsCounted) (hdepth : 1 < depth) :
    fieldsReadable depth e.fields := by
  have hopen : 0 < depth := by omega
  have hinner : 0 < depth - 1 := by omega
  have hchanges := itemsReadable_map (Change.isReadable_toDocument hinner)
  cases e with
  | started tool scanRoot => simp [fields, Tool.isReadable_toDocument hopen]
  | filePatched path changes backupCreated => simp [fields, hopen, hchanges]
  | filePreview path changes diff => simp [fields, hopen, hchanges]
  | warning path w => simp [fields, Warning.isReadable_toDocument hopen]
  | completed summary => simp [fields, Summary.isReadable_toDocument h hopen]

end Event

end TidyImports
