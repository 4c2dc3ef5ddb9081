-- SUMMARY: A report in JSON is framed by its line feeds, and each line gives back its event.
import TidyImports.Proofs.Event.Reading
import TidyImports.Proofs.Json.Roundtrip
import TidyImports.Proofs.Lexing.Tiling
import TidyImports.Report

/-!
# Reports that can be read

The compact form of a document holds no control characters, so a line feed in a
report ends the line of an event. The lines of a report are then the lines of its
events, and no two reports are the same text.
-/

namespace TidyImports

-- ---------------------------------------------------------------------------
-- Lines and bytes
-- ---------------------------------------------------------------------------

namespace Text

theorem lines_append_newline {a : Text} (h : '\n' ∉ a) (rest : Text) :
    lines (a ++ '\n' :: rest) = (a ++ ['\n']) :: lines rest := by
  induction a with
  | nil => rfl
  | cons c a ih =>
    obtain ⟨hc, ha⟩ := not_or.1 (List.mem_cons.not.1 h)
    rw [List.cons_append, lines, if_neg (Ne.symm hc), ih ha]
    rfl

/-- Lines without a line feed of their own, each ended by one, are split into the same lines. -/
theorem lines_flatMap {ls : List Text} (h : ∀ a ∈ ls, '\n' ∉ a) :
    lines (ls.flatMap (· ++ ['\n'])) = ls.map (· ++ ['\n']) := by
  induction ls with
  | nil => rfl
  | cons a ls ih =>
    obtain ⟨ha, hls⟩ := List.forall_mem_cons.1 h
    rw [List.flatMap_cons, List.append_assoc, List.singleton_append, lines_append_newline ha,
      ih hls, List.map_cons]

theorem bytes_injective {a b : Text} (h : a.bytes = b.bytes) : a = b :=
  String.ofList_injective (String.toByteArray_inj.1 h)

theorem le_of_mem_utf8EncodeChar {c : Char} (h : 0x20 ≤ c.toNat) :
    ∀ b ∈ String.utf8EncodeChar c, 0x20 ≤ b := by
  have hbyte : ∀ n, 0x20 ≤ n % 0x100 → 0x20 ≤ UInt8.ofNat n := fun n hn => by
    rwa [UInt8.le_iff_toNat_le, UInt8.toNat_ofNat']
  rw [String.utf8EncodeChar, show c.val.toNat = c.toNat from rfl]
  -- The bytes of a longer encoding all have their highest bit set.
  split_ifs <;> simp only [List.forall_mem_cons, List.not_mem_nil, false_imp_iff, implies_true,
    and_true]
  · exact hbyte _ (by omega)
  · exact ⟨hbyte _ (by omega), hbyte _ (by omega)⟩
  · exact ⟨hbyte _ (by omega), hbyte _ (by omega), hbyte _ (by omega)⟩
  · exact ⟨hbyte _ (by omega), hbyte _ (by omega), hbyte _ (by omega), hbyte _ (by omega)⟩

theorem le_of_mem_bytes {t : Text} (h : Json.IsPrintable t) : ∀ b ∈ t.bytes.data, 0x20 ≤ b := by
  induction t with
  | nil => exact fun _ hb => nomatch hb
  | cons c t ih =>
    obtain ⟨hc, ht⟩ := List.forall_mem_cons.1 h
    intro b hb
    rw [bytes_cons, ByteArray.data_append, List.data_toByteArray, Array.mem_append,
      List.mem_toArray] at hb
    exact hb.elim (le_of_mem_utf8EncodeChar hc b) (ih ht b)

end Text

-- ---------------------------------------------------------------------------
-- Reports
-- ---------------------------------------------------------------------------

namespace Report

/-- The event in a line of a report. -/
def readLine? (line : Text) : Option Event := (Json.parse? line).bind Event.ofDocument?

/-- The line of an event, without its line feed. -/
def lineText (e : Event) : Text := Json.compact (.table (("schema", .text schema) :: e.fields))

section
variable {e : Event} (h : e.IsCounted)
include h

theorem isReadable_lineText :
    Json.isReadable Json.maxDepth (.table (("schema", .text schema) :: e.fields)) := by
  have hfields : Json.fieldsReadable (Json.maxDepth - 1) e.fields :=
    Event.fieldsReadable_fields h (by decide)
  exact Json.isReadable_table.2 ⟨by decide, Json.fieldsReadable_cons.2 ⟨rfl, hfields⟩⟩

theorem readLine?_lineText : readLine? (lineText e) = some e := by
  rw [readLine?, lineText, Json.parse?_compact (isReadable_lineText h), Option.bind_some]
  exact Event.ofDocument?_fields h "schema" rfl

theorem isPrintable_lineText : Json.IsPrintable (lineText e) :=
  Json.isPrintable_compact _ (isReadable_lineText h)

theorem newline_not_mem_lineText : '\n' ∉ lineText e := fun hmem =>
  absurd (isPrintable_lineText h _ hmem) (by decide)

end

/-- What stands between the line feeds of the report on these events, one text for each event. -/
structure Framed (events : List Event) (contents : List Text) : Prop where
  written : events.map jsonLine = contents.map (· ++ ['\n'])
  lines : (jsonLines events).lines = events.map jsonLine
  printable : ∀ content ∈ contents, ∀ b ∈ content.bytes.data, 0x20 ≤ b
  read : contents.map readLine? = events.map some

theorem framed_lineText {events : List Event} (h : ∀ e ∈ events, e.IsCounted) :
    Framed events (events.map lineText) where
  written := by rw [List.map_map]; rfl
  lines := by
    have hnewline : ∀ a ∈ events.map lineText, '\n' ∉ a :=
      List.forall_mem_map.2 fun e he => newline_not_mem_lineText (h e he)
    have hlines := Text.lines_flatMap hnewline
    rwa [List.flatMap_map, List.map_map] at hlines
  printable := List.forall_mem_map.2 fun e he =>
    Text.le_of_mem_bytes (isPrintable_lineText (h e he))
  read := by
    rw [List.map_map]
    exact List.map_congr_left fun e he => readLine?_lineText (h e he)

/-- The events of a report are told by its text. -/
theorem Framed.eq_of_jsonLines_eq {events events' : List Event} {contents contents' : List Text}
    (hf : Framed events contents) (hf' : Framed events' contents')
    (h : jsonLines events = jsonLines events') : events = events' := by
  have hwritten : contents.map (· ++ ['\n']) = contents'.map (· ++ ['\n']) := by
    rw [← hf.written, ← hf.lines, h, hf'.lines, hf'.written]
  obtain rfl : contents = contents' :=
    List.map_injective_iff.2 (fun _ _ => List.append_cancel_right) hwritten
  exact List.map_injective_iff.2 (fun _ _ => Option.some.inj) (hf.read.symm.trans hf'.read)

/-- A report has one line for each event, ended by its only line feed. No other byte of the report
is below the blank, each line gives back its event, and different events make different reports. -/
theorem jsonLines_decodable {events : List Event} (h : ∀ e ∈ events, e.IsCounted) :
    (∃ contents, Framed events contents) ∧
      ∀ events' : List Event, (∀ e ∈ events', e.IsCounted) → events' ≠ events →
        (jsonLines events').bytes ≠ (jsonLines events).bytes := by
  refine ⟨⟨_, framed_lineText h⟩, fun events' h' hne hbytes => hne ?_⟩
  exact (framed_lineText h').eq_of_jsonLines_eq (framed_lineText h) (Text.bytes_injective hbytes)

/-- Events with quotes, line breaks and control characters in their texts, and a full counter. -/
def escapedEvents : List Event := [
  .started ⟨"tidy \"imports\"", some "C:\\0.1"⟩ ⟨"pages\nnew"⟩,
  .filePatched ⟨"a.tsx"⟩ [⟨.merged, "react", "\x01\x1f"⟩, ⟨.inserted, "\t", "\x7f"⟩] true,
  .filePreview ⟨"b.tsx"⟩ [] "-a\r\n+b\n".toList,
  .warning ⟨"b.tsx"⟩ (.defaultConflict "react" "é" "\x7d,\x7b"),
  .completed { filesScanned := 0xFFFFFFFFFFFFFFFF, endedAt? := some "2024-01-01T00:00:00Z" }]

theorem jsonLines_decodable_escaped :
    (∀ e ∈ escapedEvents, e.IsCounted) ∧ (∀ e ∈ escapedEvents.tail, e.IsCounted) ∧
      (∃ contents, Framed escapedEvents contents) ∧
        (jsonLines escapedEvents.tail).bytes ≠ (jsonLines escapedEvents).bytes := by
  have h : ∀ e ∈ escapedEvents, e.IsCounted := by decide
  have htail : ∀ e ∈ escapedEvents.tail, e.IsCounted := by decide
  obtain ⟨hframed, hdiffer⟩ := jsonLines_decodable h
  exact ⟨h, htail, hframed, hdiffer _ htail (by decide)⟩

end Report

end TidyImports
