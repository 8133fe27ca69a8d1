import ContractCompiler.Proofs.Output.Buffers
import ContractCompiler.Proofs.Text.Json

/-!
# Records are read back line by line

Contracts written as lines of JSON can be read back from the bytes alone. A line break in a contract is escaped, so that the only
line breaks in the output are those after the records: cutting the output there gives the records, and each is a JSON object with
the name and the text of its contract.
-/

namespace ContractCompiler

namespace Text

/-- The byte of a line break. -/
def lineFeed : UInt8 := 10

/-- A line break is one byte. -/
theorem utf8Bytes_lineBreak : utf8Bytes "\n" = [lineFeed] := by decide

/-- Only a line break has its byte among its bytes: the bytes of a character beyond ASCII are all larger. -/
theorem eq_lineBreak_of_mem {c : Char} (h : lineFeed ∈ String.utf8EncodeChar c) : c = '\n' := by
  have hlarge : ∀ n, 128 ≤ n → n < 256 → lineFeed ≠ UInt8.ofNat n := by
    intro n hn hbyte heq
    have := congrArg UInt8.toNat heq
    rw [toNat_byte hbyte] at this
    simp only [lineFeed, UInt8.toNat_ofNat] at this
    omega
  unfold String.utf8EncodeChar at h
  dsimp only at h
  split at h
  · have hcode : lineFeed.toNat = c.val.toNat := by
      rw [List.mem_singleton.mp h, toNat_byte (by omega)]
    exact Char.toNat_inj.mp hcode.symm
  · exfalso
    split at h
    · simp only [List.mem_cons, List.not_mem_nil, or_false] at h
      rcases h with h | h <;> exact hlarge _ (by omega) (by omega) h
    split at h
    · simp only [List.mem_cons, List.not_mem_nil, or_false] at h
      rcases h with h | h | h <;> exact hlarge _ (by omega) (by omega) h
    · simp only [List.mem_cons, List.not_mem_nil, or_false] at h
      rcases h with h | h | h | h <;> exact hlarge _ (by omega) (by omega) h

/-- Only a line break has this byte. -/
theorem lineFeed_not_mem_utf8Bytes {s : String} (h : '\n' ∉ s.toList) : lineFeed ∉ utf8Bytes s := by
  intro hmem
  obtain ⟨c, hc, hbyte⟩ := List.mem_flatMap.mp hmem
  exact h (eq_lineBreak_of_mem hbyte ▸ hc)

/-- Nothing is written as a line break, not even a line break. -/
theorem lineBreak_not_mem_jsonChar (c : Char) : '\n' ∉ jsonChar c := by
  have hletters : '\n' ∉ "\"\\bfnrt".toList := by simp
  have hdigit : ∀ d, d < 16 → '\n' ≠ Nat.digitChar d := by decide
  rcases Json.Reads.jsonChar_cases c with ⟨letter, hmem, htext, -⟩ | ⟨-, htext⟩ | ⟨hcode, -, -, htext⟩
  · have hletter : '\n' ≠ letter := by
      rintro rfl
      exact hletters hmem
    simp [htext, hletter]
  · simp only [htext, fourHexDigits, List.mem_cons, List.not_mem_nil, or_false, not_or]
    exact ⟨by decide, by decide, hdigit _ (by omega), hdigit _ (by omega), hdigit _ (by omega), hdigit _ (by omega)⟩
  · rw [htext, List.mem_singleton]
    rintro rfl
    exact absurd hcode (by decide)

/-- No line break stands in a JSON string. -/
theorem lineBreak_not_mem_jsonString (s : String) : '\n' ∉ (jsonString s).toList := by
  rw [Json.Reads.toList_jsonString]
  simp only [List.mem_append, List.mem_singleton, List.mem_flatMap, not_or, not_exists, not_and]
  exact ⟨by decide, fun c _ => lineBreak_not_mem_jsonChar c, by decide⟩

end Text

/-- The value of a JSON text given by its bytes. -/
def Json.ofBytes? (bytes : List UInt8) : Option Json := (Text.decode? bytes).bind Json.read?

namespace Contract

/-- A record is an object with the name and the text of the contract. -/
theorem toList_record (c : Contract) :
    c.record.toList = ['\x7b'] ++ (Json.Reads.fieldText ("contract", c.name) ++ Json.Reads.moreText [("source", c.text)]) := by
  have hcontract : "\x7b\"contract\":".toList = '\x7b' :: ((Text.jsonString "contract").toList ++ [':']) := by decide
  have hsource : ",\"source\":".toList = ',' :: ((Text.jsonString "source").toList ++ [':']) := by decide
  have hclose : "\x7d".toList = ['\x7d'] := by decide
  have hrecord : c.record = "\x7b\"contract\":" ++ Text.jsonString c.name ++ ",\"source\":" ++ Text.jsonString c.text ++ "\x7d" :=
    rfl
  rw [hrecord, String.toList_append, String.toList_append, String.toList_append, String.toList_append, hcontract, hsource, hclose,
    Json.Reads.moreText, List.flatMap_singleton, Json.Reads.fieldText, Json.Reads.fieldText]
  generalize (Text.jsonString "contract").toList = first
  generalize (Text.jsonString "source").toList = second
  simp

/-- A record is read back. -/
theorem read?_record (c : Contract) :
    Json.read? c.record = some (.object [("contract", .string c.name), ("source", .string c.text)]) :=
  Json.read?_object ("contract", c.name) [("source", c.text)] c.toList_record

/-- No line break stands in a record. -/
theorem lineBreak_not_mem_record (c : Contract) : '\n' ∉ c.record.toList := by
  have happend : ∀ s t : String, '\n' ∉ s.toList → '\n' ∉ t.toList → '\n' ∉ (s ++ t).toList := by
    intro s t hs ht
    rw [String.toList_append, List.mem_append]
    exact not_or.mpr ⟨hs, ht⟩
  have hname := Text.lineBreak_not_mem_jsonString c.name
  have htext := Text.lineBreak_not_mem_jsonString c.text
  exact happend _ _ (happend _ _ (happend _ _ (happend _ _ (by decide) hname) (by decide)) htext) (by decide)

end Contract

section Lines

variable {α : Type} {x : α} {lines : List (List α)}

/-- Ending each line with `x` puts `x` between the lines, and before an empty one at the end. -/
theorem flatMap_ended_eq_intercalate (x : α) (lines : List (List α)) :
    lines.flatMap (· ++ [x]) = [x].intercalate (lines ++ [[]]) := by
  induction lines with
  | nil => rfl
  | cons line lines ih =>
    rw [List.flatMap_cons, ih]
    cases lines with
    | nil => simp [List.intercalate_cons_cons]
    | cons => simp [List.intercalate_cons_cons]

/-- Lines that are each followed by a separator are split at the separators. -/
theorem splitOn_ended [BEq α] [LawfulBEq α] (h : ∀ line ∈ lines, x ∉ line) :
    (lines.flatMap (· ++ [x])).splitOn x = lines ++ [[]] := by
  rw [flatMap_ended_eq_intercalate]
  refine List.splitOn_intercalate x ?_ (by simp)
  intro line hline
  rcases List.mem_append.mp hline with hline | hline
  · exact h line hline
  · rw [List.mem_singleton.mp hline]
    exact List.not_mem_nil

theorem count_ended [BEq α] [LawfulBEq α] (h : ∀ line ∈ lines, x ∉ line) :
    (lines.flatMap (· ++ [x])).count x = lines.length := by
  induction lines with
  | nil => rfl
  | cons line lines ih =>
    have hline : line.count x = 0 := List.count_eq_zero.mpr (h line List.mem_cons_self)
    rw [List.flatMap_cons, List.count_append, List.count_append, hline, List.count_singleton_self,
      ih fun other hother => h other (List.mem_cons_of_mem line hother), List.length_cons]
    omega

end Lines

end ContractCompiler
