import KvStore.Spec.WALCorrect
import Mathlib.Tactic.IntervalCases

/-!
# Appending behind a torn record

`Replay` skips a torn record at the end of the log, but leaves its bytes in the file, and
the file is opened for appending. `recoversAppends_iff` says when the records that are
appended afterwards can be recovered: exactly if there were no such bytes.
-/

namespace KvStore.WAL

/-- `AppendPut` and `AppendDelete`, one after another, on an open log. No call fails. -/
def appendAll (file : Bytes) (log : Log) : Bytes :=
  log.foldl (fun file entry => (append file entry.2 entry.1 [] none).1) file

/-- Appended records stand behind what was in the file. -/
theorem appendAll_eq (file : Bytes) (log : Log) : appendAll file log = file ++ logBytes log := by
  induction log generalizing file with
  | nil => simp [appendAll, logBytes]
  | cons entry log ih =>
    have happend : (append file entry.2 entry.1 [] none).1 = file ++ encodeEntry entry := by
      unfold append encodeEntry
      cases encode entry.2 entry.1 <;> rfl
    have hstep : appendAll file (entry :: log) = appendAll (file ++ encodeEntry entry) log :=
      congrArg (appendAll · log) happend
    rw [hstep, ih, List.append_assoc]
    rfl

/-- Whatever records that satisfy `written` are appended to a file with the records
    `records`, replaying it afterwards recovers the former behind the latter. -/
def RecoversAppends (file : Bytes) (records : List LogRecord) (written : LogRecord → Prop) :
    Prop :=
  ∀ log : Log, (∀ entry ∈ log, written entry.1) →
    Recovers (appendAll file log) (records ++ log.map Prod.fst)

/-- The deletion of the empty key: a record that is only a header. -/
def deleteEmpty : LogRecord := { type := .delete, key := [], value := [] }

/-- The bytes of `deleteEmpty`. -/
private theorem encode_deleteEmpty (padding : Padding) :
    encode padding deleteEmpty =
      [0x4c, 0x57, 0x56, 0x4b, 2, padding.first, padding.second, padding.third,
        0, 0, 0, 0, 0, 0, 0, 0, 0xe5, 0x03, 0x77, 0x0b] := by
  rfl

/-- Encodings of `deleteEmpty` do not overlap, whatever their padding holds. -/
private theorem encode_deleteEmpty_no_overlap (padding : Padding) {shift : Nat}
    (hpos : 0 < shift) (hlt : shift < headerSize) :
    ∃ i < headerSize, shift ≤ i ∧
      (encode padding deleteEmpty)[i]? ≠ (encode {} deleteEmpty)[i - shift]? := by
  rw [encode_deleteEmpty, encode_deleteEmpty]
  unfold headerSize at *
  by_cases hpadding : shift < 5 ∨ 8 ≤ shift
  · -- the second encoding starts outside the padding of the first, with another byte
    refine ⟨shift, hlt, le_rfl, ?_⟩
    rw [Nat.sub_self]
    rcases hpadding with h | h <;> interval_cases shift <;> simp
  · -- it starts in the padding, and its type or magic meets a zero behind it
    refine ⟨8, by omega, by omega, ?_⟩
    have hrange : 5 ≤ shift ∧ shift < 8 := by omega
    obtain ⟨h₁, h₂⟩ := hrange
    interval_cases shift <;> simp

/-- Behind a part of a record, `deleteEmpty` is not found at its place. -/
private theorem not_starts_deleteEmpty {entry : LogRecord × Padding} (hfits : Fits entry.1)
    {torn : Bytes} (htorn : Torn encodeEntry [entry] torn) (hne : torn ≠ [])
    (padding : Padding) (rest : Bytes) :
    torn ++ encode {} deleteEmpty ≠ encode padding deleteEmpty ++ rest := by
  intro heq
  have hdelete : Fits deleteEmpty := ⟨by decide, by decide⟩
  have hlength : (encode padding deleteEmpty).length = headerSize := length_encode _ _
  have hheader : torn.length < headerSize := by
    by_contra hlong
    -- otherwise the torn record would start with a whole one
    have htake := congrArg (List.take headerSize) heq
    rw [List.take_append_of_le_length (by omega), List.take_left' hlength] at htake
    have hrecord : readRecord torn = .record deleteEmpty (torn.drop headerSize) := by
      rw [← readRecord_encode padding hdelete, ← htake, List.take_append_drop]
    rw [readRecord_torn hfits htorn.1 htorn.2] at hrecord
    cases hrecord
  obtain ⟨i, hi, hle, hdiff⟩ :=
    encode_deleteEmpty_no_overlap padding (List.length_pos_iff.mpr hne) hheader
  have hget : (torn ++ encode {} deleteEmpty)[i]? = (encode padding deleteEmpty ++ rest)[i]? :=
    congrArg (·[i]?) heq
  rw [List.getElem?_append_right hle, List.getElem?_append_left (by omega)] at hget
  exact hdiff hget.symm

/-- The padding does not change the length of a log. -/
private theorem length_logBytes_congr {log log' : Log}
    (h : log.map Prod.fst = log'.map Prod.fst) :
    (logBytes log).length = (logBytes log').length := by
  have hlength : ∀ log : Log, (logBytes log).length =
      ((log.map Prod.fst).map fun r => headerSize + r.key.length + r.value.length).sum := by
    intro log
    simp [logBytes, List.length_flatMap, encodeEntry, Function.comp_def]
  rw [hlength, hlength, h]

/-- For a log with a torn record at its end, whatever class of records is written: what is
    appended to it is recovered exactly if nothing of the torn record is there and the
    sizes of the records fit the header. -/
theorem recoversAppends_iff {log : Log} {entry : LogRecord × Padding} {torn : Bytes}
    {written : LogRecord → Prop} (hlog : ∀ e ∈ log, written e.1) (hentry : written entry.1)
    (hdelete : written deleteEmpty) (htorn : Torn encodeEntry [entry] torn) :
    RecoversAppends (logBytes log ++ torn) (log.map Prod.fst) written ↔
      torn = [] ∧ ∀ record, written record → Fits record := by
  constructor
  · intro h
    -- a record that is read back has sizes below 2 ^ 32
    have hfits : ∀ record, written record → Fits record := by
      intro record hrecord
      obtain ⟨log', rest, -, hmap, hfits⟩ := (h [(record, {})] (by simpa using hrecord)).exists_log
      have hmem : record ∈ log'.map Prod.fst := by
        rw [hmap]
        simp
      obtain ⟨e, he, rfl⟩ := List.mem_map.mp hmem
      exact hfits e he
    refine ⟨?_, hfits⟩
    by_contra hne
    -- the appended record would have to be found where the torn one begins
    obtain ⟨log', rest, hfile, hmap, -⟩ :=
      (h [(deleteEmpty, {})] (by simpa using hdelete)).exists_log
    obtain ⟨front, last, rfl, hfront, hlast⟩ := List.map_eq_append_iff.mp hmap
    obtain ⟨e, rfl, he⟩ := List.map_eq_singleton_iff.mp hlast
    rw [appendAll_eq, logBytes_append, List.append_assoc, List.append_assoc] at hfile
    have htail := (List.append_inj hfile (length_logBytes_congr hfront.symm)).2
    apply not_starts_deleteEmpty (hfits _ hentry) htorn hne e.2 rest
    simpa [logBytes, encodeEntry, show e.1 = deleteEmpty from he] using htail
  · -- behind a whole log the records that are appended are read back
    rintro ⟨rfl, hfits⟩ log' hlog'
    have hall : ∀ e ∈ log ++ log', Fits e.1 := by
      intro e he
      rcases List.mem_append.mp he with he | he
      · exact hfits _ (hlog e he)
      · exact hfits _ (hlog' e he)
    have hrecovers := recovers_logBytes hall
    rw [logBytes_append, List.map_append] at hrecovers
    rw [appendAll_eq, List.append_nil]
    exact hrecovers

/-- The class of all records that fit, and a `PUT` torn after its first byte. -/
theorem recoversAppends_iff_put :
    RecoversAppends (logBytes [(⟨.put, [97], [98]⟩, {})] ++ [0x4c]) [⟨.put, [97], [98]⟩] Fits ↔
      ([0x4c] : Bytes) = [] ∧ ∀ record, Fits record → Fits record :=
  recoversAppends_iff (by simpa using ⟨by decide, by decide⟩) ⟨by decide, by decide⟩
    ⟨by decide, by decide⟩
    (show Torn encodeEntry [(⟨.put, [99], [100]⟩, {})] _ from ⟨by decide, by decide⟩)

/-- One byte of a torn record: `Replay` skips it, and after one more `PUT` it throws. -/
theorem append_after_torn_lost :
    Torn encodeEntry [(⟨.put, [97], [98]⟩, {})] [0x4c] ∧ Recovers [0x4c] [] ∧
      replayRecords (appendAll [0x4c] [(⟨.put, [97], [98]⟩, {})]) =
        ([], .error "WAL replay failed: invalid record magic") ∧
      ¬ RecoversAppends [0x4c] [] fun record => record = ⟨.put, [97], [98]⟩ := by
  have hreplay : replayRecords (appendAll [0x4c] [(⟨.put, [97], [98]⟩, {})]) =
      ([], .error "WAL replay failed: invalid record magic") :=
    replayLoop_of_invalid _ _ _ (by decide)
  have htail : readRecord [0x4c] = .tail 1 := by decide
  refine ⟨⟨by decide, by decide⟩, ⟨_, replayLoop_of_tail _ _ _ htail⟩, hreplay, fun h => ?_⟩
  obtain ⟨stats, hstats⟩ := h [(⟨.put, [97], [98]⟩, {})] (by simp)
  rw [hreplay] at hstats
  cases congrArg Prod.snd hstats

end KvStore.WAL
