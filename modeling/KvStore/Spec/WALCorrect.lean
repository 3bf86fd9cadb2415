import KvStore.Native.WAL
import KvStore.ForStd.Framing

/-!
# Replaying what was appended

`readRecord_encode` and `readRecord_torn` say what one round of `Replay` finds at the
start of a whole record and of a torn one; `replayLoop_log` runs it over a log. Together
they give `replay_take`: replaying any beginning of a log yields the records that lie
wholly within it.
-/

namespace KvStore.WAL

/-- The sizes of a record that its header can hold. -/
structure Fits (record : LogRecord) : Prop where
  key : record.key.length < 2 ^ 32
  value : record.value.length < 2 ^ 32

/-- A log: records, each with the contents of the padding that it was written with. -/
abbrev Log := List (LogRecord × Padding)

/-- The bytes of an entry of a log. -/
def encodeEntry (entry : LogRecord × Padding) : Bytes :=
  encode entry.2 entry.1

/-- The bytes of a log. -/
def logBytes (log : Log) : Bytes :=
  log.flatMap encodeEntry

/-! ## Headers -/

@[simp] theorem length_headerBytes (padding : Padding) (header : RecordHeader) :
    (headerBytes padding header).length = headerSize := by
  simp [headerBytes, headerSize]

@[simp] theorem RecordType.ofByte?_toByte (type : RecordType) :
    RecordType.ofByte? type.toByte = some type := by
  cases type <;> rfl

/-- A header is read back from its bytes, whatever its padding holds. -/
@[simp] theorem headerOfBytes_headerBytes (padding : Padding) (header : RecordHeader) :
    headerOfBytes (headerBytes padding header) = header := by
  simp [headerOfBytes, headerBytes, List.drop_append, List.drop_eq_nil_of_le,
    List.take_of_length_le]

/-- Twenty bytes are the bytes of the header in them, with the padding in them. -/
theorem exists_headerBytes_headerOfBytes {bytes : Bytes} (hlength : bytes.length = headerSize) :
    ∃ padding, headerBytes padding (headerOfBytes bytes) = bytes := by
  have hfield : ∀ {field : Bytes}, field.length = 4 →
      leBytes 4 (UInt32.ofNat (leNat field)).toNat = field := by
    intro field hfield
    have hlt := leNat_lt field
    rw [hfield] at hlt
    rw [UInt32.toNat_ofNat_of_lt' (by simpa using hlt), ← hfield, leBytes_leNat]
  match bytes, hlength with
  | [m₀, m₁, m₂, m₃, type, p₀, p₁, p₂, k₀, k₁, k₂, k₃, v₀, v₁, v₂, v₃, c₀, c₁, c₂, c₃], _ =>
    refine ⟨⟨p₀, p₁, p₂⟩, ?_⟩
    unfold headerBytes headerOfBytes
    rw [hfield rfl, hfield rfl, hfield rfl, hfield rfl]
    rfl

/-! ## One record -/

@[simp] theorem length_encode (padding : Padding) (record : LogRecord) :
    (encode padding record).length = headerSize + record.key.length + record.value.length := by
  simp [encode, Nat.add_assoc]

/-- The header of a record stands in front. -/
private theorem take_header (padding : Padding) (header : RecordHeader) (rest : Bytes) :
    (headerBytes padding header ++ rest).take headerSize = headerBytes padding header :=
  List.take_left' (length_headerBytes padding header)

/-- What stands behind the header of a record. -/
private theorem drop_header (padding : Padding) (header : RecordHeader) (rest : Bytes) :
    (headerBytes padding header ++ rest).drop headerSize = rest :=
  List.drop_left' (length_headerBytes padding header)

/-- The length of a key fits into its field. -/
private theorem keySize_header {record : LogRecord} (hfits : Fits record) :
    (header record).keySize.toNat = record.key.length :=
  UInt32.toNat_ofNat_of_lt' hfits.key

/-- The length of a value fits into its field. -/
private theorem valueSize_header {record : LogRecord} (hfits : Fits record) :
    (header record).valueSize.toNat = record.value.length :=
  UInt32.toNat_ofNat_of_lt' hfits.value

/-- What one round of `Replay` finds behind the bytes of a header. -/
theorem readRecord_headerBytes (padding : Padding) (fields : RecordHeader) (file : Bytes) :
    readRecord (headerBytes padding fields ++ file) =
      if fields.magic ≠ recordMagic then .invalid "WAL replay failed: invalid record magic"
      else
        match RecordType.ofByte? fields.type with
        | none => .invalid "WAL replay failed: unknown record type"
        | some type =>
          if file.length < fields.keySize.toNat + fields.valueSize.toNat then
            .tail (headerSize + file.length)
          else if computeChecksum
              { type
                key := file.take fields.keySize.toNat
                value := (file.drop fields.keySize.toNat).take fields.valueSize.toNat } ≠
              fields.checksum then
            .invalid "WAL replay failed: checksum mismatch"
          else
            .record
              { type
                key := file.take fields.keySize.toNat
                value := (file.drop fields.keySize.toNat).take fields.valueSize.toNat }
              (file.drop (fields.keySize.toNat + fields.valueSize.toNat)) := by
  unfold readRecord readAll
  simp only [take_header, drop_header, length_headerBytes, headerOfBytes_headerBytes,
    Nat.lt_irrefl, if_false, List.length_take, List.length_drop, List.drop_drop]
  split
  · rfl
  -- the header is complete, so its fields are those that were written
  cases RecordType.ofByte? fields.type with
  | none => rfl
  | some type =>
    simp only
    -- whether the key or the value is incomplete, all that is left is the tail
    by_cases hkey : file.length < fields.keySize.toNat
    · rw [if_pos (by omega), if_pos (by omega), Nat.min_eq_right (by omega)]
    rw [if_neg (by omega)]
    by_cases hvalue : file.length < fields.keySize.toNat + fields.valueSize.toNat
    · rw [if_pos (by omega), if_pos hvalue]
      congr 1
      omega
    · rw [if_neg (by omega), if_neg hvalue]

/-- Behind the header of a record, what is found depends on the rest of the file. -/
private theorem readRecord_header {padding : Padding} {record : LogRecord}
    (hfits : Fits record) (file : Bytes) :
    readRecord (headerBytes padding (header record) ++ file) =
      if file.length < record.key.length + record.value.length then
        .tail (headerSize + file.length)
      else if computeChecksum { record with
            key := file.take record.key.length
            value := (file.drop record.key.length).take record.value.length } ≠
          computeChecksum record then
        .invalid "WAL replay failed: checksum mismatch"
      else
        .record { record with
            key := file.take record.key.length
            value := (file.drop record.key.length).take record.value.length }
          (file.drop (record.key.length + record.value.length)) := by
  have hmagic : (header record).magic = recordMagic := rfl
  have htype : RecordType.ofByte? (header record).type = some record.type :=
    RecordType.ofByte?_toByte record.type
  have hchecksum : (header record).checksum = computeChecksum record := rfl
  rw [readRecord_headerBytes]
  simp only [hmagic, htype, hchecksum, keySize_header hfits, valueSize_header hfits, ne_eq,
    not_true_eq_false, if_false]

/-- A whole record is found. -/
theorem readRecord_encode (padding : Padding) {record : LogRecord} (hfits : Fits record)
    (rest : Bytes) : readRecord (encode padding record ++ rest) = .record record rest := by
  unfold encode
  rw [List.append_assoc, List.append_assoc, readRecord_header hfits]
  simp [← List.drop_drop]

/-- A torn record is an incomplete tail, wherever it is cut. -/
theorem readRecord_torn {padding : Padding} {record : LogRecord} (hfits : Fits record)
    {torn : Bytes} (hpre : torn <+: encode padding record)
    (hlt : torn.length < (encode padding record).length) :
    readRecord torn = .tail torn.length := by
  by_cases hheader : torn.length < headerSize
  · -- the cut is inside the header
    unfold readRecord readAll
    have hlen : (torn.take headerSize).length = torn.length := by
      rw [List.length_take]
      omega
    simp only [hlen, if_pos hheader]
  · -- the header is whole, so the cut is inside the key or the value
    have htake : torn = headerBytes padding (header record) ++ torn.drop headerSize := by
      have hhead : torn.take headerSize = headerBytes padding (header record) := by
        rw [List.prefix_iff_eq_take.mp hpre, List.take_take, encode, List.append_assoc,
          Nat.min_eq_left (by omega)]
        exact take_header padding (header record) _
      rw [← hhead, List.take_append_drop]
    have hlen := congrArg List.length htake
    rw [List.length_append, length_headerBytes] at hlen
    rw [length_encode] at hlt
    rw [htake, readRecord_header hfits, List.length_append, length_headerBytes,
      if_pos (by omega)]

/-- A type that is read is written as the same byte. -/
theorem RecordType.toByte_of_ofByte? {byte : UInt8} {type : RecordType}
    (h : RecordType.ofByte? byte = some type) : type.toByte = byte := by
  unfold RecordType.ofByte? at h
  split at h
  · cases h
    simp_all [RecordType.toByte]
  · split at h
    · cases h
      simp_all [RecordType.toByte]
    · cases h

/-- Only a whole record is found: it fits its header, and its bytes are in front. -/
theorem readRecord_sound {file rest : Bytes} {record : LogRecord}
    (h : readRecord file = .record record rest) :
    Fits record ∧ ∃ padding, file = encode padding record ++ rest := by
  unfold readRecord readAll at h
  simp only at h
  generalize hbytes : file.take headerSize = bytes at h
  generalize hpayload : file.drop headerSize = payload at h
  have hfile : file = bytes ++ payload := by
    rw [← hbytes, ← hpayload, List.take_append_drop]
  split at h
  · cases h
  rename_i hlength
  split at h
  · cases h
  rename_i hmagic
  split at h
  · cases h
  rename_i type htype
  split at h
  · cases h
  rename_i hkey
  split at h
  · cases h
  rename_i hvalue
  split at h
  · cases h
  rename_i hchecksum
  -- every check has passed
  simp only [ReadResult.record.injEq] at h
  obtain ⟨rfl, rfl⟩ := h
  have hbytesLength : bytes.length = headerSize := by
    have hle : bytes.length ≤ headerSize := hbytes ▸ List.length_take_le _ _
    omega
  obtain ⟨padding, hpadding⟩ := exists_headerBytes_headerOfBytes hbytesLength
  generalize headerOfBytes bytes = fields at *
  generalize hkeyBytes : payload.take fields.keySize.toNat = key at *
  generalize hrest : payload.drop fields.keySize.toNat = rest at *
  generalize hvalueBytes : rest.take fields.valueSize.toNat = value at *
  -- nothing was cut off, so the sizes are those of the fields
  have hkeyLength : key.length = fields.keySize.toNat := by
    have hle : key.length ≤ fields.keySize.toNat := hkeyBytes ▸ List.length_take_le _ _
    omega
  have hvalueLength : value.length = fields.valueSize.toNat := by
    have hle : value.length ≤ fields.valueSize.toNat := hvalueBytes ▸ List.length_take_le _ _
    omega
  refine ⟨⟨hkeyLength ▸ fields.keySize.toNat_lt, hvalueLength ▸ fields.valueSize.toNat_lt⟩,
    padding, ?_⟩
  -- the fields of the header are the ones that the record would get
  have hheader : header { type, key, value } = fields := by
    have hm : fields.magic = recordMagic := Decidable.not_not.mp hmagic
    have hc : computeChecksum { type, key, value } = fields.checksum :=
      Decidable.not_not.mp hchecksum
    have ht : type.toByte = fields.type := RecordType.toByte_of_ofByte? htype
    simp only [header, hkeyLength, hvalueLength, UInt32.ofNat_toNat, ht, hc, ← hm]
  rw [encode, hheader, hpadding, hfile, ← hvalueBytes, List.append_assoc, List.append_assoc,
    List.take_append_drop, ← hkeyBytes, ← hrest, List.take_append_drop]

/-! ## Writing -/

/-- How many of `length` bytes the calls of `::write` take before one of them fails. -/
def accepted : List WriteOutcome → Nat → Nat
  | _, 0 => 0
  | [], length => length
  | .wrote count :: outcomes, length => min count length + accepted outcomes (length - count)
  | .interrupted :: outcomes, length => accepted outcomes length
  | .failed _ :: _, _ => 0

/-- `WriteAll` writes the bytes that are accepted, and returns normally if these are all. -/
theorem writeAll_eq (outcomes : List WriteOutcome) (data : Bytes) :
    (writeAll outcomes data).1 = data.take (accepted outcomes data.length) ∧
      accepted outcomes data.length ≤ data.length ∧
      ((writeAll outcomes data).2 = .ok () ↔ accepted outcomes data.length = data.length) := by
  induction outcomes generalizing data with
  | nil => cases data <;> simp [writeAll, accepted]
  | cons outcome outcomes ih =>
    cases data with
    | nil => simp [writeAll, accepted]
    | cons byte data =>
      cases outcome with
      | wrote count =>
        -- the call has taken some bytes, and the loop writes the rest
        obtain ⟨hwritten, hle, hok⟩ := ih ((byte :: data).drop count)
        rw [List.length_drop] at hwritten hle hok
        have haccepted : accepted (.wrote count :: outcomes) (byte :: data).length =
            min count (byte :: data).length +
              accepted outcomes ((byte :: data).length - count) := rfl
        refine ⟨?_, by omega, hok.trans (by omega)⟩
        show (byte :: data).take count ++ (writeAll outcomes ((byte :: data).drop count)).1 = _
        rw [hwritten, haccepted, List.take_add, ← List.take_eq_take_min]
        congr 2
        -- a count above the length takes all that is left
        rcases Nat.le_total count (byte :: data).length with h | h
        · rw [Nat.min_eq_left h]
        · rw [Nat.min_eq_right h, List.drop_eq_nil_of_le h, List.drop_eq_nil_of_le le_rfl]
      | interrupted => exact ih (byte :: data)
      | failed error => simp [writeAll, accepted]

/-- `Append` writes the accepted bytes of the record behind what is in the file. It returns
    normally if these are all and the file is synchronised. -/
theorem append_eq (file : Bytes) (padding : Padding) (record : LogRecord)
    (writes : List WriteOutcome) (fsync : Option String) :
    (append file padding record writes fsync).1 =
        file ++ (encode padding record).take (accepted writes (encode padding record).length) ∧
      ((append file padding record writes fsync).2 = .ok () ↔
        accepted writes (encode padding record).length = (encode padding record).length ∧
          fsync = none) := by
  obtain ⟨hwritten, -, hok⟩ := writeAll_eq writes (encode padding record)
  unfold append
  cases hwrite : writeAll writes (encode padding record) with
  | mk written result =>
    rw [hwrite] at hwritten hok
    cases result with
    | error error =>
      refine ⟨congrArg (file ++ ·) hwritten, nofun, fun h => ?_⟩
      cases hok.mpr h.1
    | ok =>
      refine ⟨congrArg (file ++ ·) hwritten, ?_⟩
      -- all bytes are accepted, and `fsync` decides
      rw [← hok]
      cases fsync <;> simp [sync]

/-! ## Logs -/

@[simp] theorem logBytes_append (log log' : Log) :
    logBytes (log ++ log') = logBytes log ++ logBytes log' :=
  List.flatMap_append

/-- Every file is a log, followed by bytes that do not start with a record. -/
theorem exists_log (file : Bytes) :
    ∃ log rest, file = logBytes log ++ rest ∧ (∀ entry ∈ log, Fits entry.1) ∧
      ∀ record rest', readRecord rest ≠ .record record rest' := by
  -- by induction on the length: each record that is read makes the file shorter
  induction hlength : file.length using Nat.strong_induction_on generalizing file with
  | _ length ih =>
    subst hlength
    cases hread : readRecord file with
    | tail skipped => exact ⟨[], file, rfl, by simp, by simp [hread]⟩
    | invalid error => exact ⟨[], file, rfl, by simp, by simp [hread]⟩
    | record record rest =>
      obtain ⟨log, rest', hrest, hfits, hstop⟩ := ih _ (readRecord_rest_lt hread) rest rfl
      obtain ⟨hrecord, padding, hfile⟩ := readRecord_sound hread
      refine ⟨(record, padding) :: log, rest', ?_, ?_, hstop⟩
      · rw [hfile, hrest]
        simp [logBytes, encodeEntry]
      · intro entry hentry
        rcases List.mem_cons.mp hentry with rfl | hentry
        · exact hrecord
        · exact hfits entry hentry

section Replay

variable {σ : Type} (apply : σ → LogRecord → σ) (state : σ) (stats : ReplayStats)

/-- At a torn tail the loop ends. -/
theorem replayLoop_of_tail {file : Bytes} {skipped : Nat} (h : readRecord file = .tail skipped) :
    replayLoop apply state stats file =
      (state, .ok { stats with skippedTailBytes := stats.skippedTailBytes + skipped }) := by
  unfold replayLoop
  split <;> simp_all

/-- At an invalid record the loop fails. -/
theorem replayLoop_of_invalid {file : Bytes} {error : String}
    (h : readRecord file = .invalid error) :
    replayLoop apply state stats file = (state, .error error) := by
  unfold replayLoop
  split <;> simp_all

/-- A record is applied, and the loop goes on behind it. -/
theorem replayLoop_of_record {file rest : Bytes} {record : LogRecord}
    (h : readRecord file = .record record rest) :
    replayLoop apply state stats file =
      replayLoop apply (apply state record)
        { stats with appliedRecords := stats.appliedRecords + 1 } rest := by
  conv_lhs => unfold replayLoop
  split <;> simp_all

/-- The loop of `Replay` applies the records of a log and goes on behind it. -/
theorem replayLoop_log {log : Log} (hfits : ∀ entry ∈ log, Fits entry.1) (rest : Bytes) :
    replayLoop apply state stats (logBytes log ++ rest) =
      replayLoop apply ((log.map Prod.fst).foldl apply state)
        { stats with appliedRecords := stats.appliedRecords + log.length } rest := by
  induction log generalizing state stats with
  | nil => rfl
  | cons entry log ih =>
    have hread : readRecord (logBytes (entry :: log) ++ rest) =
        .record entry.1 (logBytes log ++ rest) := by
      unfold logBytes
      rw [List.flatMap_cons, List.append_assoc]
      exact readRecord_encode entry.2 (hfits entry List.mem_cons_self) _
    rw [replayLoop_of_record apply state stats hread,
      ih _ _ fun e he => hfits e (List.mem_cons_of_mem entry he)]
    simp only [List.map_cons, List.foldl_cons, List.length_cons, Nat.add_assoc, Nat.add_comm 1]

/-- `Replay` of a log with a torn record at its end. -/
theorem replay_torn {log rest : Log} (hfits : ∀ entry ∈ log ++ rest, Fits entry.1)
    {torn : Bytes} (htorn : Torn encodeEntry rest torn) :
    replay apply state (logBytes log ++ torn) =
      ((log.map Prod.fst).foldl apply state,
        .ok { appliedRecords := log.length, skippedTailBytes := torn.length }) := by
  have hread : readRecord torn = .tail torn.length := by
    cases rest with
    | nil =>
      subst htorn
      rfl
    | cons entry rest => exact readRecord_torn (hfits entry (by simp)) htorn.1 htorn.2
  unfold replay
  rw [replayLoop_log apply state {} fun e he => hfits e (List.mem_append_left rest he),
    replayLoop_of_tail _ _ _ hread]
  simp only [Nat.zero_add]

/-- `Replay` of a log. -/
theorem replay_logBytes {log : Log} (hfits : ∀ entry ∈ log, Fits entry.1) :
    replay apply state (logBytes log) =
      ((log.map Prod.fst).foldl apply state, .ok { appliedRecords := log.length }) := by
  have hall : ∀ entry ∈ log ++ [], Fits entry.1 := by simpa using hfits
  have hreplay := replay_torn apply state hall (show Torn encodeEntry [] [] from rfl)
  rwa [List.append_nil] at hreplay

/-- `Replay` of any beginning of a log applies the records that lie wholly within it and
    skips the bytes after them. -/
theorem replay_take {log : Log} (hfits : ∀ entry ∈ log, Fits entry.1) {n : Nat}
    (hn : n ≤ (logBytes log).length) :
    replay apply state ((logBytes log).take n) =
      (((takeFrames encodeEntry n log).map Prod.fst).foldl apply state,
        .ok { appliedRecords := (takeFrames encodeEntry n log).length
              skippedTailBytes := n - (logBytes (takeFrames encodeEntry n log)).length }) := by
  obtain ⟨rest, torn, hlog, htake, htorn⟩ := exists_take_flatMap n log hn
  change (logBytes log).take n = logBytes (takeFrames encodeEntry n log) ++ torn at htake
  have hlength : torn.length = n - (logBytes (takeFrames encodeEntry n log)).length := by
    have hlen := congrArg List.length htake
    rw [List.length_take, Nat.min_eq_left hn, List.length_append] at hlen
    omega
  rw [← hlength, ← replay_torn apply state (hlog ▸ hfits) htorn, htake]

/-- A log of a `PUT` and a `DELETE`, cut inside the header of the second record. -/
theorem replay_take_two :
    replay (fun records record => records ++ [record]) []
        ((logBytes [(⟨.put, [97], [98]⟩, {}), (⟨.delete, [97], []⟩, ⟨7, 8, 9⟩)]).take 30) =
      ([⟨.put, [97], [98]⟩], .ok { appliedRecords := 1, skippedTailBytes := 8 }) := by
  have hfits : ∀ entry ∈ ([(⟨.put, [97], [98]⟩, {}), (⟨.delete, [97], []⟩, ⟨7, 8, 9⟩)] : Log),
      Fits entry.1 := by
    intro entry hentry
    rcases List.mem_pair.mp hentry with rfl | rfl <;> constructor <;> decide
  rw [replay_take _ [] hfits (by decide)]
  rfl

end Replay

/-! ## Collecting the records -/

/-- `Replay` of the file returns normally, after calling `apply` on exactly `records`. -/
def Recovers (file : Bytes) (records : List LogRecord) : Prop :=
  ∃ stats, replayRecords file = (records, .ok stats)

/-- The records that are collected while others have been collected before. -/
private theorem foldl_collect (records front : List LogRecord) :
    records.foldl (fun records record => records ++ [record]) front = front ++ records := by
  induction records generalizing front with
  | nil => simp
  | cons record records ih => simp [ih]

/-- A log with a torn record at its end recovers its records. -/
theorem recovers_torn {log rest : Log} (hfits : ∀ entry ∈ log ++ rest, Fits entry.1)
    {torn : Bytes} (htorn : Torn encodeEntry rest torn) :
    Recovers (logBytes log ++ torn) (log.map Prod.fst) := by
  have hreplay := replay_torn (fun records record => records ++ [record]) [] hfits htorn
  rw [foldl_collect, List.nil_append] at hreplay
  exact ⟨_, hreplay⟩

/-- What `Replay` recovers from a log. -/
theorem recovers_logBytes {log : Log} (hfits : ∀ entry ∈ log, Fits entry.1) :
    Recovers (logBytes log) (log.map Prod.fst) := by
  have hreplay := replay_logBytes (fun records record => records ++ [record]) [] hfits
  rw [foldl_collect, List.nil_append] at hreplay
  exact ⟨_, hreplay⟩

/-- A file from which `Replay` recovers records starts with a log of these records. -/
theorem Recovers.exists_log {file : Bytes} {records : List LogRecord}
    (h : Recovers file records) :
    ∃ log rest, file = logBytes log ++ rest ∧ log.map Prod.fst = records ∧
      ∀ entry ∈ log, Fits entry.1 := by
  obtain ⟨stats, hreplay⟩ := h
  obtain ⟨log, rest, rfl, hfits, hstop⟩ := WAL.exists_log file
  refine ⟨log, rest, rfl, ?_, hfits⟩
  unfold replayRecords replay at hreplay
  rw [replayLoop_log _ _ _ hfits, foldl_collect, List.nil_append] at hreplay
  cases hread : readRecord rest with
  | tail skipped =>
    rw [replayLoop_of_tail _ _ _ hread] at hreplay
    exact congrArg Prod.fst hreplay
  | invalid error =>
    rw [replayLoop_of_invalid _ _ _ hread] at hreplay
    cases congrArg Prod.snd hreplay
  | record record rest' => exact absurd hread (hstop record rest')

end KvStore.WAL
