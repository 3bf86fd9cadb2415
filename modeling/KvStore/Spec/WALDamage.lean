import KvStore.ForStd.FoldHash
import KvStore.Spec.WALCorrect

/-!
# Damaged records

What `Replay` makes of a log in which one byte has been replaced by another. A byte that
`ComputeChecksum` covers, or that it is compared with, is noticed (`damage_caught`): each
step of the hash is injective. A byte of a size field decides how many bytes are read
before the checksum is looked at, so `length_caught_iff` depends on where the record then
ends: a size that points behind the end of the file passes for a torn record.
-/

namespace KvStore.WAL

/-! ## The checksum -/

/-- The bytes that `ComputeChecksum` takes in. -/
def checksumBytes (record : LogRecord) : Bytes :=
  record.type.toByte :: (leBytes 4 record.key.length ++ (leBytes 4 record.value.length ++
    (record.key ++ record.value)))

/-- The checksum is one hash over the bytes that it covers. -/
theorem computeChecksum_eq (record : LogRecord) :
    computeChecksum record = updateChecksum 2166136261 (checksumBytes record) := by
  simp only [computeChecksum, updateChecksum, checksumBytes, List.foldl_cons, List.foldl_nil,
    List.foldl_append]

/-- The factor of the hash has an inverse modulo 2^32. -/
private theorem mul_factor_injective : Function.Injective fun hash : UInt32 => hash * 16777619 := by
  intro hash hash' heq
  have hinverse : (16777619 : UInt32) * 899433627 = 1 := by decide
  calc
    hash = hash * 16777619 * 899433627 := by rw [UInt32.mul_assoc, hinverse, UInt32.mul_one]
    _ = hash' * 16777619 * 899433627 := congrArg (· * 899433627) heq
    _ = hash' := by rw [UInt32.mul_assoc, hinverse, UInt32.mul_one]

/-- The step of the hash. -/
theorem stepInjective_checksum :
    StepInjective fun (hash : UInt32) (byte : UInt8) => (hash ^^^ byte.toUInt32) * 16777619 where
  state _ _ _ heq := (UInt32.xor_left_inj _).mp (mul_factor_injective heq)
  symbol _ _ _ heq :=
    UInt8.toUInt32_inj.mp ((UInt32.xor_right_inj _).mp (mul_factor_injective heq))

/-- Records whose covered bytes differ in one place have different checksums. -/
theorem computeChecksum_ne {record record' : LogRecord} {i : Nat} {byte : UInt8}
    (hi : i < (checksumBytes record).length) (hne : byte ≠ (checksumBytes record)[i])
    (hset : checksumBytes record' = (checksumBytes record).set i byte) :
    computeChecksum record' ≠ computeChecksum record := by
  rw [computeChecksum_eq, computeChecksum_eq, hset]
  exact stepInjective_checksum.foldl_set_ne hi hne _

/-! ## The fields of a header -/

/-- The 32 bits at an offset. -/
def field (bytes : Bytes) (start : Nat) : UInt32 := UInt32.ofNat (leNat ((bytes.drop start).take 4))

section Fields

variable {bytes : Bytes} {start i : Nat} {byte : UInt8}

/-- A byte outside of a field does not change it. -/
theorem field_set_outside (h : i < start ∨ start + 4 ≤ i) :
    field (bytes.set i byte) start = field bytes start := by
  unfold field
  rw [List.drop_set]
  split
  · rfl
  · rw [List.take_set_of_le (by omega)]

/-- A byte inside of a field changes it. -/
theorem field_set_inside (hstart : start ≤ i) (hlt : i < start + 4)
    (hlength : start + 4 ≤ bytes.length) (hne : byte ≠ bytes[i]) :
    field (bytes.set i byte) start ≠ field bytes start := by
  have hbound : ∀ file : Bytes, leNat ((file.drop start).take 4) < 2 ^ 32 := by
    intro file
    have hle : ((file.drop start).take 4).length ≤ 4 := List.length_take_le _ _
    calc
      leNat ((file.drop start).take 4) < 256 ^ ((file.drop start).take 4).length := leNat_lt _
      _ ≤ 256 ^ 4 := Nat.pow_le_pow_right (by omega) hle
  intro heq
  have hvalue : leNat (((bytes.set i byte).drop start).take 4) =
      leNat ((bytes.drop start).take 4) := by
    have hnat := congrArg UInt32.toNat heq
    unfold field at hnat
    rwa [UInt32.toNat_ofNat_of_lt' (hbound _), UInt32.toNat_ofNat_of_lt' (hbound _)] at hnat
  have hbytes := leNat_inj (by simp) hvalue
  -- the two fields differ in the byte that has been replaced
  have hget : ((bytes.set i byte).drop start |>.take 4)[i - start]? =
      ((bytes.drop start).take 4)[i - start]? := congrArg (·[i - start]?) hbytes
  rw [List.getElem?_take_of_lt (by omega), List.getElem?_take_of_lt (by omega),
    List.getElem?_drop, List.getElem?_drop, show start + (i - start) = i by omega,
    List.getElem?_set_self (by omega), List.getElem?_eq_getElem (by omega)] at hget
  exact hne (Option.some.inj hget)

end Fields

/-- The fields of the header in front of a file. -/
theorem headerOfBytes_eq (bytes : Bytes) :
    headerOfBytes bytes =
      { magic := field bytes 0, type := bytes.getD 4 0, keySize := field bytes 8,
        valueSize := field bytes 12, checksum := field bytes 16 } := by
  unfold headerOfBytes field
  rw [List.drop_zero]
  congr 1
  rw [List.getD_eq_getElem?_getD, List.headD_eq_head?_getD, List.head?_drop]

/-- The header in front of a record is the one that `Append` has built. -/
theorem headerOfBytes_encode (padding : Padding) (record : LogRecord) :
    headerOfBytes (encode padding record) = header record := by
  have hfront : ∀ rest : Bytes,
      headerOfBytes (headerBytes padding (header record) ++ rest) = header record := by
    intro rest
    simp [headerOfBytes, headerBytes, List.drop_append, List.drop_eq_nil_of_le]
  rw [encode, List.append_assoc, hfront]

/-- Twenty bytes or more start with the header in them. -/
theorem exists_headerBytes {bytes : Bytes} (hlength : headerSize ≤ bytes.length) :
    ∃ padding, bytes = headerBytes padding (headerOfBytes bytes) ++ bytes.drop headerSize := by
  have hfield : ∀ start, start + 4 ≤ headerSize →
      field (bytes.take headerSize) start = field bytes start := by
    intro start hstart
    unfold field
    rw [List.drop_take, List.take_take, Nat.min_eq_left (by omega)]
  have hheader : headerOfBytes (bytes.take headerSize) = headerOfBytes bytes := by
    have htype : (bytes.take headerSize).getD 4 0 = bytes.getD 4 0 := by
      rw [List.getD_eq_getElem?_getD, List.getElem?_take_of_lt (by decide),
        List.getD_eq_getElem?_getD]
    rw [headerOfBytes_eq, headerOfBytes_eq, htype, hfield 0 (by decide), hfield 8 (by decide),
      hfield 12 (by decide), hfield 16 (by decide)]
  obtain ⟨padding, hpadding⟩ := exists_headerBytes_headerOfBytes
    (show (bytes.take headerSize).length = headerSize by rw [List.length_take]; omega)
  refine ⟨padding, ?_⟩
  rw [← hheader, hpadding, List.take_append_drop]

/-! ## One byte -/

/-- The part of a record that a byte of it lies in. -/
inductive Part where
  | magic
  | type
  | padding
  | keySize
  | valueSize
  | checksum
  | key
  | value
  deriving DecidableEq

/-- The part of a record that the byte at an offset lies in. -/
def partAt (record : LogRecord) (offset : Nat) : Part :=
  if offset < 4 then .magic
  else if offset < 5 then .type
  else if offset < 8 then .padding
  else if offset < 12 then .keySize
  else if offset < 16 then .valueSize
  else if offset < headerSize then .checksum
  else if offset < headerSize + record.key.length then .key
  else .value

/-- A log with an entry of which one byte is replaced by another. -/
structure Damage where
  front : Log
  entry : LogRecord × Padding
  back : Log
  offset : Nat
  byte : UInt8
  inside : offset < (encodeEntry entry).length
  differs : byte ≠ (encodeEntry entry)[offset]

namespace Damage

variable (d : Damage)

/-- The log. -/
def log : Log := d.front ++ d.entry :: d.back

/-- The part that the byte lies in. -/
def part : Part := partAt d.entry.1 d.offset

/-- The damaged entry. -/
def bytes : Bytes := (encodeEntry d.entry).set d.offset d.byte

/-- The damaged file. -/
def file : Bytes := logBytes d.front ++ (d.bytes ++ logBytes d.back)

/-- The header that is read from the damaged entry. -/
def fields : RecordHeader := headerOfBytes d.bytes

/-- What is behind it in the entry. -/
def payload : Bytes := d.bytes.drop headerSize

variable {d}

/-! ### Where the byte is -/

/-- Where the parts lie that are checked as they are. -/
theorem offset_of_covered (h : d.part ∈ [Part.magic, .type, .checksum, .key, .value]) :
    d.offset < 5 ∨ 16 ≤ d.offset := by
  unfold part partAt at h
  grind

/-- Where the padding lies. -/
theorem offset_of_padding (h : d.part = .padding) : 5 ≤ d.offset ∧ d.offset < 8 := by
  unfold part partAt at h
  grind

/-- Where the lengths lie. -/
theorem offset_of_size (h : d.part = .keySize ∨ d.part = .valueSize) :
    8 ≤ d.offset ∧ d.offset < 16 := by
  unfold part partAt at h
  grind

/-! ### What is read -/

/-- The damaged entry starts with its header. -/
theorem exists_header : ∃ padding, d.bytes = headerBytes padding d.fields ++ d.payload := by
  apply exists_headerBytes
  rw [bytes, List.length_set, encodeEntry, length_encode]
  omega

/-- The payload, before it was damaged. -/
private theorem drop_encodeEntry (entry : LogRecord × Padding) :
    (encodeEntry entry).drop headerSize = entry.1.key ++ entry.1.value := by
  rw [encodeEntry, encode, List.append_assoc, List.drop_left' (length_headerBytes _ _)]

/-- Damage of the header leaves the key and the value. -/
theorem payload_of_lt (h : d.offset < headerSize) :
    d.payload = d.entry.1.key ++ d.entry.1.value := by
  rw [payload, bytes, List.drop_set_of_lt h, drop_encodeEntry]

/-- Damage behind the header is damage of the key or the value. -/
theorem payload_of_le (h : headerSize ≤ d.offset) :
    d.payload = (d.entry.1.key ++ d.entry.1.value).set (d.offset - headerSize) d.byte := by
  rw [payload, bytes, List.drop_set, if_neg (by omega), drop_encodeEntry]

/-- Damage does not change the length. -/
theorem length_payload : d.payload.length = d.entry.1.key.length + d.entry.1.value.length := by
  rw [payload, bytes, List.length_drop, List.length_set, encodeEntry, length_encode]
  omega

/-- The fields that the byte does not lie in. -/
theorem fields_outside :
    (4 ≤ d.offset → d.fields.magic = recordMagic) ∧
      (d.offset ≠ 4 → d.fields.type = d.entry.1.type.toByte) ∧
      (d.offset < 8 ∨ 12 ≤ d.offset →
        d.fields.keySize = UInt32.ofNat d.entry.1.key.length) ∧
      (d.offset < 12 ∨ 16 ≤ d.offset →
        d.fields.valueSize = UInt32.ofNat d.entry.1.value.length) ∧
      (d.offset < 16 ∨ 20 ≤ d.offset → d.fields.checksum = computeChecksum d.entry.1) := by
  have hfields : headerOfBytes (encodeEntry d.entry) = header d.entry.1 :=
    headerOfBytes_encode d.entry.2 d.entry.1
  rw [headerOfBytes_eq, header, RecordHeader.mk.injEq] at hfields
  obtain ⟨hmagic, htype, hkey, hvalue, hchecksum⟩ := hfields
  rw [fields, headerOfBytes_eq, ← hmagic, ← htype, ← hkey, ← hvalue, ← hchecksum, bytes]
  refine ⟨fun h => field_set_outside (by omega), fun h => ?_,
    fun h => field_set_outside (by omega), fun h => field_set_outside (by omega),
    fun h => field_set_outside (by omega)⟩
  show ((encodeEntry d.entry).set d.offset d.byte).getD 4 0 = _
  rw [List.getD_eq_getElem?_getD, List.getElem?_set_ne h, List.getD_eq_getElem?_getD]

/-- The fields that the byte lies in. -/
theorem fields_inside :
    (d.offset < 4 → d.fields.magic ≠ recordMagic) ∧
      (d.offset = 4 → d.fields.type = d.byte ∧ d.byte ≠ d.entry.1.type.toByte) ∧
      (16 ≤ d.offset → d.offset < 20 → d.fields.checksum ≠ computeChecksum d.entry.1) := by
  have hfields : headerOfBytes (encodeEntry d.entry) = header d.entry.1 :=
    headerOfBytes_encode d.entry.2 d.entry.1
  rw [headerOfBytes_eq, header, RecordHeader.mk.injEq] at hfields
  obtain ⟨hmagic, htype, -, -, hchecksum⟩ := hfields
  -- all fields lie within the bytes of the record
  have hlength : 20 ≤ (encodeEntry d.entry).length := by
    rw [encodeEntry, length_encode]
    unfold headerSize
    omega
  rw [fields, headerOfBytes_eq, ← hmagic, ← htype, ← hchecksum, bytes]
  refine ⟨fun h => field_set_inside (by omega) (by omega) (by omega) d.differs, fun h => ?_,
    fun h h' => field_set_inside h (by omega) (by omega) d.differs⟩
  have hdiffers := d.differs
  show ((encodeEntry d.entry).set d.offset d.byte).getD 4 0 = _ ∧ _
  rw [List.getD_eq_getElem?_getD, List.getD_eq_getElem?_getD]
  simp only [h] at hdiffers ⊢
  rw [List.getElem?_set_self (by omega), List.getElem?_eq_getElem (by omega)]
  exact ⟨rfl, hdiffers⟩

/-- If the sizes are not damaged, the record is refused, or found with its checksum. -/
theorem readRecord_cases (hfits : Fits d.entry.1) (hsizes : d.offset < 8 ∨ 16 ≤ d.offset)
    (rest : Bytes) :
    (∃ error, readRecord (d.bytes ++ rest) = .invalid error) ∨
    d.fields.magic = recordMagic ∧ ∃ type, RecordType.ofByte? d.fields.type = some type ∧
      computeChecksum
          { type
            key := d.payload.take d.entry.1.key.length
            value := d.payload.drop d.entry.1.key.length } = d.fields.checksum := by
  obtain ⟨padding, hbytes⟩ := d.exists_header
  obtain ⟨-, -, hkey, hvalue, -⟩ := d.fields_outside
  have hkeySize : d.fields.keySize.toNat = d.entry.1.key.length := by
    rw [hkey (by omega)]
    exact UInt32.toNat_ofNat_of_lt' hfits.key
  have hvalueSize : d.fields.valueSize.toNat = d.entry.1.value.length := by
    rw [hvalue (by omega)]
    exact UInt32.toNat_ofNat_of_lt' hfits.value
  have hlength := d.length_payload
  -- the key and the value are cut off at the sizes of the undamaged record
  have hkeyBytes : (d.payload ++ rest).take d.entry.1.key.length =
      d.payload.take d.entry.1.key.length := List.take_append_of_le_length (by omega)
  have hvalueBytes : ((d.payload ++ rest).drop d.entry.1.key.length).take
      d.entry.1.value.length = d.payload.drop d.entry.1.key.length := by
    rw [List.drop_append_of_le_length (by omega), List.take_left' (by rw [List.length_drop]; omega)]
  rw [hbytes, List.append_assoc, readRecord_headerBytes, hkeySize, hvalueSize, hkeyBytes,
    hvalueBytes]
  split
  · exact .inl ⟨_, rfl⟩
  rename_i hmagic
  split
  · exact .inl ⟨_, rfl⟩
  rename_i type htype
  split
  · -- the file is not too short, since the sizes have not changed
    rename_i hshort
    rw [List.length_append] at hshort
    omega
  split
  · exact .inl ⟨_, rfl⟩
  rename_i hchecksum
  exact .inr ⟨not_not.mp hmagic, type, htype, not_not.mp hchecksum⟩

/-- A damaged type changes the checksum. -/
private theorem checksum_ne_of_type (h : d.offset = 4) {type : RecordType}
    (htype : RecordType.ofByte? d.fields.type = some type) :
    computeChecksum { d.entry.1 with type } ≠ computeChecksum d.entry.1 := by
  obtain ⟨-, hfield, -⟩ := d.fields_inside
  obtain ⟨hbyte, hne⟩ := hfield h
  have htoByte : type.toByte = d.byte := (RecordType.toByte_of_ofByte? htype).trans hbyte
  refine computeChecksum_ne (i := 0) (Nat.succ_pos _) hne ?_
  rw [checksumBytes, checksumBytes, List.set_cons_zero, htoByte]

/-- A damaged key or value changes the checksum. -/
private theorem checksum_ne_of_payload (h : headerSize ≤ d.offset) :
    computeChecksum { d.entry.1 with
        key := d.payload.take d.entry.1.key.length
        value := d.payload.drop d.entry.1.key.length } ≠ computeChecksum d.entry.1 := by
  have hlength := d.length_payload
  have hinside := d.inside
  have hbound : d.offset < headerSize + d.entry.1.key.length + d.entry.1.value.length := by
    rwa [encodeEntry, length_encode] at hinside
  -- the nine bytes in front of the key and the value
  let front : Bytes := d.entry.1.type.toByte ::
    (leBytes 4 d.entry.1.key.length ++ leBytes 4 d.entry.1.value.length)
  have hfront : front.length = 9 := by simp [front]
  have hbytes : checksumBytes d.entry.1 = front ++ (d.entry.1.key ++ d.entry.1.value) := by
    simp [checksumBytes, front]
  have hindex : front.length + (d.offset - headerSize) - front.length = d.offset - headerSize := by
    omega
  have hpayload : d.offset - headerSize < (d.entry.1.key ++ d.entry.1.value).length := by
    rw [List.length_append]
    omega
  -- the byte that is damaged is one of the key or the value
  have hbyte : d.byte ≠ (d.entry.1.key ++ d.entry.1.value)[d.offset - headerSize] := by
    have hdiffers := d.differs
    have hget : (encodeEntry d.entry)[d.offset] =
        (d.entry.1.key ++ d.entry.1.value)[d.offset - headerSize] := by
      simp only [← drop_encodeEntry, List.getElem_drop]
      congr 1
      omega
    rwa [hget] at hdiffers
  have hi : front.length + (d.offset - headerSize) < (checksumBytes d.entry.1).length := by
    rw [hbytes, List.length_append]
    omega
  have hne : d.byte ≠ (checksumBytes d.entry.1)[front.length + (d.offset - headerSize)] := by
    simp only [hbytes, List.getElem_append_right (Nat.le_add_right _ _), hindex]
    exact hbyte
  refine computeChecksum_ne hi hne ?_
  rw [hbytes, List.set_append_right _ _ (Nat.le_add_right _ _), hindex, ← d.payload_of_le h]
  have hkey : (d.payload.take d.entry.1.key.length).length = d.entry.1.key.length := by
    rw [List.length_take]
    omega
  have hvalue : (d.payload.drop d.entry.1.key.length).length = d.entry.1.value.length := by
    rw [List.length_drop]
    omega
  simp only [checksumBytes, hkey, hvalue, List.take_append_drop, front, List.cons_append,
    List.append_assoc]

/-- A damaged magic number, type, checksum, key or value is refused. -/
theorem readRecord_invalid (hfits : Fits d.entry.1) (h : d.offset < 5 ∨ 16 ≤ d.offset)
    (rest : Bytes) : ∃ error, readRecord (d.bytes ++ rest) = .invalid error := by
  rcases d.readRecord_cases hfits (by omega) rest with hinvalid | hfound
  · exact hinvalid
  · obtain ⟨hmagic, type, htype, hchecksum⟩ := hfound
    obtain ⟨hmagicField, -, hchecksumField⟩ := d.fields_inside
    obtain ⟨-, htypeField, -, -, hstored⟩ := d.fields_outside
    -- a record that is found has its own type, unless that is what is damaged
    have hsame : d.offset ≠ 4 → type = d.entry.1.type := by
      intro hne
      rw [htypeField hne, RecordType.ofByte?_toByte] at htype
      exact (Option.some.inj htype).symm
    have hwhole : d.offset < headerSize →
        d.payload.take d.entry.1.key.length = d.entry.1.key ∧
          d.payload.drop d.entry.1.key.length = d.entry.1.value := by
      intro hlt
      rw [d.payload_of_lt hlt]
      exact ⟨List.take_left, List.drop_left⟩
    unfold headerSize at hwhole
    -- the magic number
    by_cases hfirst : d.offset < 4
    · exact absurd hmagic (hmagicField hfirst)
    -- the type: another type that is known changes the checksum
    by_cases hsecond : d.offset = 4
    · obtain ⟨hkey, hvalue⟩ := hwhole (by omega)
      rw [hkey, hvalue, hstored (by omega)] at hchecksum
      exact absurd hchecksum (checksum_ne_of_type hsecond htype)
    obtain rfl := hsame hsecond
    -- the checksum itself, or the key and the value
    by_cases hthird : d.offset < 20
    · obtain ⟨hkey, hvalue⟩ := hwhole hthird
      rw [hkey, hvalue] at hchecksum
      exact absurd hchecksum.symm (hchecksumField (by omega) hthird)
    · rw [hstored (by omega)] at hchecksum
      exact absurd hchecksum (checksum_ne_of_payload (by unfold headerSize; omega))

/-- A damaged padding is the padding of another entry with the same record. -/
theorem exists_bytes_eq (h : 5 ≤ d.offset) (h' : d.offset < 8) :
    ∃ padding, d.bytes = encodeEntry (d.entry.1, padding) := by
  obtain ⟨padding, hbytes⟩ := d.exists_header
  obtain ⟨hmagic, htype, hkey, hvalue, hchecksum⟩ := d.fields_outside
  have hfields : d.fields = header d.entry.1 := by
    rw [RecordHeader.mk.injEq]
    exact ⟨hmagic (by omega), htype (by omega), hkey (by omega), hvalue (by omega),
      hchecksum (by omega)⟩
  have hpayload := d.payload_of_lt (show d.offset < headerSize by unfold headerSize; omega)
  refine ⟨padding, ?_⟩
  rw [hbytes, hfields, hpayload, encodeEntry, encode, List.append_assoc]

/-- A byte that is damaged outside of the sizes and the padding makes `Replay` throw at its
    record, and one in the padding changes nothing. -/
theorem damage_caught {σ : Type} (apply : σ → LogRecord → σ) (state : σ)
    (hfits : ∀ entry ∈ d.log, Fits entry.1) :
    (d.part ∈ [Part.magic, .type, .checksum, .key, .value] →
      ∃ error, replay apply state d.file =
        ((d.front.map Prod.fst).foldl apply state, .error error)) ∧
      (d.part = .padding → replay apply state d.file = replay apply state (logBytes d.log)) := by
  have hfront : ∀ entry ∈ d.front, Fits entry.1 := fun entry he => hfits entry (by simp [log, he])
  have hentry : Fits d.entry.1 := hfits d.entry (by simp [log])
  have hback : ∀ entry ∈ d.back, Fits entry.1 := fun entry he => hfits entry (by simp [log, he])
  constructor
  · -- the record is found to be invalid after those in front of it
    intro hpart
    obtain ⟨error, hinvalid⟩ := d.readRecord_invalid hentry (d.offset_of_covered hpart) (logBytes d.back)
    refine ⟨error, ?_⟩
    rw [replay, file, replayLoop_log apply state {} hfront, replayLoop_of_invalid _ _ _ hinvalid]
  · intro hpart
    obtain ⟨hle, hlt⟩ := d.offset_of_padding hpart
    obtain ⟨padding, hbytes⟩ := d.exists_bytes_eq hle hlt
    -- with another padding it is the file of another log of the same records
    have hfile : d.file = logBytes (d.front ++ (d.entry.1, padding) :: d.back) := by
      rw [file, hbytes, logBytes_append]
      rfl
    have hfits' : ∀ entry ∈ d.front ++ (d.entry.1, padding) :: d.back, Fits entry.1 := by
      intro entry he
      rcases List.mem_append.mp he with he | he
      · exact hfront entry he
      · rcases List.mem_cons.mp he with rfl | he
        · exact hentry
        · exact hback entry he
    rw [hfile, replay_logBytes apply state hfits', replay_logBytes apply state hfits]
    simp [log]

/-- The type of a `PUT` is replaced by that of a `DELETE`. -/
def flippedType : Damage where
  front := [(⟨.put, [97], [98]⟩, {})]
  entry := (⟨.put, [99], [100]⟩, {})
  back := [(⟨.delete, [97], []⟩, ⟨7, 8, 9⟩)]
  offset := 4
  byte := 2
  inside := by decide
  differs := by decide

/-- The record in front of the damage is applied, and the damage is noticed. -/
theorem damage_caught_flippedType :
    ∃ error, replayRecords flippedType.file = ([⟨.put, [97], [98]⟩], .error error) := by
  have hfits : ∀ entry ∈ flippedType.log, Fits entry.1 := by
    intro entry hentry
    simp only [flippedType, log, List.cons_append, List.nil_append, List.mem_cons,
      List.not_mem_nil, or_false] at hentry
    obtain rfl | rfl | rfl := hentry
    · exact ⟨by decide, by decide⟩
    · exact ⟨by decide, by decide⟩
    · exact ⟨by decide, by decide⟩
  exact (damage_caught (fun records record => records ++ [record]) [] hfits).1 (by decide)

end Damage

/-! ## Damaged sizes -/

/-- Whole records with at most an incomplete one behind them. -/
def Readable (file : Bytes) : Prop :=
  ∃ log tail skipped, file = logBytes log ++ tail ∧ (∀ entry ∈ log, Fits entry.1) ∧
    readRecord tail = .tail skipped

/-- The loop of `Replay` returns normally on files of this kind only. -/
theorem replayLoop_ok_iff {σ : Type} {apply : σ → LogRecord → σ} {state : σ}
    {stats : ReplayStats} {file : Bytes} :
    (∃ error, (replayLoop apply state stats file).2 = .error error) ↔ ¬ Readable file := by
  constructor
  · intro ⟨error, herror⟩ ⟨log, tail, skipped, hfile, hfits, htail⟩
    rw [hfile, replayLoop_log apply state stats hfits, replayLoop_of_tail _ _ _ htail] at herror
    cases herror
  · intro hunreadable
    obtain ⟨log, rest, hfile, hfits, hstop⟩ := exists_log file
    rw [hfile, replayLoop_log apply state stats hfits]
    cases hread : readRecord rest with
    | tail skipped => exact absurd ⟨log, rest, skipped, hfile, hfits, hread⟩ hunreadable
    | invalid error => exact ⟨error, by rw [replayLoop_of_invalid _ _ _ hread]⟩
    | record record rest' => exact absurd hread (hstop record rest')

namespace Damage

variable {d : Damage}

/-- The bytes of the file behind the damaged header. -/
def behind (d : Damage) : Bytes := d.entry.1.key ++ d.entry.1.value ++ logBytes d.back

/-- The record that the damaged sizes cut out of them. -/
def cutRecord (d : Damage) : LogRecord where
  type := d.entry.1.type
  key := d.behind.take d.fields.keySize.toNat
  value := (d.behind.drop d.fields.keySize.toNat).take d.fields.valueSize.toNat

/-- The damaged sizes stay inside the file, and either the checksum of what they cut out is
    not the stored one, or what is behind it does not pass for a log. -/
def LengthCaught (d : Damage) : Prop :=
  d.fields.keySize.toNat + d.fields.valueSize.toNat ≤ d.behind.length ∧
    (computeChecksum d.cutRecord ≠ computeChecksum d.entry.1 ∨
      ¬ Readable (d.behind.drop (d.fields.keySize.toNat + d.fields.valueSize.toNat)))

/-- What is found at a record whose sizes are damaged. -/
theorem readRecord_of_size (h : 8 ≤ d.offset) (h' : d.offset < 16) :
    readRecord (d.bytes ++ logBytes d.back) =
      if d.behind.length < d.fields.keySize.toNat + d.fields.valueSize.toNat then
        .tail (headerSize + d.behind.length)
      else if computeChecksum d.cutRecord ≠ computeChecksum d.entry.1 then
        .invalid "WAL replay failed: checksum mismatch"
      else .record d.cutRecord
        (d.behind.drop (d.fields.keySize.toNat + d.fields.valueSize.toNat)) := by
  obtain ⟨padding, hbytes⟩ := d.exists_header
  obtain ⟨hmagic, htype, -, -, hchecksum⟩ := d.fields_outside
  have hpayload := d.payload_of_lt (show d.offset < headerSize by unfold headerSize; omega)
  have htype' : RecordType.ofByte? d.fields.type = some d.entry.1.type := by
    rw [htype (by omega), RecordType.ofByte?_toByte]
  rw [hbytes, hpayload, List.append_assoc, readRecord_headerBytes, hmagic (by omega), htype',
    hchecksum (by omega)]
  simp only [ne_eq, not_true_eq_false, if_false]
  rfl

/-- A damaged size makes `Replay` throw exactly if it stays inside the file and is noticed
    behind it. -/
theorem length_caught_iff {σ : Type} (apply : σ → LogRecord → σ) (state : σ)
    (hfits : ∀ entry ∈ d.log, Fits entry.1) (hpart : d.part = .keySize ∨ d.part = .valueSize) :
    (∃ error, (replay apply state d.file).2 = .error error) ↔ d.LengthCaught := by
  have hfront : ∀ entry ∈ d.front, Fits entry.1 := fun entry he => hfits entry (by simp [log, he])
  obtain ⟨hle, hlt⟩ := d.offset_of_size hpart
  have hread := d.readRecord_of_size hle hlt
  rw [replay, file, replayLoop_log apply state {} hfront, LengthCaught]
  split at hread
  · -- the sizes point behind the end of the file
    rename_i hshort
    rw [replayLoop_of_tail _ _ _ hread]
    exact iff_of_false (by simp) fun h => absurd h.1 (by omega)
  · rename_i hshort
    rw [and_iff_right (Nat.not_lt.mp hshort)]
    split at hread
    · rename_i hchecksum
      rw [replayLoop_of_invalid _ _ _ hread]
      exact iff_of_true ⟨_, rfl⟩ (.inl hchecksum)
    · -- the checksum happens to fit, and the loop goes on behind the bytes that are cut out
      rename_i hchecksum
      rw [replayLoop_of_record _ _ _ hread, replayLoop_ok_iff, or_iff_right hchecksum]

private theorem fits_two : ∀ entry ∈ ([(⟨.put, [97], [98]⟩, {}), (⟨.put, [99], [100]⟩, {})] : Log),
    Fits entry.1 := by
  intro entry hentry
  rcases List.mem_pair.mp hentry with rfl | rfl
  · exact ⟨by decide, by decide⟩
  · exact ⟨by decide, by decide⟩

/-- A size of two instead of one: the key takes in the value. -/
def shiftedKeySize : Damage where
  front := []
  entry := (⟨.put, [97], [98]⟩, {})
  back := [(⟨.put, [99], [100]⟩, {})]
  offset := 8
  byte := 2
  inside := by decide
  differs := by decide

/-- A key that takes in the value is noticed. -/
theorem length_caught_shiftedKeySize :
    ∃ error, (replayRecords shiftedKeySize.file).2 = .error error := by
  have hcaught : shiftedKeySize.LengthCaught := ⟨by decide, .inl (by decide)⟩
  have hfits : ∀ entry ∈ shiftedKeySize.log, Fits entry.1 := fits_two
  exact (length_caught_iff _ _ hfits (.inl (by decide))).mpr hcaught

/-- A size of 257 instead of one: the key would end behind the file. -/
def longKeySize : Damage where
  front := []
  entry := (⟨.put, [97], [98]⟩, {})
  back := [(⟨.put, [99], [100]⟩, {})]
  offset := 9
  byte := 1
  inside := by decide
  differs := by decide

/-- `Replay` of the log applies both records. After the damage it returns normally and applies
    none of them. -/
theorem long_size_drops_records :
    longKeySize.part = .keySize ∧
      Recovers (logBytes longKeySize.log) [⟨.put, [97], [98]⟩, ⟨.put, [99], [100]⟩] ∧
      replayRecords longKeySize.file = ([], .ok { skippedTailBytes := 44 }) := by
  have htail : readRecord longKeySize.file = .tail 44 := by decide
  exact ⟨by decide, recovers_logBytes fits_two, replayLoop_of_tail _ _ _ htail⟩

end Damage

end KvStore.WAL
