import KvStore.ForStd.Bytes

/-!
# Decimal numbers as byte strings

Numbers written with ASCII digits. `ofDecimal` reads what `toDecimal` writes; it also
reads leading zeros.
-/

/-- An ASCII digit. -/
def isDecimalDigit (byte : UInt8) : Bool := 48 ≤ byte && byte ≤ 57

/-- The decimal digits of a number. -/
def toDecimal (n : Nat) : Bytes := (Nat.toDigits 10 n).map Char.toUInt8

/-- The value of decimal digits. -/
def ofDecimal (digits : Bytes) : Nat := Nat.ofDigitChars 10 (digits.map Char.ofUInt8) 0

/-- A digit is the byte of its code. -/
private theorem toNat_toUInt8 {c : Char} (h : c.isDigit) :
    c.toUInt8.toNat = c.val.toNat ∧ 48 ≤ c.val.toNat ∧ c.val.toNat ≤ 57 := by
  simp only [Char.isDigit, Bool.and_eq_true, decide_eq_true_eq] at h
  have hlow : 48 ≤ c.val.toNat := h.1
  have hhigh : c.val.toNat ≤ 57 := h.2
  have hval : c.toUInt8.toNat = c.val.toNat % 2 ^ 8 := rfl
  omega

private theorem ofUInt8_toUInt8 {c : Char} (h : c.isDigit) : Char.ofUInt8 c.toUInt8 = c :=
  Char.ext (UInt32.toNat_inj.mp (toNat_toUInt8 h).1)

private theorem isDigit_of_mem {n : Nat} {c : Char} (h : c ∈ Nat.toDigits 10 n) : c.isDigit :=
  Nat.isDigit_of_mem_toDigits (by decide) (by decide) h

theorem toDecimal_ne_nil (n : Nat) : toDecimal n ≠ [] := by
  simp [toDecimal]

/-- Decimal text consists of digits. -/
theorem isDecimalDigit_of_mem_toDecimal {n : Nat} {byte : UInt8} (h : byte ∈ toDecimal n) :
    isDecimalDigit byte := by
  obtain ⟨c, hc, rfl⟩ := List.mem_map.mp h
  obtain ⟨heq, hlow, hhigh⟩ := toNat_toUInt8 (isDigit_of_mem hc)
  simp only [isDecimalDigit, Bool.and_eq_true, decide_eq_true_eq, UInt8.le_iff_toNat_le, heq]
  exact ⟨hlow, hhigh⟩

/-- Writing a number and reading it back. -/
@[simp] theorem ofDecimal_toDecimal (n : Nat) : ofDecimal (toDecimal n) = n := by
  have hchars : (Nat.toDigits 10 n).map (Char.ofUInt8 ∘ Char.toUInt8) = Nat.toDigits 10 n :=
    (List.map_congr_left fun c hc => ofUInt8_toUInt8 (isDigit_of_mem hc)).trans (List.map_id _)
  rw [ofDecimal, toDecimal, List.map_map, hchars, Nat.ofDigitChars_ten_toDigits]
