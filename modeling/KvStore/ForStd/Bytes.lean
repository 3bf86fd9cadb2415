import Mathlib.Data.List.Lex
import Mathlib.Algebra.Order.Group.Nat

/-!
# Byte strings

Byte strings in the lexicographic order of unsigned bytes, and unsigned integers of a
fixed width in little-endian order.
-/

/-- A string of bytes. -/
abbrev Bytes := List UInt8

instance byteLinearOrder : LinearOrder UInt8 where
  le_refl := UInt8.le_refl
  le_trans _ _ _ := UInt8.le_trans
  le_antisymm _ _ := UInt8.le_antisymm
  le_total := UInt8.le_total
  lt_iff_le_not_ge a b := by
    rw [UInt8.lt_iff_toNat_lt, UInt8.le_iff_toNat_le, UInt8.le_iff_toNat_le]
    omega
  toDecidableLE := inferInstance
  toDecidableLT := inferInstance

/-- The lexicographic order, with the equality test that lists have anyway. -/
instance bytesLinearOrder : LinearOrder Bytes where
  __ := (inferInstance : PartialOrder (List UInt8))
  le_total := (inferInstance : LinearOrder (List UInt8)).le_total
  toDecidableLE := (inferInstance : LinearOrder (List UInt8)).toDecidableLE
  toDecidableEq := instDecidableEqList
  compare a b := compareOfLessAndEq a b
  compare_eq_compareOfLessAndEq _ _ := rfl

/-- The `width` low bytes of `value`, the lowest first. -/
def leBytes : (width value : Nat) → Bytes
  | 0, _ => []
  | width + 1, value => UInt8.ofNat value :: leBytes width (value / 256)

/-- The value of bytes, the lowest first. -/
def leNat : Bytes → Nat
  | [] => 0
  | byte :: bytes => byte.toNat + 256 * leNat bytes

@[simp] theorem length_leBytes (width value : Nat) : (leBytes width value).length = width := by
  induction width generalizing value with
  | zero => rfl
  | succ width ih => rw [leBytes, List.length_cons, ih]

/-- Writing and reading back keeps the value up to the width. -/
@[simp] theorem leNat_leBytes (width value : Nat) :
    leNat (leBytes width value) = value % 256 ^ width := by
  induction width generalizing value with
  | zero => simp [leBytes, leNat, Nat.mod_one]
  | succ width ih =>
    have hlow : (UInt8.ofNat value).toNat = value % 256 := UInt8.toNat_ofNat'
    unfold leBytes leNat
    rw [hlow, ih, Nat.pow_succ', Nat.mod_mul]

theorem leNat_lt (bytes : Bytes) : leNat bytes < 256 ^ bytes.length := by
  induction bytes with
  | nil => exact Nat.one_pos
  | cons byte bytes ih =>
    have := byte.toNat_lt
    rw [leNat, List.length_cons, Nat.pow_succ]
    omega

/-- Reading and writing back keeps the bytes. -/
@[simp] theorem leBytes_leNat (bytes : Bytes) : leBytes bytes.length (leNat bytes) = bytes := by
  induction bytes with
  | nil => rfl
  | cons byte bytes ih =>
    have := byte.toNat_lt
    have hhigh : (byte.toNat + 256 * leNat bytes) / 256 = leNat bytes := by omega
    have hlow : UInt8.ofNat (byte.toNat + 256 * leNat bytes) = byte := by
      apply UInt8.toNat_inj.mp
      rw [UInt8.toNat_ofNat']
      omega
    rw [List.length_cons, leBytes, leNat, hhigh, hlow, ih]

/-- Strings of the same width with the same value are equal. -/
theorem leNat_inj {a b : Bytes} (hlength : a.length = b.length) (h : leNat a = leNat b) :
    a = b := by
  rw [← leBytes_leNat a, ← leBytes_leNat b, hlength, h]
