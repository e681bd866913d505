import Mathlib

/-!
# Scalars in memory

Little-endian images of natural numbers, and the padding of a byte string to a
given length.  A big-endian image is the reversal of the little-endian one.
-/

namespace Scalar

/-- The little-endian image of `n` in `width` bytes. -/
def toBytes : ℕ → ℕ → List UInt8
  | 0, _ => []
  | width + 1, n => UInt8.ofNat (n % 256) :: toBytes width (n / 256)

/-- The number whose little-endian image is the given byte string. -/
def ofBytes : List UInt8 → ℕ
  | [] => 0
  | b :: bs => b.toNat + 256 * ofBytes bs

@[simp] theorem length_toBytes (width n : ℕ) :
    (toBytes width n).length = width := by
  induction width generalizing n with
  | zero => rfl
  | succ width ih => simp [toBytes, ih]

/-- Reading back the image of a number that fits in the width. -/
theorem ofBytes_toBytes {width n : ℕ} (hn : n < 256 ^ width) :
    ofBytes (toBytes width n) = n := by
  induction width generalizing n with
  | zero =>
      simp only [pow_zero] at hn
      simp [toBytes, ofBytes]
      omega
  | succ width ih =>
      rw [pow_succ] at hn
      have hdiv : n / 256 < 256 ^ width := by omega
      have hmod : (UInt8.ofNat (n % 256)).toNat = n % 256 :=
        UInt8.toNat_ofNat_of_lt' (by simp [UInt8.size]; omega)
      simp only [toBytes, ofBytes, ih hdiv, hmod]
      omega

/-- The image only depends on the part of the number that fits. -/
theorem toBytes_mod (width n : ℕ) :
    toBytes width (n % 256 ^ width) = toBytes width n := by
  induction width generalizing n with
  | zero => rfl
  | succ width ih =>
      have hlow : n % 256 ^ (width + 1) % 256 = n % 256 := by
        rw [pow_succ, Nat.mod_mul_left_mod]
      have hhigh : n % 256 ^ (width + 1) / 256 = n / 256 % 256 ^ width := by
        rw [pow_succ, Nat.mul_comm, Nat.mod_mul_right_div_self]
      rw [toBytes, toBytes, hlow, hhigh, ih]

/-- A byte string is the image of the number it denotes. -/
theorem toBytes_ofBytes (bs : List UInt8) :
    toBytes bs.length (ofBytes bs) = bs := by
  induction bs with
  | nil => rfl
  | cons b bs ih =>
      have hb : b.toNat < 256 := b.toNat_lt
      have hmod : (b.toNat + 256 * ofBytes bs) % 256 = b.toNat := by omega
      have hdiv : (b.toNat + 256 * ofBytes bs) / 256 = ofBytes bs := by omega
      simp only [List.length_cons, toBytes, ofBytes, hmod, hdiv, ih]
      simp

/-- `bs` cut or filled up with zeros to exactly `n` bytes. -/
def pad (n : ℕ) (bs : List UInt8) : List UInt8 :=
  bs.take n ++ List.replicate (n - bs.length) 0

@[simp] theorem length_pad (n : ℕ) (bs : List UInt8) :
    (pad n bs).length = n := by
  simp only [pad, List.length_append, List.length_take, List.length_replicate]
  omega

theorem pad_of_length {n : ℕ} {bs : List UInt8} (h : bs.length = n) :
    pad n bs = bs := by
  subst h
  simp [pad]

/-- The part of a padded string that the string itself covers. -/
theorem take_pad {k n : ℕ} {bs : List UInt8} (hk : k ≤ bs.length) (hn : k ≤ n) :
    (pad n bs).take k = bs.take k := by
  rw [pad, List.take_append, List.take_take, List.length_take]
  have hzero : k - min n bs.length = 0 := by omega
  rw [hzero, List.take_zero, List.append_nil, Nat.min_eq_left hn]

/-- A byte of a padded string. -/
theorem getElem?_pad {n i : ℕ} (bs : List UInt8) (hi : i < n) :
    (pad n bs)[i]? = some (bs[i]?.getD 0) := by
  rw [pad, List.getElem?_append, List.length_take]
  by_cases h : i < bs.length
  · rw [if_pos (by omega), List.getElem?_take_of_lt hi]
    simp [List.getElem?_eq_getElem h]
  · rw [if_neg (by omega), List.getElem?_replicate, if_pos (by omega),
      List.getElem?_eq_none (by omega)]
    rfl

/-- A padded string fills two adjacent fields. -/
theorem pad_add (m n : ℕ) (bs : List UInt8) :
    pad (m + n) bs = pad m bs ++ pad n (bs.drop m) := by
  apply List.ext_getElem?
  intro i
  by_cases hm : i < m
  · rw [List.getElem?_append_left (by simpa using hm), getElem?_pad bs hm,
      getElem?_pad bs (by omega)]
  · rw [List.getElem?_append_right (by simpa using hm), length_pad]
    by_cases hn : i - m < n
    · rw [getElem?_pad _ hn, getElem?_pad bs (by omega), List.getElem?_drop]
      congr 3
      omega
    · rw [List.getElem?_eq_none (by simp; omega),
        List.getElem?_eq_none (by simp; omega)]

end Scalar
