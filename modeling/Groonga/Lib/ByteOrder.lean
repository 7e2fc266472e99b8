import Groonga.Lib.Memory
import Mathlib

/-!
# The order of numbers in their bytes

Numbers of the same width are in the order of their bytes, the highest byte first. With the
highest bit of the first byte flipped, the same holds for numbers with a sign.
-/

namespace Groonga.Lib

/-- `memcmp` of strings of the same length. -/
def memcmp : List UInt8 → List UInt8 → Ordering
  | a :: as, b :: bs => (compare a.toNat b.toNat).then (memcmp as bs)
  | _, _ => .eq

/-- The lowest `n` bytes of a number, the highest of them first. -/
def beBytes (n v : ℕ) : List UInt8 := (leBytes n v).reverse

@[simp] theorem length_beBytes (n v : ℕ) : (beBytes n v).length = n := by simp [beBytes]

theorem leBytes_succ (n v : ℕ) :
    leBytes (n + 1) v = leBytes n v ++ [UInt8.ofNat (v / 256 ^ n)] := by
  induction n generalizing v with
  | zero => simp [leBytes]
  | succ n ih =>
    rw [leBytes, ih, leBytes, List.cons_append, Nat.div_div_eq_div_mul, Nat.pow_succ,
      Nat.mul_comm (256 ^ n)]

/-- The highest byte comes first. -/
theorem beBytes_succ (n v : ℕ) : beBytes (n + 1) v = UInt8.ofNat (v / 256 ^ n) :: beBytes n v := by
  rw [beBytes, leBytes_succ, List.reverse_append]
  rfl

/-- A byte of a number, counted from the highest one. -/
theorem getElem?_beBytes {n i : ℕ} (v : ℕ) (hi : i < n) :
    (beBytes n v)[i]? = some (UInt8.ofNat (v / 256 ^ (n - 1 - i))) := by
  rw [beBytes, List.getElem?_reverse (by simpa using hi), length_leBytes,
    getElem?_leBytes v (by omega)]

theorem leBytes_mod (n v : ℕ) : leBytes n (v % 256 ^ n) = leBytes n v := by
  have h := leBytes_leNat (leBytes n v)
  rwa [length_leBytes, leNat_leBytes] at h

theorem beBytes_mod (n v : ℕ) : beBytes n (v % 256 ^ n) = beBytes n v := by
  rw [beBytes, leBytes_mod, beBytes]

/-- Numbers are compared by their quotients first. -/
theorem compare_mul_add {m a b c d : ℕ} (hc : c < m) (hd : d < m) :
    compare (m * a + c) (m * b + d) = (compare a b).then (compare c d) := by
  rcases Nat.lt_trichotomy a b with hlt | rfl | hgt
  · rw [Nat.compare_eq_lt.mpr hlt, Ordering.lt_then, Nat.compare_eq_lt]
    calc m * a + c < m * a + m := Nat.add_lt_add_left hc _
      _ = m * (a + 1) := (Nat.mul_succ m a).symm
      _ ≤ m * b := Nat.mul_le_mul_left _ hlt
      _ ≤ m * b + d := Nat.le_add_right _ _
  · rw [Nat.compare_eq_eq.mpr rfl, Ordering.eq_then]
    simp only [Nat.compare_eq_ite_lt, Nat.add_lt_add_iff_left]
  · rw [Nat.compare_eq_gt.mpr hgt, Ordering.gt_then, Nat.compare_eq_gt]
    calc m * b + d < m * b + m := Nat.add_lt_add_left hd _
      _ = m * (b + 1) := (Nat.mul_succ m b).symm
      _ ≤ m * a := Nat.mul_le_mul_left _ hgt
      _ ≤ m * a + c := Nat.le_add_right _ _

/-- **Numbers are in the order of their bytes.** -/
theorem memcmp_beBytes (n v w : ℕ) :
    memcmp (beBytes n v) (beBytes n w) = compare (v % 256 ^ n) (w % 256 ^ n) := by
  induction n with
  | zero => simp [beBytes, leBytes, memcmp, Nat.mod_one]
  | succ n ih =>
    have hsplit : ∀ u, u % 256 ^ (n + 1) = 256 ^ n * (u / 256 ^ n % 256) + u % 256 ^ n := fun u => by
      rw [Nat.pow_succ, Nat.mod_mul, Nat.add_comm]
    have hbyte : ∀ u, (UInt8.ofNat u).toNat = u % 256 := fun u => by simp
    rw [beBytes_succ, beBytes_succ, memcmp, ih, hbyte, hbyte, hsplit, hsplit,
      compare_mul_add (Nat.mod_lt _ (by positivity)) (Nat.mod_lt _ (by positivity))]

/-! ## Numbers with a sign -/

/-- The string with the highest bit of its first byte flipped. -/
def flipSign : List UInt8 → List UInt8
  | [] => []
  | b :: bs => (b ^^^ 0x80) :: bs

/-- The number with a sign that `n` bytes stand for. -/
def signedNumber (n v : ℕ) : ℤ := (v : ℤ).bmod (256 ^ n : ℕ)

theorem xor_signByte (b : UInt8) : (b ^^^ 0x80).toNat = (b.toNat + 128) % 256 := by
  revert b
  decide +kernel

/-- The flipped bit adds half of what `n + 1` bytes can hold. -/
theorem flipSign_beBytes (n v : ℕ) :
    flipSign (beBytes (n + 1) v) = beBytes (n + 1) (v + 128 * 256 ^ n) := by
  have hpos : 0 < 256 ^ n := by positivity
  have hbyte : (v + 128 * 256 ^ n) / 256 ^ n = v / 256 ^ n + 128 := Nat.add_mul_div_right _ _ hpos
  have hrest : beBytes n (v + 128 * 256 ^ n) = beBytes n v := by
    rw [← beBytes_mod n (v + _), Nat.add_mul_mod_self_right, beBytes_mod]
  rw [beBytes_succ, flipSign, beBytes_succ, hbyte, hrest]
  congr 1
  apply UInt8.toNat_inj.mp
  rw [xor_signByte]
  simp [Nat.add_mod]

/-- Half of the numbers moved up, the other half moved down. -/
theorem add_half_mod {half : ℕ} (u : ℕ) (hpos : 0 < half) :
    (u + half) % (2 * half) =
      if u % (2 * half) < half then u % (2 * half) + half else u % (2 * half) - half := by
  have hlt := Nat.mod_lt u (show 0 < 2 * half by omega)
  rw [Nat.add_mod, Nat.mod_eq_of_lt (show half < 2 * half by omega)]
  split
  · rw [Nat.mod_eq_of_lt (by omega)]
  · rw [Nat.mod_eq_sub_mod (by omega), Nat.mod_eq_of_lt (by omega)]
    omega

/-- **Numbers with a sign are in the order of their bytes** with the sign flipped. -/
theorem memcmp_flipSign (n v w : ℕ) :
    memcmp (flipSign (beBytes (n + 1) v)) (flipSign (beBytes (n + 1) w)) =
      compare (signedNumber (n + 1) v) (signedNumber (n + 1) w) := by
  rw [flipSign_beBytes, flipSign_beBytes, memcmp_beBytes]
  have hmoved : ∀ u : ℕ, ((u + 128 * 256 ^ n) % 256 ^ (n + 1) : ℕ) =
      signedNumber (n + 1) u + (128 * 256 ^ n : ℕ) := fun u => by
    have hpow : 256 ^ (n + 1) = 2 * (128 * 256 ^ n) := by rw [Nat.pow_succ]; ring
    have hpos : 0 < 256 ^ n := by positivity
    rw [signedNumber, Int.bmod_def, hpow, add_half_mod u (by omega), ← Int.natCast_mod]
    split <;> split <;> omega
  rw [Nat.compare_eq_ite_lt, Int.compare_eq_ite_lt]
  simp only [← Int.ofNat_lt, hmoved, Int.add_lt_add_iff_right]

end Groonga.Lib
