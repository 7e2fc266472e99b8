import Mathlib

/-!
# Memories of bytes

A memory gives the byte at each offset. Bytes are read and written as lists, and numbers as
their bytes with the lowest one first. What is written is read again, and what lies outside of
a write is as it was.
-/

namespace Groonga.Lib

/-! ## Numbers as bytes -/

/-- The number that bytes stand for, the lowest byte first. -/
def leNat : List UInt8 → ℕ
  | [] => 0
  | b :: bs => b.toNat + 256 * leNat bs

/-- The lowest `n` bytes of a number. -/
def leBytes : ℕ → ℕ → List UInt8
  | 0, _ => []
  | n + 1, v => UInt8.ofNat v :: leBytes n (v / 256)

@[simp] theorem length_leBytes (n v : ℕ) : (leBytes n v).length = n := by
  induction n generalizing v with
  | zero => rfl
  | succ n ih => rw [leBytes, List.length_cons, ih]

/-- **A number is read from its bytes.** -/
theorem leNat_leBytes (n v : ℕ) : leNat (leBytes n v) = v % 256 ^ n := by
  induction n generalizing v with
  | zero => simp [leBytes, leNat, Nat.mod_one]
  | succ n ih =>
    have hbyte : (UInt8.ofNat v).toNat = v % 256 := by simp
    rw [leBytes, leNat, ih, hbyte, Nat.pow_succ, Nat.mul_comm (256 ^ n), Nat.mod_mul]

/-- **The bytes are those of their number.** -/
theorem leBytes_leNat (bs : List UInt8) : leBytes bs.length (leNat bs) = bs := by
  induction bs with
  | nil => rfl
  | cons b bs ih =>
    have hlt := b.toNat_lt
    have hdiv : (b.toNat + 256 * leNat bs) / 256 = leNat bs := by omega
    have hbyte : UInt8.ofNat (b.toNat + 256 * leNat bs) = b := by
      apply UInt8.toNat_inj.mp
      rw [UInt8.toNat_ofNat']
      omega
    rw [List.length_cons, leNat, leBytes, hdiv, ih, hbyte]

/-- A byte of a number. -/
theorem getElem?_leBytes {n i : ℕ} (v : ℕ) (hi : i < n) :
    (leBytes n v)[i]? = some (UInt8.ofNat (v / 256 ^ i)) := by
  induction n generalizing i v with
  | zero => exact absurd hi (Nat.not_lt_zero i)
  | succ n ih =>
    cases i with
    | zero => simp [leBytes]
    | succ i =>
      rw [leBytes, List.getElem?_cons_succ, ih _ (Nat.lt_of_succ_lt_succ hi), Nat.div_div_eq_div_mul,
        Nat.pow_succ, Nat.mul_comm]

theorem leNat_lt (bs : List UInt8) : leNat bs < 256 ^ bs.length := by
  induction bs with
  | nil => simp [leNat]
  | cons b bs ih =>
    have hlt := b.toNat_lt
    rw [leNat, List.length_cons, Nat.pow_succ]
    omega

/-! ## Reading and writing -/

variable {m m' : ℕ → UInt8} {a n : ℕ} {bs : List UInt8}

/-- The `n` bytes from `a` on. -/
def read (m : ℕ → UInt8) (a n : ℕ) : List UInt8 := (List.range n).map fun i => m (a + i)

/-- The memory with bytes written from `a` on. -/
def write (m : ℕ → UInt8) (a : ℕ) (bs : List UInt8) : ℕ → UInt8 := fun u =>
  if a ≤ u ∧ u < a + bs.length then bs.getD (u - a) 0 else m u

/-- The number in the `n` bytes from `a` on. -/
def readNat (m : ℕ → UInt8) (a n : ℕ) : ℕ := leNat (read m a n)

/-- The memory with a number written to the `n` bytes from `a` on. -/
def writeNat (m : ℕ → UInt8) (a n v : ℕ) : ℕ → UInt8 := write m a (leBytes n v)

@[simp] theorem length_read (m : ℕ → UInt8) (a n : ℕ) : (read m a n).length = n := by
  simp [read]

/-- What is read depends on the bytes that are read. -/
theorem read_congr (h : ∀ u, a ≤ u → u < a + n → m u = m' u) : read m a n = read m' a n := by
  refine List.map_congr_left fun i hi => ?_
  have hlt := List.mem_range.mp hi
  exact h _ (by omega) (by omega)

/-- The bytes that are read are those of the memory. -/
theorem eq_of_read_eq (h : read m a n = read m' a n) {u : ℕ} (hle : a ≤ u) (hlt : u < a + n) :
    m u = m' u := by
  have hget := congrArg (fun bs => bs[u - a]?) h
  have hin : u - a < n := by omega
  simpa [read, hin, Nat.add_sub_cancel' hle] using hget

theorem readNat_congr (h : ∀ u, a ≤ u → u < a + n → m u = m' u) :
    readNat m a n = readNat m' a n := by
  rw [readNat, readNat, read_congr h]

theorem write_of_not_mem {u : ℕ} (h : u < a ∨ a + bs.length ≤ u) : write m a bs u = m u :=
  if_neg (by omega)

/-- **What is written is read again.** -/
theorem read_write (m : ℕ → UInt8) (a : ℕ) (bs : List UInt8) :
    read (write m a bs) a bs.length = bs := by
  refine List.ext_getElem (by simp) fun i h₁ h₂ => ?_
  have hin : a ≤ a + i ∧ a + i < a + bs.length := by omega
  simp only [read, write, List.getElem_map, List.getElem_range, if_pos hin, Nat.add_sub_cancel_left]
  rw [List.getD_eq_getElem?_getD, List.getElem?_eq_getElem h₂, Option.getD_some]

theorem readNat_writeNat (m : ℕ → UInt8) (a n v : ℕ) :
    readNat (writeNat m a n v) a n = v % 256 ^ n := by
  have h := read_write m a (leBytes n v)
  rw [length_leBytes] at h
  rw [readNat, writeNat, h, leNat_leBytes]

/-- **Other bytes are read as before.** -/
theorem readNat_writeNat_of_apart {b k v : ℕ} (h : b + k ≤ a ∨ a + n ≤ b) :
    readNat (writeNat m a n v) b k = readNat m b k := by
  refine readNat_congr fun u hu hu' => ?_
  apply write_of_not_mem
  rw [length_leBytes]
  omega

theorem readNat_lt (m : ℕ → UInt8) (a n : ℕ) : readNat m a n < 256 ^ n := by
  have h := leNat_lt (read m a n)
  rwa [length_read] at h

/-- The bytes of a number that is read. -/
theorem leBytes_readNat (m : ℕ → UInt8) (a n : ℕ) : leBytes n (readNat m a n) = read m a n := by
  have h := leBytes_leNat (read m a n)
  rwa [length_read] at h

/-- What is read in two parts. -/
theorem read_add (m : ℕ → UInt8) (a n k : ℕ) : read m a (n + k) = read m a n ++ read m (a + n) k := by
  rw [read, read, read, List.range_add, List.map_append, List.map_map]
  congr 1
  refine List.map_congr_left fun i _ => ?_
  rw [Function.comp_apply, Nat.add_assoc]

end Groonga.Lib
