import Groonga.Lib.Memory
import Mathlib

/-!
# Records of keys in a double-array trie

The key buffer of a trie is an array of words of four bytes. A key is kept as a record of one word
with its id and the low four bits of its length, one byte with the next bits of the length, and its
bytes. The field of the length has twelve bits, and `0` stands for `4096`.

`grn_dat_add` and `Trie::insert` pass keys of any length on. A record gives its key back if and
only if the length fits into the field.
-/

namespace Groonga.Dat

open Lib

/-- `MAX_KEY_LENGTH`. -/
def maxKeyLength : ℕ := 4096

/-! ## Records -/

/-- `Key::id`, of the record at byte `a` of the key buffer. -/
def Key.id (m : ℕ → UInt8) (a : ℕ) : ℕ := readNat m a 4 / 16

/-- `Key::length`. A key of 4096 bytes overflows to 0, so 0 is treated as 4096. -/
def Key.length (m : ℕ → UInt8) (a : ℕ) : ℕ :=
  let length := (m (a + 4)).toNat * 16 ||| readNat m a 4 % 16
  if length = 0 then maxKeyLength else length

/-- `Key::operator[]`. -/
def Key.at (m : ℕ → UInt8) (a i : ℕ) : UInt8 := m (a + 5 + i)

/-- `Key::create`: the key buffer with the record of a key at byte `a`. -/
def Key.create (m : ℕ → UInt8) (a keyId : ℕ) (key : List UInt8) : ℕ → UInt8 :=
  let m := writeNat m a 4 (keyId * 16 ||| key.length % 16)
  let m := write m (a + 4) [UInt8.ofNat (key.length / 16)]
  write m (a + 5) key

/-- `Key::estimate_size`: how many words are reserved for a key. -/
def Key.estimateSize (length : ℕ) : ℕ := 2 + length / 4

/-- What `Trie::append_key` uses of a trie. -/
structure KeyBuffer where
  keyBuf : ℕ → UInt8
  nextKeyPos : ℕ
  keyBufSize : ℕ
  maxNumKeys : ℕ

/-- `Trie::append_key`: the position of the record, or nothing for `SIZE_ERROR`. -/
def KeyBuffer.appendKey (t : KeyBuffer) (key : List UInt8) (keyId : ℕ) : Option (ℕ × KeyBuffer) :=
  if keyId > t.maxNumKeys then none
  else
    let keyPos := t.nextKeyPos
    let keySize := Key.estimateSize key.length
    if keySize > t.keyBufSize - keyPos then none
    else some (keyPos,
      { t with keyBuf := Key.create t.keyBuf (4 * keyPos) keyId key, nextKeyPos := keyPos + keySize })

/-! ## What a record gives back -/

section Create

variable (m : ℕ → UInt8) (a keyId : ℕ) (key : List UInt8)

/-- The word of a record. -/
theorem Key.readNat_create :
    readNat (Key.create m a keyId key) a 4 = (keyId * 16 + key.length % 16) % 2 ^ 32 := by
  have hor : keyId * 16 ||| key.length % 16 = keyId * 16 + key.length % 16 := by
    have h := Nat.two_pow_add_eq_or_of_lt (i := 4) (Nat.mod_lt key.length (by norm_num)) keyId
    rw [Nat.mul_comm, ← h]
  have hkeep : readNat (Key.create m a keyId key) a 4 =
      readNat (writeNat m a 4 (keyId * 16 ||| key.length % 16)) a 4 := by
    refine readNat_congr fun u _ hu => ?_
    rw [Key.create, write_of_not_mem (.inl (by omega)), write_of_not_mem (.inl (by omega))]
  rw [hkeep, readNat_writeNat, hor]
  norm_num

/-- The byte of a record that holds the high bits of the length. -/
theorem Key.create_four : Key.create m a keyId key (a + 4) = UInt8.ofNat (key.length / 16) := by
  rw [Key.create, write_of_not_mem (.inl (by omega))]
  simp [write]

/-- The bytes of the key in a record. -/
theorem Key.at_create {i : ℕ} (hi : i < key.length) :
    Key.at (Key.create m a keyId key) a i = key[i] := by
  have hin : a + 5 ≤ a + 5 + i ∧ a + 5 + i < a + 5 + key.length := by omega
  rw [Key.at, Key.create, write, if_pos hin, Nat.add_sub_cancel_left,
    List.getD_eq_getElem?_getD, List.getElem?_eq_getElem hi, Option.getD_some]

/-- **A record keeps to the words reserved for it.** -/
theorem Key.create_of_not_mem {u : ℕ}
    (hu : u < a ∨ a + 4 * Key.estimateSize key.length ≤ u) : Key.create m a keyId key u = m u := by
  rw [Key.estimateSize] at hu
  rw [Key.create, write_of_not_mem (by omega), write_of_not_mem (by simp; omega), writeNat,
    write_of_not_mem (by rw [length_leBytes]; omega)]

variable {keyId}

/-- The id of a record. -/
theorem Key.id_create (hid : keyId < 2 ^ 28) : Key.id (Key.create m a keyId key) a = keyId := by
  have hlow := Nat.mod_lt key.length (show 16 > 0 by norm_num)
  have hword : keyId * 16 + key.length % 16 < 2 ^ 32 := by omega
  rw [Key.id, Key.readNat_create, Nat.mod_eq_of_lt hword]
  omega

/-- **The length of a record** is the length of the key in twelve bits. -/
theorem Key.length_create (hid : keyId < 2 ^ 28) :
    Key.length (Key.create m a keyId key) a =
      if key.length % maxKeyLength = 0 then maxKeyLength else key.length % maxKeyLength := by
  have hlow := Nat.mod_lt key.length (show 16 > 0 by norm_num)
  have hlt : keyId * 16 + key.length % 16 < 2 ^ 32 := by omega
  have hword : readNat (Key.create m a keyId key) a 4 % 16 = key.length % 16 := by
    rw [Key.readNat_create, Nat.mod_eq_of_lt hlt]
    omega
  have hbyte : (Key.create m a keyId key (a + 4)).toNat = key.length / 16 % 256 := by
    rw [Key.create_four]
    simp
  have hor : key.length / 16 % 256 * 16 ||| key.length % 16 = key.length % maxKeyLength := by
    have h := Nat.two_pow_add_eq_or_of_lt (i := 4) hlow (key.length / 16 % 256)
    rw [Nat.mul_comm, maxKeyLength]
    norm_num at h
    rw [← h]
    omega
  simp only [Key.length, hword, hbyte, hor]

end Create

/-! ## The round trip -/

/-- The record at a position of the key buffer gives id, length and bytes of a key back. -/
def KeyBuffer.Holds (t : KeyBuffer) (keyPos keyId : ℕ) (key : List UInt8) : Prop :=
  Key.id t.keyBuf (4 * keyPos) = keyId ∧ Key.length t.keyBuf (4 * keyPos) = key.length ∧
    ∀ i (hi : i < key.length), Key.at t.keyBuf (4 * keyPos) i = key[i]

/-- A step left the key buffer alone but for the words that it reserved. -/
def KeyBuffer.WritesInside (t t' : KeyBuffer) : Prop :=
  t'.nextKeyPos ≤ t'.keyBufSize ∧
    ∀ u, u < 4 * t.nextKeyPos ∨ 4 * t'.nextKeyPos ≤ u → t'.keyBuf u = t.keyBuf u

/-- The record of a short key gives the key back, and no other record does. -/
theorem length_create_eq_iff {n : ℕ} (hn : 0 < n) :
    (if n % maxKeyLength = 0 then maxKeyLength else n % maxKeyLength) = n ↔ n ≤ maxKeyLength := by
  rw [maxKeyLength]
  split <;> omega

/-- **Key records come back if and only if their length fits.** For every id below `2 ^ 28` and
every key that is passed to `Trie::insert`, the record that `append_key` writes lies in the words
that it reserves and decodes to id, length and bytes, exactly when the key has at most 4096
bytes. -/
theorem KeyBuffer.appendKey_holds_iff (t t' : KeyBuffer) (key : List UInt8) (keyId keyPos : ℕ)
    (hid : keyId < 2 ^ 28) (hkey : key ≠ []) (hsize : key.length < 2 ^ 32)
    (happend : t.appendKey key keyId = some (keyPos, t')) :
    (t'.Holds keyPos keyId key ∧ t.WritesInside t') ↔ key.length ≤ maxKeyLength := by
  obtain ⟨hroom, rfl, rfl⟩ : Key.estimateSize key.length ≤ t.keyBufSize - t.nextKeyPos ∧
      t.nextKeyPos = keyPos ∧
      { t with keyBuf := Key.create t.keyBuf (4 * t.nextKeyPos) keyId key
               nextKeyPos := t.nextKeyPos + Key.estimateSize key.length } = t' := by
    simp only [KeyBuffer.appendKey] at happend
    split at happend
    · cases happend
    · split at happend
      · cases happend
      · next hle =>
        obtain ⟨rfl, rfl⟩ := Prod.mk.inj (Option.some.inj happend)
        exact ⟨Nat.le_of_not_lt hle, rfl, rfl⟩
  have hlength := Key.length_create t.keyBuf (4 * t.nextKeyPos) key hid
  rw [← length_create_eq_iff (List.length_pos_iff.mpr hkey), ← hlength]
  constructor
  · rintro ⟨⟨-, h, -⟩, -⟩
    exact h
  · intro h
    refine ⟨⟨Key.id_create _ _ _ hid, h, fun i hi => Key.at_create _ _ _ _ hi⟩, ?_, fun u hu => ?_⟩
    · have : 0 < Key.estimateSize key.length := by rw [Key.estimateSize]; omega
      show t.nextKeyPos + Key.estimateSize key.length ≤ t.keyBufSize
      omega
    · refine Key.create_of_not_mem _ _ _ _ ?_
      dsimp only at hu
      omega

/-- An empty key buffer. -/
def KeyBuffer.empty : KeyBuffer := ⟨fun _ => 0, 0, 2048, 8⟩

/-- The key buffer with the record of a key at its start. -/
def KeyBuffer.first (key : List UInt8) : KeyBuffer :=
  ⟨Key.create (fun _ => 0) 0 1 key, Key.estimateSize key.length, 2048, 8⟩

theorem KeyBuffer.appendKey_empty {key : List UInt8} (h : Key.estimateSize key.length ≤ 2048) :
    KeyBuffer.empty.appendKey key 1 = some (0, KeyBuffer.first key) := by
  simp only [KeyBuffer.appendKey, KeyBuffer.empty, KeyBuffer.first, Nat.mul_zero, Nat.zero_add]
  rw [if_neg (by decide), if_neg (Nat.not_lt.mpr h)]

/-- The record of a key of two bytes. -/
theorem appendKey_holds_two : (KeyBuffer.first [97, 98]).Holds 0 1 [97, 98] :=
  ((KeyBuffer.appendKey_holds_iff KeyBuffer.empty _ [97, 98] 1 0 (by decide) (by decide) (by decide)
    (KeyBuffer.appendKey_empty (by decide))).mpr (by decide)).1

/-- **A key of 4097 bytes is cut.** Its record says that it has one byte. -/
theorem not_holds_long :
    KeyBuffer.empty.appendKey (List.replicate 4097 97) 1 =
        some (0, KeyBuffer.first (List.replicate 4097 97)) ∧
      ¬(KeyBuffer.first (List.replicate 4097 97)).Holds 0 1 (List.replicate 4097 97) := by
  refine ⟨KeyBuffer.appendKey_empty (by rw [List.length_replicate]; decide), ?_⟩
  rintro ⟨-, h, -⟩
  have hone := Key.length_create (fun _ => 0) 0 (List.replicate 4097 (97 : UInt8))
    (show 1 < 2 ^ 28 by norm_num)
  have hsame := hone.symm.trans h
  rw [List.length_replicate] at hsame
  exact absurd hsame (by decide)

end Groonga.Dat
