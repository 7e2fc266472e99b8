import Groonga.Lib.ByteOrder
import Groonga.Lib.FloatOrder
import Groonga.Lib.Interleave
import Mathlib

/-!
# Keys that are encoded in their order

A patricia trie compares keys by their bytes. Before a key of a fixed size is looked up or stored,
`KEY_ENC` turns it into bytes whose order is that of the numbers: the highest byte first, the sign
of an integer flipped, a negative float complemented, and the bits of the two coordinates of a
point by turns. `KEY_DEC` takes a stored key back.

Floats are in the order of their numbers but for the two zeros: they are the same number and
different keys, and the negative zero comes right before the other one.
-/

namespace Groonga.Pat

open Lib

/-! ## Numbers in the memory of the host -/

/-- The bytes of a number in memory. `bigEndian` is `WORDS_BIGENDIAN`. -/
def hostBytes (bigEndian : Bool) (n v : ℕ) : List UInt8 :=
  if bigEndian then beBytes n v else leBytes n v

/-- The number that bytes in memory stand for. -/
def hostNat (bigEndian : Bool) (bs : List UInt8) : ℕ :=
  leNat (if bigEndian then bs.reverse else bs)

/-- `grn_hton` and `grn_ntoh`. -/
def grnHton (bigEndian : Bool) (key : List UInt8) : List UInt8 :=
  if bigEndian then key else key.reverse

/-- `grn_ntohi`. -/
def grnNtohi (bigEndian : Bool) : List UInt8 → List UInt8
  | [] => []
  | b :: bs => if bigEndian then (0x80 ^^^ b) :: bs else bs.reverse ++ [0x80 ^^^ b]

/-- `grn_bswap_uint64`. -/
def grnBswapUint64 (x : BitVec 64) : BitVec 64 := BitVec.ofNat 64 (leNat (beBytes 8 x.toNat))

/-- `grn_hton_uint64` and `grn_ntoh_uint64`. -/
def grnHtonUint64 (bigEndian : Bool) (x : BitVec 64) : BitVec 64 :=
  if bigEndian then x else grnBswapUint64 x

/-! ## Points -/

/-- The bits of a coordinate, spread over the even places by `grn_gton`. -/
def spreadCoordinate (x : BitVec 64) : BitVec 64 :=
  let x := (x ||| x <<< 16) &&& 0x0000FFFF0000FFFF
  let x := (x ||| x <<< 8) &&& 0x00FF00FF00FF00FF
  let x := (x ||| x <<< 4) &&& 0x0F0F0F0F0F0F0F0F
  let x := (x ||| x <<< 2) &&& 0x3333333333333333
  (x ||| x <<< 1) &&& 0x5555555555555555

/-- The bits at the even places, gathered by `grn_ntog`. -/
def gatherCoordinate (x : BitVec 64) : BitVec 64 :=
  let x := (x ||| x >>> 1) &&& 0x3333333333333333
  let x := (x ||| x >>> 2) &&& 0x0F0F0F0F0F0F0F0F
  let x := (x ||| x >>> 4) &&& 0x00FF00FF00FF00FF
  let x := (x ||| x >>> 8) &&& 0x0000FFFF0000FFFF
  (x ||| x >>> 16) &&& 0x00000000FFFFFFFF

/-- The latitude of a point in memory. -/
def latitude (bigEndian : Bool) (point : List UInt8) : BitVec 32 :=
  BitVec.ofNat 32 (hostNat bigEndian (point.take 4))

/-- The longitude of a point in memory. -/
def longitude (bigEndian : Bool) (point : List UInt8) : BitVec 32 :=
  BitVec.ofNat 32 (hostNat bigEndian ((point.drop 4).take 4))

/-- `grn_gton`. -/
def grnGton (bigEndian : Bool) (key : List UInt8) : List UInt8 :=
  let la := spreadCoordinate ((latitude bigEndian key).setWidth 64)
  let lo := spreadCoordinate ((longitude bigEndian key).setWidth 64)
  let result := la <<< 1 ||| lo
  hostBytes bigEndian 8 (grnHtonUint64 bigEndian result).toNat

/-- `grn_ntog`. -/
def grnNtog (bigEndian : Bool) (key : List UInt8) : List UInt8 :=
  let key := grnHtonUint64 bigEndian (BitVec.ofNat 64 (hostNat bigEndian (key.take 8)))
  let la := gatherCoordinate (key >>> 1 &&& 0x5555555555555555)
  let lo := gatherCoordinate (key &&& 0x5555555555555555)
  hostBytes bigEndian 4 (la.setWidth 32).toNat ++ hostBytes bigEndian 4 (lo.setWidth 32).toNat

/-! ## Floats -/

/-- What `KEY_ENC` does with the bits of a double. -/
def encodeFloat64 (v : BitVec 64) : BitVec 64 := v ^^^ (v.sshiftRight 63 ||| 1#64 <<< 63)

/-- What `KEY_DEC` does with the bits of a double. -/
def decodeFloat64 (v : BitVec 64) : BitVec 64 :=
  v ^^^ ((v ^^^ 1#64 <<< 63).sshiftRight 63 ||| 1#64 <<< 63)

/-- What `KEY_ENC` does with the bits of a float. They are extended to 64 bits by `1ULL`. -/
def encodeFloat32 (v : BitVec 32) : BitVec 32 :=
  (v.signExtend 64 ^^^ ((v.sshiftRight 31).signExtend 64 ||| 1#64 <<< 31)).setWidth 32

/-- What `KEY_DEC` does with the bits of a float. -/
def decodeFloat32 (v : BitVec 32) : BitVec 32 :=
  let flipped := (v.signExtend 64 ^^^ 1#64 <<< 31).setWidth 32
  (v.signExtend 64 ^^^ ((flipped.sshiftRight 31).signExtend 64 ||| 1#64 <<< 31)).setWidth 32

/-! ## Keys -/

/-- The types of `GRN_OBJ_KEY_MASK`. -/
inductive KeyType where
  | uint
  | int
  | float
  | geoPoint
  deriving DecidableEq, Repr

/-- `KEY_ENC`. `geoDomain` says that the domain of the keys is one of the two types of points. What
is in `keybuf` stays where nothing is written. -/
def keyEnc (bigEndian : Bool) (type : KeyType) (geoDomain : Bool) (keybuf key : List UInt8) :
    List UInt8 :=
  match type with
  | .uint => if !geoDomain then grnHton bigEndian key else grnGton bigEndian key
  | .geoPoint => grnGton bigEndian key
  | .int => flipSign (grnHton bigEndian key)
  | .float =>
    if key.length = 8 then
      let v := encodeFloat64 (BitVec.ofNat 64 (hostNat bigEndian key))
      grnHton bigEndian (hostBytes bigEndian 8 v.toNat)
    else if key.length = 4 then
      let v := encodeFloat32 (BitVec.ofNat 32 (hostNat bigEndian key))
      grnHton bigEndian (hostBytes bigEndian 4 v.toNat)
    else keybuf

/-- `KEY_DEC`. -/
def keyDec (bigEndian : Bool) (type : KeyType) (geoDomain : Bool) (keybuf key : List UInt8) :
    List UInt8 :=
  match type with
  | .uint => if !geoDomain then grnHton bigEndian key else grnNtog bigEndian key
  | .geoPoint => grnNtog bigEndian key
  | .int => grnNtohi bigEndian key
  | .float =>
    if key.length = 8 then
      let v := BitVec.ofNat 64 (hostNat bigEndian (grnHton bigEndian key))
      hostBytes bigEndian 8 (decodeFloat64 v).toNat
    else if key.length = 4 then
      let v := BitVec.ofNat 32 (hostNat bigEndian (grnHton bigEndian key))
      hostBytes bigEndian 4 (decodeFloat32 v).toNat
    else keybuf

/-- The sizes of the keys of a type. -/
def KeyType.HasSize (type : KeyType) (geoDomain : Bool) (n : ℕ) : Prop :=
  match type with
  | .uint => if geoDomain then n = 8 else n = 1 ∨ n = 2 ∨ n = 4 ∨ n = 8
  | .geoPoint => n = 8
  | .int => n = 1 ∨ n = 2 ∨ n = 4 ∨ n = 8
  | .float => n = 4 ∨ n = 8

/-! ## Lemmas about memory -/

section Host

variable (bigEndian : Bool) {n : ℕ}

/-- In network order, the highest byte of a number comes first. -/
theorem grnHton_hostBytes (n v : ℕ) :
    grnHton bigEndian (hostBytes bigEndian n v) = beBytes n v := by
  cases bigEndian <;> simp [grnHton, hostBytes, beBytes]

theorem grnHton_beBytes (n v : ℕ) : grnHton bigEndian (beBytes n v) = hostBytes bigEndian n v := by
  cases bigEndian <;> simp [grnHton, hostBytes, beBytes]

theorem hostNat_hostBytes (n v : ℕ) :
    hostNat bigEndian (hostBytes bigEndian n v) = v % 256 ^ n := by
  cases bigEndian <;> simp [hostNat, hostBytes, beBytes, leNat_leBytes]

/-- The bytes of a key are those of its number. -/
theorem hostBytes_hostNat {key : List UInt8} (h : key.length = n) :
    hostBytes bigEndian n (hostNat bigEndian key) = key := by
  subst h
  cases bigEndian
  · exact leBytes_leNat key
  · have hrev := leBytes_leNat key.reverse
    rw [List.length_reverse] at hrev
    simp [hostBytes, hostNat, beBytes, hrev]

theorem hostNat_lt {key : List UInt8} (h : key.length = n) : hostNat bigEndian key < 256 ^ n := by
  have hlt := leNat_lt (if bigEndian then key.reverse else key)
  have hlen : (if bigEndian then key.reverse else key).length = n := by
    cases bigEndian <;> simp [h]
  rwa [hlen] at hlt

/-- A key in network order. -/
theorem grnHton_eq_beBytes {key : List UInt8} (h : key.length = n) :
    grnHton bigEndian key = beBytes n (hostNat bigEndian key) := by
  conv_lhs => rw [← hostBytes_hostNat bigEndian h]
  exact grnHton_hostBytes bigEndian n _

@[simp] theorem grnHton_grnHton (key : List UInt8) :
    grnHton bigEndian (grnHton bigEndian key) = key := by
  cases bigEndian <;> simp [grnHton]

@[simp] theorem length_grnHton (key : List UInt8) : (grnHton bigEndian key).length = key.length := by
  cases bigEndian <;> simp [grnHton]

theorem hostNat_grnHton_beBytes (n v : ℕ) :
    hostNat bigEndian (grnHton bigEndian (beBytes n v)) = v % 256 ^ n := by
  rw [grnHton_beBytes, hostNat_hostBytes]

/-- `grn_ntohi` takes back what is flipped in network order. -/
theorem grnNtohi_flipSign (key : List UInt8) :
    grnNtohi bigEndian (flipSign key) = grnHton bigEndian key := by
  cases key with
  | nil => cases bigEndian <;> rfl
  | cons b bs =>
    have hback : (0x80 : UInt8) ^^^ (b ^^^ 0x80) = b := by
      rw [UInt8.xor_comm, UInt8.xor_assoc, UInt8.xor_self, UInt8.xor_zero]
    cases bigEndian <;> simp [flipSign, grnNtohi, grnHton, hback]

theorem hostBytes_grnHtonUint64 (x : BitVec 64) :
    hostBytes bigEndian 8 (grnHtonUint64 bigEndian x).toNat = beBytes 8 x.toNat := by
  cases bigEndian
  · have hlt := leNat_lt (beBytes 8 x.toNat)
    rw [length_beBytes] at hlt
    have hback := leBytes_leNat (beBytes 8 x.toNat)
    rw [length_beBytes] at hback
    simp only [hostBytes, grnHtonUint64, grnBswapUint64, BitVec.toNat_ofNat, Bool.false_eq_true,
      if_false]
    rw [Nat.mod_eq_of_lt (by norm_num at hlt ⊢; exact hlt), hback]
  · rfl

theorem grnHtonUint64_hostNat (x : BitVec 64) :
    grnHtonUint64 bigEndian (BitVec.ofNat 64 (hostNat bigEndian (beBytes 8 x.toNat))) = x := by
  have hx : x.toNat < 256 ^ 8 := x.isLt
  cases bigEndian
  · have hlt := leNat_lt (beBytes 8 x.toNat)
    rw [length_beBytes] at hlt
    have hback := leBytes_leNat (beBytes 8 x.toNat)
    rw [length_beBytes] at hback
    have hnat : (BitVec.ofNat 64 (leNat (beBytes 8 x.toNat))).toNat = leNat (beBytes 8 x.toNat) := by
      rw [BitVec.toNat_ofNat]
      exact Nat.mod_eq_of_lt hlt
    simp only [hostNat, grnHtonUint64, grnBswapUint64, Bool.false_eq_true, if_false, hnat]
    rw [beBytes, hback, beBytes, List.reverse_reverse, leNat_leBytes, Nat.mod_eq_of_lt hx,
      BitVec.ofNat_toNat, BitVec.setWidth_eq]
  · simp only [hostNat, grnHtonUint64, if_true, beBytes, List.reverse_reverse, leNat_leBytes,
      Nat.mod_eq_of_lt hx, BitVec.ofNat_toNat, BitVec.setWidth_eq]

end Host

/-! ## The mask of a float -/

section Sign

variable {n : ℕ}

/-- The shifted sign of a negative float. -/
theorem sshiftRight_of_msb {v : BitVec (n + 1)} (h : v.msb = true) :
    v.sshiftRight n = BitVec.allOnes (n + 1) := by
  apply BitVec.eq_of_getLsbD_eq
  intro i hi
  rw [BitVec.getLsbD_sshiftRight, BitVec.getLsbD_allOnes, h]
  have hlast : v.getLsbD n = true := by rwa [BitVec.msb_eq_getLsbD_last] at h
  rcases Nat.eq_zero_or_pos i with rfl | hpos
  · simp [hlast]
  · simp [hi, show ¬n + i < n + 1 by omega, Nat.le_of_lt_succ hi]

theorem sshiftRight_of_not_msb {v : BitVec (n + 1)} (h : v.msb = false) :
    v.sshiftRight n = 0#(n + 1) := by
  apply BitVec.eq_of_getLsbD_eq
  intro i hi
  rw [BitVec.getLsbD_sshiftRight, h]
  have hlast : v.getLsbD n = false := by rwa [BitVec.msb_eq_getLsbD_last] at h
  rcases Nat.eq_zero_or_pos i with rfl | hpos
  · simp only [Nat.add_zero n, hlast]
    simp
  · simp [show ¬n + i < n + 1 by omega]

/-- The highest bit of a word. -/
def signBit (n : ℕ) : BitVec (n + 1) := BitVec.twoPow (n + 1) n

theorem toNat_xor_signBit {v : BitVec (n + 1)} (h : v.msb = false) :
    (v ^^^ signBit n).toNat = 2 ^ n + v.toNat := by
  have hlt : v.toNat < 2 ^ n := by
    rw [BitVec.msb_eq_decide, decide_eq_false_iff_not, Nat.add_sub_cancel] at h
    exact Nat.lt_of_not_le h
  have hor := Nat.two_pow_add_eq_or_of_lt hlt 1
  rw [Nat.mul_one] at hor
  rw [BitVec.toNat_xor, signBit, BitVec.toNat_twoPow_of_lt (Nat.lt_succ_self n), hor]
  apply Nat.eq_of_testBit_eq
  intro i
  rw [Nat.testBit_xor, Nat.testBit_or, Nat.testBit_two_pow]
  rcases eq_or_ne n i with rfl | hi
  · simp [Nat.testBit_lt_two_pow hlt]
  · simp [hi]

/-- What a mask made of the sign does to a float. -/
def signMask (v : BitVec (n + 1)) : BitVec (n + 1) := v.sshiftRight n ||| signBit n

theorem xor_signMask_of_msb {v : BitVec (n + 1)} (h : v.msb = true) : v ^^^ signMask v = ~~~v := by
  rw [signMask, sshiftRight_of_msb h, BitVec.allOnes_or, BitVec.xor_allOnes]

theorem xor_signMask_of_not_msb {v : BitVec (n + 1)} (h : v.msb = false) :
    v ^^^ signMask v = v ^^^ signBit n := by
  rw [signMask, sshiftRight_of_not_msb h, BitVec.zero_or]

theorem msb_xor_signBit (v : BitVec (n + 1)) : (v ^^^ signBit n).msb = !v.msb := by
  have hset : (signBit n).msb = true := by
    rw [signBit, BitVec.msb_twoPow]
    simp
  rw [BitVec.msb_xor, hset, Bool.xor_true]

/-- **The mask is found again** from what it made of a float. -/
theorem xor_signMask_xor (v : BitVec (n + 1)) :
    (v ^^^ signMask v) ^^^ signMask ((v ^^^ signMask v) ^^^ signBit n) = v := by
  cases h : v.msb
  · have hback : (v ^^^ signBit n) ^^^ signBit n = v := by
      rw [BitVec.xor_assoc, BitVec.xor_self, BitVec.xor_zero]
    have hmask : signMask v = signBit n := by rw [signMask, sshiftRight_of_not_msb h, BitVec.zero_or]
    rw [xor_signMask_of_not_msb h, hback, hmask, hback]
  · rw [xor_signMask_of_msb h]
    have hmsb : (~~~v ^^^ signBit n).msb = true := by rw [msb_xor_signBit]; simp [h]
    have hmask : signMask (~~~v ^^^ signBit n) = BitVec.allOnes (n + 1) := by
      rw [signMask, sshiftRight_of_msb hmsb, BitVec.allOnes_or]
    rw [hmask, BitVec.xor_allOnes, BitVec.not_not]

end Sign

theorem encodeFloat64_eq (v : BitVec 64) : encodeFloat64 v = v ^^^ @signMask 63 v := rfl

theorem decodeFloat64_eq (v : BitVec 64) :
    decodeFloat64 v = v ^^^ @signMask 63 (v ^^^ signBit 63) := rfl

theorem setWidth_signExtend_self (v : BitVec 32) : (v.signExtend 64).setWidth 32 = v := by
  apply BitVec.eq_of_getLsbD_eq
  intro i hi
  rw [BitVec.getLsbD_setWidth, BitVec.getLsbD_signExtend]
  simp [hi, show i < 64 by omega]

theorem encodeFloat32_eq (v : BitVec 32) : encodeFloat32 v = v ^^^ @signMask 31 v := by
  rw [encodeFloat32, BitVec.setWidth_xor, BitVec.setWidth_or, setWidth_signExtend_self,
    setWidth_signExtend_self]
  rfl

theorem decodeFloat32_eq (v : BitVec 32) :
    decodeFloat32 v = v ^^^ @signMask 31 (v ^^^ signBit 31) := by
  simp only [decodeFloat32]
  rw [BitVec.setWidth_xor, BitVec.setWidth_or, setWidth_signExtend_self, BitVec.setWidth_xor,
    setWidth_signExtend_self, setWidth_signExtend_self]
  rfl

theorem decodeFloat64_encodeFloat64 (v : BitVec 64) : decodeFloat64 (encodeFloat64 v) = v := by
  rw [encodeFloat64_eq, decodeFloat64_eq]
  exact @xor_signMask_xor 63 v

theorem decodeFloat32_encodeFloat32 (v : BitVec 32) : decodeFloat32 (encodeFloat32 v) = v := by
  rw [encodeFloat32_eq, decodeFloat32_eq]
  exact @xor_signMask_xor 31 v

/-- **A float is encoded as the bits that its order is in.** -/
theorem toNat_xor_signMask (f : FloatFormat) (v : BitVec (f.signBit + 1)) :
    (v ^^^ signMask v).toNat = f.orderBits v.toNat := by
  have hlt := v.isLt
  have hpow : 2 ^ (f.signBit + 1) = 2 * 2 ^ f.signBit := by rw [Nat.pow_succ, Nat.mul_comm]
  have hmsb : v.msb = decide (f.IsNegative v.toNat) := by
    rw [BitVec.msb_eq_decide, Nat.add_sub_cancel]
    rfl
  cases h : v.msb
  · have hneg : ¬f.IsNegative v.toNat := by simpa [h] using hmsb.symm
    have hrest : f.rest v.toNat = v.toNat := Nat.mod_eq_of_lt (Nat.lt_of_not_le hneg)
    rw [xor_signMask_of_not_msb h, toNat_xor_signBit h, FloatFormat.orderBits, if_neg hneg, hrest]
  · have hneg : f.IsNegative v.toNat := by simpa [h] using hmsb.symm
    have hle : 2 ^ f.signBit ≤ v.toNat := hneg
    have hrest : f.rest v.toNat = v.toNat - 2 ^ f.signBit := by
      rw [FloatFormat.rest, Nat.mod_eq_sub_mod hle, Nat.mod_eq_of_lt (by omega)]
    rw [xor_signMask_of_msb h, BitVec.toNat_not, FloatFormat.orderBits, if_pos hneg, hrest]
    omega

/-! ## Bits of points -/

section Points

variable {x : BitVec 64} {y y' : ℕ → Bool} {la lo : BitVec 64}

/-- A spread coordinate has its bits at the even places. -/
theorem spaced_spreadCoordinate (x : BitVec 32) :
    Spaced 1 (spreadCoordinate (x.setWidth 64)) x.getLsbD := by
  have hstart : Spaced 32 (x.setWidth 64) x.getLsbD := by
    intro i hi
    rw [BitVec.getLsbD_setWidth, Nat.mod_eq_of_lt hi, Nat.div_eq_of_lt hi]
    rcases Nat.lt_or_ge i 32 with hlt | hge
    · simp [hi, hlt]
    · simp [hge, Nat.not_lt.mpr hge]
  have h16 := @Spaced.spread 64 16 _ _ _ hstart (by decide)
    (show IsMask 16 0x0000FFFF0000FFFF by decide)
  have h8 := @Spaced.spread 64 8 _ _ _ h16 (by decide)
    (show IsMask 8 0x00FF00FF00FF00FF by decide)
  have h4 := @Spaced.spread 64 4 _ _ _ h8 (by decide)
    (show IsMask 4 0x0F0F0F0F0F0F0F0F by decide)
  have h2 := @Spaced.spread 64 2 _ _ _ h4 (by decide)
    (show IsMask 2 0x3333333333333333 by decide)
  exact @Spaced.spread 64 1 _ _ _ h2 (by decide) (show IsMask 1 0x5555555555555555 by decide)

/-- **What is spread is gathered again.** -/
theorem gatherCoordinate_eq {z : BitVec 32} (h : Spaced 1 x z.getLsbD) :
    (gatherCoordinate x).setWidth 32 = z := by
  have h2 := @Spaced.gather 64 1 _ _ _ h (by decide) (by decide)
    (show IsMask 2 0x3333333333333333 by decide)
  have h4 := @Spaced.gather 64 2 _ _ _ h2 (by decide) (by decide)
    (show IsMask 4 0x0F0F0F0F0F0F0F0F by decide)
  have h8 := @Spaced.gather 64 4 _ _ _ h4 (by decide) (by decide)
    (show IsMask 8 0x00FF00FF00FF00FF by decide)
  have h16 := @Spaced.gather 64 8 _ _ _ h8 (by decide) (by decide)
    (show IsMask 16 0x0000FFFF0000FFFF by decide)
  have h32 := @Spaced.gather 64 16 _ _ _ h16 (by decide) (by decide)
    (show IsMask 32 0x00000000FFFFFFFF by decide)
  apply BitVec.eq_of_getLsbD_eq
  intro i hi
  have hbit := h32 i (by omega)
  rw [Nat.mod_eq_of_lt (show i < 2 * (2 * 16) by omega),
    Nat.div_eq_of_lt (show i < 2 * (2 * 16) by omega)] at hbit
  rw [BitVec.getLsbD_setWidth]
  simp only [gatherCoordinate]
  rw [hbit]
  simp [hi]

/-- The two coordinates by turns. -/
theorem getLsbD_turns (hla : Spaced 1 la y) (hlo : Spaced 1 lo y') {j : ℕ} (hj : j < 64) :
    (la <<< 1 ||| lo).getLsbD j = if j % 2 = 1 then y (j / 2) else y' (j / 2) := by
  rw [BitVec.getLsbD_or, BitVec.getLsbD_shiftLeft, hlo.one_bit hj]
  rcases Nat.mod_two_eq_zero_or_one j with heven | hodd
  · rcases Nat.eq_zero_or_pos j with rfl | hpos
    · simp
    · rw [hla.one_bit (by omega)]
      simp [heven, show (j - 1) % 2 = 1 by omega]
  · rw [hla.one_bit (by omega)]
    simp [hodd, hj, show ¬j < 1 by omega, show (j - 1) % 2 = 0 by omega,
      show (j - 1) / 2 = j / 2 by omega]

theorem spaced_latitude (hla : Spaced 1 la y) (hlo : Spaced 1 lo y') :
    Spaced 1 ((la <<< 1 ||| lo) >>> 1 &&& 0x5555555555555555) y := by
  intro i hi
  have hmask : IsMask 1 (0x5555555555555555 : BitVec 64) := by decide
  rw [BitVec.getLsbD_and, hmask i hi, BitVec.getLsbD_ushiftRight, Bool.and_comm]
  rcases Nat.mod_two_eq_zero_or_one i with heven | hodd
  · rw [getLsbD_turns hla hlo (by omega), if_pos (by omega)]
    simp [heven, show (1 + i) / 2 = i / 2 by omega]
  · simp [hodd]

theorem spaced_longitude (hla : Spaced 1 la y) (hlo : Spaced 1 lo y') :
    Spaced 1 ((la <<< 1 ||| lo) &&& 0x5555555555555555) y' := by
  intro i hi
  have hmask : IsMask 1 (0x5555555555555555 : BitVec 64) := by decide
  rw [BitVec.getLsbD_and, hmask i hi, Bool.and_comm, getLsbD_turns hla hlo hi]
  rcases Nat.mod_two_eq_zero_or_one i with heven | hodd
  · simp [heven]
  · simp [hodd]

end Points

section Points

variable (bigEndian : Bool)

/-- The word of a point that `grn_gton` writes. -/
def pointWord (key : List UInt8) : BitVec 64 :=
  spreadCoordinate ((latitude bigEndian key).setWidth 64) <<< 1 |||
    spreadCoordinate ((longitude bigEndian key).setWidth 64)

theorem grnGton_eq (key : List UInt8) :
    grnGton bigEndian key = beBytes 8 (pointWord bigEndian key).toNat :=
  hostBytes_grnHtonUint64 bigEndian _

/-- The bytes of a coordinate. -/
theorem hostBytes_coordinate {bs : List UInt8} (h : bs.length = 4) :
    hostBytes bigEndian 4 (BitVec.ofNat 32 (hostNat bigEndian bs)).toNat = bs := by
  have hlt : hostNat bigEndian bs < 256 ^ 4 := hostNat_lt bigEndian h
  rw [BitVec.toNat_ofNat, Nat.mod_eq_of_lt (by norm_num at hlt ⊢; exact hlt),
    hostBytes_hostNat bigEndian h]

/-- **A point comes back.** -/
theorem grnNtog_grnGton {key : List UInt8} (h : key.length = 8) :
    grnNtog bigEndian (grnGton bigEndian key) = key := by
  have hla := spaced_spreadCoordinate (latitude bigEndian key)
  have hlo := spaced_spreadCoordinate (longitude bigEndian key)
  have htake : (beBytes 8 (pointWord bigEndian key).toNat).take 8 =
      beBytes 8 (pointWord bigEndian key).toNat := List.take_of_length_le (by simp)
  simp only [grnNtog, grnGton_eq, htake, grnHtonUint64_hostNat]
  rw [pointWord, gatherCoordinate_eq (spaced_latitude hla hlo),
    gatherCoordinate_eq (spaced_longitude hla hlo), latitude, longitude,
    hostBytes_coordinate bigEndian (by simp [h]), hostBytes_coordinate bigEndian (by simp [h]),
    List.take_of_length_le (show (key.drop 4).length ≤ 4 by simp [h]), List.take_append_drop]

/-- The first bits of a string, the highest bit of each byte first. -/
def firstBits (n : ℕ) (bs : List UInt8) : List Bool :=
  (List.range n).map fun j => (bs.getD (j / 8) 0).toNat.testBit (7 - j % 8)

/-- The highest bits of a coordinate. -/
def topBits (k : ℕ) (x : BitVec 32) : List Bool :=
  (List.range k).map fun i => x.getLsbD (31 - i)

/-- A bit of the bytes of a word. -/
theorem testBit_beBytes (x : BitVec 64) {j : ℕ} (hj : j < 64) :
    ((beBytes 8 x.toNat).getD (j / 8) 0).toNat.testBit (7 - j % 8) = x.getLsbD (63 - j) := by
  have hplace : 7 - j % 8 + 8 * (8 - 1 - j / 8) = 63 - j := by omega
  have hlow : 7 - j % 8 < 8 := by omega
  rw [List.getD_eq_getElem?_getD, getElem?_beBytes _ (by omega), Option.getD_some,
    UInt8.toNat_ofNat', Nat.testBit_mod_two_pow, show (256 : ℕ) = 2 ^ 8 by norm_num, ← Nat.pow_mul,
    Nat.testBit_div_two_pow, hplace]
  simp [hlow, BitVec.getLsbD]

/-- **The bits of an encoded point** are those of its latitude and its longitude by turns. -/
theorem testBit_grnGton (key : List UInt8) {j : ℕ} (hj : j < 64) :
    ((grnGton bigEndian key).getD (j / 8) 0).toNat.testBit (7 - j % 8) =
      if j % 2 = 0 then (latitude bigEndian key).getLsbD (31 - j / 2)
      else (longitude bigEndian key).getLsbD (31 - j / 2) := by
  rw [grnGton_eq, testBit_beBytes _ hj, pointWord,
    getLsbD_turns (spaced_spreadCoordinate _) (spaced_spreadCoordinate _) (by omega)]
  have hhalf : (63 - j) / 2 = 31 - j / 2 := by omega
  rcases Nat.mod_two_eq_zero_or_one j with heven | hodd
  · rw [if_pos (by omega), if_pos heven, hhalf]
  · rw [if_neg (by omega), if_neg (by omega), hhalf]

/-- **Points share their first bits as far as both coordinates do.** -/
theorem firstBits_grnGton (a b : List UInt8) {k : ℕ} (hk : k ≤ 32) :
    firstBits (2 * k) (grnGton bigEndian a) = firstBits (2 * k) (grnGton bigEndian b) ↔
      topBits k (latitude bigEndian a) = topBits k (latitude bigEndian b) ∧
        topBits k (longitude bigEndian a) = topBits k (longitude bigEndian b) := by
  rw [firstBits, firstBits, topBits, topBits, topBits, topBits, List.map_inj_left,
    List.map_inj_left, List.map_inj_left]
  simp only [List.mem_range]
  constructor
  · intro h
    refine ⟨fun i hi => ?_, fun i hi => ?_⟩
    · have hbit := h (2 * i) (by omega)
      rwa [testBit_grnGton _ _ (by omega), testBit_grnGton _ _ (by omega), if_pos (by omega),
        if_pos (by omega), show 2 * i / 2 = i by omega] at hbit
    · have hbit := h (2 * i + 1) (by omega)
      rwa [testBit_grnGton _ _ (by omega), testBit_grnGton _ _ (by omega), if_neg (by omega),
        if_neg (by omega), show (2 * i + 1) / 2 = i by omega] at hbit
  · rintro ⟨hla, hlo⟩ j hj
    rw [testBit_grnGton _ _ (by omega), testBit_grnGton _ _ (by omega)]
    rw [hla _ (by omega), hlo _ (by omega)]

end Points

/-! ## Round trips and orders -/

/-- The format of floats of `n` bytes. -/
def floatFormat (n : ℕ) : FloatFormat := if n = 8 then ⟨11, 52⟩ else ⟨8, 23⟩

section Keys

variable (bigEndian : Bool)

/-- The bytes of an encoded double. -/
theorem keyEnc_float64 (keybuf : List UInt8) (geoDomain : Bool) {key : List UInt8}
    (h : key.length = 8) :
    keyEnc bigEndian .float geoDomain keybuf key =
      beBytes 8 (encodeFloat64 (BitVec.ofNat 64 (hostNat bigEndian key))).toNat := by
  simp only [keyEnc, h, if_true, grnHton_hostBytes]

/-- The bytes of an encoded float. -/
theorem keyEnc_float32 (keybuf : List UInt8) (geoDomain : Bool) {key : List UInt8}
    (h : key.length = 4) :
    keyEnc bigEndian .float geoDomain keybuf key =
      beBytes 4 (encodeFloat32 (BitVec.ofNat 32 (hostNat bigEndian key))).toNat := by
  simp only [keyEnc, h, show ¬4 = 8 by decide, if_false, if_true, grnHton_hostBytes]

/-- **`KEY_DEC` undoes `KEY_ENC`.** -/
theorem keyDec_keyEnc (type : KeyType) (geoDomain : Bool) (keybuf keybuf' : List UInt8)
    {key : List UInt8} (h : type.HasSize geoDomain key.length) :
    keyDec bigEndian type geoDomain keybuf' (keyEnc bigEndian type geoDomain keybuf key) = key := by
  cases type with
  | uint =>
    cases geoDomain
    · exact grnHton_grnHton bigEndian key
    · exact grnNtog_grnGton bigEndian h
  | int => exact (grnNtohi_flipSign bigEndian _).trans (grnHton_grnHton bigEndian key)
  | geoPoint => exact grnNtog_grnGton bigEndian h
  | float =>
    rcases h with h | h
    · have hlt : hostNat bigEndian key < 2 ^ 32 := by
        have := hostNat_lt bigEndian h
        norm_num at this ⊢
        exact this
      have hword := (encodeFloat32 (BitVec.ofNat 32 (hostNat bigEndian key))).isLt
      rw [keyEnc_float32 bigEndian keybuf geoDomain h]
      simp only [keyDec, length_beBytes, if_true, show ¬4 = 8 by decide, if_false,
        hostNat_grnHton_beBytes]
      rw [Nat.mod_eq_of_lt (by norm_num at hword ⊢; exact hword), BitVec.ofNat_toNat,
        BitVec.setWidth_eq, decodeFloat32_encodeFloat32, BitVec.toNat_ofNat, Nat.mod_eq_of_lt hlt,
        hostBytes_hostNat bigEndian h]
    · have hlt : hostNat bigEndian key < 2 ^ 64 := by
        have := hostNat_lt bigEndian h
        norm_num at this ⊢
        exact this
      have hword := (encodeFloat64 (BitVec.ofNat 64 (hostNat bigEndian key))).isLt
      rw [keyEnc_float64 bigEndian keybuf geoDomain h]
      simp only [keyDec, length_beBytes, if_true, hostNat_grnHton_beBytes]
      rw [Nat.mod_eq_of_lt (by norm_num at hword ⊢; exact hword), BitVec.ofNat_toNat,
        BitVec.setWidth_eq, decodeFloat64_encodeFloat64, BitVec.toNat_ofNat, Nat.mod_eq_of_lt hlt,
        hostBytes_hostNat bigEndian h]

variable (geoDomain : Bool) (keybuf keybuf' : List UInt8) {a b : List UInt8}

/-- **Unsigned integers are compared as numbers.** -/
theorem memcmp_keyEnc_uint (hab : a.length = b.length) :
    memcmp (keyEnc bigEndian .uint false keybuf a) (keyEnc bigEndian .uint false keybuf' b) =
      compare (hostNat bigEndian a) (hostNat bigEndian b) := by
  have ha := hostNat_lt bigEndian hab
  have hb := hostNat_lt bigEndian (rfl : b.length = b.length)
  show memcmp (grnHton bigEndian a) (grnHton bigEndian b) = _
  rw [grnHton_eq_beBytes bigEndian hab, grnHton_eq_beBytes bigEndian rfl, memcmp_beBytes,
    Nat.mod_eq_of_lt ha, Nat.mod_eq_of_lt hb]

/-- **Integers are compared as numbers with a sign.** -/
theorem memcmp_keyEnc_int (hab : a.length = b.length) (hne : b ≠ []) :
    memcmp (keyEnc bigEndian .int geoDomain keybuf a) (keyEnc bigEndian .int geoDomain keybuf' b) =
      compare (signedNumber a.length (hostNat bigEndian a))
        (signedNumber b.length (hostNat bigEndian b)) := by
  obtain ⟨n, hn⟩ := Nat.exists_eq_succ_of_ne_zero (List.length_pos_iff.mpr hne).ne'
  have han : a.length = n + 1 := hab.trans hn
  have hbn : b.length = n + 1 := hn
  show memcmp (flipSign (grnHton bigEndian a)) (flipSign (grnHton bigEndian b)) = _
  rw [grnHton_eq_beBytes bigEndian han, grnHton_eq_beBytes bigEndian hbn, memcmp_flipSign, han, hbn]

/-- A float is encoded as the bits that its order is in. -/
theorem keyEnc_float {key : List UInt8} (h : KeyType.float.HasSize geoDomain key.length) :
    keyEnc bigEndian .float geoDomain keybuf key =
      beBytes key.length ((floatFormat key.length).orderBits (hostNat bigEndian key)) := by
  rcases h with h | h
  · have hlt : hostNat bigEndian key < 2 ^ 32 := by
      have := hostNat_lt bigEndian h
      norm_num at this ⊢
      exact this
    have henc := toNat_xor_signMask ⟨8, 23⟩ (BitVec.ofNat 32 (hostNat bigEndian key))
    have hnat : (BitVec.ofNat 32 (hostNat bigEndian key)).toNat = hostNat bigEndian key := by
      rw [BitVec.toNat_ofNat, Nat.mod_eq_of_lt hlt]
    rw [keyEnc_float32 bigEndian keybuf geoDomain h, encodeFloat32_eq, h, floatFormat,
      if_neg (by decide), ← hnat]
    exact congrArg (beBytes 4) (hnat.symm ▸ henc)
  · have hlt : hostNat bigEndian key < 2 ^ 64 := by
      have := hostNat_lt bigEndian h
      norm_num at this ⊢
      exact this
    have henc := toNat_xor_signMask ⟨11, 52⟩ (BitVec.ofNat 64 (hostNat bigEndian key))
    have hnat : (BitVec.ofNat 64 (hostNat bigEndian key)).toNat = hostNat bigEndian key := by
      rw [BitVec.toNat_ofNat, Nat.mod_eq_of_lt hlt]
    rw [keyEnc_float64 bigEndian keybuf geoDomain h, encodeFloat64_eq, h, floatFormat,
      if_pos rfl, ← hnat]
    exact congrArg (beBytes 8) (hnat.symm ▸ henc)

/-- **Floats are compared as numbers**, and the negative zero comes right before the other one. -/
theorem memcmp_keyEnc_float (hab : a.length = b.length)
    (hsize : KeyType.float.HasSize geoDomain b.length)
    (ha : (floatFormat b.length).IsNumber (hostNat bigEndian a))
    (hb : (floatFormat b.length).IsNumber (hostNat bigEndian b)) :
    memcmp (keyEnc bigEndian .float geoDomain keybuf a)
        (keyEnc bigEndian .float geoDomain keybuf' b) = .lt ↔
      (floatFormat b.length).value (hostNat bigEndian a) <
          (floatFormat b.length).value (hostNat bigEndian b) ∨
        (floatFormat b.length).rest (hostNat bigEndian a) = 0 ∧
          (floatFormat b.length).rest (hostNat bigEndian b) = 0 ∧
          (floatFormat b.length).IsNegative (hostNat bigEndian a) ∧
          ¬(floatFormat b.length).IsNegative (hostNat bigEndian b) := by
  have hexp : 0 < (floatFormat b.length).expBits := by
    rw [floatFormat]
    split <;> decide
  have hroom : ∀ bits, (floatFormat b.length).orderBits bits < 256 ^ b.length := fun bits => by
    have hlt := (floatFormat b.length).orderBits_lt bits
    rcases hsize with h | h
    · rw [h] at hlt ⊢
      exact hlt
    · rw [h] at hlt ⊢
      exact hlt
  rw [keyEnc_float bigEndian geoDomain keybuf (hab ▸ hsize),
    keyEnc_float bigEndian geoDomain keybuf' hsize, hab, memcmp_beBytes, Nat.mod_eq_of_lt (hroom _),
    Nat.mod_eq_of_lt (hroom _), Nat.compare_eq_lt]
  exact FloatFormat.orderBits_lt_iff hexp ha hb

end Keys

/-- **Keys are encoded in their order.** `KEY_DEC` undoes `KEY_ENC` for every type and size. Encoded
integers are compared by `memcmp` as the numbers are. So are encoded floats that are numbers, but
that the negative zero comes right before the other one. Two points share their first `2 * k` bits
exactly when the highest `k` bits of both coordinates agree. -/
theorem keyEnc_keeps_order (bigEndian : Bool) (keybuf keybuf' : List UInt8) :
    (∀ type geoDomain (key : List UInt8), type.HasSize geoDomain key.length →
      keyDec bigEndian type geoDomain keybuf'
        (keyEnc bigEndian type geoDomain keybuf key) = key) ∧
    (∀ a b : List UInt8, a.length = b.length → KeyType.uint.HasSize false b.length →
      memcmp (keyEnc bigEndian .uint false keybuf a) (keyEnc bigEndian .uint false keybuf' b) =
        compare (hostNat bigEndian a) (hostNat bigEndian b)) ∧
    (∀ a b : List UInt8, a.length = b.length → KeyType.int.HasSize false b.length →
      memcmp (keyEnc bigEndian .int false keybuf a) (keyEnc bigEndian .int false keybuf' b) =
        compare (signedNumber a.length (hostNat bigEndian a))
          (signedNumber b.length (hostNat bigEndian b))) ∧
    (∀ a b : List UInt8, a.length = b.length → KeyType.float.HasSize false b.length →
      (floatFormat b.length).IsNumber (hostNat bigEndian a) →
      (floatFormat b.length).IsNumber (hostNat bigEndian b) →
      (memcmp (keyEnc bigEndian .float false keybuf a)
          (keyEnc bigEndian .float false keybuf' b) = .lt ↔
        (floatFormat b.length).value (hostNat bigEndian a) <
            (floatFormat b.length).value (hostNat bigEndian b) ∨
          (floatFormat b.length).rest (hostNat bigEndian a) = 0 ∧
            (floatFormat b.length).rest (hostNat bigEndian b) = 0 ∧
            (floatFormat b.length).IsNegative (hostNat bigEndian a) ∧
            ¬(floatFormat b.length).IsNegative (hostNat bigEndian b))) ∧
    ∀ a b : List UInt8, a.length = 8 → b.length = 8 → ∀ k ≤ 32,
      (firstBits (2 * k) (keyEnc bigEndian .geoPoint true keybuf a) =
          firstBits (2 * k) (keyEnc bigEndian .geoPoint true keybuf' b) ↔
        topBits k (latitude bigEndian a) = topBits k (latitude bigEndian b) ∧
          topBits k (longitude bigEndian a) = topBits k (longitude bigEndian b)) := by
  refine ⟨fun type geoDomain key h => keyDec_keyEnc bigEndian type geoDomain keybuf keybuf' h,
    fun a b hab _ => memcmp_keyEnc_uint bigEndian keybuf keybuf' hab, fun a b hab hsize => ?_,
    fun a b hab hsize ha hb => memcmp_keyEnc_float bigEndian false keybuf keybuf' hab hsize ha hb,
    fun a b _ _ k hk => firstBits_grnGton bigEndian a b hk⟩
  have hne : b ≠ [] := by
    rintro rfl
    rcases hsize with h | h | h | h <;> cases h
  exact memcmp_keyEnc_int bigEndian false keybuf keybuf' hab hne

/-- Minus one comes before one. -/
theorem keyEnc_keeps_order_minus_one :
    memcmp (keyEnc false .int false [] [0xff]) (keyEnc false .int false [] [1]) =
      compare (signedNumber 1 255) (signedNumber 1 1) :=
  (keyEnc_keeps_order false [] []).2.2.1 [0xff] [1] rfl (.inl rfl)

/-- **The two zeros are the same number**, and the key of one comes before that of the other. -/
theorem keyEnc_zeros :
    memcmp (keyEnc false .float false [] [0, 0, 0, 0, 0, 0, 0, 0x80])
        (keyEnc false .float false [] [0, 0, 0, 0, 0, 0, 0, 0]) = .lt ∧
      (floatFormat 8).IsNumber (hostNat false [0, 0, 0, 0, 0, 0, 0, 0x80]) ∧
      (floatFormat 8).IsNumber (hostNat false [0, 0, 0, 0, 0, 0, 0, 0]) ∧
      (floatFormat 8).value (hostNat false [0, 0, 0, 0, 0, 0, 0, 0x80]) =
        (floatFormat 8).value (hostNat false [0, 0, 0, 0, 0, 0, 0, 0]) := by
  have hminus : hostNat false [0, 0, 0, 0, 0, 0, 0, 0x80] = 2 ^ 63 := by decide
  have hplus : hostNat false [0, 0, 0, 0, 0, 0, 0, 0] = 0 := by decide
  have hneg : (floatFormat 8).IsNegative (2 ^ 63) := Nat.le_refl _
  have hpos : ¬(floatFormat 8).IsNegative 0 := by decide
  have hrest : (floatFormat 8).rest (2 ^ 63) = 0 := by decide
  have hrest' : (floatFormat 8).rest 0 = 0 := by decide
  refine ⟨by decide, by rw [hminus]; decide, by rw [hplus]; decide, ?_⟩
  have hinfinity : 0 ≠ (floatFormat 8).infinity := by decide
  rw [hminus, hplus, FloatFormat.value, FloatFormat.value, if_pos hneg, if_neg hpos, hrest, hrest',
    FloatFormat.magnitude, if_neg hinfinity, FloatFormat.units_zero]
  simp

end Groonga.Pat
