import Groonga.Ii.ByteCode
import Mathlib

/-!
# Packing a unit: `pack_`, `pack` and `unpack`

A unit of up to 128 values is written with one bit width for all of them, most
significant bit first; values that do not fit are exceptions, written behind the
packed values in the byte code. The exceptions of a wide unit are chained through
their own packed slots, those of a narrow unit carry their position.

The generated functions `pack_1` .. `pack_32` and `unpack_1` .. `unpack_32` are
the loops of `pack_` and `unpack` over the last values of a unit, unrolled for
eight values; they are one definition here with the width as a parameter.

The mask of the loop over the last values is `(1 << w) - 1`. The shift is an `int`
shift, which has no defined result for `w = 32`; the processors that the x86 builds
run on take the count modulo 32, so the mask is 0 there (`shiftOne`).
-/

namespace Groonga.Ii

/-! ## The bit loops -/

/-- The loop of `pack_` over the last values: `b` is the shift of the next value
in the byte `v` under construction. -/
def packBits (w : ℕ) (p : List ℕ) (b : ℤ) (v : ℕ) : List ℕ :=
  match p with
  | [] => if b + w ≠ 8 then [v] else []
  | x :: p =>
    if 0 < b then
      packBits w p (b - w) ((v + x <<< b.toNat) % 0x100)
    else if b < 0 then
      (v + x >>> (-b).toNat) % 0x100 :: packBits w (x :: p) (b + 8) 0
    else
      (v + x) % 0x100 :: packBits w p (8 - w) 0
termination_by (p.length, (-b).toNat)

/-- The loop of `unpack` over the last values. The list `p` is the memory the
values go to; what is not reached keeps its old contents. `none` is a pointer
behind the end of the input. -/
def unpackBits (w m : ℕ) (p : List ℕ) (b : ℤ) (v : ℕ) (dp : List ℕ) :
    List ℕ × Option (List ℕ) :=
  match p, dp with
  | [], c :: dp => ([], some (if b + w ≠ 8 then dp else c :: dp))
  | p, [] => (p, if b + w ≠ 8 then none else some [])
  | x :: p, c :: dp =>
    if 0 < b then
      let r := unpackBits w m p (b - w) 0 (c :: dp)
      ((v + (c >>> b.toNat &&& m)) :: r.1, r.2)
    else if b < 0 then
      unpackBits w m (x :: p) (b + 8) (v + (c <<< (-b).toNat &&& m)) dp
    else
      let r := unpackBits w m p (8 - w) 0 dp
      ((v + (c &&& m)) :: r.1, r.2)
termination_by (p.length, (-b).toNat)

/-- `pack_w` for the width `w`: eight values. -/
def packEight (w : ℕ) (p : List ℕ) : List ℕ := packBits w p (8 - w) 0

/-- `unpack_w` for the width `w`: eight values. Its masks are literals, so the
width 32 is no exception here. -/
def unpackEight (w : ℕ) (p : List ℕ) (dp : List ℕ) : List ℕ × Option (List ℕ) :=
  unpackBits w (2 ^ w - 1) p (8 - w) 0 dp

/-- `pack_`. -/
def pack_ (w : ℕ) (p : List ℕ) : List ℕ :=
  if 8 ≤ p.length then
    packEight w (p.take 8) ++ pack_ w (p.drop 8)
  else
    packBits w p (8 - w) 0
termination_by p.length

/-! ## The unit -/

/-- `UNIT_SIZE`. -/
def unitSize : ℕ := 0x80

/-- `UNIT_MASK`. -/
def unitMask : ℕ := unitSize - 1

/-- The slot of `freq` that `grn_enc_p_for` counts a value in: one more than its
highest set bit (`GRN_BIT_SCAN_REV`), or 0. -/
def bitWidth (v : ℕ) : ℕ := if v = 0 then 0 else v.log2 + 1

/-- `freq` as `grn_enc_p_for` fills it for a unit. -/
def freq (unit : List ℕ) (w : ℕ) : ℕ := unit.countP fun v => bitWidth v = w

/-- The loop of `pack` that chooses the width: `n` slots of `freq` are left from
the slot `w` on, `s` is the sum so far. -/
def packWidth (freq : ℕ → ℕ) (th : ℕ) : ℕ → ℕ → ℕ → ℕ × ℕ
  | 0, w, s => (w, s)
  | n + 1, w, s =>
    if th ≤ s + freq w then (w, s + freq w) else packWidth freq th n (w + 1) (s + freq w)

/-- The exceptions of a wide unit from the position `k` on: the position of the
first one, the unit with each exception replaced by the position of the next one
(0 in the last one), and the bytes of their excess over `r`. The C loop runs
forward with a pointer `last` to the slot to fill. -/
def packChain (r : ℕ) : ℕ → List ℕ → ℕ × List ℕ × List ℕ
  | _, [] => (0, [], [])
  | k, x :: p =>
    let (next, q, ep) := packChain r (k + 1) p
    if r ≤ x then (k, next :: q, grnBEnc (x - r) ++ ep) else (next, x :: q, ep)

/-- The exceptions of a narrow unit from the position `k` on: the unit with each
exception replaced by 0, and position and excess of each exception. -/
def packPositions (r : ℕ) : ℕ → List ℕ → List ℕ × List ℕ
  | _, [] => ([], [])
  | k, x :: p =>
    let (q, ep) := packPositions r (k + 1) p
    if r ≤ x then (0 :: q, k :: (grnBEnc (x - r) ++ ep)) else (x :: q, ep)

/-- `pack`. -/
def pack (p : List ℕ) : List ℕ :=
  let i := p.length
  let (w, s) := packWidth (freq p) (i - i / 8) 33 0 0
  let r := 2 ^ w
  if i = s then
    w :: pack_ w p
  else if unitSize ≤ r then
    let (first, q, ep) := packChain r 0 p
    (w + 0x80) :: (i - s) :: first :: (pack_ w q ++ ep)
  else
    let (q, ep) := packPositions r 0 p
    (w + 0x80) :: (i - s) :: (pack_ w q ++ ep)

/-- `1 << w` for an `int` on x86. -/
def shiftOne (w : ℕ) : ℕ := 2 ^ (w % 32)

/-- The loops of `unpack` over the packed values, `p` being the memory for them. -/
def unpackValues (w m : ℕ) (p : List ℕ) (dp : List ℕ) : Option (List ℕ × List ℕ) :=
  if 8 ≤ p.length then
    if dp.length < w then none
    else
      match unpackEight w (p.take 8) dp with
      | (values, some dp) => (unpackValues w m (p.drop 8) dp).map fun r => (values ++ r.1, r.2)
      | (_, none) => none
  else
    match unpackBits w m p (8 - w) 0 dp with
    | (values, some dp) => some (values, dp)
    | (_, none) => none
termination_by p.length

/-- The values of a unit of width `w`; a unit of width 0 is not stored. -/
def unpackSlots (w m : ℕ) (rp : List ℕ) (dp : List ℕ) : Option (List ℕ × List ℕ) :=
  if w ≠ 0 then unpackValues w m rp dp else some (rp.map fun _ => 0, dp)

/-- The loop of `unpack` over `ne` chained exceptions, from the position `k` on. -/
def unpackChain (m : ℕ) : ℕ → ℕ → List ℕ → List ℕ → Option (List ℕ × List ℕ)
  | 0, _, rp, dp => some (rp, dp)
  | ne + 1, k, rp, dp =>
    match grnDecByteCheck dp with
    | .error _ => none
    | .ok (v, dp) => unpackChain m ne (rp.getD k 0 % 0x100) (rp.set k ((v + (m + 1)) % 2 ^ 32)) dp

/-- The loop of `unpack` over `ne` exceptions with positions. -/
def unpackPositions (m : ℕ) : ℕ → List ℕ → List ℕ → Option (List ℕ × List ℕ)
  | 0, rp, dp => some (rp, dp)
  | _ + 1, _, [] => none
  | ne + 1, rp, k :: dp =>
    match grnDecByteCheck dp with
    | .error _ => none
    | .ok (v, dp) => unpackPositions m ne (rp.set k ((v + (m + 1)) % 2 ^ 32)) dp

/-- `unpack` into the memory `rp`: the values and the input behind the unit, or
`none` for `NULL`. A read behind the end of the input gives `none` too. -/
def unpack (rp : List ℕ) (dp : List ℕ) : Option (List ℕ × List ℕ) :=
  match dp with
  | [] => none
  | w :: dp =>
    if 0x80 ≤ w then
      let w := w - 0x80
      let m := shiftOne w - 1
      if unitMask ≤ m then
        match dp with
        | ne :: k :: dp => (unpackSlots w m rp dp).bind fun r => unpackChain m ne k r.1 r.2
        | _ => none
      else
        match dp with
        | ne :: dp => (unpackSlots w m rp dp).bind fun r => unpackPositions m ne r.1 r.2
        | _ => none
    else
      unpackSlots w (shiftOne w - 1) rp dp

/-- What holds at the head of the bit loops: `f` bits are free in the byte `v` and
`r` bits of the current value are left; a value that is begun starts a new byte. -/
structure BitState (w f r v : ℕ) : Prop where
  r_pos : 1 ≤ r
  r_le : r ≤ w
  f_pos : 1 ≤ f
  f_le : f ≤ 8
  dvd : 2 ^ f ∣ v
  lt : v < 0x100
  fresh : r = w ∨ f = 8

theorem BitState.add_lt {w f r v y : ℕ} (h : BitState w f r v) (hy : y < 2 ^ f) :
    v + y < 0x100 := by
  obtain ⟨u, rfl⟩ := h.dvd
  have h8 : 2 ^ f * 2 ^ (8 - f) = 0x100 := by
    rw [← pow_add, Nat.add_sub_of_le h.f_le]; rfl
  have hu : u < 2 ^ (8 - f) := by
    have := h.lt
    rw [← h8] at this
    exact Nat.lt_of_mul_lt_mul_left this
  calc 2 ^ f * u + y < 2 ^ f * (u + 1) := by rw [Nat.mul_succ]; omega
    _ ≤ 2 ^ f * 2 ^ (8 - f) := Nat.mul_le_mul_left _ hu
    _ = 0x100 := h8

theorem BitState.eq_zero {w r v : ℕ} (h : BitState w 8 r v) : v = 0 := by
  obtain ⟨u, rfl⟩ := h.dvd
  have := h.lt
  omega

/-- The byte after a value that leaves room in it. -/
theorem BitState.write_pos {w f r v x : ℕ} (h : BitState w f r v) (hx : x < 2 ^ w) (hrf : r ≤ f) :
    (v + x <<< (f - r)) % 0x100 = v + x % 2 ^ r * 2 ^ (f - r) := by
  have hlt : x % 2 ^ r * 2 ^ (f - r) < 2 ^ f := by
    calc x % 2 ^ r * 2 ^ (f - r) < 2 ^ r * 2 ^ (f - r) :=
          Nat.mul_lt_mul_of_pos_right (Nat.mod_lt _ (Nat.two_pow_pos _)) (Nat.two_pow_pos _)
      _ = 2 ^ f := by rw [← pow_add, Nat.add_sub_of_le hrf]
  rw [Nat.shiftLeft_eq]
  rcases h.fresh with rfl | rfl
  · rw [Nat.mod_eq_of_lt hx] at hlt ⊢
    exact Nat.mod_eq_of_lt (h.add_lt hlt)
  · obtain rfl := h.eq_zero
    have h8 : 0x100 = 2 ^ r * 2 ^ (8 - r) := by rw [← pow_add, Nat.add_sub_of_le hrf]; rfl
    rw [Nat.zero_add, Nat.zero_add, h8, Nat.mul_mod_mul_right]

/-- The byte filled with the upper bits of a value that does not fit in it. -/
theorem BitState.write_neg {w f r v x : ℕ} (h : BitState w f r v) (hx : x < 2 ^ w) (hrf : f < r) :
    (v + x >>> (r - f)) % 0x100 = v + x % 2 ^ r / 2 ^ (r - f) := by
  have hlt : x % 2 ^ r / 2 ^ (r - f) < 2 ^ f := by
    rw [Nat.div_lt_iff_lt_mul (Nat.two_pow_pos _), ← pow_add, Nat.add_sub_of_le hrf.le]
    exact Nat.mod_lt _ (Nat.two_pow_pos _)
  rw [Nat.shiftRight_eq_div_pow]
  rcases h.fresh with rfl | rfl
  · rw [Nat.mod_eq_of_lt hx] at hlt ⊢
    exact Nat.mod_eq_of_lt (h.add_lt hlt)
  · obtain rfl := h.eq_zero
    have hr : 2 ^ r = 2 ^ (r - 8) * 0x100 := by
      rw [show (0x100 : ℕ) = 2 ^ 8 from rfl, ← pow_add, Nat.sub_add_cancel hrf.le]
    rw [Nat.zero_add, Nat.zero_add, hr, Nat.mod_mul_right_div_self]

theorem BitState.next_pos {w f r v x : ℕ} (h : BitState w f r v) (hrf : r < f) :
    BitState w (f - r) w (v + x % 2 ^ r * 2 ^ (f - r)) where
  r_pos := h.r_pos.trans h.r_le
  r_le := le_refl w
  f_pos := by omega
  f_le := by have := h.f_le; omega
  dvd := Nat.dvd_add ((Nat.pow_dvd_pow 2 (by omega)).trans h.dvd) (Nat.dvd_mul_left _ _)
  lt := by
    refine h.add_lt ?_
    calc x % 2 ^ r * 2 ^ (f - r) < 2 ^ r * 2 ^ (f - r) :=
          Nat.mul_lt_mul_of_pos_right (Nat.mod_lt _ (Nat.two_pow_pos _)) (Nat.two_pow_pos _)
      _ = 2 ^ f := by rw [← pow_add, Nat.add_sub_of_le hrf.le]
  fresh := .inl rfl

/-- A sum below the next bit does not reach the bits already in the byte. -/
theorem BitState.add_div {w f r v y : ℕ} (h : BitState w f r v) (hy : y < 2 ^ f) :
    (v + y) / 2 ^ f = v / 2 ^ f := by
  obtain ⟨u, rfl⟩ := h.dvd
  rw [Nat.mul_add_div (Nat.two_pow_pos _), Nat.div_eq_of_lt hy, Nat.mul_div_cancel_left _
    (Nat.two_pow_pos _), Nat.add_zero]

/-! The equations of the two loops, one for each branch. -/

section Branches

variable {w m x o c v : ℕ} {p : List ℕ} {b : ℤ} {dp : List ℕ}

theorem packBits_pos (hb : 0 < b) :
    packBits w (x :: p) b v = packBits w p (b - w) ((v + x <<< b.toNat) % 0x100) := by
  rw [packBits, if_pos hb]

theorem packBits_neg (hb : b < 0) :
    packBits w (x :: p) b v =
      (v + x >>> (-b).toNat) % 0x100 :: packBits w (x :: p) (b + 8) 0 := by
  rw [packBits, if_neg (by omega), if_pos hb]

theorem packBits_zero : packBits w (x :: p) 0 v = (v + x) % 0x100 :: packBits w p (8 - w) 0 := by
  rw [packBits, if_neg (by omega), if_neg (by omega)]

theorem unpackBits_pos (hb : 0 < b) :
    unpackBits w m (o :: p) b v (c :: dp) =
      ((v + (c >>> b.toNat &&& m)) :: (unpackBits w m p (b - w) 0 (c :: dp)).1,
        (unpackBits w m p (b - w) 0 (c :: dp)).2) := by
  rw [unpackBits, if_pos hb]

theorem unpackBits_neg (hb : b < 0) :
    unpackBits w m (o :: p) b v (c :: dp) =
      unpackBits w m (o :: p) (b + 8) (v + (c <<< (-b).toNat &&& m)) dp := by
  rw [unpackBits, if_neg (by omega), if_pos hb]

theorem unpackBits_zero :
    unpackBits w m (o :: p) 0 v (c :: dp) =
      ((v + (c &&& m)) :: (unpackBits w m p (8 - w) 0 dp).1,
        (unpackBits w m p (8 - w) 0 dp).2) := by
  rw [unpackBits, if_neg (by omega), if_neg (by omega)]

end Branches

/-- The first byte that the loop still has to write keeps the bits that are
already in it. -/
theorem head_packBits {w : ℕ} (p : List ℕ) (b : ℤ) (v : ℕ) (hp : ∀ x ∈ p, x < 2 ^ w) {f : ℕ}
    (hb : b = f - w) (hf : f < 8) (h : BitState w f w v) :
    ∃ c dp, packBits w p b v = c :: dp ∧ c / 2 ^ f = v / 2 ^ f := by
  induction p generalizing b v f with
  | nil =>
    refine ⟨v, [], ?_, rfl⟩
    rw [packBits, if_pos (by omega)]
  | cons x p ih =>
    have hx := hp x (List.mem_cons_self ..)
    have hxw := Nat.mod_eq_of_lt hx
    rcases lt_trichotomy b 0 with hneg | hzero | hpos
    · have hbf : (-b).toNat = w - f := by omega
      refine ⟨_, _, packBits_neg hneg, ?_⟩
      rw [hbf, h.write_neg hx (by omega), hxw]
      refine h.add_div ?_
      rw [Nat.div_lt_iff_lt_mul (Nat.two_pow_pos _), ← pow_add]
      exact hx.trans_le (Nat.pow_le_pow_right (by omega) (by omega))
    · obtain rfl : f = w := by omega
      subst hzero
      refine ⟨_, _, packBits_zero, ?_⟩
      rw [Nat.mod_eq_of_lt (h.add_lt hx), h.add_div hx]
    · have hwf : w < f := by omega
      have hbf : b.toNat = f - w := by omega
      have hv : (v + x <<< b.toNat) % 0x100 = v + x * 2 ^ (f - w) := by
        rw [hbf, h.write_pos hx hwf.le, hxw]
      have hs : BitState w (f - w) w (v + x * 2 ^ (f - w)) := by
        have := h.next_pos (x := x) hwf
        rwa [hxw] at this
      obtain ⟨c, dp, hpack, hc⟩ := ih (b - w) _ (fun y hy => hp y (List.mem_cons_of_mem _ hy))
        (f := f - w) (by omega) (by omega) hs
      refine ⟨c, dp, ?_, ?_⟩
      · rw [packBits_pos hpos, hv, hpack]
      · have hlt : x * 2 ^ (f - w) < 2 ^ f := by
          calc x * 2 ^ (f - w) < 2 ^ w * 2 ^ (f - w) :=
                Nat.mul_lt_mul_of_pos_right hx (Nat.two_pow_pos _)
            _ = 2 ^ f := by rw [← pow_add, Nat.add_sub_of_le hwf.le]
        have hsplit : 2 ^ f = 2 ^ (f - w) * 2 ^ w := by
          rw [← pow_add, Nat.sub_add_cancel hwf.le]
        rw [hsplit, ← Nat.div_div_eq_div_mul, hc, Nat.div_div_eq_div_mul, ← hsplit,
          h.add_div hlt]

/-- A value whose last bits have been read is complete. -/
theorem BitState.read_last {w f r v x : ℕ} (h : BitState w f r v) (hx : x < 2 ^ w) :
    x / 2 ^ r * 2 ^ r + (v / 2 ^ f * 2 ^ r + x % 2 ^ r) % 2 ^ w = x := by
  have hmod : (v / 2 ^ f * 2 ^ r + x % 2 ^ r) % 2 ^ w = x % 2 ^ r := by
    rcases h.fresh with rfl | rfl
    · rw [Nat.mul_add_mod_self_right, Nat.mod_mod]
    · obtain rfl := h.eq_zero
      rw [Nat.zero_div, Nat.zero_mul, Nat.zero_add]
      exact Nat.mod_eq_of_lt ((Nat.mod_lt _ (Nat.two_pow_pos _)).trans_le
        (Nat.pow_le_pow_right (by omega) h.r_le))
  rw [hmod, Nat.div_add_mod']

/-- The upper bits of a value after `f` more of them. -/
theorem BitState.read_more {w f r v x : ℕ} (h : BitState w f r v) (hrf : f < r) :
    x / 2 ^ r * 2 ^ r + ((v + x % 2 ^ r / 2 ^ (r - f)) * 2 ^ (r - f)) % 2 ^ w =
      x / 2 ^ (r - f) * 2 ^ (r - f) := by
  have hlt : x % 2 ^ r / 2 ^ (r - f) * 2 ^ (r - f) < 2 ^ r :=
    (Nat.div_mul_le_self _ _).trans_lt (Nat.mod_lt _ (Nat.two_pow_pos _))
  have hmod : ((v + x % 2 ^ r / 2 ^ (r - f)) * 2 ^ (r - f)) % 2 ^ w =
      x % 2 ^ r / 2 ^ (r - f) * 2 ^ (r - f) := by
    rw [Nat.add_mul]
    rcases h.fresh with rfl | rfl
    · obtain ⟨u, rfl⟩ := h.dvd
      have hu : 2 ^ f * u * 2 ^ (r - f) = u * 2 ^ r := by
        rw [mul_comm (2 ^ f) u, mul_assoc, ← pow_add, Nat.add_sub_of_le hrf.le]
      rw [hu, Nat.mul_add_mod_self_right, Nat.mod_eq_of_lt hlt]
    · obtain rfl := h.eq_zero
      rw [Nat.zero_mul, Nat.zero_add]
      exact Nat.mod_eq_of_lt (hlt.trans_le (Nat.pow_le_pow_right (by omega) h.r_le))
  have hr : 2 ^ r = 2 ^ (r - f) * 2 ^ f := by rw [← pow_add, Nat.sub_add_cancel hrf.le]
  have hdiv : x / 2 ^ (r - f) = x / 2 ^ r * 2 ^ f + x % 2 ^ r / 2 ^ (r - f) := by
    rw [hr, Nat.mod_mul_right_div_self, ← Nat.div_div_eq_div_mul, Nat.div_add_mod']
  rw [hmod, hdiv, Nat.add_mul, mul_assoc, mul_comm (2 ^ f), ← hr]

theorem BitState.next_byte {w f r v : ℕ} (h : BitState w f r v) (hrf : f < r) :
    BitState w 8 (r - f) 0 where
  r_pos := by omega
  r_le := by have := h.r_le; omega
  f_pos := by omega
  f_le := le_refl 8
  dvd := Nat.dvd_zero _
  lt := by omega
  fresh := .inr rfl

theorem bitState_start {w : ℕ} (hw : 1 ≤ w) : BitState w 8 w 0 where
  r_pos := hw
  r_le := le_refl w
  f_pos := by omega
  f_le := le_refl 8
  dvd := Nat.dvd_zero _
  lt := by omega
  fresh := .inl rfl

/-- One value. From a state in which `r` bits of the value are left, the reader,
which has the upper bits of the value in its accumulator, completes the value and
goes on with the next one in step with the writer. The induction is on `r`: a
value that does not fit in the byte loses the bits that do. -/
theorem unpackBits_packBits_cons {w x : ℕ} {p : List ℕ} (hp : ∀ y ∈ x :: p, y < 2 ^ w)
    {o : ℕ} {old rest : List ℕ}
    (ih : ∀ f v, BitState w f w v →
      unpackBits w (2 ^ w - 1) old (f - w) 0 (packBits w p (f - w) v ++ rest) = (p, some rest))
    (r : ℕ) : ∀ f v, BitState w f r v →
      unpackBits w (2 ^ w - 1) (o :: old) (f - r) (x / 2 ^ r * 2 ^ r)
        (packBits w (x :: p) (f - r) v ++ rest) = (x :: p, some rest) := by
  have hx := hp x (List.mem_cons_self ..)
  induction r using Nat.strongRecOn with
  | ind r ihr =>
    intro f v h
    rcases lt_trichotomy r f with hrf | rfl | hrf
    · have hb : (0 : ℤ) < f - r := by omega
      have hbn : ((f : ℤ) - r).toNat = f - r := by omega
      have hfr : ((f : ℤ) - r) = ((f - r : ℕ) : ℤ) := by omega
      have hs := h.next_pos (x := x) hrf
      obtain ⟨c, dp, hpack, hc⟩ := head_packBits p _ _
        (fun y hy => hp y (List.mem_cons_of_mem _ hy)) rfl (by have := h.f_le; have := h.r_pos; omega) hs
      have hih := ih _ _ hs
      have hval : c >>> (f - r) &&& (2 ^ w - 1) = (v / 2 ^ f * 2 ^ r + x % 2 ^ r) % 2 ^ w := by
        rw [Nat.and_two_pow_sub_one_eq_mod, Nat.shiftRight_eq_div_pow, hc,
          Nat.add_mul_div_right _ _ (Nat.two_pow_pos _)]
        obtain ⟨u, rfl⟩ := h.dvd
        have hsplit : 2 ^ f = 2 ^ (f - r) * 2 ^ r := by rw [← pow_add, Nat.sub_add_cancel hrf.le]
        rw [Nat.mul_div_cancel_left _ (Nat.two_pow_pos _), hsplit, mul_assoc,
          Nat.mul_div_cancel_left _ (Nat.two_pow_pos _), mul_comm (2 ^ r) u]
      rw [packBits_pos hb, hbn, h.write_pos hx hrf.le, hfr, hpack, List.cons_append,
        unpackBits_pos (by omega)]
      rw [hpack, List.cons_append] at hih
      rw [hih, Int.toNat_natCast, hval, h.read_last hx]
    · have hs := ih 8 0 (bitState_start (h.r_pos.trans h.r_le))
      have hval : (v + x) % 0x100 &&& (2 ^ w - 1) = (v / 2 ^ r * 2 ^ r + x % 2 ^ r) % 2 ^ w := by
        have := h.write_pos hx le_rfl
        rw [Nat.sub_self, Nat.shiftLeft_zero, pow_zero, mul_one] at this
        rw [Nat.and_two_pow_sub_one_eq_mod, this, Nat.div_mul_cancel h.dvd]
      rw [sub_self, packBits_zero, List.cons_append, unpackBits_zero]
      push_cast at hs
      rw [hs, hval, h.read_last hx]
    · have hb : ((f : ℤ) - r) < 0 := by omega
      have hbn : (-((f : ℤ) - r)).toNat = r - f := by omega
      have hnext : ((f : ℤ) - r) + 8 = ((8 : ℕ) : ℤ) - ((r - f : ℕ) : ℤ) := by omega
      rw [packBits_neg hb, hbn, h.write_neg hx hrf, List.cons_append, unpackBits_neg hb, hbn,
        Nat.and_two_pow_sub_one_eq_mod, Nat.shiftLeft_eq, h.read_more hrf, hnext]
      exact ihr (r - f) (by have := h.f_pos; omega) 8 0 (h.next_byte hrf)

/-- **Round trip of the bit loops**: the reader gets all the values back and stops
at the end of what was written. -/
theorem unpackBits_packBits {w : ℕ} (p : List ℕ) (hp : ∀ y ∈ p, y < 2 ^ w) (old rest : List ℕ)
    (hlen : old.length = p.length) : ∀ f v, BitState w f w v →
      unpackBits w (2 ^ w - 1) old (f - w) 0 (packBits w p (f - w) v ++ rest) =
        (p, some rest) := by
  induction p generalizing old with
  | nil =>
    intro f v h
    obtain rfl := List.length_eq_zero_iff.mp hlen
    rw [packBits]
    by_cases hf : ((f : ℤ) - w) + w ≠ 8
    · rw [if_pos hf, List.singleton_append, unpackBits, if_pos hf]
    · rw [if_neg hf, List.nil_append]
      cases rest with
      | nil => rw [unpackBits, if_neg hf]
      | cons c rest => rw [unpackBits, if_neg hf]
  | cons x p ih =>
    intro f v h
    obtain ⟨o, old, rfl⟩ := List.exists_cons_of_length_eq_add_one hlen
    have hx := hp x (List.mem_cons_self ..)
    have := unpackBits_packBits_cons hp (o := o)
      (ih (fun y hy => hp y (List.mem_cons_of_mem _ hy)) old (by simpa using hlen)) w f v h
    rwa [Nat.div_eq_of_lt hx, Nat.zero_mul] at this

/-- With the mask 0 the reader stops at the same place, but every value is 0. -/
theorem unpackBits_packBits_mask_zero {w : ℕ} (p : List ℕ) (hp : ∀ y ∈ p, y < 2 ^ w)
    (old rest : List ℕ) (hlen : old.length = p.length) : ∀ f v, BitState w f w v →
      unpackBits w 0 old (f - w) 0 (packBits w p (f - w) v ++ rest) =
        (p.map fun _ => 0, some rest) := by
  induction p generalizing old with
  | nil =>
    intro f v h
    obtain rfl := List.length_eq_zero_iff.mp hlen
    rw [packBits]
    by_cases hf : ((f : ℤ) - w) + w ≠ 8
    · rw [if_pos hf, List.singleton_append, unpackBits, if_pos hf]
      rfl
    · rw [if_neg hf, List.nil_append]
      cases rest with
      | nil => rw [unpackBits, if_neg hf]; rfl
      | cons c rest => rw [unpackBits, if_neg hf]; rfl
  | cons x p ih =>
    obtain ⟨o, old, rfl⟩ := List.exists_cons_of_length_eq_add_one hlen
    have hx := hp x (List.mem_cons_self ..)
    have hp' : ∀ y ∈ p, y < 2 ^ w := fun y hy => hp y (List.mem_cons_of_mem _ hy)
    have ih := ih hp' old (by simpa using hlen)
    suffices hr : ∀ r f v, BitState w f r v →
        unpackBits w 0 (o :: old) (f - r) 0 (packBits w (x :: p) (f - r) v ++ rest) =
          ((x :: p).map fun _ => 0, some rest) from hr w
    intro r
    induction r using Nat.strongRecOn with
    | ind r ihr =>
      intro f v h
      rcases lt_trichotomy r f with hrf | rfl | hrf
      · have hfr : ((f : ℤ) - r) = ((f - r : ℕ) : ℤ) := by omega
        have hs := h.next_pos (x := x) hrf
        obtain ⟨c, dp, hpack, -⟩ := head_packBits p _ _ hp' rfl
          (by have := h.f_le; have := h.r_pos; omega) hs
        have hih := ih _ _ hs
        rw [packBits_pos (by omega), show ((f : ℤ) - r).toNat = f - r by omega,
          h.write_pos hx hrf.le, hfr, hpack, List.cons_append, unpackBits_pos (by omega)]
        rw [hpack, List.cons_append] at hih
        rw [hih, Nat.and_zero]
        rfl
      · have hs := ih 8 0 (bitState_start (h.r_pos.trans h.r_le))
        push_cast at hs
        rw [sub_self, packBits_zero, List.cons_append, unpackBits_zero, hs, Nat.and_zero]
        rfl
      · have hb : ((f : ℤ) - r) < 0 := by omega
        have hnext : ((f : ℤ) - r) + 8 = ((8 : ℕ) : ℤ) - ((r - f : ℕ) : ℤ) := by omega
        rw [packBits_neg hb, List.cons_append, unpackBits_neg hb, Nat.and_zero, hnext]
        exact ihr (r - f) (by have := h.f_pos; omega) 8 0 (h.next_byte hrf)

/-- The number of bytes: every byte but the last is full. -/
theorem length_packBits {w : ℕ} (hw : 1 ≤ w) (p : List ℕ) : ∀ f v : ℕ, 1 ≤ f → f ≤ 8 →
    w * p.length + (8 - f) ≤ 8 * (packBits w p (f - w) v).length ∧
      8 * (packBits w p (f - w) v).length ≤ w * p.length + (8 - f) + 7 := by
  induction p with
  | nil =>
    intro f v hf1 hf8
    rw [packBits]
    split_ifs with hf
    · simp only [List.length_nil, List.length_singleton]; omega
    · simp only [List.length_nil]; omega
  | cons x p ih =>
    suffices hr : ∀ r f v : ℕ, 1 ≤ r → 1 ≤ f → f ≤ 8 →
        w * p.length + r + (8 - f) ≤ 8 * (packBits w (x :: p) (f - r) v).length ∧
          8 * (packBits w (x :: p) (f - r) v).length ≤ w * p.length + r + (8 - f) + 7 by
      intro f v hf1 hf8
      have := hr w f v hw hf1 hf8
      rw [List.length_cons, Nat.mul_succ]
      exact this
    intro r
    induction r using Nat.strongRecOn with
    | ind r ihr =>
      intro f v hr1 hf1 hf8
      rcases lt_trichotomy r f with hrf | rfl | hrf
      · have hfr : ((f : ℤ) - r) = ((f - r : ℕ) : ℤ) := by omega
        rw [packBits_pos (by omega), hfr]
        have := ih (f - r) ((v + x <<< (((f - r : ℕ) : ℤ)).toNat) % 0x100) (by omega) (by omega)
        omega
      · have := ih 8 0 (by omega) (by omega)
        push_cast at this
        rw [sub_self, packBits_zero, List.length_cons]
        omega
      · have hnext : ((f : ℤ) - r) + 8 = ((8 : ℕ) : ℤ) - ((r - f : ℕ) : ℤ) := by omega
        rw [packBits_neg (by omega), List.length_cons, hnext]
        have := ihr (r - f) (by omega) 8 0 (by omega) (by omega) (by omega)
        omega

/-! ## The packed values of a unit -/

theorem packBits_width_zero (p : List ℕ) : packBits 0 p 8 0 = [] := by
  induction p with
  | nil => rw [packBits]; simp
  | cons x p ih =>
    rw [packBits_pos (by omega)]
    have hv : (0 + x <<< (8 : ℤ).toNat) % 0x100 = 0 := by
      rw [Nat.zero_add, Nat.shiftLeft_eq]
      exact Nat.mul_mod_left _ _
    rw [hv]
    exact ih

theorem pack_width_zero (p : List ℕ) : pack_ 0 p = [] := by
  induction h : p.length using Nat.strongRecOn generalizing p with
  | ind n ih =>
    rw [pack_]
    split_ifs with h8
    · have := ih (p.drop 8).length (by rw [List.length_drop]; omega) _ rfl
      simpa [packEight, packBits_width_zero] using this
    · simpa using packBits_width_zero p

/-- **Round trip of the packed values**, given what the loop over the last values
makes of them. -/
theorem unpackValues_pack {w m : ℕ} (hw : 1 ≤ w) {g : List ℕ → List ℕ}
    (htail : ∀ (q old rest : List ℕ), (∀ y ∈ q, y < 2 ^ w) → old.length = q.length →
      unpackBits w m old (8 - w) 0 (packBits w q (8 - w) 0 ++ rest) = (g q, some rest))
    (p old rest : List ℕ) (hp : ∀ y ∈ p, y < 2 ^ w) (hlen : old.length = p.length) :
    unpackValues w m old (pack_ w p ++ rest) =
      some (p.take (p.length / 8 * 8) ++ g (p.drop (p.length / 8 * 8)), rest) := by
  induction h : p.length using Nat.strongRecOn generalizing p old with
  | ind n ih =>
    subst h
    rw [unpackValues, pack_]
    by_cases h8 : 8 ≤ p.length
    · have htake : (p.take 8).length = 8 := by rw [List.length_take]; omega
      have hpack := unpackBits_packBits (p.take 8)
        (fun y hy => hp y (List.mem_of_mem_take hy)) (old.take 8) (pack_ w (p.drop 8) ++ rest)
        (by rw [List.length_take, htake]; omega) 8 0 (bitState_start hw)
      push_cast at hpack
      have hsize := (length_packBits hw (p.take 8) 8 0 (by omega) (by omega)).1
      push_cast at hsize
      rw [htake] at hsize
      have hih := ih (p.drop 8).length (by rw [List.length_drop]; omega) (p.drop 8) (old.drop 8)
        (fun y hy => hp y (List.mem_of_mem_drop hy)) (by simp [hlen]) rfl
      rw [if_pos (by omega), if_pos h8, if_neg (by
        rw [packEight, List.append_assoc, List.length_append]; omega),
        packEight, List.append_assoc, unpackEight, hpack]
      simp only [hih, Option.map_some, Option.some.injEq, Prod.mk.injEq, and_true]
      rw [List.length_drop, show (p.length - 8) / 8 * 8 = p.length / 8 * 8 - 8 by omega,
        List.drop_drop, ← List.append_assoc,
        show 8 + (p.length / 8 * 8 - 8) = p.length / 8 * 8 by omega]
      congr 1
      rw [← List.take_add, show 8 + (p.length / 8 * 8 - 8) = p.length / 8 * 8 by omega]
    · rw [if_neg (by omega), if_neg h8, htail p old rest hp hlen,
        show p.length / 8 * 8 = 0 by omega]
      simp

theorem length_pack_values_le {w : ℕ} (p : List ℕ) : 8 * (pack_ w p).length ≤ w * p.length + 7 := by
  rcases Nat.eq_zero_or_pos w with rfl | hw
  · rw [pack_width_zero]; simp
  · induction h : p.length using Nat.strongRecOn generalizing p with
    | ind n ih =>
      subst h
      rw [pack_]
      by_cases h8 : 8 ≤ p.length
      · have htake : (p.take 8).length = 8 := by rw [List.length_take]; omega
        have h1 := (length_packBits hw (p.take 8) 8 0 (by omega) (by omega)).2
        have h2 := ih (p.drop 8).length (by rw [List.length_drop]; omega) (p.drop 8) rfl
        push_cast at h1
        rw [htake] at h1
        rw [if_pos h8, List.length_append, packEight]
        have hmul : w * p.length = w * 8 + w * (p.drop 8).length := by
          rw [← Nat.mul_add, List.length_drop]; congr 1; omega
        omega
      · have := (length_packBits hw p 8 0 (by omega) (by omega)).2
        push_cast at this
        rw [if_neg h8]
        omega

/-! ## The exceptions -/

/-- How many values of a unit do not fit below `r`. -/
def exceptions (r : ℕ) (p : List ℕ) : ℕ := p.countP fun v => r ≤ v

theorem exceptions_cons_of_le {r x : ℕ} (h : r ≤ x) (p : List ℕ) :
    exceptions r (x :: p) = exceptions r p + 1 :=
  List.countP_cons_of_pos (by simpa using h)

theorem exceptions_cons_of_lt {r x : ℕ} (h : x < r) (p : List ℕ) :
    exceptions r (x :: p) = exceptions r p :=
  List.countP_cons_of_neg (by simpa using h)

/-- The chained slots hold positions inside the unit, all others keep their value. -/
theorem packChain_spec {r k : ℕ} {p : List ℕ} :
    (packChain r k p).2.1.length = p.length ∧
      ((packChain r k p).1 < k + p.length ∨ (packChain r k p).1 = 0) ∧
      ∀ y ∈ (packChain r k p).2.1, y < r ∨ y < k + p.length := by
  induction p generalizing k with
  | nil => simp [packChain]
  | cons x p ih =>
    obtain ⟨hlen, hfirst, hmem⟩ := ih (k := k + 1)
    rcases hc : packChain r (k + 1) p with ⟨next, q, ep⟩
    rw [hc] at hlen hfirst hmem
    simp only [packChain, hc, List.length_cons] at hlen hfirst hmem ⊢
    split_ifs with hx
    · refine ⟨by simp [hlen], .inl (by omega), ?_⟩
      intro y hy
      rcases List.mem_cons.mp hy with rfl | hy
      · right; omega
      · have := hmem y hy; omega
    · refine ⟨by simp [hlen], by omega, ?_⟩
      intro y hy
      rcases List.mem_cons.mp hy with rfl | hy
      · left; omega
      · have := hmem y hy; omega

theorem packPositions_spec {r k : ℕ} (hr : 0 < r) {p : List ℕ} :
    (packPositions r k p).1.length = p.length ∧ ∀ y ∈ (packPositions r k p).1, y < r := by
  induction p generalizing k with
  | nil => simp [packPositions]
  | cons x p ih =>
    obtain ⟨hlen, hmem⟩ := ih (k := k + 1)
    rcases hc : packPositions r (k + 1) p with ⟨q, ep⟩
    rw [hc] at hlen hmem
    simp only [packPositions, hc] at hlen hmem ⊢
    split_ifs with hx <;> refine ⟨by simp [hlen], fun y hy => ?_⟩ <;>
      rcases List.mem_cons.mp hy with rfl | hy
    · exact hr
    · exact hmem y hy
    · omega
    · exact hmem y hy

/-- **Patching through the chain.** The values before the position are restored
already; the reader follows the chain through the slots behind it. -/
theorem unpackChain_packChain {r : ℕ} (hr : 0 < r) (p : List ℕ) (hp : ∀ x ∈ p, x < 2 ^ 32)
    (rest : List ℕ) : ∀ pre : List ℕ, pre.length + p.length ≤ 0x100 →
      unpackChain (r - 1) (exceptions r p) (packChain r pre.length p).1
        (pre ++ (packChain r pre.length p).2.1) ((packChain r pre.length p).2.2 ++ rest) =
          some (pre ++ p, rest) := by
  induction p with
  | nil => intro pre _; rfl
  | cons x p ih =>
    intro pre hlen
    have hx := hp x (List.mem_cons_self ..)
    have ih := ih (fun y hy => hp y (List.mem_cons_of_mem _ hy)) (pre ++ [x])
      (by simp only [List.length_append, List.length_cons, List.length_nil] at hlen ⊢; omega)
    have hnext := (packChain_spec (r := r) (k := pre.length + 1) (p := p)).2.1
    rw [List.length_append, List.length_singleton, List.append_assoc, List.append_assoc] at ih
    rcases hc : packChain r (pre.length + 1) p with ⟨next, q, ep⟩
    rw [hc] at ih hnext
    simp only [List.length_cons] at hnext hlen
    rcases Nat.lt_or_ge x r with hxr | hxr
    · rw [exceptions_cons_of_lt hxr]
      simpa only [packChain, hc, if_neg (Nat.not_le.mpr hxr), List.singleton_append] using ih
    · have hval : (x - r + (r - 1 + 1)) % 2 ^ 32 = x := by
        rw [show x - r + (r - 1 + 1) = x by omega]; exact Nat.mod_eq_of_lt hx
      have hget : (pre ++ next :: q).getD pre.length 0 % 0x100 = next := by
        simp only [List.getD_append_right _ _ _ _ le_rfl, Nat.sub_self, List.getD_cons_zero]
        omega
      have hset : (pre ++ next :: q).set pre.length x = pre ++ x :: q := by
        rw [List.set_append_right _ _ le_rfl, Nat.sub_self, List.set_cons_zero]
      rw [exceptions_cons_of_le hxr]
      simp only [packChain, hc, if_pos hxr, unpackChain, List.append_assoc,
        grnDecByteCheck_grnBEnc (show x - r < 2 ^ 32 by omega), hval]
      rw [hget, hset]
      exact ih

/-- **Patching by position.** -/
theorem unpackPositions_packPositions {r : ℕ} (hr : 0 < r) (p : List ℕ)
    (hp : ∀ x ∈ p, x < 2 ^ 32) (rest : List ℕ) : ∀ pre : List ℕ,
      unpackPositions (r - 1) (exceptions r p) (pre ++ (packPositions r pre.length p).1)
        ((packPositions r pre.length p).2 ++ rest) = some (pre ++ p, rest) := by
  induction p with
  | nil => intro pre; rfl
  | cons x p ih =>
    intro pre
    have hx := hp x (List.mem_cons_self ..)
    have ih := ih (fun y hy => hp y (List.mem_cons_of_mem _ hy)) (pre ++ [x])
    rw [List.length_append, List.length_singleton, List.append_assoc, List.append_assoc] at ih
    rcases hc : packPositions r (pre.length + 1) p with ⟨q, ep⟩
    rw [hc] at ih
    rcases Nat.lt_or_ge x r with hxr | hxr
    · rw [exceptions_cons_of_lt hxr]
      simpa only [packPositions, hc, if_neg (Nat.not_le.mpr hxr), List.singleton_append] using ih
    · have hval : (x - r + (r - 1 + 1)) % 2 ^ 32 = x := by
        rw [show x - r + (r - 1 + 1) = x by omega]; exact Nat.mod_eq_of_lt hx
      have hset : (pre ++ 0 :: q).set pre.length x = pre ++ x :: q := by
        rw [List.set_append_right _ _ le_rfl, Nat.sub_self, List.set_cons_zero]
      rw [exceptions_cons_of_le hxr]
      simp only [packPositions, hc, if_pos hxr, unpackPositions, List.cons_append,
        List.append_assoc, grnDecByteCheck_grnBEnc (show x - r < 2 ^ 32 by omega), hval, hset]
      exact ih

theorem length_packChain_le {r k : ℕ} (p : List ℕ) :
    (packChain r k p).2.2.length ≤ grnBEncMaxSize * exceptions r p := by
  induction p generalizing k with
  | nil => simp [packChain]
  | cons x p ih =>
    have ih := ih (k := k + 1)
    rcases hc : packChain r (k + 1) p with ⟨next, q, ep⟩
    rw [hc] at ih
    rcases Nat.lt_or_ge x r with hxr | hxr
    · rw [exceptions_cons_of_lt hxr]
      simpa only [packChain, hc, if_neg (Nat.not_le.mpr hxr)] using ih
    · have := length_grnBEnc_le (x - r)
      rw [exceptions_cons_of_le hxr, Nat.mul_succ]
      simp only [packChain, hc, if_pos hxr, List.length_append] at ih ⊢
      omega

theorem length_packPositions_le {r k : ℕ} (p : List ℕ) :
    (packPositions r k p).2.length ≤ (grnBEncMaxSize + 1) * exceptions r p := by
  induction p generalizing k with
  | nil => simp [packPositions]
  | cons x p ih =>
    have ih := ih (k := k + 1)
    rcases hc : packPositions r (k + 1) p with ⟨q, ep⟩
    rw [hc] at ih
    rcases Nat.lt_or_ge x r with hxr | hxr
    · rw [exceptions_cons_of_lt hxr]
      simpa only [packPositions, hc, if_neg (Nat.not_le.mpr hxr)] using ih
    · have := length_grnBEnc_le (x - r)
      rw [exceptions_cons_of_le hxr, Nat.mul_succ]
      simp only [packPositions, hc, if_pos hxr, List.length_cons, List.length_append] at ih ⊢
      omega

/-! ## The width of a unit -/

theorem bitWidth_le {v w : ℕ} : bitWidth v ≤ w ↔ v < 2 ^ w := by
  unfold bitWidth
  split_ifs with hv
  · subst hv; simp
  · rw [Nat.succ_le_iff, Nat.log2_lt hv]

/-- The number of values that fit in `w` bits. -/
def fitting (p : List ℕ) (w : ℕ) : ℕ := p.countP fun v => v < 2 ^ w

theorem fitting_add_exceptions (p : List ℕ) (w : ℕ) :
    fitting p w + exceptions (2 ^ w) p = p.length := by
  rw [fitting, exceptions, List.length_eq_countP_add_countP (p := fun v => decide (v < 2 ^ w))]
  simp

theorem freq_zero (p : List ℕ) : freq p 0 = fitting p 0 := by
  refine List.countP_congr fun v _ => ?_
  have := @bitWidth_le v 0
  simp only [decide_eq_true_eq]
  omega

theorem fitting_succ (p : List ℕ) (w : ℕ) : fitting p w + freq p (w + 1) = fitting p (w + 1) := by
  induction p with
  | nil => rfl
  | cons v p ih =>
    simp only [fitting, freq, List.countP_cons, decide_eq_true_eq] at ih ⊢
    have h1 := @bitWidth_le v w
    have h2 := @bitWidth_le v (w + 1)
    split_ifs <;> omega

/-- The chosen width is the first one that enough values fit in. -/
theorem packWidth_spec {p : List ℕ} {th : ℕ} : ∀ n w s : ℕ, s + freq p w = fitting p w →
    (∀ u < w, fitting p u < th) → th ≤ fitting p (w + n) →
      ∃ w' ≤ w + n, packWidth (freq p) th (n + 1) w s = (w', fitting p w') ∧ th ≤ fitting p w' ∧
        ∀ u < w', fitting p u < th := by
  intro n
  induction n with
  | zero =>
    intro w s hs hlt hth
    refine ⟨w, by omega, ?_, hth, hlt⟩
    rw [packWidth, hs, if_pos (by simpa using hth)]
  | succ n ih =>
    intro w s hs hlt hth
    by_cases hw : th ≤ fitting p w
    · refine ⟨w, by omega, ?_, hw, hlt⟩
      rw [packWidth, hs, if_pos hw]
    · obtain ⟨w', hle, heq, h1, h2⟩ := ih (w + 1) (fitting p w) (fitting_succ p w)
        (fun u hu => by
          rcases Nat.lt_succ_iff_lt_or_eq.mp hu with hu | rfl
          · exact hlt u hu
          · omega)
        (by rwa [show w + 1 + n = w + (n + 1) by omega])
      refine ⟨w', by omega, ?_, h1, h2⟩
      rw [packWidth, hs, if_neg hw, heq]

/-- The width that `pack` chooses for a unit. -/
def packedWidth (p : List ℕ) : ℕ := (packWidth (freq p) (p.length - p.length / 8) 33 0 0).1

theorem fitting_eq_length {p : List ℕ} (hp : ∀ v ∈ p, v < 2 ^ 32) : fitting p 32 = p.length :=
  List.countP_eq_length.mpr fun v hv => by simpa using hp v hv

theorem packedWidth_spec {p : List ℕ} (hp : ∀ v ∈ p, v < 2 ^ 32) :
    packedWidth p ≤ 32 ∧
      packWidth (freq p) (p.length - p.length / 8) 33 0 0 =
        (packedWidth p, fitting p (packedWidth p)) ∧
      p.length - p.length / 8 ≤ fitting p (packedWidth p) ∧
      ∀ u < packedWidth p, fitting p u < p.length - p.length / 8 := by
  obtain ⟨w, hle, heq, h1, h2⟩ := @packWidth_spec p (p.length - p.length / 8) 32 0 0
    (by rw [Nat.zero_add, freq_zero]) (fun u hu => absurd hu (Nat.not_lt_zero u))
    (by rw [Nat.zero_add, fitting_eq_length hp]; exact Nat.sub_le _ _)
  have hw : packedWidth p = w := by rw [packedWidth, heq]
  rw [hw]
  exact ⟨by omega, heq, h1, h2⟩

/-- The width is 32 when more than one value in eight has its highest bit set. -/
theorem packedWidth_eq_iff {p : List ℕ} (hp : ∀ v ∈ p, v < 2 ^ 32) :
    packedWidth p = 32 ↔ fitting p 31 < p.length - p.length / 8 := by
  obtain ⟨hle, -, hth, hlt⟩ := packedWidth_spec hp
  constructor
  · intro h
    exact hlt 31 (by omega)
  · intro h
    by_contra hne
    have hmono : fitting p (packedWidth p) ≤ fitting p 31 :=
      List.countP_mono_left fun v _ hv => by
        simp only [decide_eq_true_eq] at hv ⊢
        exact hv.trans_le (Nat.pow_le_pow_right (by omega) (by omega))
    omega

/-! ## Round trip of a unit -/

/-- What `unpack` makes of a unit: with the width 32 the values behind the last
group of eight are lost. -/
def unpacked (p : List ℕ) : List ℕ :=
  if packedWidth p = 32 then
    p.take (p.length / 8 * 8) ++ (p.drop (p.length / 8 * 8)).map fun _ => 0
  else p

theorem shiftOne_of_lt {w : ℕ} (hw : w < 32) : shiftOne w = 2 ^ w := by
  rw [shiftOne, Nat.mod_eq_of_lt hw]

/-- The packed values of a unit, read with the mask of their width. -/
theorem unpackSlots_pack {w : ℕ} (hw : w < 32) {p old : List ℕ} (rest : List ℕ)
    (hp : ∀ y ∈ p, y < 2 ^ w) (hlen : old.length = p.length) :
    unpackSlots w (shiftOne w - 1) old (pack_ w p ++ rest) = some (p, rest) := by
  unfold unpackSlots
  rcases Nat.eq_zero_or_pos w with rfl | hpos
  · have hzero : old.map (fun _ => 0) = p := by
      refine List.ext_getElem (by simpa using hlen) fun i h1 h2 => ?_
      have := hp p[i] (List.getElem_mem h2)
      simp only [List.getElem_map]
      omega
    rw [if_neg (by simp), pack_width_zero, List.nil_append, hzero]
  · rw [if_pos (by omega), shiftOne_of_lt hw, unpackValues_pack (g := id) hpos ?_ p old rest hp hlen,
      id_eq, List.take_append_drop]
    intro q old rest hq hlen
    have := unpackBits_packBits q hq old rest hlen 8 0 (bitState_start hpos)
    push_cast at this
    exact this

/-- The three forms of a packed unit. -/
theorem pack_eq {p : List ℕ} (hp : ∀ v ∈ p, v < 2 ^ 32) {w : ℕ} (hw : w = packedWidth p) :
    pack p =
      if exceptions (2 ^ w) p = 0 then w :: pack_ w p
      else if unitSize ≤ 2 ^ w then
        (w + 0x80) :: exceptions (2 ^ w) p :: (packChain (2 ^ w) 0 p).1 ::
          (pack_ w (packChain (2 ^ w) 0 p).2.1 ++ (packChain (2 ^ w) 0 p).2.2)
      else
        (w + 0x80) :: exceptions (2 ^ w) p ::
          (pack_ w (packPositions (2 ^ w) 0 p).1 ++ (packPositions (2 ^ w) 0 p).2) := by
  have hsum := fitting_add_exceptions p w
  have hne : p.length - fitting p w = exceptions (2 ^ w) p := by omega
  have hwidth := (packedWidth_spec hp).2.1
  rw [← hw] at hwidth
  simp only [pack, hwidth, hne]
  by_cases hall : exceptions (2 ^ w) p = 0
  · rw [if_pos (by omega), if_pos hall]
  · rw [if_neg (by omega), if_neg hall]

/-- **Round trip of a unit.** -/
theorem unpack_pack {p old : List ℕ} (hp : ∀ v ∈ p, v < 2 ^ 32) (hlen : p.length ≤ unitSize)
    (hold : old.length = p.length) (rest : List ℕ) :
    unpack old (pack p ++ rest) = some (unpacked p, rest) := by
  obtain ⟨hw, -, -, -⟩ := packedWidth_spec hp
  have hsum := fitting_add_exceptions p (packedWidth p)
  rw [pack_eq hp rfl, unpacked]
  generalize packedWidth p = w at hw hsum ⊢
  by_cases hall : exceptions (2 ^ w) p = 0
  · have hfit : ∀ y ∈ p, y < 2 ^ w := by
      intro y hy
      have := List.countP_eq_zero.mp hall y hy
      simpa using this
    rw [if_pos hall, List.cons_append, unpack, if_neg (by omega)]
    by_cases h32 : w = 32
    · subst h32
      rw [if_pos rfl, unpackSlots, if_pos (by omega)]
      refine unpackValues_pack (by omega) ?_ p old rest hfit hold
      intro q old rest hq hlen
      have := unpackBits_packBits_mask_zero q hq old rest hlen 8 0 (bitState_start (by omega))
      push_cast at this
      exact this
    · rw [if_neg h32]
      exact unpackSlots_pack (by omega) rest hfit hold
  · have h32 : w ≠ 32 := by
      rintro rfl
      have := fitting_eq_length hp
      omega
    have hm : shiftOne w = 2 ^ w := shiftOne_of_lt (by omega)
    have hpow : 0 < 2 ^ w := Nat.two_pow_pos w
    rw [if_neg hall, if_neg h32]
    by_cases hr : unitSize ≤ 2 ^ w
    · obtain ⟨hqlen, -, hq⟩ := packChain_spec (r := 2 ^ w) (k := 0) (p := p)
      have hvalues := unpackSlots_pack (w := w) (by omega)
        ((packChain (2 ^ w) 0 p).2.2 ++ rest)
        (fun y hy => by have := hq y hy; omega) (hold.trans hqlen.symm)
      have hchain := unpackChain_packChain hpow p hp rest []
        (by simp only [List.length_nil]; unfold unitSize at hlen; omega)
      simp only [if_pos hr, List.cons_append, List.append_assoc, unpack, Nat.add_sub_cancel, hm,
        if_pos (show 0x80 ≤ w + 0x80 by omega),
        if_pos (show unitMask ≤ 2 ^ w - 1 by unfold unitMask; omega)] at hvalues ⊢
      rw [hvalues, Option.bind_some]
      exact hchain
    · obtain ⟨hqlen, hq⟩ := packPositions_spec hpow (k := 0) (p := p)
      have hvalues := unpackSlots_pack (w := w) (by omega)
        ((packPositions (2 ^ w) 0 p).2 ++ rest) hq (hold.trans hqlen.symm)
      have hpos := unpackPositions_packPositions hpow p hp rest []
      simp only [if_neg hr, List.cons_append, List.append_assoc, unpack, Nat.add_sub_cancel, hm,
        if_pos (show 0x80 ≤ w + 0x80 by omega),
        if_neg (show ¬ unitMask ≤ 2 ^ w - 1 by unfold unitMask; omega)] at hvalues ⊢
      rw [hvalues, Option.bind_some]
      exact hpos

/-- A unit comes back unless it has the width 32 and a nonzero value behind its
last group of eight. -/
theorem unpacked_eq_iff (p : List ℕ) :
    unpacked p = p ↔ (packedWidth p = 32 → ∀ v ∈ p.drop (p.length / 8 * 8), v = 0) := by
  unfold unpacked
  split_ifs with h32
  · have hsplit : p.take (p.length / 8 * 8) ++ (p.drop (p.length / 8 * 8)).map (fun _ => 0) = p ↔
        (p.drop (p.length / 8 * 8)).map (fun _ => 0) = p.drop (p.length / 8 * 8) := by
      conv_lhs => rhs; rw [← List.take_append_drop (p.length / 8 * 8) p]
      exact List.append_cancel_left_eq .. |>.to_iff
    rw [hsplit]
    simp only [h32, true_imp_iff]
    constructor
    · intro h v hv
      rw [← h] at hv
      exact (List.mem_map.mp hv).choose_spec.2.symm
    · intro h
      exact (List.map_congr_left fun v hv => (h v hv).symm).trans (List.map_id _)
  · simp [h32]

/-- `PACK_MAX_SIZE`. -/
def packMaxSize : ℕ := unitSize / 8 * 32 + unitSize * grnBEncMaxSize

/-- **The size bound of a unit**, which the source marks as a hope. -/
theorem length_pack_le {p : List ℕ} (hp : ∀ v ∈ p, v < 2 ^ 32) (hlen : p.length ≤ unitSize) :
    (pack p).length ≤ packMaxSize := by
  obtain ⟨hw, -, hth, -⟩ := packedWidth_spec hp
  have hsum := fitting_add_exceptions p (packedWidth p)
  rw [pack_eq hp rfl]
  generalize packedWidth p = w at hw hth hsum ⊢
  have hbits : ∀ q : List ℕ, q.length = p.length → (pack_ w q).length ≤ unitSize / 8 * 32 := by
    intro q hq
    have h1 := length_pack_values_le (w := w) q
    have h2 : w * q.length ≤ 32 * unitSize := Nat.mul_le_mul hw (hq ▸ hlen)
    unfold unitSize at h2 ⊢
    omega
  have hexc : exceptions (2 ^ w) p ≤ 16 := by unfold unitSize at hlen; omega
  unfold packMaxSize
  split_ifs
  · have := hbits p rfl
    rw [List.length_cons]
    unfold unitSize grnBEncMaxSize at *
    omega
  · have h1 := hbits _ (packChain_spec (r := 2 ^ w) (k := 0) (p := p)).1
    have h2 := length_packChain_le (r := 2 ^ w) (k := 0) p
    simp only [List.length_cons, List.length_append]
    unfold unitSize grnBEncMaxSize at *
    omega
  · have h1 := hbits _ (packPositions_spec (Nat.two_pow_pos w) (k := 0) (p := p)).1
    have h2 := length_packPositions_le (r := 2 ^ w) (k := 0) p
    simp only [List.length_cons, List.length_append]
    unfold unitSize grnBEncMaxSize at *
    omega

/-! ## How many values come back -/

theorem length_unpackBits {w m : ℕ} (p : List ℕ) (b : ℤ) (v : ℕ) (dp : List ℕ) :
    (unpackBits w m p b v dp).1.length = p.length := by
  induction p, b, v, dp using unpackBits.induct w m with
  | case1 b v c dp => simp [unpackBits]
  | case2 p b v => simp [unpackBits]
  | case3 b v x p c dp hb ih => simpa [unpackBits, hb] using ih
  | case4 b v x p c dp hb hb' ih => simpa [unpackBits, hb, hb'] using ih
  | case5 b v x p c dp hb hb' ih => simpa [unpackBits, hb, hb'] using ih

theorem length_unpackValues {w m : ℕ} {p dp : List ℕ} {r : List ℕ × List ℕ}
    (h : unpackValues w m p dp = some r) : r.1.length = p.length := by
  fun_induction unpackValues w m p dp generalizing r with
  | case1 p dp hp hdp => cases h
  | case2 p dp hp hdp values dp' heq ih =>
    obtain ⟨s, hs, rfl⟩ := Option.map_eq_some_iff.mp h
    have hvalues : values.length = (p.take 8).length := by
      rw [← length_unpackBits (p.take 8) (8 - w) 0 dp, ← unpackEight, heq]
    rw [List.length_append, hvalues, ih hs, ← List.length_append, List.take_append_drop]
  | case3 p dp hp hdp values heq => cases h
  | case4 p dp hp values dp' heq =>
    obtain rfl := Option.some.inj h
    rw [← length_unpackBits (w := w) (m := m) p (8 - w) 0 dp, heq]
  | case5 p dp hp values heq => cases h

theorem length_unpackSlots {w m : ℕ} {rp dp : List ℕ} {r : List ℕ × List ℕ}
    (h : unpackSlots w m rp dp = some r) : r.1.length = rp.length := by
  unfold unpackSlots at h
  split_ifs at h
  · exact length_unpackValues h
  · obtain rfl := Option.some.inj h
    exact List.length_map _

theorem length_unpackChain {m ne k : ℕ} {rp dp : List ℕ} {r : List ℕ × List ℕ}
    (h : unpackChain m ne k rp dp = some r) : r.1.length = rp.length := by
  induction ne generalizing k rp dp with
  | zero =>
    obtain rfl := Option.some.inj h
    rfl
  | succ ne ih =>
    rw [unpackChain] at h
    rcases hd : grnDecByteCheck dp with err | ⟨v, dp'⟩
    · simp [hd] at h
    · rw [hd] at h
      exact (ih h).trans (List.length_set ..)

theorem length_unpackPositions {m ne : ℕ} {rp dp : List ℕ} {r : List ℕ × List ℕ}
    (h : unpackPositions m ne rp dp = some r) : r.1.length = rp.length := by
  induction ne generalizing rp dp with
  | zero =>
    obtain rfl := Option.some.inj h
    rfl
  | succ ne ih =>
    rcases dp with _ | ⟨k, dp⟩
    · cases h
    · rw [unpackPositions] at h
      rcases hd : grnDecByteCheck dp with err | ⟨v, dp'⟩
      · simp [hd] at h
      · rw [hd] at h
        exact (ih h).trans (List.length_set ..)

/-- `unpack` fills the memory it is given. -/
theorem length_unpack {rp dp : List ℕ} {r : List ℕ × List ℕ} (h : unpack rp dp = some r) :
    r.1.length = rp.length := by
  rcases dp with _ | ⟨w, dp⟩
  · cases h
  simp only [unpack] at h
  split_ifs at h
  · rcases dp with _ | ⟨ne, _ | ⟨k, dp⟩⟩
    · cases h
    · cases h
    · obtain ⟨s, hs, hr⟩ := Option.bind_eq_some_iff.mp h
      exact (length_unpackChain hr).trans (length_unpackSlots hs)
  · rcases dp with _ | ⟨ne, dp⟩
    · cases h
    · obtain ⟨s, hs, hr⟩ := Option.bind_eq_some_iff.mp h
      exact (length_unpackPositions hr).trans (length_unpackSlots hs)
  · exact length_unpackSlots h

end Groonga.Ii
