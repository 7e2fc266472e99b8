import Groonga.Ja.Segments

/-!
# What the records hold

An element info that is encoded is decoded again. The bytes of a value depend only on the bytes of
its place. So a record holds its value as long as its element info and the bytes of its place are
as they were, and this is what the steps of the store are proved to keep.
-/

namespace Groonga.Ja

open Lib

variable {g : Config} {h h' : Header} {gi gi' : ℕ → GInfo} {L L' : Ledger} {mem mem' : ℕ → ℕ → UInt8}
  {e seg pos size : ℕ}

/-! ## Element infos -/

theorem c7_etinyEnc (he : size < 8) : c7 (etinyEnc e size) = size + 0x80 := by
  rw [c7, etinyEnc]
  omega

theorem etinyP_etinyEnc (he : size < 8) : etinyP (etinyEnc e size) = true := by
  rw [etinyP, c7_etinyEnc he]
  simp only [decide_eq_true_eq]
  omega

theorem ehugeEnc_spec (hseg : seg < 0x10000) (hsize : size < 0x100000000) :
    etinyP (ehugeEnc seg size) = false ∧ ehugeP (ehugeEnc seg size) = true ∧
      ehugeDec (ehugeEnc seg size) = (seg, size) := by
  have hc7 : c7 (ehugeEnc seg size) = 0x40 := by
    rw [c7, ehugeEnc]
    omega
  refine ⟨?_, ?_, ?_⟩
  · rw [etinyP, hc7]
    rfl
  · rw [ehugeP, hc7]
    rfl
  · rw [ehugeDec, ehugeEnc, Prod.mk.injEq]
    omega

/-- The parts of an element info that is encoded. -/
theorem einfoEnc_eq {p₀ p₁ z₀ z₁ : ℕ} (hseg : seg < 0x10000) (hp₀ : p₀ < 0x10000) (hp₁ : p₁ < 0x100)
    (hz₀ : z₀ < 0x10000) (hz₁ : z₁ < 0x100) :
    einfoEnc seg (p₀ + 0x10000 * p₁) (z₀ + 0x10000 * z₁) =
      seg + p₀ * 0x10000 + z₀ * 0x100000000 + p₁ * 0x1000000000000 + z₁ * 0x100000000000000 := by
  have hmod : ∀ {a b : ℕ}, a < 0x10000 → (a + 0x10000 * b) % 0x10000 = a := by omega
  have hdiv : ∀ {a b : ℕ}, a < 0x10000 → (a + 0x10000 * b) / 0x10000 = b := by omega
  rw [einfoEnc, hmod hp₀, hdiv hp₀, hmod hz₀, hdiv hz₀, Nat.mod_eq_of_lt hseg, Nat.mod_eq_of_lt hp₁,
    Nat.mod_eq_of_lt hz₁]

theorem einfoEnc_spec (hseg : seg < 0x10000) (hpos : pos < 0x1000000) (hsize : size < 0x400000) :
    etinyP (einfoEnc seg pos size) = false ∧ ehugeP (einfoEnc seg pos size) = false ∧
      einfoDec (einfoEnc seg pos size) = (seg, pos, size) := by
  obtain ⟨p₀, p₁, hp₀, hp₁, rfl⟩ : ∃ p₀ p₁, p₀ < 0x10000 ∧ p₁ < 0x100 ∧ pos = p₀ + 0x10000 * p₁ :=
    ⟨pos % 0x10000, pos / 0x10000, by omega, by omega, by omega⟩
  obtain ⟨z₀, z₁, hz₀, hz₁, rfl⟩ : ∃ z₀ z₁, z₀ < 0x10000 ∧ z₁ < 0x40 ∧ size = z₀ + 0x10000 * z₁ :=
    ⟨size % 0x10000, size / 0x10000, by omega, by omega, by omega⟩
  have heq := einfoEnc_eq hseg hp₀ hp₁ hz₀ (show z₁ < 0x100 by omega)
  have hc7 : c7 (einfoEnc seg (p₀ + 0x10000 * p₁) (z₀ + 0x10000 * z₁)) = z₁ := by
    rw [heq, c7]
    omega
  refine ⟨?_, ?_, ?_⟩
  · rw [etinyP, hc7]
    simp only [decide_eq_false_iff_not]
    omega
  · rw [ehugeP, hc7]
    simp only [decide_eq_false_iff_not]
    omega
  · rw [einfoDec, hc7, heq, Prod.mk.injEq, Prod.mk.injEq]
    refine ⟨?_, ?_, ?_⟩
    · omega
    · omega
    · omega

/-! ## The bytes of a value -/

/-- Bytes within one segment. -/
theorem winRead_within (mem : ℕ → ℕ → UInt8) (seg : ℕ) (h : pos + size ≤ segmentSize) :
    winRead mem seg pos size = read (mem seg) pos size := by
  refine List.map_congr_left fun i hi => ?_
  have hlt : pos + i < segmentSize := by
    have := List.mem_range.mp hi
    omega
  rw [Nat.div_eq_of_lt hlt, Nat.mod_eq_of_lt hlt, Nat.add_zero]

/-- An element info whose value is inside of it, or whose segments are as many as its size needs. If
it has no value, it refers to the first segment. -/
structure Whole (e : ℕ) : Prop where
  tiny : etinyP e = true → etinyDec e < 8
  huge : etinyP e = false → ehugeP e = true →
    (ehugeDec e).2 ≤ computeHugeNSegments (ehugeDec e).2 * segmentSize
  empty : etinyP e = false → ehugeP e = false → (einfoDec e).2.2 = 0 → (einfoDec e).1 = 0

theorem whole_zero : Whole 0 := ⟨fun htiny => (Bool.false_ne_true htiny).elim,
  fun _ hhuge => (Bool.false_ne_true hhuge).elim, fun _ _ _ => rfl⟩

/-- A chunk is as large as its values. -/
theorem le_chunk {g : Config} (hchunk : g.detectElementType size = .chunk) :
    size ≤ 2 ^ (chunkVariation size + 3) := by
  have hsize : 8 ≤ size := by
    by_contra hlt
    rw [Config.detectElementType, if_pos (by omega)] at hchunk
    cases hchunk
  have hlt : size - 1 < 2 ^ (Nat.log2 (size - 1) + 1) := Nat.lt_log2_self
  have hthree : 3 ≤ computeChunkMsb size := by
    by_contra hmsb
    have hle : Nat.log2 (size - 1) + 1 ≤ 2 := by
      rw [computeChunkMsb] at hmsb
      omega
    have hpow := Nat.pow_le_pow_right (show 0 < 2 by decide) hle
    omega
  rw [chunkVariation, wEinfo, Nat.sub_add_cancel hthree, computeChunkMsb]
  omega

/-- **The bytes of a value are those of its place.** -/
theorem valueAt_congr (hfits : (place g e).Fits g h) (hwhole : Whole e)
    (hsame : ∀ x u, (place g e).Has x u → mem x u = mem' x u) : valueAt mem e = valueAt mem' e := by
  rw [place] at hfits hsame
  rw [valueAt, valueAt]
  cases htiny : etinyP e with
  | true => rfl
  | false =>
    simp only [htiny, Bool.false_eq_true, if_false] at hfits hsame ⊢
    cases hhuge : ehugeP e with
    | true =>
      simp only [hhuge, if_true] at hfits hsame ⊢
      refine List.map_congr_left fun i hi => hsame _ _ ?_
      have hlt := List.mem_range.mp hi
      have hle := hwhole.huge htiny hhuge
      refine ⟨Nat.le_add_right _ _, Nat.add_lt_add_left ?_ _⟩
      rw [Nat.zero_add]
      exact Nat.div_lt_of_lt_mul (Nat.lt_of_lt_of_le hlt (Nat.mul_comm _ _ ▸ hle))
    | false =>
      simp only [hhuge, Bool.false_eq_true, if_false] at hfits hsame ⊢
      generalize einfoDec e = d at hfits hsame ⊢
      obtain ⟨seg, pos, size⟩ := d
      simp only at hfits hsame ⊢
      split_ifs at hfits hsame with hzero hchunk
      · rw [hzero]
        rfl
      · have hle := add_chunk_le hfits.1 hfits.2.aligned hfits.2.pos_lt
        have hsize := le_chunk hchunk
        simp only at hle
        rw [winRead_within mem seg (by omega), winRead_within mem' seg (by omega)]
        exact read_congr fun u hu hu' =>
          hsame seg u ⟨rfl, hu, Nat.lt_of_lt_of_le hu' (Nat.add_le_add_left hsize _)⟩
      · obtain ⟨-, -, -, -, -, hend⟩ := hfits
        have hsize : size ≤ computeSequenceAlignedElementSize size := by
          rw [computeSequenceAlignedElementSize]
          omega
        rw [winRead_within mem seg (by omega), winRead_within mem' seg (by omega)]
        exact read_congr fun u hu hu' => hsame seg u ⟨rfl, by omega, by omega⟩

/-! ## A value that is copied to its place -/

/-- An element info and where the value of its size goes. -/
inductive Spot (size : ℕ) : ℕ → Target → Prop where
  | tiny (e : ℕ) (hsize : size < 8) : Spot size (etinyEnc e size) .tiny
  | within (seg pos : ℕ) (hseg : seg < 0x10000) (hend : pos + size ≤ segmentSize)
      (hsize : size < 0x400000) (hpos : 0 < size) : Spot size (einfoEnc seg pos size) (.within seg pos)
  | huge (seg : ℕ) (hseg : seg < 0x10000) (hsize : size < 0x100000000)
      (hwhole : size ≤ computeHugeNSegments size * segmentSize) :
      Spot size (ehugeEnc seg size) (.huge seg)

/-- The element info that is set for a value with a place. -/
def filled (e : ℕ) (value : List UInt8) : ℕ := if etinyP e then copyToEinfo e value else e

variable {value : List UInt8} {target : Target} {s : GrnJa}

/-- The last byte of an element info. -/
theorem c7_eq (e : ℕ) : some (UInt8.ofNat (c7 e)) = (leBytes 8 e)[7]? := by
  rw [getElem?_leBytes e (by decide), c7]
  congr 1
  apply UInt8.toNat_inj.mp
  rw [UInt8.toNat_ofNat', UInt8.toNat_ofNat']
  norm_num

/-- The bytes of an element info with a value. -/
theorem leBytes_copyToEinfo (e : ℕ) (h : value.length ≤ 8) :
    leBytes 8 (copyToEinfo e value) = value ++ (leBytes 8 e).drop value.length := by
  have hlen : (value ++ (leBytes 8 e).drop value.length).length = 8 := by
    rw [List.length_append, List.length_drop, length_leBytes]
    omega
  have hbytes := leBytes_leNat (value ++ (leBytes 8 e).drop value.length)
  rwa [hlen] at hbytes

/-- A value of up to seven bytes does not reach the last byte of the element info. -/
theorem c7_copyToEinfo (e : ℕ) (h : value.length < 8) : c7 (copyToEinfo e value) = c7 e := by
  have hlast : some (UInt8.ofNat (c7 (copyToEinfo e value))) = some (UInt8.ofNat (c7 e)) := by
    rw [c7_eq, c7_eq, leBytes_copyToEinfo e (by omega), List.getElem?_append_right (by omega),
      List.getElem?_drop]
    congr 1
    omega
  have htoNat := congrArg UInt8.toNat (Option.some.inj hlast)
  rw [UInt8.toNat_ofNat', UInt8.toNat_ofNat', c7, c7] at htoNat
  rw [c7, c7]
  omega

/-- A huge value is read again. -/
theorem winRead_winWrite (mem : ℕ → ℕ → UInt8) (seg : ℕ) (value : List UInt8) :
    winRead (winWrite mem seg value) seg 0 value.length = value := by
  refine List.ext_getElem (by simp [winRead]) fun i h₁ h₂ => ?_
  have hpos : 0 < segmentSize := by decide
  have hdiv : i / segmentSize * segmentSize + i % segmentSize = i := Nat.div_add_mod' i segmentSize
  simp only [winRead, List.getElem_map, List.getElem_range, Nat.zero_add, winWrite,
    Nat.add_sub_cancel_left, hdiv]
  rw [if_pos ⟨Nat.le_add_right _ _, Nat.mod_lt _ hpos, h₂⟩, List.getD_eq_getElem?_getD,
    List.getElem?_eq_getElem h₂, Option.getD_some]

/-- **A value is read from the place that it was copied to.** -/
theorem Spot.valueAt_copyTo (hspot : Spot value.length e target) :
    valueAt (copyTo s target value).memory (filled e value) = value := by
  cases hspot with
  | tiny e hsize =>
    have hc7 := @c7_copyToEinfo value (etinyEnc e value.length) hsize
    rw [filled, if_pos (etinyP_etinyEnc hsize), valueAt, etinyP, hc7, ← etinyP,
      if_pos (etinyP_etinyEnc hsize), leBytes_copyToEinfo _ (by omega), etinyDec, hc7,
      c7_etinyEnc hsize]
    have hmod : (value.length + 0x80) % 0x40 = value.length := by omega
    rw [hmod, List.take_left]
  | within seg pos hseg hend hsize hsome =>
    have hpos : pos < 0x1000000 := by
      unfold segmentSize at hend
      omega
    obtain ⟨htiny, hhuge, hdec⟩ := einfoEnc_spec hseg hpos hsize
    rw [filled, htiny, if_neg Bool.false_ne_true, valueAt, htiny, if_neg Bool.false_ne_true, hhuge,
      if_neg Bool.false_ne_true, hdec]
    simp only [copyTo, GrnJa.modify]
    rw [winRead_within _ _ hend, Function.update_self]
    exact read_write _ _ _
  | huge seg hseg hsize hwhole =>
    obtain ⟨htiny, hhuge, hdec⟩ := ehugeEnc_spec hseg hsize
    rw [filled, htiny, if_neg Bool.false_ne_true, valueAt, htiny, if_neg Bool.false_ne_true, hhuge,
      if_pos rfl, hdec]
    exact winRead_winWrite _ _ _

end Groonga.Ja
