import Groonga.Ja.Runs

/-!
# Columns with compression

A value of a column with compression is stored behind eight bytes of metadata: its length, and a
flag that says whether it was not compressed because it is short. The library that compresses is a
parameter. When a value is put, what would be stored is compared with the old value, as it is after
decompression.
-/

namespace Groonga.Ja

open Lib

/-! ## The compressor -/

/-- `COMPRESSED_VALUE_METADATA_FLAG_RAW`. -/
def compressedValueMetadataFlagRaw : ℕ := 0x1000000000000000

/-- `COMPRESS_THRESHOLD_BYTE`. -/
def compressThresholdByte : ℕ := 256

/-- The functions of a library for one column. The decompression is told the length of the value.
`maxInputSize` is `LZ4_MAX_INPUT_SIZE` if the library is LZ4. -/
structure Compressor where
  compress : List UInt8 → Option (List UInt8)
  decompress : List UInt8 → ℕ → Option (List UInt8)
  maxInputSize : Option ℕ

/-- The library decompresses what it compressed. -/
def Compressor.Undoes (z : Compressor) : Prop :=
  ∀ value bytes, z.compress value = some bytes → z.decompress bytes value.length = some value

/-- The value is stored as it is. -/
def Compressor.packs (z : Compressor) (value : List UInt8) : Bool :=
  value.length < compressThresholdByte || z.maxInputSize.any (· < value.length)

/-- The metadata and the data. -/
def Compressor.form (z : Compressor) (value : List UInt8) : Option (List UInt8) :=
  if z.packs value then some (leBytes 8 (value.length + compressedValueMetadataFlagRaw) ++ value)
  else (z.compress value).map (leBytes 8 value.length ++ ·)

/-- `grn_compressor_compress`: the bytes and their length go to `packed_value` or to
`compressed_value`. The length has 32 bits. -/
def Compressor.grnCompressorCompress (z : Compressor) (value : List UInt8) : Option (List UInt8) :=
  (z.form value).map fun bytes => bytes.take (bytes.length % 0x100000000)

/-- `grn_compressor_decompress`. There is no value when there is no metadata. -/
def Compressor.grnCompressorDecompress (z : Compressor) (raw : List UInt8) : Option (List UInt8) :=
  if raw.length < 8 then none
  else
    let metadata := leNat (raw.take 8)
    if metadata / compressedValueMetadataFlagRaw % 2 = 1 then some (raw.drop 8)
    else z.decompress (raw.drop 8) (metadata % compressedValueMetadataFlagRaw % 0x100000000)

/-! ## The column -/

/-- The flags of a column: its compression, and `max_element_size` if it has
`GRN_OBJ_RING_BUFFER`. -/
structure Storage where
  compressor : Compressor
  ringBuffer : Option ℕ

/-- What is read when these bytes are stored. -/
def Storage.read (z : Storage) (raw : List UInt8) : Option (List UInt8) :=
  if raw = [] then some [] else z.compressor.grnCompressorDecompress raw

/-- `grn_ja_ref`. There is no result when the decompression fails. -/
def Storage.ref (z : Storage) (s : GrnJa) (id : ℕ) : Option (List UInt8) := z.read (s.refRaw id)

/-- The value is put with the position that a ring buffer has behind its bytes. -/
def Storage.rings (z : Storage) (value : List UInt8) : Bool := z.ringBuffer.any (· ≤ value.length)

/-- `set_value`. There is no result when more bytes are written than were allocated. With the
position of a ring buffer nothing is added to the log. -/
def Storage.setValue (z : Storage) (g : Config) (c : Ctx) (id : ℕ) (value : List UInt8) (einfo : ℕ) :
    Option (Bool × ℕ × Ctx) :=
  if value ≠ [] ∧ z.rings value then
    match alloc g c id ((value.length + 4) % 0x100000000) einfo with
    | (⟨false, einfo, _⟩, c) => some (false, einfo, c)
    | (⟨true, einfo, target⟩, c) =>
      if 0x100000000 ≤ value.length + 4 then none
      else if etinyP einfo then some (true, copyToEinfo einfo (value ++ [0, 0, 0, 0]), c)
      else some (true, einfo, { c with ja := copyTo c.ja target (value ++ [0, 0, 0, 0]) })
  else some (Ja.setValue g c id value einfo)

/-- `grn_ja_put_raw` with `GRN_OBJ_SET`. There is no result when the old value cannot be decompressed,
which is an error. -/
def Storage.putRaw (z : Storage) (g : Config) (c : Ctx) (id : ℕ) (value : List UInt8)
    (cas : Option ℕ) (stack : ℕ) : Option Ctx :=
  if value ≠ [] ∧ z.ref c.ja id = none then none
  else if value ≠ [] ∧ z.ref c.ja id = some value then some c
  else
    match z.setValue g c id value stack with
    | none => none
    | some (_, einfo, c) =>
      let c := replace g c id einfo cas
      if c.rc = .success then some c else some (free g c einfo)

/-- `grn_ja_put` with `GRN_OBJ_SET`. There is no result when the compression fails. -/
def Storage.put (z : Storage) (g : Config) (c : Ctx) (id : ℕ) (value : List UInt8)
    (cas : Option ℕ) (stack : ℕ) : Option Ctx :=
  if value = [] then z.putRaw g c id value cas stack
  else
    match z.compressor.grnCompressorCompress value with
    | none => none
    | some bytes => z.putRaw g c id bytes cas stack

variable {z : Storage} {g : Config} {L L' : Ledger} {c c' : Ctx} {s s' : GrnJa} {id e : ℕ}
  {value bytes packed : List UInt8} {cas : Option ℕ} {stack : ℕ}

/-! ## What is read again -/

theorem length_grnCompressorCompress (h : z.compressor.grnCompressorCompress value = some packed) :
    packed.length < 0x100000000 := by
  rw [Compressor.grnCompressorCompress] at h
  obtain ⟨bytes, -, rfl⟩ := Option.map_eq_some_iff.mp h
  rw [List.length_take]
  exact Nat.lt_of_le_of_lt (Nat.min_le_left _ _) (Nat.mod_lt _ (by decide))

/-- The metadata is read again. -/
theorem decompress_append (z : Compressor) {metadata : ℕ} (hlt : metadata < 256 ^ 8)
    (data : List UInt8) : z.grnCompressorDecompress (leBytes 8 metadata ++ data) =
      if metadata / compressedValueMetadataFlagRaw % 2 = 1 then some data
      else z.decompress data (metadata % compressedValueMetadataFlagRaw % 0x100000000) := by
  have hlen : (leBytes 8 metadata).length = 8 := length_leBytes 8 metadata
  have htake : (leBytes 8 metadata ++ data).take 8 = leBytes 8 metadata := List.take_left' hlen
  have hdrop : (leBytes 8 metadata ++ data).drop 8 = data := List.drop_left' hlen
  have hle : ¬ (leBytes 8 metadata ++ data).length < 8 := by
    rw [List.length_append, hlen]
    omega
  rw [Compressor.grnCompressorDecompress, if_neg hle]
  simp only [htake, hdrop, leNat_leBytes, Nat.mod_eq_of_lt hlt]

/-- **A value is read from its form.** -/
theorem decompress_form {z : Compressor} (hz : z.Undoes) (hlen : value.length < 0x100000000)
    (h : z.form value = some bytes) : z.grnCompressorDecompress bytes = some value := by
  have hpow : (256 : ℕ) ^ 8 = 0x10000000000000000 := by decide
  rw [Compressor.form] at h
  split_ifs at h with hpacks
  · obtain rfl := Option.some.inj h
    have hflag : (value.length + compressedValueMetadataFlagRaw) / compressedValueMetadataFlagRaw % 2 =
        1 := by
      unfold compressedValueMetadataFlagRaw
      omega
    rw [decompress_append z (by unfold compressedValueMetadataFlagRaw; omega), if_pos hflag]
  · obtain ⟨data, hdata, rfl⟩ := Option.map_eq_some_iff.mp h
    have hflag : ¬ value.length / compressedValueMetadataFlagRaw % 2 = 1 := by
      unfold compressedValueMetadataFlagRaw
      omega
    have hlength : value.length % compressedValueMetadataFlagRaw % 0x100000000 = value.length := by
      unfold compressedValueMetadataFlagRaw
      omega
    rw [decompress_append z (by omega), if_neg hflag, hlength]
    exact hz value data hdata

/-- The bytes that are stored when these bytes are put. -/
def Storage.stored (z : Storage) (bytes : List UInt8) : List UInt8 :=
  if bytes ≠ [] ∧ z.rings bytes then bytes ++ [0, 0, 0, 0] else bytes

/-- The form of the value is shorter than 4 GiB, and is not put with the position of a ring
buffer. -/
def Storage.Plain (z : Storage) (value : List UInt8) : Prop :=
  ∃ bytes, z.compressor.form value = some bytes ∧ bytes.length < 0x100000000 ∧ z.rings bytes = false

/-- **A plain value is stored in its form and read again.** -/
theorem Storage.Plain.read (hplain : z.Plain value) (hz : z.compressor.Undoes)
    (hlen : value.length < 0x100000000)
    (h : z.compressor.grnCompressorCompress value = some packed) : z.read (z.stored packed) = some value := by
  obtain ⟨bytes, hform, hlt, hring⟩ := hplain
  have hpacked : packed = bytes := by
    rw [Compressor.grnCompressorCompress, hform] at h
    have htake : bytes.take (bytes.length % 0x100000000) = packed := Option.some.inj h
    rw [← htake, Nat.mod_eq_of_lt hlt, List.take_length]
  subst hpacked
  have hread := decompress_form hz hlen hform
  have hne : packed ≠ [] := by
    rintro rfl
    cases hread
  rw [Storage.stored, hring, if_neg (fun hboth => Bool.false_ne_true hboth.2), Storage.read, if_neg hne]
  exact hread

/-! ## Puts -/

/-- **A value is put to a new place**, or there is an error. -/
theorem Storage.setValue_spec (hG : Good g c.ja L) (hhand : L.own hand = .none)
    (hlen : bytes.length < 0x100000000) {r : Bool × ℕ × Ctx}
    (hset : z.setValue g c id bytes stack = some r) :
    (∃ e c' L', r = (true, e, c') ∧ Moved g c c' L L' ∧ Ready g c'.ja L' e (z.stored bytes)) ∨
      r.2.2.rc ≠ .success := by
  rw [Storage.setValue] at hset
  rw [Storage.stored]
  by_cases hring : bytes ≠ [] ∧ z.rings bytes
  swap
  · rw [if_neg hring] at hset ⊢
    obtain rfl := Option.some.inj hset
    exact Ja.setValue_spec hG hhand hlen stack
  rw [if_pos hring] at hset ⊢
  have hspec : Allocated g ((bytes.length + 4) % 0x100000000) c L
      (alloc g c id ((bytes.length + 4) % 0x100000000) stack) :=
    alloc_spec hG hhand (Nat.mod_lt _ (by decide))
  generalize alloc g c id ((bytes.length + 4) % 0x100000000) stack = a at hspec hset
  obtain ⟨⟨ok, e, target⟩, c₁⟩ := a
  rcases hspec with ⟨hok, L', hmove, hplace, hspot⟩ | ⟨hok, hrc⟩
  · obtain rfl : ok = true := hok
    simp only at hplace hspot hmove hset
    by_cases hover : 0x100000000 ≤ bytes.length + 4
    · rw [if_pos hover] at hset
      cases hset
    rw [if_neg hover] at hset
    have hsize : (bytes.length + 4) % 0x100000000 = (bytes ++ [0, 0, 0, 0]).length := by
      rw [List.length_append, Nat.mod_eq_of_lt (by omega)]
      rfl
    rw [hsize] at hspot
    cases htiny : etinyP e with
    | true =>
      rw [htiny, if_pos rfl] at hset
      obtain rfl := Option.some.inj hset
      exact .inl ⟨_, c₁, L', rfl, hmove, hspot.ready_tiny hplace htiny _⟩
    | false =>
      rw [htiny, if_neg Bool.false_ne_true] at hset
      obtain rfl := Option.some.inj hset
      obtain ⟨hG', hk⟩ := hmove.good.copyTo hspot hplace
      exact .inl ⟨e, _, L', rfl, ⟨hG', hmove.keeps.trans hk hmove.own, hmove.own, hmove.rc,
        hmove.fails⟩, hspot.ready_copyTo hplace htiny _⟩
  · obtain rfl : ok = false := hok
    obtain rfl := Option.some.inj hset
    exact .inr hrc

/-- **Bytes are put and there is no error.** -/
theorem Storage.putRaw_spec (hG : Good g c.ja L) (hhand : L.own hand = .none) (hid : id < idLimit)
    (hlen : bytes.length < 0x100000000) (hput : z.putRaw g c id bytes cas stack = some c')
    (hrc : c'.rc = .success) :
    (bytes ≠ [] ∧ z.ref c.ja id = some bytes ∧ c' = c) ∨
      (¬ (bytes ≠ [] ∧ z.ref c.ja id = some bytes) ∧ Put g c.ja c'.ja id (z.stored bytes)) := by
  rw [Storage.putRaw] at hput
  split_ifs at hput with hnone hsame
  · exact .inl ⟨hsame.1, hsame.2, (Option.some.inj hput).symm⟩
  refine .inr ⟨hsame, ?_⟩
  cases hset : z.setValue g c id bytes stack with
  | none =>
    rw [hset] at hput
    cases hput
  | some r =>
    obtain ⟨ok, e, c₁⟩ := r
    have hput' : finish g c₁ id e cas = c' := by
      rw [finish]
      simp only [hset] at hput
      split_ifs at hput ⊢
      · exact Option.some.inj hput
      · exact Option.some.inj hput
    subst hput'
    rcases Storage.setValue_spec hG hhand hlen hset with ⟨e', c₂, L', heq, hmove, hready⟩ | hne
    · obtain ⟨-, rfl, rfl⟩ : ok = true ∧ e = e' ∧ c₁ = c₂ := by simpa using heq
      exact finish_spec hG hmove hready hid hrc
    · exact absurd hrc (finish_rc _ _ _ hne)

/-! ## Runs -/

/-- A put that succeeds. -/
def Storage.Puts (z : Storage) (g : Config) (s : GrnJa) (id : ℕ) (value : List UInt8) (s' : GrnJa) :
    Prop :=
  ∃ (c c' : Ctx) (cas : Option ℕ) (stack : ℕ), c.ja = s ∧ z.put g c id value cas stack = some c' ∧
    c'.rc = .success ∧ c'.ja = s'

/-- A column after puts that all succeeded. -/
inductive Storage.Reached (z : Storage) (g : Config) : GrnJa → Prop where
  | create : z.Reached g jaCreate
  | put (s s' : GrnJa) (id : ℕ) (value : List UInt8) (hreached : z.Reached g s) (hid : id < idLimit)
      (hlen : value.length < 0x100000000) (hput : z.Puts g s id value s') : z.Reached g s'

/-- The old value is what would be stored for the value, so that nothing is done. -/
def Storage.Skips (z : Storage) (s : GrnJa) (id : ℕ) (value : List UInt8) : Prop :=
  ∃ bytes, z.compressor.grnCompressorCompress value = some bytes ∧ bytes ≠ [] ∧ z.ref s id = some bytes

/-- One put of a value that is not empty. -/
theorem Storage.Puts.spec (hput : z.Puts g s id value s') (hG : Good g s L) (hhand : L.own hand = .none)
    (hid : id < idLimit) (hne : value ≠ []) :
    (z.Skips s id value ∧ s' = s) ∨ (¬ z.Skips s id value ∧
      ∃ bytes, z.compressor.grnCompressorCompress value = some bytes ∧ Put g s s' id (z.stored bytes)) := by
  obtain ⟨c, c', cas, stack, rfl, hput, hrc, rfl⟩ := hput
  rw [Storage.put, if_neg hne] at hput
  cases hcompress : z.compressor.grnCompressorCompress value with
  | none =>
    rw [hcompress] at hput
    cases hput
  | some bytes =>
    rw [hcompress] at hput
    have hlen := length_grnCompressorCompress hcompress
    rcases Storage.putRaw_spec hG hhand hid hlen hput hrc with ⟨hbytes, hsame, rfl⟩ | ⟨hnot, hspec⟩
    · exact .inl ⟨⟨bytes, hcompress, hbytes, hsame⟩, rfl⟩
    · refine .inr ⟨?_, bytes, rfl, hspec⟩
      rintro ⟨bytes', hcompress', hbytes, hsame⟩
      obtain rfl : bytes = bytes' := Option.some.inj (hcompress.symm.trans hcompress')
      exact hnot ⟨hbytes, hsame⟩

/-- **A reached column is good.** -/
theorem Storage.Reached.good (hreached : z.Reached g s) : ∃ L, Good g s L ∧ L.own hand = .none := by
  induction hreached with
  | create => exact ⟨.empty, good_jaCreate g, rfl⟩
  | put s s' id value _ hid hlen hput ih =>
    obtain ⟨L, hG, hhand⟩ := ih
    by_cases hne : value = []
    · obtain ⟨c, c', cas, stack, rfl, hput, hrc, rfl⟩ := hput
      rw [Storage.put, if_pos hne] at hput
      rcases Storage.putRaw_spec hG hhand hid hlen hput hrc with ⟨-, -, rfl⟩ | ⟨-, hspec⟩
      · exact ⟨L, hG, hhand⟩
      · exact hspec.good
    · rcases hput.spec hG hhand hid hne with ⟨-, rfl⟩ | ⟨-, bytes, -, hspec⟩
      · exact ⟨L, hG, hhand⟩
      · exact hspec.good

/-! ## Updates that are lost -/

/-- What is stored for the value is decompressed to the value: it is plain, or the library takes
bytes that were cut off or the position of a ring buffer for it. -/
def Storage.Restores (z : Storage) (value : List UInt8) : Prop :=
  z.Plain value ∨
    ∃ bytes, z.compressor.grnCompressorCompress value = some bytes ∧ z.read (z.stored bytes) = some value

/-- **When a value that was put is read again.** In every column that was reached, a put that
succeeds sets the value unless the old value is what would be stored for the new one and is another
value; what is stored must be decompressed to the value, as it always is when the value is plain. -/
theorem put_sets_iff (hz : z.compressor.Undoes) (hreached : z.Reached g s) (hid : id < idLimit)
    (hne : value ≠ []) (hlen : value.length < 0x100000000) (hput : z.Puts g s id value s') :
    z.ref s' id = some value ↔ (z.Skips s id value → z.ref s id = some value) ∧
      (¬ z.Skips s id value → z.Restores value) := by
  obtain ⟨L, hG, hhand⟩ := hreached.good
  rcases hput.spec hG hhand hid hne with ⟨hskip, rfl⟩ | ⟨hnot, bytes, hcompress, hspec⟩
  · exact ⟨fun h => ⟨fun _ => h, fun hnot => absurd hskip hnot⟩, fun h => h.1 hskip⟩
  · have href : z.ref s' id = z.read (z.stored bytes) := by
      rw [Storage.ref, hspec.value]
    rw [href]
    refine ⟨fun h => ⟨fun hskip => absurd hskip hnot, fun _ => .inr ⟨bytes, hcompress, h⟩⟩, fun h => ?_⟩
    rcases h.2 hnot with hplain | ⟨bytes', hcompress', hread⟩
    · exact hplain.read hz hlen hcompress
    · obtain rfl : bytes = bytes' := Option.some.inj (hcompress.symm.trans hcompress')
      exact hread

/-- A library that leaves the values as they are. -/
def Storage.verbatim : Storage := ⟨⟨some, fun bytes _ => some bytes, none⟩, none⟩

theorem undoes_verbatim : Storage.verbatim.compressor.Undoes := fun _ _ h => h.symm

/-- What is stored for the value with the only byte `a`. -/
def packedA : List UInt8 := [1, 0, 0, 0, 0, 0, 0, 0x10, 0x61]

/-- A record has the packed value. -/
def Ctx.packedSet : Option Ctx := Storage.verbatim.put .standard .created 1 packedA none 0

theorem reached_packedSet : ∃ c, Ctx.packedSet = some c ∧ c.rc = .success ∧
    Storage.verbatim.Reached .standard c.ja ∧ Storage.verbatim.ref c.ja 1 = some packedA := by
  have hrun : (Ctx.packedSet.map fun c => (c.rc, Storage.verbatim.ref c.ja 1)) =
      some (.success, some packedA) := by decide +kernel
  obtain ⟨c, hget, heq⟩ := Option.map_eq_some_iff.mp hrun
  obtain ⟨hrc, href⟩ := Prod.mk.inj heq
  exact ⟨c, hget, hrc, .put _ _ 1 packedA .create (by decide) (by decide)
    ⟨.created, c, none, 0, rfl, hget, hrc, rfl⟩, href⟩

/-- The value `a` is put where its packed form is the value: it is not set. -/
theorem put_loses_update : ¬ ∀ (z : Storage) (g : Config) (s : GrnJa) (id : ℕ) (value : List UInt8)
    (s' : GrnJa), z.compressor.Undoes → z.Reached g s → id < idLimit → value ≠ [] →
      value.length < 0x100000000 → z.Puts g s id value s' → z.ref s' id = some value := by
  intro h
  obtain ⟨c, -, hrc, hreached, href⟩ := reached_packedSet
  have hput : Storage.verbatim.put .standard c 1 [0x61] none 0 = some c := by
    have hcompress : Storage.verbatim.compressor.grnCompressorCompress [0x61] = some packedA := by
      decide +kernel
    rw [Storage.put, if_neg (by decide), hcompress]
    simp only
    rw [Storage.putRaw, href, if_neg (by simp), if_pos ⟨by decide, rfl⟩]
  have hread := h .verbatim .standard c.ja 1 [0x61] c.ja undoes_verbatim hreached (by decide)
    (by decide) (by decide) ⟨c, c, none, 0, rfl, hput, hrc, rfl⟩
  rw [href] at hread
  exact absurd (Option.some.inj hread) (by decide)

/-- The record of another value is set to `a`. -/
theorem put_sets_iff_verbatim : ∃ s', Storage.verbatim.Puts .standard jaCreate 1 [0x61] s' ∧
    Storage.verbatim.ref s' 1 = some [0x61] := by
  have hrun : ((Storage.verbatim.put .standard .created 1 [0x61] none 0).map Ctx.rc) = some .success := by
    decide +kernel
  obtain ⟨c, hget, hrc⟩ := Option.map_eq_some_iff.mp hrun
  have hput : Storage.verbatim.Puts .standard jaCreate 1 [0x61] c.ja :=
    ⟨.created, c, none, 0, rfl, hget, hrc, rfl⟩
  refine ⟨_, hput, (put_sets_iff undoes_verbatim .create (by decide) (by decide) (by decide) hput).mpr
    ⟨?_, fun _ => .inl ⟨packedA, by decide +kernel, by decide, by decide⟩⟩⟩
  rintro ⟨bytes, hcompress, hne, hsame⟩
  have hnil : Storage.verbatim.ref jaCreate 1 = some [] := by decide +kernel
  rw [hnil] at hsame
  exact absurd (Option.some.inj hsame).symm hne

end Groonga.Ja
