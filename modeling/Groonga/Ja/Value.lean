import Groonga.Lib.Memory
import Groonga.Lib.Binary32

/-!
# Values of variable size columns

A value that is read from a column is added behind what a value of the caller holds. The elements
of a vector of references or numbers are in its bytes one behind the other, each with its weight
behind it. Weights are floats in a value. A column for integer weights stores them as integers:
they are converted in place before a value is put and after one is read. The bytes of an element
of a column with `GRN_OBJ_RING_BUFFER` can be in the order of a ring.
-/

namespace Groonga.Ja

open Lib

/-! ## Values -/

/-- The types of a value. -/
inductive ObjType
  | bulk
  | uvector
  | vector
  deriving DecidableEq

/-- A `grn_obj` with bytes. `domainSize` is the `grn_type_id_size` of its domain, `wsize` is
`GRN_BULK_WSIZE` and `outp` is `GRN_BULK_OUTP`. The memory goes on behind the value. -/
structure GrnObj where
  type : ObjType
  domainSize : ℕ
  withWeight : Bool
  weightBfloat16 : Bool
  memory : ℕ → UInt8
  vsize : ℕ
  wsize : ℕ
  outp : Bool

/-- `GRN_BULK_BUFSIZE`. -/
def bulkBufsize : ℕ := 24

/-- `GRN_BULK_REST`. -/
def GrnObj.rest (o : GrnObj) : ℕ := o.wsize - o.vsize

/-- `grn_bulk_compute_new_size`, `grn_bulk_margin_size` is zero. -/
def GrnObj.computeNewSize (o : GrnObj) (newSize : ℕ) : ℕ :=
  if (o.outp ∨ newSize + 1 > bulkBufsize) ∧ newSize < 0xffffffff / 2 then newSize * 2 else newSize

/-- `grn_bulk_resize`. The bytes move to a place of the heap, `heap` is what is there. -/
def GrnObj.resize (heap : ℕ → UInt8) (o : GrnObj) (newSize : ℕ) : GrnObj :=
  if ¬o.outp ∧ newSize + 1 ≤ bulkBufsize then o
  else { o with
    memory := fun u => if u < o.vsize then o.memory u else heap u
    wsize := (newSize + 1 + 0xfff) / 0x1000 * 0x1000
    outp := true }

/-- A value with room for `len` bytes more. -/
def GrnObj.reserve (heap : ℕ → UInt8) (o : GrnObj) (len : ℕ) : GrnObj :=
  if o.rest < len then o.resize heap (o.computeNewSize (o.vsize + len)) else o

/-- `grn_bulk_write`. -/
def GrnObj.bulkWrite (heap : ℕ → UInt8) (o : GrnObj) (bytes : List UInt8) : GrnObj :=
  let o := o.reserve heap bytes.length
  if 0 < bytes.length then
    { o with memory := write o.memory o.vsize bytes, vsize := o.vsize + bytes.length }
  else o

/-- The bytes of a value. -/
def GrnObj.bytes (o : GrnObj) : List UInt8 := read o.memory 0 o.vsize

/-- `grn_weight_size`. -/
def weightSize (isBfloat16 : Bool) : ℕ := if isBfloat16 then 2 else 4

/-- `grn_uvector_element_size_internal`. -/
def GrnObj.elementSize (o : GrnObj) : ℕ :=
  o.domainSize + if o.withWeight then weightSize o.weightBfloat16 else 0

/-- `grn_uvector_size`, a number of 32 bits. -/
def GrnObj.uvectorSize (o : GrnObj) : ℕ := o.vsize / o.elementSize % 2 ^ 32

/-! ## Columns -/

/-- The flags of a column that reading and writing of its values look at, the
`grn_type_id_is_text_family` and the `grn_type_id_size` of its range, and its
`max_element_size`. -/
structure Column where
  vector : Bool
  withWeight : Bool
  weightFloat32 : Bool
  weightBfloat16 : Bool
  ringBuffer : Bool
  textRange : Bool
  rangeSize : ℕ
  maxElementSize : ℕ

/-- Whether the weights of the column are stored in another form than they have in a value. -/
def Column.convertsWeights (c : Column) : Bool :=
  c.withWeight && !(c.weightFloat32 || c.weightBfloat16)

/-- The loop of `grn_ja_pack_value` and of `grn_ja_unpack_value`: the last four bytes of each of the
first `n` elements from `a` on are converted. A weight that has no value in the other form ends
it. -/
def convertWeights (convert : ℕ → Option ℕ) (elementSize a : ℕ) :
    ℕ → (ℕ → UInt8) → Option (ℕ → UInt8)
  | 0, m => some m
  | n + 1, m => do
    let m ← convertWeights convert elementSize a n m
    let weightLocation := a + elementSize * n + (elementSize - 4)
    let weight ← convert (readNat m weightLocation 4)
    return writeNat m weightLocation 4 weight

/-- `grn_ja_pack_value`. -/
def packValue (c : Column) (value : GrnObj) : Option GrnObj :=
  if value.type ≠ .uvector ∨ ¬c.convertsWeights then some value
  else do
    let m ← convertWeights Binary32.toNat value.elementSize 0 value.uvectorSize value.memory
    return { value with memory := m }

/-- `grn_ja_unpack_value`. The number of elements is that of the whole value. -/
def unpackValue (c : Column) (value : GrnObj) (offset : ℕ) : Option GrnObj :=
  if value.type ≠ .uvector ∨ ¬c.convertsWeights then some value
  else do
    let m ← convertWeights (fun w => some (Binary32.ofNat w)) value.elementSize offset
      value.uvectorSize value.memory
    return { value with memory := m }

/-- The type of the value that `grn_ja_get_value` opens when the caller has none. -/
def Column.valueType (c : Column) : ObjType :=
  if c.vector then if c.textRange then .vector else .uvector else .bulk

/-- The value that `grn_ja_get_value` opens when the caller has none. -/
def Column.openValue (heap : ℕ → UInt8) (c : Column) : GrnObj where
  type := c.valueType
  domainSize := c.rangeSize
  withWeight := false
  weightBfloat16 := false
  memory := heap
  vsize := 0
  wsize := bulkBufsize
  outp := false

/-- A value with the flags for the weights of a column. -/
def GrnObj.withFlagsOf (value : GrnObj) (c : Column) : GrnObj :=
  if c.withWeight then
    { value with withWeight := true, weightBfloat16 := value.weightBfloat16 || c.weightBfloat16 }
  else value

/-- `grn_ja_get_value` for a value of the caller. `v` is what `grn_ja_ref` gives, nothing for
`NULL`, and `vectorUnpack` is `grn_vector_unpack` for the flags of the column. There is no result
when bytes outside of the element are read. -/
def getValue (heap : ℕ → ℕ → UInt8) (vectorUnpack : GrnObj → List UInt8 → GrnObj) (c : Column)
    (value : GrnObj) (v : List UInt8) : Option GrnObj :=
  let value := value.withFlagsOf c
  if v = [] then some value
  else if c.vector then
    if c.textRange then some (vectorUnpack value v)
    else unpackValue c (value.bulkWrite (heap 0) v) value.vsize
  else if c.ringBuffer ∧ c.maxElementSize < v.length then
    -- the position is behind the ring, in the last four bytes of the element
    if v.length < 4 then none
    else
      let el := v.length - 4
      let pos := leNat (v.drop el)
      if el < pos then none
      else
        let value := value.bulkWrite (heap 0) ((v.take el).drop pos)
        some (value.bulkWrite (heap 1) (v.take pos))
  else some (value.bulkWrite (heap 0) v)

/-! ## What is added to a value -/

section Write

variable {heap : ℕ → UInt8} {o : GrnObj} {bytes : List UInt8}

@[simp] theorem vsize_reserve (heap : ℕ → UInt8) (o : GrnObj) (len : ℕ) :
    (o.reserve heap len).vsize = o.vsize := by
  rw [GrnObj.reserve]
  split
  · rw [GrnObj.resize]
    split <;> rfl
  · rfl

/-- The memory of a value with room. -/
theorem reserve_memory (heap : ℕ → UInt8) (o : GrnObj) (len : ℕ) :
    (o.reserve heap len).memory =
      if o.rest < len then
        if ¬o.outp ∧ o.computeNewSize (o.vsize + len) + 1 ≤ bulkBufsize then o.memory
        else fun u => if u < o.vsize then o.memory u else heap u
      else o.memory := by
  rw [GrnObj.reserve]
  split
  · rw [GrnObj.resize]
    split <;> rfl
  · rfl

/-- Room does not change the bytes of a value. -/
theorem memory_reserve {len u : ℕ} (h : u < o.vsize) :
    (o.reserve heap len).memory u = o.memory u := by
  rw [reserve_memory]
  split
  · split
    · rfl
    · exact if_pos h
  · rfl

/-- Room does not change what kind of a value it is. -/
theorem kind_reserve (heap : ℕ → UInt8) (o : GrnObj) (len : ℕ) :
    (o.reserve heap len).type = o.type ∧
      (o.reserve heap len).elementSize = o.elementSize := by
  rw [GrnObj.reserve]
  split
  · rw [GrnObj.resize]
    split
    · exact ⟨rfl, rfl⟩
    · exact ⟨rfl, rfl⟩
  · exact ⟨rfl, rfl⟩

@[simp] theorem vsize_bulkWrite (heap : ℕ → UInt8) (o : GrnObj) (bytes : List UInt8) :
    (o.bulkWrite heap bytes).vsize = o.vsize + bytes.length := by
  rw [GrnObj.bulkWrite]
  split
  · show (o.reserve heap bytes.length).vsize + bytes.length = _
    rw [vsize_reserve]
  · rename_i h
    rw [vsize_reserve, Nat.eq_zero_of_not_pos h, Nat.add_zero]

/-- The memory after a write. -/
theorem memory_bulkWrite (heap : ℕ → UInt8) (o : GrnObj) (bytes : List UInt8) :
    (o.bulkWrite heap bytes).memory =
      write (o.reserve heap bytes.length).memory o.vsize bytes := by
  rw [GrnObj.bulkWrite]
  split
  · show write (o.reserve heap bytes.length).memory (o.reserve heap bytes.length).vsize bytes = _
    rw [vsize_reserve]
  · rename_i h
    funext u
    have hlen : bytes.length = 0 := Nat.eq_zero_of_not_pos h
    exact (write_of_not_mem (by omega)).symm

theorem kind_bulkWrite (heap : ℕ → UInt8) (o : GrnObj) (bytes : List UInt8) :
    (o.bulkWrite heap bytes).type = o.type ∧
      (o.bulkWrite heap bytes).elementSize = o.elementSize := by
  rw [GrnObj.bulkWrite]
  split
  · exact kind_reserve heap o bytes.length
  · exact kind_reserve heap o bytes.length

/-- What a value held before a write. -/
theorem read_bulkWrite_before {a n : ℕ} (h : a + n ≤ o.vsize) :
    read (o.bulkWrite heap bytes).memory a n = read o.memory a n := by
  refine read_congr fun u _ hu => ?_
  rw [memory_bulkWrite, write_of_not_mem (by omega), memory_reserve (by omega)]

/-- What is written to a value. -/
theorem read_bulkWrite (heap : ℕ → UInt8) (o : GrnObj) (bytes : List UInt8) :
    read (o.bulkWrite heap bytes).memory o.vsize bytes.length = bytes := by
  rw [memory_bulkWrite]
  exact read_write _ _ _

/-- **The bytes of a value after a write.** -/
theorem bytes_bulkWrite (heap : ℕ → UInt8) (o : GrnObj) (bytes : List UInt8) :
    (o.bulkWrite heap bytes).bytes = o.bytes ++ bytes := by
  rw [GrnObj.bytes, vsize_bulkWrite, read_add, Nat.zero_add, read_bulkWrite,
    read_bulkWrite_before (by omega)]
  rfl

end Write

end Groonga.Ja
