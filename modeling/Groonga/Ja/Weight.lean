import Groonga.Ja.Value

/-!
# Vectors with integer weights

The elements of a vector with weights are stored as the bytes of a reference or a number and the
weight as an integer. A value that is read holds the elements that it held, the stored ones behind
them, and the same bytes behind its end, when the loop that converts the weights runs over the
stored elements. It runs from the first of them, but over as many elements as the whole value
holds.
-/

namespace Groonga.Ja

open Lib

/-! ## Elements -/

/-- An element of a vector with integer weights, as it is stored. -/
structure Element (size : ℕ) where
  value : List UInt8
  weight : ℕ
  length_value : value.length = size
  weight_lt : weight < 2 ^ 32

/-- The bytes of stored elements. -/
def storedBytes {size : ℕ} (elements : List (Element size)) : List UInt8 :=
  elements.flatMap fun e => e.value ++ leBytes 4 e.weight

section Elements

variable {size : ℕ}

@[simp] theorem length_storedBytes (elements : List (Element size)) :
    (storedBytes elements).length = (size + 4) * elements.length := by
  induction elements with
  | nil => rfl
  | cons e elements ih =>
    rw [storedBytes, List.flatMap_cons] at *
    rw [List.length_append, List.length_append, ih, length_leBytes, e.length_value,
      List.length_cons, Nat.mul_succ, Nat.add_comm]

/-- **The elements are read from their bytes.** -/
theorem read_elements {m : ℕ → UInt8} {elements : List (Element size)} {a : ℕ}
    (h : read m a (storedBytes elements).length = storedBytes elements) (i : ℕ)
    (hi : i < elements.length) :
    read m (a + (size + 4) * i) size = elements[i].value ∧
      readNat m (a + (size + 4) * i + size) 4 = elements[i].weight := by
  induction elements generalizing a i with
  | nil => exact absurd hi (Nat.not_lt_zero i)
  | cons e elements ih =>
    have hcons : storedBytes (e :: elements) =
        e.value ++ (leBytes 4 e.weight ++ storedBytes elements) := by
      rw [storedBytes, List.flatMap_cons, List.append_assoc]
      rfl
    have hlen : (storedBytes (e :: elements)).length =
        size + (4 + (storedBytes elements).length) := by
      rw [hcons, List.length_append, List.length_append, length_leBytes, e.length_value]
    rw [hlen, hcons, read_add, read_add] at h
    obtain ⟨hvalue, h⟩ := List.append_inj h (by rw [length_read, e.length_value])
    obtain ⟨hweight, hrest⟩ := List.append_inj h (by rw [length_read, length_leBytes])
    cases i with
    | zero =>
      rw [Nat.mul_zero, Nat.add_zero]
      refine ⟨hvalue, ?_⟩
      rw [readNat, hweight, leNat_leBytes]
      exact Nat.mod_eq_of_lt (Nat.lt_of_lt_of_le e.weight_lt (by decide))
    | succ i =>
      have hrest := ih (a := a + size + 4) hrest i (Nat.lt_of_succ_lt_succ hi)
      have hat : a + size + 4 + (size + 4) * i = a + (size + 4) * (i + 1) := by
        rw [Nat.mul_succ]
        omega
      rwa [hat] at hrest

/-- Bytes of elements are equal when the values and the weights are. -/
theorem read_eq_of_elements {m m' : ℕ → UInt8} {a b n : ℕ}
    (h : ∀ i < n, read m (a + (size + 4) * i) size = read m' (b + (size + 4) * i) size ∧
      readNat m (a + (size + 4) * i + size) 4 = readNat m' (b + (size + 4) * i + size) 4) :
    read m a ((size + 4) * n) = read m' b ((size + 4) * n) := by
  induction n with
  | zero => rfl
  | succ n ih =>
    obtain ⟨hvalue, hweight⟩ := h n (Nat.lt_succ_self n)
    have hbytes : read m (a + (size + 4) * n + size) 4 = read m' (b + (size + 4) * n + size) 4 := by
      rw [← leBytes_readNat, hweight, leBytes_readNat]
    rw [Nat.mul_succ, read_add, read_add, ih fun i hi => h i (Nat.lt_succ_of_lt hi), read_add,
      read_add m', hvalue, hbytes]

end Elements

/-! ## The loop -/

section Loop

variable {convert : ℕ → Option ℕ} {size a n : ℕ} {m : ℕ → UInt8}

/-- The weights of elements are apart. -/
theorem weight_apart {i j : ℕ} (h : i < j) :
    a + (size + 4) * i + size + 4 ≤ a + (size + 4) * j + size := by
  have hle : (size + 4) * (i + 1) ≤ (size + 4) * j := Nat.mul_le_mul_left _ h
  rw [Nat.mul_succ] at hle
  omega

/-- The value of an element is apart from all weights. -/
theorem value_apart {i u : ℕ} (hle : a + (size + 4) * i ≤ u)
    (hlt : u < a + (size + 4) * i + size) (j : ℕ) :
    u < a + (size + 4) * j + size ∨ a + (size + 4) * j + size + 4 ≤ u := by
  rcases Nat.lt_or_ge j i with hji | hij
  · have hapart : a + (size + 4) * j + size + 4 ≤ a + (size + 4) * i + size := weight_apart hji
    have hmul : (size + 4) * (j + 1) ≤ (size + 4) * i := Nat.mul_le_mul_left _ hji
    rw [Nat.mul_succ] at hmul
    omega
  · have hmul : (size + 4) * i ≤ (size + 4) * j := Nat.mul_le_mul_left _ hij
    omega

/-- **The loop converts the weights that it runs over and leaves the other bytes.** -/
theorem convertWeights_spec
    (h : ∀ i < n, ∃ w, convert (readNat m (a + (size + 4) * i + size) 4) = some w) :
    ∃ m', convertWeights convert (size + 4) a n m = some m' ∧
      (∀ i < n, ∀ w, convert (readNat m (a + (size + 4) * i + size) 4) = some w →
        readNat m' (a + (size + 4) * i + size) 4 = w % 2 ^ 32) ∧
      ∀ u, (∀ i < n, u < a + (size + 4) * i + size ∨ a + (size + 4) * i + size + 4 ≤ u) →
        m' u = m u := by
  induction n with
  | zero => exact ⟨m, rfl, fun i hi => absurd hi (Nat.not_lt_zero i), fun u _ => rfl⟩
  | succ n ih =>
    obtain ⟨m₁, hm₁, hconverted, hother⟩ := ih fun i hi => h i (Nat.lt_succ_of_lt hi)
    obtain ⟨w, hw⟩ := h n (Nat.lt_succ_self n)
    have hat : readNat m₁ (a + (size + 4) * n + size) 4 =
        readNat m (a + (size + 4) * n + size) 4 :=
      readNat_congr fun u hu _ => hother u fun i hi => by
        have hapart : a + (size + 4) * i + size + 4 ≤ a + (size + 4) * n + size := weight_apart hi
        omega
    refine ⟨writeNat m₁ (a + (size + 4) * n + size) 4 w, ?_, ?_, ?_⟩
    · simp only [convertWeights, hm₁, Option.bind_eq_bind, Option.bind_some, Nat.add_sub_cancel,
        hat, hw]
      rfl
    · intro i hi w' hw'
      rcases Nat.lt_or_eq_of_le (Nat.le_of_lt_succ hi) with hlt | rfl
      · rw [readNat_writeNat_of_apart (Or.inl (weight_apart hlt))]
        exact hconverted i hlt w' hw'
      · have hpow : (256 : ℕ) ^ 4 = 2 ^ 32 := by decide
        rw [Option.some.inj (hw.symm.trans hw'), ← hpow]
        exact readNat_writeNat _ _ _ _
    · intro u hu
      rw [writeNat, write_of_not_mem, hother u fun i hi => hu i (Nat.lt_succ_of_lt hi)]
      rw [length_leBytes]
      exact hu n (Nat.lt_succ_self n)

end Loop

/-! ## Columns and values -/

/-- A vector column of references or numbers with integer weights. -/
structure Column.IntegerWeights (c : Column) : Prop where
  vector : c.vector = true
  fixed : c.textRange = false
  withWeight : c.withWeight = true
  float32 : c.weightFloat32 = false
  bfloat16 : c.weightBfloat16 = false

/-- A value that holds `k` elements of the column. -/
structure GrnObj.Holds (v : GrnObj) (c : Column) (k : ℕ) : Prop where
  uvector : v.type = .uvector
  domain : v.domainSize = c.rangeSize
  float32 : v.weightBfloat16 = false
  vsize : v.vsize = (c.rangeSize + 4) * k

/-- What reading of stored elements into a value has to do. `roomy` is the value with room for
them and `v'` is the value after it. -/
structure Appends (c : Column) (elements : List (Element c.rangeSize)) (v roomy v' : GrnObj) :
    Prop where
  size : v'.vsize = v.vsize + (c.rangeSize + 4) * elements.length
  kept : read v'.memory 0 v.vsize = v.bytes
  values : ∀ i (h : i < elements.length),
    read v'.memory (v.vsize + (c.rangeSize + 4) * i) c.rangeSize = elements[i].value
  weights : ∀ i (h : i < elements.length),
    readNat v'.memory (v.vsize + (c.rangeSize + 4) * i + c.rangeSize) 4 =
      Binary32.ofNat elements[i].weight
  behind : ∀ u, v'.vsize ≤ u → v'.memory u = roomy.memory u
  /-- a value whose weights are exact in both forms comes back when the elements are what
  `packValue` makes of it -/
  undoes : ∀ u : GrnObj, u.Holds c elements.length → u.withWeight = true →
    (∀ i < elements.length, ∃ w, Binary32.Exact w ∧
      readNat u.memory ((c.rangeSize + 4) * i + c.rangeSize) 4 = Binary32.ofNat w) →
    ∃ u', packValue c u = some u' ∧
      (u'.bytes = storedBytes elements → read v'.memory v.vsize u.vsize = u.bytes)

/-- The loop runs over `loops` elements from the `n`-th last on: the stored weights that it leaves
and the words behind the value that it reaches are the same in both forms. -/
structure NoHarm (c : Column) (elements : List (Element c.rangeSize)) (v roomy : GrnObj)
    (loops : ℕ) : Prop where
  left : ∀ i (h : i < elements.length), loops ≤ i →
    Binary32.ofNat elements[i].weight = elements[i].weight
  reached : ∀ i, elements.length ≤ i → i < loops →
    Binary32.ofNat (readNat roomy.memory (v.vsize + (c.rangeSize + 4) * i + c.rangeSize) 4) =
      readNat roomy.memory (v.vsize + (c.rangeSize + 4) * i + c.rangeSize) 4

section Column

variable {c : Column} {elements : List (Element c.rangeSize)} {v : GrnObj} {k : ℕ}
  {heap : ℕ → ℕ → UInt8} {vectorUnpack : GrnObj → List UInt8 → GrnObj}

theorem Column.IntegerWeights.convertsWeights (hc : c.IntegerWeights) :
    c.convertsWeights = true := by
  rw [Column.convertsWeights, hc.withWeight, hc.float32, hc.bfloat16]
  rfl

theorem GrnObj.Holds.elementSize (hv : v.Holds c k) (hweight : v.withWeight = true) :
    v.elementSize = c.rangeSize + 4 := by
  rw [GrnObj.elementSize, hv.domain, if_pos hweight, hv.float32]
  rfl

theorem GrnObj.Holds.uvectorSize (hv : v.Holds c k) (hweight : v.withWeight = true) :
    v.uvectorSize = k % 2 ^ 32 := by
  rw [GrnObj.uvectorSize, hv.elementSize hweight, hv.vsize, Nat.mul_div_cancel_left _ (by omega)]

/-- **Exact weights are put as the integers that they are.** -/
theorem packValue_exact (hc : c.IntegerWeights) (hv : v.Holds c k) (hweight : v.withWeight = true)
    (hk : k < 2 ^ 32)
    (hexact : ∀ i < k, ∃ w, Binary32.Exact w ∧
      readNat v.memory ((c.rangeSize + 4) * i + c.rangeSize) 4 = Binary32.ofNat w) :
    ∃ v', packValue c v = some v' ∧ v'.vsize = v.vsize ∧
      (∀ i < k, read v'.memory ((c.rangeSize + 4) * i) c.rangeSize =
        read v.memory ((c.rangeSize + 4) * i) c.rangeSize) ∧
      ∀ i < k, ∀ w, Binary32.Exact w →
        readNat v.memory ((c.rangeSize + 4) * i + c.rangeSize) 4 = Binary32.ofNat w →
        readNat v'.memory ((c.rangeSize + 4) * i + c.rangeSize) 4 = w := by
  obtain ⟨m', hm', hconverted, hother⟩ :=
    @convertWeights_spec Binary32.toNat c.rangeSize 0 k v.memory fun i hi => by
      obtain ⟨w, hw, hread⟩ := hexact i hi
      exact ⟨w, by rw [Nat.zero_add, hread, Binary32.toNat_ofNat hw]⟩
  refine ⟨{ v with memory := m' }, ?_, rfl, ?_, ?_⟩
  · rw [packValue, if_neg, hv.elementSize hweight, hv.uvectorSize hweight, Nat.mod_eq_of_lt hk, hm']
    · rfl
    · rintro (h | h)
      · exact h hv.uvector
      · exact h hc.convertsWeights
  · intro i _
    refine read_congr fun u hu hu' => hother u fun j _ => ?_
    exact @value_apart c.rangeSize 0 i u (by omega) (by omega) j
  · intro i hi w hw hread
    have hto := hconverted i hi w (by rw [Nat.zero_add, hread, Binary32.toNat_ofNat hw])
    rw [Nat.zero_add, Nat.mod_eq_of_lt hw.1] at hto
    exact hto

/-! ## Reading -/

/-- The weights of `loops` elements from `offset` on are converted, and nothing else. -/
structure Converted (c : Column) (offset loops : ℕ) (before after : GrnObj) : Prop where
  weights : ∀ i < loops,
    readNat after.memory (offset + (c.rangeSize + 4) * i + c.rangeSize) 4 =
      Binary32.ofNat (readNat before.memory (offset + (c.rangeSize + 4) * i + c.rangeSize) 4)
  other : ∀ u, (∀ i < loops, u < offset + (c.rangeSize + 4) * i + c.rangeSize ∨
      offset + (c.rangeSize + 4) * i + c.rangeSize + 4 ≤ u) →
    after.memory u = before.memory u

@[simp] theorem withFlagsOf_memory (v : GrnObj) (c : Column) :
    (v.withFlagsOf c).memory = v.memory := by
  rw [GrnObj.withFlagsOf]
  split <;> rfl

@[simp] theorem withFlagsOf_vsize (v : GrnObj) (c : Column) :
    (v.withFlagsOf c).vsize = v.vsize := by
  rw [GrnObj.withFlagsOf]
  split <;> rfl

theorem withFlagsOf_withWeight (hc : c.IntegerWeights) : (v.withFlagsOf c).withWeight = true := by
  rw [GrnObj.withFlagsOf, if_pos hc.withWeight]

/-- The flags of a column keep what a value holds. -/
theorem GrnObj.Holds.withFlagsOf (hv : v.Holds c k) (hc : c.IntegerWeights) :
    (v.withFlagsOf c).Holds c k := by
  rw [GrnObj.withFlagsOf, if_pos hc.withWeight]
  exact ⟨hv.uvector, hv.domain, by simp [hv.float32, hc.bfloat16], hv.vsize⟩

theorem reserve_withFlagsOf (heap : ℕ → UInt8) (v : GrnObj) (c : Column) (len : ℕ) :
    ((v.withFlagsOf c).reserve heap len).memory = (v.reserve heap len).memory := by
  rw [GrnObj.withFlagsOf]
  split
  · rw [reserve_memory, reserve_memory]
    rfl
  · rfl

/-- **What reading of stored elements does to a value.** The loop runs over the number of elements
that the value holds with the stored ones. -/
theorem getValue_elements (hc : c.IntegerWeights) (hv : v.Holds c k) (hne : elements ≠ [])
    (loops : ℕ) (hloops : loops = (k + elements.length) % 2 ^ 32) :
    ∃ v', getValue heap vectorUnpack c v (storedBytes elements) = some v' ∧
      v'.vsize = v.vsize + (c.rangeSize + 4) * elements.length ∧
      Converted c v.vsize loops (v.bulkWrite (heap 0) (storedBytes elements)) v' := by
  have hw := hv.withFlagsOf hc
  generalize hwdef : v.withFlagsOf c = w at hw
  have hwsize : w.vsize = v.vsize := by rw [← hwdef, withFlagsOf_vsize]
  have hmemory : (w.bulkWrite (heap 0) (storedBytes elements)).memory =
      (v.bulkWrite (heap 0) (storedBytes elements)).memory := by
    rw [memory_bulkWrite, memory_bulkWrite, ← hwdef, reserve_withFlagsOf, withFlagsOf_vsize]
  have helement : (w.bulkWrite (heap 0) (storedBytes elements)).elementSize = c.rangeSize + 4 := by
    rw [(kind_bulkWrite _ _ _).2]
    exact hw.elementSize (by rw [← hwdef]; exact withFlagsOf_withWeight hc)
  have hsize : (w.bulkWrite (heap 0) (storedBytes elements)).uvectorSize = loops := by
    rw [GrnObj.uvectorSize, helement, vsize_bulkWrite, hw.vsize, length_storedBytes, ← Nat.mul_add,
      Nat.mul_div_cancel_left _ (by omega), hloops]
  obtain ⟨m', hm', hconverted, hother⟩ :=
    @convertWeights_spec (fun w => some (Binary32.ofNat w)) c.rangeSize v.vsize loops
      (w.bulkWrite (heap 0) (storedBytes elements)).memory fun i _ => ⟨_, rfl⟩
  refine ⟨{ w.bulkWrite (heap 0) (storedBytes elements) with memory := m' }, ?_, ?_, ?_, ?_⟩
  · have hstored : storedBytes elements ≠ [] := by
      intro hnil
      have hlen := length_storedBytes elements
      rw [hnil, List.length_nil] at hlen
      have hpos := List.length_pos_of_ne_nil hne
      rcases Nat.mul_eq_zero.mp hlen.symm with h | h
      · omega
      · omega
    rw [getValue, hwdef, if_neg hstored, if_pos hc.vector, if_neg (by simp [hc.fixed]), unpackValue,
      if_neg, helement, hsize, hwsize, hm']
    · rfl
    · rw [(kind_bulkWrite _ _ _).1]
      rintro (h | h)
      · exact h hw.uvector
      · exact h hc.convertsWeights
  · show (w.bulkWrite (heap 0) (storedBytes elements)).vsize = _
    rw [vsize_bulkWrite, hwsize, length_storedBytes]
  · intro i hi
    rw [hconverted i hi _ rfl, ← hmemory]
    exact Nat.mod_eq_of_lt (Binary32.ofNat_lt (readNat_lt _ _ _))
  · rw [← hmemory]
    exact hother

section Before

variable {v' : GrnObj} {loops : ℕ}

/-- What is behind a value before the weights are converted. -/
theorem bulkWrite_behind {u : ℕ}
    (hu : v.vsize + (c.rangeSize + 4) * elements.length ≤ u) :
    (v.bulkWrite (heap 0) (storedBytes elements)).memory u =
      (v.reserve (heap 0) (storedBytes elements).length).memory u := by
  rw [memory_bulkWrite]
  apply write_of_not_mem
  rw [length_storedBytes]
  exact Or.inr hu

/-- The bytes of an element behind the value. -/
theorem bulkWrite_word_behind {i : ℕ} (hi : elements.length ≤ i) :
    readNat (v.bulkWrite (heap 0) (storedBytes elements)).memory
        (v.vsize + (c.rangeSize + 4) * i + c.rangeSize) 4 =
      readNat (v.reserve (heap 0) (storedBytes elements).length).memory
        (v.vsize + (c.rangeSize + 4) * i + c.rangeSize) 4 := by
  refine readNat_congr fun u hu _ => bulkWrite_behind ?_
  have hmul : (c.rangeSize + 4) * elements.length ≤ (c.rangeSize + 4) * i :=
    Nat.mul_le_mul_left _ hi
  omega

/-- A weight that the loop does not run over. -/
theorem Converted.left (h : Converted c v.vsize loops
      (v.bulkWrite (heap 0) (storedBytes elements)) v') {i : ℕ} (hi : loops ≤ i) :
    readNat v'.memory (v.vsize + (c.rangeSize + 4) * i + c.rangeSize) 4 =
      readNat (v.bulkWrite (heap 0) (storedBytes elements)).memory
        (v.vsize + (c.rangeSize + 4) * i + c.rangeSize) 4 := by
  refine readNat_congr fun u hu _ => h.other u fun j hj => Or.inr ?_
  have hapart : v.vsize + (c.rangeSize + 4) * j + c.rangeSize + 4 ≤
      v.vsize + (c.rangeSize + 4) * i + c.rangeSize := weight_apart (Nat.lt_of_lt_of_le hj hi)
  omega

theorem Appends.noHarm (happends : Appends c elements v
      (v.reserve (heap 0) (storedBytes elements).length) v')
    (h : Converted c v.vsize loops (v.bulkWrite (heap 0) (storedBytes elements)) v') :
    NoHarm c elements v (v.reserve (heap 0) (storedBytes elements).length) loops := by
  constructor
  · intro i hi hle
    have hread := (read_elements (read_bulkWrite (heap 0) v (storedBytes elements)) i hi).2
    rw [← happends.weights i hi, h.left hle, hread]
  · intro i hle hi
    rw [← bulkWrite_word_behind hle, ← h.weights i hi, bulkWrite_word_behind hle]
    refine readNat_congr fun u hu _ => happends.behind u ?_
    have hmul : (c.rangeSize + 4) * elements.length ≤ (c.rangeSize + 4) * i :=
      Nat.mul_le_mul_left _ hle
    rw [happends.size]
    omega

/-- The values and the converted weights are the elements of a value that was put. -/
theorem undoes_of_elements (hc : c.IntegerWeights) (hlen : (storedBytes elements).length < 2 ^ 32)
    (hvalues : ∀ i (h : i < elements.length),
      read v'.memory (v.vsize + (c.rangeSize + 4) * i) c.rangeSize = elements[i].value)
    (hweights : ∀ i (h : i < elements.length),
      readNat v'.memory (v.vsize + (c.rangeSize + 4) * i + c.rangeSize) 4 =
        Binary32.ofNat elements[i].weight)
    {u : GrnObj} (hu : u.Holds c elements.length) (hweight : u.withWeight = true)
    (hexact : ∀ i < elements.length, ∃ w, Binary32.Exact w ∧
      readNat u.memory ((c.rangeSize + 4) * i + c.rangeSize) 4 = Binary32.ofNat w) :
    ∃ u', packValue c u = some u' ∧
      (u'.bytes = storedBytes elements → read v'.memory v.vsize u.vsize = u.bytes) := by
  have hcount : elements.length < 2 ^ 32 := by
    rw [length_storedBytes] at hlen
    exact Nat.lt_of_le_of_lt (Nat.le_mul_of_pos_left _ (by omega)) hlen
  obtain ⟨u', hpack, hsize, hkept, hput⟩ := packValue_exact hc hu hweight hcount hexact
  refine ⟨u', hpack, fun hbytes => ?_⟩
  have hread : read u'.memory 0 (storedBytes elements).length = storedBytes elements := by
    rw [← hbytes, GrnObj.bytes, length_read]
  rw [GrnObj.bytes, hu.vsize]
  refine read_eq_of_elements fun i hi => ?_
  obtain ⟨hvalue, hword⟩ := read_elements hread i hi
  obtain ⟨w, hw, hfloat⟩ := hexact i hi
  rw [Nat.zero_add] at hvalue hword ⊢
  constructor
  · rw [hvalues i hi, ← hvalue, hkept i hi]
  · rw [hweights i hi, ← hword, hput i hi w hw hfloat, hfloat]

theorem NoHarm.appends (hno : NoHarm c elements v
      (v.reserve (heap 0) (storedBytes elements).length) loops)
    (hc : c.IntegerWeights) (hlen : (storedBytes elements).length < 2 ^ 32)
    (hsize : v'.vsize = v.vsize + (c.rangeSize + 4) * elements.length)
    (h : Converted c v.vsize loops (v.bulkWrite (heap 0) (storedBytes elements)) v') :
    Appends c elements v (v.reserve (heap 0) (storedBytes elements).length) v' := by
  have hstored := read_bulkWrite (heap 0) v (storedBytes elements)
  have hvalues : ∀ i (hi : i < elements.length),
      read v'.memory (v.vsize + (c.rangeSize + 4) * i) c.rangeSize = elements[i].value := by
    intro i hi
    rw [← (read_elements hstored i hi).1]
    exact read_congr fun u hu hu' => h.other u fun j _ => value_apart hu hu' j
  have hweights : ∀ i (hi : i < elements.length),
      readNat v'.memory (v.vsize + (c.rangeSize + 4) * i + c.rangeSize) 4 =
        Binary32.ofNat elements[i].weight := by
    intro i hi
    have hword := (read_elements hstored i hi).2
    rcases Nat.lt_or_ge i loops with hlt | hle
    · rw [h.weights i hlt, hword]
    · rw [h.left hle, hword, hno.left i hi hle]
  refine ⟨hsize, ?_, hvalues, hweights, ?_, fun u hu hweight hexact =>
    undoes_of_elements hc hlen hvalues hweights hu hweight hexact⟩
  · rw [GrnObj.bytes, ← @read_bulkWrite_before (heap 0) v (storedBytes elements) 0 v.vsize
      (Nat.le_of_eq (Nat.zero_add _))]
    exact read_congr fun u _ hu => h.other u fun j _ => Or.inl (by omega)
  · intro u hu
    rw [hsize] at hu
    rw [← @bulkWrite_behind c elements v heap u hu]
    by_cases hin : ∃ i, i < loops ∧ v.vsize + (c.rangeSize + 4) * i + c.rangeSize ≤ u ∧
        u < v.vsize + (c.rangeSize + 4) * i + c.rangeSize + 4
    · -- a word behind the value that the loop reaches is the same in both forms
      obtain ⟨i, hi, hle, hlt⟩ := hin
      have hbehind : elements.length ≤ i := by
        by_contra hin
        have hmul : (c.rangeSize + 4) * (i + 1) ≤ (c.rangeSize + 4) * elements.length :=
          Nat.mul_le_mul_left _ (Nat.lt_of_not_le hin)
        rw [Nat.mul_succ] at hmul
        omega
      have hword := h.weights i hi
      rw [bulkWrite_word_behind hbehind, hno.reached i hbehind hi, ← bulkWrite_word_behind hbehind]
        at hword
      refine eq_of_read_eq ?_ hle hlt
      rw [← leBytes_readNat, hword, leBytes_readNat]
    · refine h.other u fun i hi => ?_
      by_contra hout
      exact hin ⟨i, hi, by omega, by omega⟩

/-- Nothing is stored. -/
theorem appends_nothing (hc : c.IntegerWeights) (hnil : elements = []) :
    Appends c elements v (v.reserve (heap 0) (storedBytes elements).length) (v.withFlagsOf c) := by
  subst hnil
  refine ⟨withFlagsOf_vsize v c, ?_, fun i hi => absurd hi (Nat.not_lt_zero i),
    fun i hi => absurd hi (Nat.not_lt_zero i), ?_, ?_⟩
  · rw [withFlagsOf_memory]
    rfl
  · intro u _
    rw [withFlagsOf_memory, GrnObj.reserve]
    rfl
  · intro u hu hweight hexact
    have hnone : ∀ i, i < ([] : List (Element c.rangeSize)).length → False := fun i hi =>
      Nat.not_lt_zero i hi
    exact @undoes_of_elements c [] v _ hc (Nat.two_pow_pos 32)
      (fun i hi => (hnone i hi).elim) (fun i hi => (hnone i hi).elim) u hu hweight hexact

end Before

end Column

/-! ## One element behind another -/

/-- A vector column of references with integer weights. -/
def references : Column where
  vector := true
  withWeight := true
  weightFloat32 := false
  weightBfloat16 := false
  ringBuffer := false
  textRange := false
  rangeSize := 4
  maxElementSize := 0

theorem references_integerWeights : references.IntegerWeights := ⟨rfl, rfl, rfl, rfl, rfl⟩

/-- A value with the reference 1 of weight 1.0 that is followed by the number 1 where an element
after the next one has its weight. -/
def oneReference : GrnObj where
  type := .uvector
  domainSize := 4
  withWeight := true
  weightBfloat16 := false
  memory := write (fun u => if u = 20 then 1 else 0) 0 [1, 0, 0, 0, 0, 0, 0x80, 0x3f]
  vsize := 8
  wsize := 0x1000
  outp := true

theorem oneReference_holds : oneReference.Holds references 1 := ⟨rfl, rfl, rfl, rfl⟩

/-- The reference 2 with the weight 3. -/
def stored : Element references.rangeSize where
  value := [2, 0, 0, 0]
  weight := 3
  length_value := rfl
  weight_lt := by decide

end Groonga.Ja
