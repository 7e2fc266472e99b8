import Groonga.Ja.Value

/-!
# Columns with a ring buffer

The element of a record grows with what is appended and prepended until it has
`max_element_size` bytes. Then it gets a position behind its bytes and grows no more: what is put
replaces the oldest bytes, which start at the position. A value that is longer than what is left
of two rounds runs over the end of the element.
-/

namespace Groonga.Ja

open Lib

/-! ## Puts -/

/-- A put with `GRN_OBJ_SET`, `GRN_OBJ_APPEND` or `GRN_OBJ_PREPEND`. -/
inductive RingPut
  | set (value : List UInt8)
  | append (value : List UInt8)
  | prepend (value : List UInt8)

/-- `grn_memcpy` into an element. There is no result when a byte is written outside of it. -/
def copyInto (e : List UInt8) (offset : ℕ) (bytes : List UInt8) : Option (List UInt8) :=
  if offset + bytes.length ≤ e.length then
    some (e.take offset ++ bytes ++ e.drop (offset + bytes.length))
  else none

/-- A new element of `size` bytes, a number of 32 bits, that is filled with bytes from its start
on. -/
def newElement (size : ℕ) (bytes : List UInt8) : Option (List UInt8) :=
  copyInto (List.replicate (size % 2 ^ 32) 0) 0 bytes

/-- `set_value` for a column with `GRN_OBJ_RING_BUFFER`. -/
def setRing (maxElementSize : ℕ) (value : List UInt8) : Option (List UInt8) :=
  if value = [] then some []
  else if maxElementSize ≤ value.length then
    newElement (value.length + 4) (value ++ leBytes 4 0)
  else newElement value.length value

/-- The in-place part of `grn_ja_put_raw` with `GRN_OBJ_APPEND`. Lengths are numbers of 32 bits. -/
def appendInPlace (b value : List UInt8) : Option (List UInt8) :=
  if b.length < 4 then none
  else
    let el := b.length - 4
    let pos := leNat (b.drop el)
    if el ≤ (pos + value.length) % 2 ^ 32 then
      let rest := (el + 2 ^ 32 - pos) % 2 ^ 32
      -- the value has no more bytes to copy
      if value.length < rest then none
      else do
        let b ← copyInto b pos (value.take rest)
        let b ← copyInto b 0 (value.drop rest)
        copyInto b el (leBytes 4 (value.length - rest))
    else do
      let b ← copyInto b pos value
      copyInto b el (leBytes 4 (pos + value.length))

/-- The in-place part of `grn_ja_put_raw` with `GRN_OBJ_PREPEND`. -/
def prependInPlace (b value : List UInt8) : Option (List UInt8) :=
  if b.length < 4 then none
  else
    let el := b.length - 4
    let pos := leNat (b.drop el)
    if pos < value.length then do
      let rest := value.length - pos
      let b ← copyInto b 0 (value.drop rest)
      -- the place is before the element
      let b ← if el < rest then none else copyInto b (el - rest) (value.take rest)
      copyInto b el (leBytes 4 (el - rest))
    else do
      let b ← copyInto b (pos - value.length) value
      copyInto b el (leBytes 4 (pos - value.length))

/-- `grn_ja_put_raw` for a column with `GRN_OBJ_RING_BUFFER` and without compression. The element
is what `grn_ja_ref` gives, nothing for `NULL`. -/
def putRing (maxElementSize : ℕ) (e : List UInt8) : RingPut → Option (List UInt8)
  | .set value => if value ≠ [] ∧ value = e then some e else setRing maxElementSize value
  | .append value =>
    if value = [] then some e
    else if e = [] then setRing maxElementSize value
    else if maxElementSize ≤ (e.length + value.length) % 2 ^ 32 then
      if maxElementSize ≤ e.length then appendInPlace e value
      else newElement (value.length + e.length + 4) (e ++ value ++ leBytes 4 0)
    else newElement (value.length + e.length) (e ++ value)
  | .prepend value =>
    if value = [] then some e
    else if e = [] then setRing maxElementSize value
    else if maxElementSize ≤ (e.length + value.length) % 2 ^ 32 then
      if maxElementSize ≤ e.length then prependInPlace e value
      else newElement (value.length + e.length + 4) (value ++ e ++ leBytes 4 0)
    else newElement (value.length + e.length) (value ++ e)

/-! ## What the puts are for -/

/-- What a record is to hold: its bytes, and whether they are in a ring, of which they are all
the bytes. -/
structure Logical where
  bytes : List UInt8
  ring : Bool
  deriving DecidableEq

/-- The last `n` bytes. -/
def lastBytes (n : ℕ) (bytes : List UInt8) : List UInt8 := bytes.drop (bytes.length - n)

/-- Bytes that are not in a ring yet are in one when they are enough. -/
def Logical.fill (maxElementSize : ℕ) (bytes : List UInt8) : Logical :=
  ⟨bytes, decide (bytes ≠ [] ∧ maxElementSize ≤ bytes.length)⟩

/-- A ring keeps the last bytes of what is appended to and the first bytes of what is
prepended to. -/
def Logical.put (maxElementSize : ℕ) (l : Logical) : RingPut → Logical
  | .set value => .fill maxElementSize value
  | .append value =>
    if l.ring then ⟨lastBytes l.bytes.length (l.bytes ++ value), true⟩
    else .fill maxElementSize (l.bytes ++ value)
  | .prepend value =>
    if l.ring then ⟨(value ++ l.bytes).take l.bytes.length, true⟩
    else .fill maxElementSize (value ++ l.bytes)

/-- What a record is to hold after puts. -/
def logical (maxElementSize : ℕ) (puts : List RingPut) : Logical :=
  puts.foldl (Logical.put maxElementSize) ⟨[], false⟩

/-- Puts that only append to a ring leave the last bytes of all of them. -/
theorem foldl_append {maxElementSize : ℕ} {l : Logical} (hring : l.ring = true)
    (values : List (List UInt8)) :
    ((values.map RingPut.append).foldl (Logical.put maxElementSize) l) =
      ⟨lastBytes l.bytes.length (l.bytes ++ values.flatten), true⟩ := by
  induction values generalizing l with
  | nil =>
    obtain ⟨bytes, ring⟩ := l
    simp only [List.map_nil, List.foldl_nil, List.flatten_nil, List.append_nil, lastBytes,
      Nat.sub_self, List.drop_zero, ← hring]
  | cons value values ih =>
    have hput : l.put maxElementSize (.append value) =
        ⟨lastBytes l.bytes.length (l.bytes ++ value), true⟩ := if_pos hring
    rw [List.map_cons, List.foldl_cons, hput, ih rfl]
    congr 1
    simp only [lastBytes, List.length_drop, List.length_append, List.flatten_cons]
    rw [← List.append_assoc, ← List.drop_append_of_le_length (by simp), List.drop_drop]
    congr 1
    omega

theorem take_append_take (n : ℕ) (a b : List UInt8) :
    (a ++ b.take n).take n = (a ++ b).take n := by
  rw [List.take_append, List.take_append, List.take_take, Nat.min_eq_left (Nat.sub_le _ _)]

/-- Puts that only prepend to a ring leave the first bytes of all of them. -/
theorem foldl_prepend {maxElementSize : ℕ} {l : Logical} (hring : l.ring = true)
    (values : List (List UInt8)) :
    ((values.map RingPut.prepend).foldl (Logical.put maxElementSize) l) =
      ⟨(values.reverse.flatten ++ l.bytes).take l.bytes.length, true⟩ := by
  induction values generalizing l with
  | nil =>
    obtain ⟨bytes, ring⟩ := l
    simp only [List.map_nil, List.foldl_nil, List.reverse_nil, List.flatten_nil, List.nil_append,
      List.take_length, ← hring]
  | cons value values ih =>
    have hput : l.put maxElementSize (.prepend value) =
        ⟨(value ++ l.bytes).take l.bytes.length, true⟩ := if_pos hring
    have hlen : ((value ++ l.bytes).take l.bytes.length).length = l.bytes.length := by simp
    rw [List.map_cons, List.foldl_cons, hput, ih rfl, hlen]
    congr 1
    simp only [List.reverse_cons, List.flatten_append, List.flatten_singleton, List.append_assoc]
    exact take_append_take _ _ _

/-! ## The form of an element -/

/-- The element of what a record is to hold: the bytes, or a ring with the place of the first
one. -/
inductive Form (maxElementSize : ℕ) : List UInt8 → Logical → Prop
  | plain (bytes : List UInt8) (h : bytes = [] ∨ bytes.length < maxElementSize) :
    Form maxElementSize bytes ⟨bytes, false⟩
  | ring (newer older : List UInt8) (hne : older ≠ [])
    (hle : maxElementSize ≤ newer.length + older.length)
    (hlt : newer.length + older.length + 4 < 2 ^ 32) :
    Form maxElementSize (newer ++ older ++ leBytes 4 newer.length) ⟨older ++ newer, true⟩

/-- A put that the in-place copies have room for, whose lengths are numbers of 32 bits, and that
does not set the bytes that an element has with its position. -/
def Safe (maxElementSize : ℕ) (e : List UInt8) : RingPut → Prop
  | .set value => (maxElementSize ≤ value.length → value.length + 4 < 2 ^ 32) ∧
      (e ≠ [] ∧ maxElementSize ≤ e.length → value ≠ e)
  | .append value =>
    if e ≠ [] ∧ maxElementSize ≤ e.length then
      leNat (e.drop (e.length - 4)) + value.length < 2 * (e.length - 4) ∧
        leNat (e.drop (e.length - 4)) + value.length < 2 ^ 32 ∧
        maxElementSize ≤ (e.length + value.length) % 2 ^ 32
    else maxElementSize ≤ e.length + value.length → e.length + value.length + 4 < 2 ^ 32
  | .prepend value =>
    if e ≠ [] ∧ maxElementSize ≤ e.length then
      value.length ≤ leNat (e.drop (e.length - 4)) + (e.length - 4) ∧
        maxElementSize ≤ (e.length + value.length) % 2 ^ 32
    else maxElementSize ≤ e.length + value.length → e.length + value.length + 4 < 2 ^ 32

section Copies

variable {a b c bytes : List UInt8} {maxElementSize : ℕ}

/-- Bytes are copied in the place of as many. -/
theorem copyInto_append (h : bytes.length = b.length) :
    copyInto (a ++ b ++ c) a.length bytes = some (a ++ bytes ++ c) := by
  have htake : (a ++ b ++ c).take a.length = a := by rw [List.append_assoc, List.take_left]
  have hdrop : (a ++ b ++ c).drop (a.length + b.length) = c := by
    rw [← List.length_append, List.drop_left]
  rw [copyInto, if_pos (by simp [h]), h, htake, hdrop]

theorem newElement_length (h : bytes.length < 2 ^ 32) :
    newElement bytes.length bytes = some bytes := by
  have hcopy := @copyInto_append [] (List.replicate (bytes.length % 2 ^ 32) 0) [] bytes
    (by rw [List.length_replicate, Nat.mod_eq_of_lt h])
  rw [List.nil_append, List.append_nil, List.nil_append, List.append_nil] at hcopy
  exact hcopy

/-- The position behind a ring. -/
theorem position_ring {newer older : List UInt8} (hlt : newer.length + older.length + 4 < 2 ^ 32) :
    leNat ((newer ++ older ++ leBytes 4 newer.length).drop (newer.length + older.length)) =
      newer.length := by
  rw [← List.length_append, List.drop_left, leNat_leBytes]
  exact Nat.mod_eq_of_lt (by omega)

/-- A new element without a position. -/
theorem form_plain (hM : maxElementSize < 2 ^ 32) (hlt : bytes.length < maxElementSize) :
    newElement bytes.length bytes = some bytes ∧
      Form maxElementSize bytes (.fill maxElementSize bytes) := by
  refine ⟨newElement_length (Nat.lt_trans hlt hM), ?_⟩
  rw [Logical.fill, decide_eq_false fun h => absurd h.2 (Nat.not_le_of_lt hlt)]
  exact .plain bytes (Or.inr hlt)

/-- A new element with a position. -/
theorem form_ring (hne : bytes ≠ []) (hle : maxElementSize ≤ bytes.length)
    (hlt : bytes.length + 4 < 2 ^ 32) :
    newElement (bytes.length + 4) (bytes ++ leBytes 4 0) = some (bytes ++ leBytes 4 0) ∧
      Form maxElementSize (bytes ++ leBytes 4 0) (.fill maxElementSize bytes) := by
  have hlen : (bytes ++ leBytes 4 0).length = bytes.length + 4 := by simp
  constructor
  · rw [← hlen]
    exact newElement_length (by omega)
  · have hring : Form maxElementSize ([] ++ bytes ++ leBytes 4 ([] : List UInt8).length)
        ⟨bytes ++ [], true⟩ :=
      .ring [] bytes hne (by simpa using hle) (by simpa using hlt)
    rw [List.append_nil] at hring
    rw [Logical.fill, decide_eq_true ⟨hne, hle⟩]
    exact hring

/-- **A value is set.** -/
theorem form_setRing (hM : maxElementSize < 2 ^ 32)
    (hlt : maxElementSize ≤ bytes.length → bytes.length + 4 < 2 ^ 32) :
    ∃ e, setRing maxElementSize bytes = some e ∧
      Form maxElementSize e (.fill maxElementSize bytes) := by
  by_cases hne : bytes = []
  · subst hne
    refine ⟨[], if_pos rfl, ?_⟩
    rw [Logical.fill, decide_eq_false fun h => h.1 rfl]
    exact .plain [] (Or.inl rfl)
  · rw [setRing, if_neg hne]
    split
    · rename_i hle
      exact ⟨_, form_ring hne hle (hlt hle)⟩
    · rename_i hle
      exact ⟨_, form_plain hM (Nat.lt_of_not_le hle)⟩

/-- **An element that is not a ring grows.** -/
theorem form_grow (hM : maxElementSize < 2 ^ 32) (hne : bytes ≠ [])
    (hlt : maxElementSize ≤ bytes.length → bytes.length + 4 < 2 ^ 32) :
    ∃ e, (if maxElementSize ≤ bytes.length % 2 ^ 32 then
        newElement (bytes.length + 4) (bytes ++ leBytes 4 0)
      else newElement bytes.length bytes) = some e ∧
      Form maxElementSize e (.fill maxElementSize bytes) := by
  have hmod : bytes.length % 2 ^ 32 = bytes.length := by
    apply Nat.mod_eq_of_lt
    rcases Nat.lt_or_ge bytes.length maxElementSize with h | h
    · exact Nat.lt_trans h hM
    · exact Nat.lt_of_le_of_lt (Nat.le_add_right _ 4) (hlt h)
  rw [hmod]
  split
  · rename_i hle
    exact ⟨_, form_ring hne hle (hlt hle)⟩
  · rename_i hle
    exact ⟨_, form_plain hM (Nat.lt_of_not_le hle)⟩

/-! ## The copies in place -/

section InPlace

variable {newer older value : List UInt8}

/-- The position behind a ring is written. -/
theorem copyInto_position (x : List UInt8) (p q : ℕ) {n : ℕ} (hn : n = x.length) :
    copyInto (x ++ leBytes 4 p) n (leBytes 4 q) = some (x ++ leBytes 4 q) := by
  have hcopy := @copyInto_append x (leBytes 4 p) [] (leBytes 4 q) (by simp)
  rw [List.append_nil, List.append_nil] at hcopy
  rw [hn, hcopy]

/-- The lengths of an element with a ring. -/
theorem length_ring_element (newer older : List UInt8) (p : ℕ) :
    (newer ++ older ++ leBytes 4 p).length = newer.length + older.length + 4 := by
  rw [List.length_append, List.length_append, length_leBytes]

/-- A list in two parts. -/
theorem exists_parts {x : List UInt8} {n : ℕ} (h : n ≤ x.length) :
    ∃ first second, x = first ++ second ∧ first.length = n :=
  ⟨x.take n, x.drop n, (List.take_append_drop n x).symm, List.length_take_of_le h⟩

/-- **A ring is appended to.** -/
theorem form_appendInPlace (hle : maxElementSize ≤ newer.length + older.length)
    (hlt : newer.length + older.length + 4 < 2 ^ 32)
    (hround : newer.length + value.length < 2 * (newer.length + older.length))
    (hword : newer.length + value.length < 2 ^ 32) :
    ∃ e, appendInPlace (newer ++ older ++ leBytes 4 newer.length) value = some e ∧
      Form maxElementSize e
        ⟨lastBytes (older ++ newer).length (older ++ newer ++ value), true⟩ := by
  simp only [appendInPlace, length_ring_element, Nat.add_sub_cancel, position_ring hlt,
    Nat.mod_eq_of_lt hword]
  rw [if_neg (by omega)]
  split
  · -- the end of the ring is reached, the second part is copied to its start
    rename_i hend
    have hrest : (newer.length + older.length + 2 ^ 32 - newer.length) % 2 ^ 32 = older.length := by
      omega
    obtain ⟨first, second, rfl, hfirst⟩ := @exists_parts value older.length (by omega)
    rw [List.length_append] at hround
    obtain ⟨covered, left, hsplit, hover⟩ := @exists_parts (newer ++ first) second.length
      (by
        rw [List.length_append]
        omega)
    have hlen := congrArg List.length hsplit
    rw [List.length_append, List.length_append] at hlen
    rw [hrest, if_neg (by rw [List.length_append]; omega), ← hfirst, List.take_left,
      List.drop_left, List.length_append, Nat.add_sub_cancel_left, copyInto_append hfirst, hsplit]
    have hcopy : copyInto (covered ++ left ++ leBytes 4 newer.length) 0 second =
        some (second ++ left ++ leBytes 4 newer.length) := by
      have h := @copyInto_append [] covered (left ++ leBytes 4 newer.length) second hover.symm
      simpa using h
    have hposition := copyInto_position (second ++ left) newer.length second.length
      (n := newer.length + first.length) (by rw [List.length_append]; omega)
    refine ⟨second ++ left ++ leBytes 4 second.length, ?_, ?_⟩
    · simp only [Option.bind_eq_bind, Option.bind_some, hcopy, hposition]
    · have hlast : lastBytes (older ++ newer).length (older ++ newer ++ (first ++ second)) =
          left ++ second := by
        have hassoc : older ++ newer ++ (first ++ second) = older ++ covered ++ (left ++ second) := by
          rw [List.append_assoc older newer, ← List.append_assoc newer, hsplit]
          simp only [List.append_assoc]
        have hdrop : (older ++ covered ++ (left ++ second)).length - (older ++ newer).length =
            (older ++ covered).length := by
          simp only [List.length_append]
          omega
        rw [lastBytes, hassoc, hdrop, List.drop_left]
      rw [hlast]
      refine .ring second left ?_ (by omega) (by omega)
      rintro rfl
      rw [List.length_nil] at hlen
      omega
  · -- the value ends before the end of the ring
    rename_i hend
    obtain ⟨covered, left, rfl, hover⟩ := @exists_parts older value.length (by omega)
    rw [List.length_append] at hle hlt hround hend
    have hcopy : copyInto (newer ++ (covered ++ left) ++ leBytes 4 newer.length) newer.length value =
        some (newer ++ value ++ left ++ leBytes 4 newer.length) := by
      have h := @copyInto_append newer covered (left ++ leBytes 4 newer.length) value hover.symm
      simpa using h
    have hposition := copyInto_position (newer ++ value ++ left) newer.length
      (newer.length + value.length) (n := newer.length + (covered ++ left).length) (by
        simp only [List.length_append]
        omega)
    refine ⟨newer ++ value ++ left ++ leBytes 4 (newer.length + value.length), ?_, ?_⟩
    · simp only [Option.bind_eq_bind, Option.bind_some, hcopy, hposition]
    · have hlast : lastBytes (covered ++ left ++ newer).length (covered ++ left ++ newer ++ value) =
          left ++ (newer ++ value) := by
        have hdrop : (covered ++ (left ++ (newer ++ value))).length - (covered ++ left ++ newer).length =
            covered.length := by
          simp only [List.length_append]
          omega
        have hassoc : covered ++ left ++ newer ++ value = covered ++ (left ++ (newer ++ value)) := by
          simp only [List.append_assoc]
        rw [lastBytes, hassoc, hdrop, List.drop_left]
      rw [hlast, ← List.length_append]
      refine .ring (newer ++ value) left ?_ (by rw [List.length_append]; omega)
        (by rw [List.length_append]; omega)
      rintro rfl
      rw [List.length_nil] at hend
      omega

/-- **A ring is prepended to.** -/
theorem form_prependInPlace (hne : older ≠ [])
    (hle : maxElementSize ≤ newer.length + older.length)
    (hlt : newer.length + older.length + 4 < 2 ^ 32)
    (hround : value.length ≤ newer.length + (newer.length + older.length)) :
    ∃ e, prependInPlace (newer ++ older ++ leBytes 4 newer.length) value = some e ∧
      Form maxElementSize e
        ⟨(value ++ (older ++ newer)).take (older ++ newer).length, true⟩ := by
  simp only [prependInPlace, length_ring_element, Nat.add_sub_cancel, position_ring hlt]
  rw [if_neg (by omega)]
  split
  · -- the start of the ring is reached, the first part is copied to its end
    rename_i hstart
    obtain ⟨first, second, rfl, hfirst⟩ :=
      @exists_parts value (value.length - newer.length) (by omega)
    rw [List.length_append] at hfirst hstart hround
    have hsecond : second.length = newer.length := by omega
    obtain ⟨left, covered, hsplit, hleft⟩ := @exists_parts (second ++ older)
      (newer.length + older.length - first.length)
      (by
        rw [List.length_append]
        omega)
    have hlen := congrArg List.length hsplit
    rw [List.length_append, List.length_append] at hlen
    have hrest : (first ++ second).length - newer.length = first.length := by
      rw [List.length_append]
      omega
    have hcopy : copyInto (newer ++ older ++ leBytes 4 newer.length) 0 second =
        some (second ++ older ++ leBytes 4 newer.length) := by
      have h := @copyInto_append [] newer (older ++ leBytes 4 newer.length) second hsecond
      simpa using h
    have hcopy' : copyInto (left ++ covered ++ leBytes 4 newer.length) left.length first =
        some (left ++ first ++ leBytes 4 newer.length) := copyInto_append (by omega)
    have hposition := copyInto_position (left ++ first) newer.length left.length
      (n := newer.length + older.length) (by rw [List.length_append]; omega)
    rw [hrest, List.drop_left, List.take_left, hcopy, hsplit, ← hleft]
    refine ⟨left ++ first ++ leBytes 4 left.length, ?_, ?_⟩
    · have hin : ¬newer.length + older.length < first.length := by omega
      simp only [Option.bind_eq_bind, Option.bind_some, if_neg hin, hcopy', hposition]
    · have hfirstBytes : (first ++ second ++ (older ++ newer)).take (older ++ newer).length =
          first ++ left := by
        have hassoc : first ++ second ++ (older ++ newer) = first ++ left ++ (covered ++ newer) := by
          rw [List.append_assoc first, ← List.append_assoc second, hsplit]
          simp only [List.append_assoc]
        have htake : (older ++ newer).length = (first ++ left).length := by
          simp only [List.length_append]
          omega
        rw [hassoc, htake, List.take_left]
      rw [hfirstBytes]
      refine .ring left first ?_ (by omega) (by omega)
      intro hnil
      have hzero := congrArg List.length hnil
      rw [List.length_nil] at hzero
      omega
  · -- the value starts behind the start of the ring
    rename_i hstart
    obtain ⟨left, covered, rfl, hleft⟩ := @exists_parts newer (newer.length - value.length) (by omega)
    rw [List.length_append] at hleft hstart hround hle hlt
    have hat : (left ++ covered).length - value.length = left.length := by
      rw [List.length_append]
      omega
    have hcopy : copyInto (left ++ covered ++ older ++ leBytes 4 (left ++ covered).length) left.length
        value = some (left ++ value ++ older ++ leBytes 4 (left ++ covered).length) := by
      have h := @copyInto_append left covered (older ++ leBytes 4 (left ++ covered).length) value
        (by omega)
      simpa using h
    have hposition := copyInto_position (left ++ value ++ older) (left ++ covered).length left.length
      (n := (left ++ covered).length + older.length) (by
        simp only [List.length_append]
        omega)
    rw [hat]
    refine ⟨left ++ value ++ older ++ leBytes 4 left.length, ?_, ?_⟩
    · simp only [Option.bind_eq_bind, Option.bind_some, hcopy, hposition]
    · have hfirstBytes :
          (value ++ (older ++ (left ++ covered))).take (older ++ (left ++ covered)).length =
            value ++ older ++ left := by
        have hassoc : value ++ (older ++ (left ++ covered)) = value ++ older ++ left ++ covered := by
          simp only [List.append_assoc]
        have htake : (older ++ (left ++ covered)).length = (value ++ older ++ left).length := by
          simp only [List.length_append]
          omega
        rw [hassoc, htake, List.take_left]
      rw [hfirstBytes, List.append_assoc left]
      refine .ring left (value ++ older) ?_ (by rw [List.length_append]; omega)
        (by rw [List.length_append]; omega)
      exact List.append_ne_nil_of_right_ne_nil value hne

end InPlace

end Copies

/-! ## Runs -/

section Runs

variable {maxElementSize : ℕ} {e : List UInt8} {l : Logical}

/-- An element that is not a ring is not full. -/
theorem not_full (h : e = [] ∨ e.length < maxElementSize) :
    ¬(e ≠ [] ∧ maxElementSize ≤ e.length) := by
  rintro ⟨hne, hle⟩
  rcases h with h | h
  · exact hne h
  · omega

/-- Bytes that are not in a ring. -/
theorem fill_plain {bytes : List UInt8} (h : bytes = [] ∨ bytes.length < maxElementSize) :
    Logical.fill maxElementSize bytes = ⟨bytes, false⟩ := by
  rw [Logical.fill, decide_eq_false (not_full h)]

/-- A ring is full. -/
theorem full_ring {newer older : List UInt8} {p : ℕ} (hne : older ≠ [])
    (hle : maxElementSize ≤ newer.length + older.length) :
    newer ++ older ++ leBytes 4 p ≠ [] ∧
      maxElementSize ≤ (newer ++ older ++ leBytes 4 p).length := by
  refine ⟨List.append_ne_nil_of_left_ne_nil (List.append_ne_nil_of_right_ne_nil newer hne) _, ?_⟩
  rw [length_ring_element]
  omega

theorem putRing_append_nil (e : List UInt8) : putRing maxElementSize e (.append []) = some e := by
  rw [putRing, if_pos rfl]

theorem putRing_prepend_nil (e : List UInt8) :
    putRing maxElementSize e (.prepend []) = some e := by
  rw [putRing, if_pos rfl]

/-- **A safe put stays in the element and does to it what it does to its record.** -/
theorem form_putRing (hM : maxElementSize < 2 ^ 32) (h : Form maxElementSize e l) {put : RingPut}
    (hsafe : Safe maxElementSize e put) :
    ∃ e', putRing maxElementSize e put = some e' ∧
      Form maxElementSize e' (l.put maxElementSize put) := by
  cases put with
  | set value =>
    obtain ⟨hlt, hsame⟩ := hsafe
    by_cases heq : value ≠ [] ∧ value = e
    · obtain ⟨hne, rfl⟩ := heq
      refine ⟨value, if_pos ⟨hne, rfl⟩, ?_⟩
      have hless : value.length < maxElementSize := by
        by_contra hle
        exact hsame ⟨hne, Nat.le_of_not_lt hle⟩ rfl
      exact (form_plain hM hless).2
    · rw [putRing, if_neg heq]
      exact form_setRing hM hlt
  | append value =>
    cases h with
    | plain _ hplain =>
      have hring := not_full hplain
      rw [Safe, if_neg hring, ← List.length_append] at hsafe
      show ∃ e', _ ∧ Form maxElementSize e' (.fill maxElementSize (e ++ value))
      by_cases hnil : value = []
      · subst hnil
        refine ⟨e, putRing_append_nil e, ?_⟩
        rw [List.append_nil, fill_plain hplain]
        exact .plain e hplain
      rw [putRing, if_neg hnil]
      by_cases hempty : e = []
      · subst hempty
        rw [if_pos rfl]
        exact form_setRing hM hsafe
      · have hin : ¬maxElementSize ≤ e.length := fun hle => hring ⟨hempty, hle⟩
        have hgrow := form_grow hM (List.append_ne_nil_of_left_ne_nil hempty value) hsafe
        rw [if_neg hempty, if_neg hin, Nat.add_comm value.length]
        rwa [List.length_append] at hgrow
    | ring newer older hne hle hlt =>
      obtain ⟨hempty, hin⟩ := full_ring hne hle
      rw [Safe, if_pos ⟨hempty, hin⟩] at hsafe
      obtain ⟨hround, hword, hsum⟩ := hsafe
      rw [length_ring_element, Nat.add_sub_cancel, position_ring hlt] at hround hword
      by_cases hnil : value = []
      · subst hnil
        refine ⟨_, putRing_append_nil _, ?_⟩
        have hput : Logical.put maxElementSize ⟨older ++ newer, true⟩ (.append []) =
            ⟨older ++ newer, true⟩ := by
          rw [Logical.put, if_pos rfl, List.append_nil, lastBytes, Nat.sub_self, List.drop_zero]
        rw [hput]
        exact .ring newer older hne hle hlt
      · rw [putRing, if_neg hnil, if_neg hempty, if_pos hsum, if_pos hin]
        exact form_appendInPlace hle hlt hround hword
  | prepend value =>
    cases h with
    | plain _ hplain =>
      have hring := not_full hplain
      rw [Safe, if_neg hring, Nat.add_comm, ← List.length_append] at hsafe
      show ∃ e', _ ∧ Form maxElementSize e' (.fill maxElementSize (value ++ e))
      by_cases hnil : value = []
      · subst hnil
        refine ⟨e, putRing_prepend_nil e, ?_⟩
        rw [List.nil_append, fill_plain hplain]
        exact .plain e hplain
      rw [putRing, if_neg hnil]
      by_cases hempty : e = []
      · subst hempty
        rw [List.append_nil] at hsafe ⊢
        rw [if_pos rfl]
        exact form_setRing hM hsafe
      · have hin : ¬maxElementSize ≤ e.length := fun hle => hring ⟨hempty, hle⟩
        have hgrow := form_grow hM (List.append_ne_nil_of_right_ne_nil value hempty) hsafe
        rw [if_neg hempty, if_neg hin, Nat.add_comm e.length]
        rwa [List.length_append] at hgrow
    | ring newer older hne hle hlt =>
      obtain ⟨hempty, hin⟩ := full_ring hne hle
      rw [Safe, if_pos ⟨hempty, hin⟩] at hsafe
      obtain ⟨hround, hsum⟩ := hsafe
      rw [length_ring_element, Nat.add_sub_cancel, position_ring hlt] at hround
      by_cases hnil : value = []
      · subst hnil
        refine ⟨_, putRing_prepend_nil _, ?_⟩
        have hput : Logical.put maxElementSize ⟨older ++ newer, true⟩ (.prepend []) =
            ⟨older ++ newer, true⟩ := by
          rw [Logical.put, if_pos rfl, List.nil_append, List.take_length]
        rw [hput]
        exact .ring newer older hne hle hlt
      · rw [putRing, if_neg hnil, if_neg hempty, if_pos hsum, if_pos hin]
        exact form_prependInPlace hne hle hlt hround

/-- The elements of a record that safe puts lead to. -/
inductive Reached (maxElementSize : ℕ) : List RingPut → List UInt8 → Prop
  | start : Reached maxElementSize [] []
  | step {puts : List RingPut} {e e' : List UInt8} {put : RingPut}
    (h : Reached maxElementSize puts e) (hsafe : Safe maxElementSize e put)
    (hput : putRing maxElementSize e put = some e') : Reached maxElementSize (puts ++ [put]) e'

/-- **A run of safe puts keeps the form of the element.** -/
theorem form_of_reached (hM : maxElementSize < 2 ^ 32) {puts : List RingPut}
    (h : Reached maxElementSize puts e) :
    Form maxElementSize e (logical maxElementSize puts) := by
  induction h with
  | start => exact .plain [] (Or.inl rfl)
  | step h hsafe hput ih =>
    obtain ⟨e'', hput', hform⟩ := form_putRing hM ih hsafe
    obtain rfl := Option.some.inj (hput.symm.trans hput')
    rw [logical, List.foldl_append]
    exact hform

variable {c : Column} {heap : ℕ → ℕ → UInt8} {vectorUnpack : GrnObj → List UInt8 → GrnObj}

/-- The position of a ring is in it. -/
def PositionBelow (e : List UInt8) : Prop :=
  4 ≤ e.length ∧ leNat (e.drop (e.length - 4)) < e.length - 4

theorem positionBelow_of_form (h : Form maxElementSize e l) (hring : l.ring = true) :
    PositionBelow e := by
  cases h with
  | plain => cases hring
  | ring newer older hne hle hlt =>
    have hpos := List.length_pos_of_ne_nil hne
    rw [PositionBelow, length_ring_element, Nat.add_sub_cancel, position_ring hlt]
    omega

@[simp] theorem bytes_withFlagsOf (v : GrnObj) (c : Column) :
    (v.withFlagsOf c).bytes = v.bytes := by
  rw [GrnObj.withFlagsOf]
  split <;> rfl

/-- **A value that is read is what the record is to hold.** -/
theorem getValue_form (hscalar : c.vector = false) (hring : c.ringBuffer = true)
    (h : Form c.maxElementSize e l) (v : GrnObj) :
    ∃ v', getValue heap vectorUnpack c v e = some v' ∧ v'.bytes = v.bytes ++ l.bytes := by
  rw [getValue]
  cases h with
  | plain _ hplain =>
    split
    · rename_i hnil
      exact ⟨_, rfl, by rw [bytes_withFlagsOf, hnil, List.append_nil]⟩
    · rename_i hne
      have hless : ¬(c.ringBuffer = true ∧ c.maxElementSize < e.length) := by
        rintro ⟨-, hlt⟩
        exact not_full hplain ⟨hne, Nat.le_of_lt hlt⟩
      rw [if_neg (by simp [hscalar]), if_neg hless]
      exact ⟨_, rfl, by rw [bytes_bulkWrite, bytes_withFlagsOf]⟩
  | ring newer older hne hle hlt =>
    obtain ⟨hempty, -⟩ := @full_ring c.maxElementSize newer older newer.length hne hle
    have hin : c.ringBuffer = true ∧
        c.maxElementSize < (newer ++ older ++ leBytes 4 newer.length).length := by
      rw [length_ring_element]
      exact ⟨hring, by omega⟩
    rw [if_neg hempty, if_neg (by simp [hscalar]), if_pos hin]
    simp only [length_ring_element, Nat.add_sub_cancel, position_ring hlt]
    rw [if_neg (by omega), if_neg (by omega)]
    refine ⟨_, rfl, ?_⟩
    have htake : (newer ++ older ++ leBytes 4 newer.length).take (newer.length + older.length) =
        newer ++ older := by
      rw [← List.length_append, List.take_left]
    have hnewer : (newer ++ older ++ leBytes 4 newer.length).take newer.length = newer := by
      rw [List.append_assoc, List.take_left]
    rw [bytes_bulkWrite, bytes_bulkWrite, bytes_withFlagsOf, htake, hnewer, List.drop_left,
      List.append_assoc]

/-- **Columns with a ring buffer.** In every state that safe puts lead to, the position of a ring is
in it and a value that is read is the logical one, and the next safe put stays in the element. The
logical value is the whole concatenation until it is a ring; from then on it keeps the last bytes of
what is appended and the first bytes of what is prepended. -/
theorem ringBuffer_reached (hscalar : c.vector = false) (hring : c.ringBuffer = true)
    (hM : c.maxElementSize < 2 ^ 32) {puts : List RingPut}
    (h : Reached c.maxElementSize puts e) :
    ((logical c.maxElementSize puts).ring = true → PositionBelow e) ∧
      (∀ v, ∃ v', getValue heap vectorUnpack c v e = some v' ∧
        v'.bytes = v.bytes ++ (logical c.maxElementSize puts).bytes) ∧
      (∀ put, Safe c.maxElementSize e put → ∃ e', putRing c.maxElementSize e put = some e') ∧
      ((logical c.maxElementSize puts).ring = true → ∀ values : List (List UInt8),
        logical c.maxElementSize (puts ++ values.map .append) =
            ⟨lastBytes (logical c.maxElementSize puts).bytes.length
              ((logical c.maxElementSize puts).bytes ++ values.flatten), true⟩ ∧
          logical c.maxElementSize (puts ++ values.map .prepend) =
            ⟨(values.reverse.flatten ++ (logical c.maxElementSize puts).bytes).take
              (logical c.maxElementSize puts).bytes.length, true⟩) := by
  have hform := form_of_reached hM h
  refine ⟨positionBelow_of_form hform, getValue_form hscalar hring hform, ?_, ?_⟩
  · intro put hsafe
    obtain ⟨e', hput, -⟩ := form_putRing hM hform hsafe
    exact ⟨e', hput⟩
  · intro hfull values
    constructor
    · rw [logical, List.foldl_append]
      exact foldl_append hfull values
    · rw [logical, List.foldl_append]
      exact foldl_prepend hfull values

end Runs

/-! ## A value that is too long -/

/-- A scalar column with rings from four bytes on. -/
def shortRing : Column where
  vector := false
  withWeight := false
  weightFloat32 := false
  weightBfloat16 := false
  ringBuffer := true
  textRange := false
  rangeSize := 1
  maxElementSize := 4

/-- Two bytes are appended to a ring of four. -/
theorem ringBuffer_reached_shortRing :
    ((logical 4 [.set [1, 2, 3, 4], .append [5, 6]]).ring = true →
        PositionBelow [5, 6, 3, 4, 2, 0, 0, 0]) ∧
      (∀ v, ∃ v', getValue (fun _ _ => 0) (fun o _ => o) shortRing v [5, 6, 3, 4, 2, 0, 0, 0] =
          some v' ∧
        v'.bytes = v.bytes ++ (logical 4 [.set [1, 2, 3, 4], .append [5, 6]]).bytes) := by
  have hreached : Reached 4 [.set [1, 2, 3, 4], .append [5, 6]] [5, 6, 3, 4, 2, 0, 0, 0] := by
    refine @Reached.step 4 [.set [1, 2, 3, 4]] [1, 2, 3, 4, 0, 0, 0, 0] _ _ ?_ ?_ (by decide)
    · exact @Reached.step 4 [] [] _ _ .start ⟨by decide, by decide⟩ (by decide)
    · rw [Safe, if_pos (by decide)]
      decide
  have hrun := @ringBuffer_reached _ shortRing (fun _ _ => 0) (fun o _ => o) rfl rfl (by decide) _
    hreached
  exact ⟨hrun.1, hrun.2.1⟩

/-- Sixteen bytes that are appended to a ring of four are written covered its end. -/
theorem ringBuffer_overruns :
    (putRing 4 [] (.set [1, 2, 3, 4])).bind
      (fun e => putRing 4 e (.append (List.replicate 16 9))) = none := by
  decide

end Groonga.Ja
