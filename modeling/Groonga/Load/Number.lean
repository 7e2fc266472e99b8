import Groonga.Lib.JsonText
import Groonga.Load.Values

/-!
# Numbers of a load

A number is tried as `int64_t`, then as `uint64_t`, then as `double`. The first two parsers
stop where the value gets too large, and the reader tells from where they stopped which one
read all of the number. They find an overflow by the value getting smaller, and a value that
has wrapped around need not be smaller: a long integer may be read as a wrong one.

`strtod` is a parameter: the value, how many bytes it read and whether it set `errno`.
-/

namespace Groonga.Load

open Lib.JsonText

/-! ## Parsers -/

/-- The value of a digit. -/
def digit? (c : UInt8) : Option ℕ := if 0x30 ≤ c ∧ c ≤ 0x39 then some (c.toNat - 0x30) else none

/-- The result of signed arithmetic in 64 bits. -/
def wrapInt64 (x : ℤ) : ℤ := (x + 2 ^ 63) % 2 ^ 64 - 2 ^ 63

/-- One more digit in `grn_atoll`. -/
def atollNext (negative : Bool) (v : ℤ) (d : ℕ) : ℤ :=
  wrapInt64 (if negative then v * 10 - d else v * 10 + d)

/-- The test for an overflow in `grn_atoll`. -/
def atollOverflows (negative : Bool) (v t : ℤ) : Bool := if negative then v < t else t < v

/-- The loops of `grn_atoll`, for a negative number or not: the value and how many digits were
read. -/
def atollLoop (negative : Bool) : ℤ → ℕ → List UInt8 → ℤ × ℕ
  | v, n, [] => (v, n)
  | v, n, c :: str =>
    match digit? c with
    | none => (v, n)
    | some d =>
      if atollOverflows negative v (atollNext negative v d) then (0, n)
      else atollLoop negative (atollNext negative v d) (n + 1) str

/-- `grn_atoll`: the value and how many bytes were read. -/
def grnAtoll (str : List UInt8) : ℤ × ℕ :=
  match str with
  | 0x2d :: str =>
    match atollLoop true 0 0 str with
    | (v, 0) => (v, 0)
    | (v, n) => (v, n + 1)
  | str => atollLoop false 0 0 str

/-- The loop of `grn_atoull`. -/
def atoullLoop : ℕ → ℕ → List UInt8 → ℕ × ℕ
  | v, n, [] => (v, n)
  | v, n, c :: str =>
    match digit? c with
    | none => (v, n)
    | some d =>
      let t := (v * 10 + d) % 2 ^ 64
      if t < v then (0, n) else atoullLoop t (n + 1) str

/-- `grn_atoull`: the value and how many bytes were read. -/
def grnAtoull (str : List UInt8) : ℕ × ℕ := atoullLoop 0 0 str

/-- What `strtod` gives: the value, how many bytes were read, and whether `errno` is set. -/
structure Strtod (F : Type) where
  value : List UInt8 → F
  read : List UInt8 → ℕ
  errno : List UInt8 → Bool

/-- The end of a number in `json_read`. -/
def convertNumber {F : Type} (strtod : Strtod F) (str : List UInt8) : Scalar F :=
  if (grnAtoll str).2 = str.length then .int64 (grnAtoll str).1
  else if (grnAtoll str).2 ≠ 0 then
    if (grnAtoull str).2 = str.length then .uint64 (grnAtoull str).1
    else if (grnAtoull str).2 ≠ 0 then
      if strtod.errno str = false ∧ strtod.read str = str.length then .float (strtod.value str)
      else .text str
    else .text str
  else .text str

/-! ## Digits -/

variable {F : Type} {strtod : Strtod F} {ds : List (Fin 10)} {tail : List UInt8} {v n : ℕ}

@[simp] theorem digit?_digitByte (d : Fin 10) : digit? (digitByte d) = some d.val := by
  revert d
  decide

theorem ofDigits_cons (d : Fin 10) : ofDigits v (d :: ds) = ofDigits (v * 10 + d) ds := rfl

theorem le_ofDigits : v ≤ ofDigits v ds := by
  induction ds generalizing v with
  | nil => exact Nat.le_refl v
  | cons d ds ih =>
    have := @ih (v * 10 + d)
    rw [ofDigits_cons]
    omega

theorem wrapInt64_eq {x : ℤ} (hlow : -2 ^ 63 ≤ x) (hhigh : x < 2 ^ 63) : wrapInt64 x = x := by
  unfold wrapInt64
  omega

/-- The bytes behind the digits do not continue them. -/
def Stops (tail : List UInt8) : Prop := ∀ c ∈ tail.head?, digit? c = none

/-- The parser stops behind the digits. -/
theorem atollLoop_stops (negative : Bool) (x : ℤ) (h : Stops tail) :
    atollLoop negative x n tail = (x, n) := by
  cases tail with
  | nil => rfl
  | cons c tail =>
    have hc : digit? c = none := h c rfl
    simp [atollLoop, hc]

theorem le_atollLoop (negative : Bool) (x : ℤ) (str : List UInt8) :
    n ≤ (atollLoop negative x n str).2 := by
  induction str generalizing x n with
  | nil => simp [atollLoop]
  | cons c str ih =>
    rw [atollLoop]
    split
    · exact Nat.le_refl n
    · split_ifs
      · exact Nat.le_refl n
      · exact Nat.le_trans (Nat.le_succ n) (ih _)

/-- The parser reads no more than the digits. -/
theorem atollLoop_le (negative : Bool) (x : ℤ) (h : Stops tail) :
    (atollLoop negative x n (ds.map digitByte ++ tail)).2 ≤ n + ds.length := by
  induction ds generalizing x n with
  | nil => simp [atollLoop_stops negative x h]
  | cons d ds ih =>
    simp only [List.map_cons, List.cons_append, atollLoop, digit?_digitByte, List.length_cons]
    split_ifs
    · exact Nat.le_add_right n _
    · have := @ih (n + 1) (atollNext negative x d)
      omega

/-- The sign of a number. -/
def signed (negative : Bool) (v : ℕ) : ℤ := if negative then -v else v

theorem atollNext_eq {negative : Bool} {d : ℕ} (hlow : -2 ^ 63 ≤ signed negative (v * 10 + d))
    (hhigh : signed negative (v * 10 + d) < 2 ^ 63) :
    atollNext negative (signed negative v) d = signed negative (v * 10 + d) ∧
      atollOverflows negative (signed negative v) (signed negative (v * 10 + d)) = false := by
  cases negative with
  | false =>
    simp only [signed, atollNext, atollOverflows, Bool.false_eq_true, if_false] at hlow hhigh ⊢
    rw [wrapInt64_eq (by omega) (by omega), decide_eq_false_iff_not]
    omega
  | true =>
    simp only [signed, atollNext, atollOverflows, if_true] at hlow hhigh ⊢
    rw [wrapInt64_eq (by omega) (by omega), decide_eq_false_iff_not]
    omega

/-- **A number of the range of `int64_t` is read as it is.** -/
theorem atollLoop_eq {negative : Bool} (h : Stops tail)
    (hlow : -2 ^ 63 ≤ signed negative (ofDigits v ds)) (hhigh : signed negative (ofDigits v ds) < 2 ^ 63) :
    atollLoop negative (signed negative v) n (ds.map digitByte ++ tail) =
      (signed negative (ofDigits v ds), n + ds.length) := by
  induction ds generalizing v n with
  | nil => simp [atollLoop_stops negative _ h, ofDigits]
  | cons d ds ih =>
    rw [ofDigits_cons] at hlow hhigh ⊢
    have hle := @le_ofDigits ds (v * 10 + d)
    have hlow' : -2 ^ 63 ≤ signed negative (v * 10 + d) := by
      cases negative <;> simp only [signed, if_true, Bool.false_eq_true, if_false] at hlow ⊢ <;> omega
    have hhigh' : signed negative (v * 10 + d) < 2 ^ 63 := by
      cases negative <;> simp only [signed, if_true, Bool.false_eq_true, if_false] at hhigh ⊢ <;> omega
    obtain ⟨hnext, hno⟩ := atollNext_eq hlow' hhigh'
    simp only [List.map_cons, List.cons_append, atollLoop, digit?_digitByte, hnext, hno,
      Bool.false_eq_true, if_false, ih hlow hhigh, List.length_cons, Prod.mk.injEq, true_and]
    omega

/-- A number of the range of `uint64_t` that `int64_t` does not have is not read to the end. -/
theorem atollLoop_lt (hv : v < 2 ^ 63) (hlow : 2 ^ 63 ≤ ofDigits v ds)
    (hhigh : ofDigits v ds < 2 ^ 64) :
    (atollLoop false v n (ds.map digitByte ++ tail)).2 < n + ds.length := by
  induction ds generalizing v n with
  | nil =>
    simp only [ofDigits, List.foldl_nil] at hlow
    omega
  | cons d ds ih =>
    rw [ofDigits_cons] at hlow hhigh
    have hle := @le_ofDigits ds (v * 10 + d)
    simp only [List.map_cons, List.cons_append, atollLoop, digit?_digitByte, List.length_cons]
    by_cases hnext : v * 10 + d < 2 ^ 63
    · obtain ⟨heq, hno⟩ := @atollNext_eq v false d (by simp only [signed]; omega) (by simp only [signed]; omega)
      simp only [signed, Bool.false_eq_true, if_false] at heq hno
      have := @ih (v * 10 + d) (n + 1) hnext hlow hhigh
      simp only [heq, hno, Bool.false_eq_true, if_false]
      omega
    · -- the value is negative now
      have hover : atollOverflows false v (atollNext false v d) = true := by
        simp only [atollOverflows, atollNext, wrapInt64, Bool.false_eq_true, if_false, decide_eq_true_eq]
        omega
      rw [if_pos hover]
      simp only
      omega

/-! The same for `grn_atoull`. -/

theorem atoullLoop_stops (h : Stops tail) : atoullLoop v n tail = (v, n) := by
  cases tail with
  | nil => rfl
  | cons c tail =>
    have hc : digit? c = none := h c rfl
    simp [atoullLoop, hc]

theorem le_atoullLoop (str : List UInt8) : n ≤ (atoullLoop v n str).2 := by
  induction str generalizing v n with
  | nil => simp [atoullLoop]
  | cons c str ih =>
    simp only [atoullLoop]
    split
    · exact Nat.le_refl n
    · split_ifs
      · exact Nat.le_refl n
      · exact Nat.le_trans (Nat.le_succ n) ih

theorem atoullLoop_le (h : Stops tail) :
    (atoullLoop v n (ds.map digitByte ++ tail)).2 ≤ n + ds.length := by
  induction ds generalizing v n with
  | nil => simp [atoullLoop_stops h]
  | cons d ds ih =>
    simp only [List.map_cons, List.cons_append, atoullLoop, digit?_digitByte, List.length_cons]
    split_ifs
    · exact Nat.le_add_right n _
    · have := @ih ((v * 10 + d) % 2 ^ 64) (n + 1)
      omega

theorem atoullLoop_eq (h : Stops tail) (hhigh : ofDigits v ds < 2 ^ 64) :
    atoullLoop v n (ds.map digitByte ++ tail) = (ofDigits v ds, n + ds.length) := by
  induction ds generalizing v n with
  | nil => simp [atoullLoop_stops h, ofDigits]
  | cons d ds ih =>
    rw [ofDigits_cons] at hhigh ⊢
    have hle := @le_ofDigits ds (v * 10 + d)
    have hmod : (v * 10 + d) % 2 ^ 64 = v * 10 + d := Nat.mod_eq_of_lt (by omega)
    have hno : ¬ v * 10 + d < v := by omega
    simp only [List.map_cons, List.cons_append, atoullLoop, digit?_digitByte, hmod, hno, if_false,
      ih hhigh, List.length_cons, Prod.mk.injEq, true_and]
    omega

/-! ## The number that a text denotes -/

/-- The integer that a number without fraction and exponent denotes. -/
def intValue (n : Number) : ℤ := signed n.negative n.natAbs

/-- **The value of a number**: an integer of the ranges of `int64_t` and `uint64_t`, else the
value of `strtod`. -/
def denoteNumber (strtod : Strtod F) (n : Number) : Scalar F :=
  if n.isInteger ∧ -2 ^ 63 ≤ intValue n ∧ intValue n < 2 ^ 63 then .int64 (intValue n)
  else if n.isInteger ∧ 0 ≤ intValue n ∧ intValue n < 2 ^ 64 then .uint64 (intValue n).toNat
  else .float (strtod.value n.bytes)

/-- When the reader finds that value: an integer of the two ranges, or a number that is not
negative, for which `strtod` has no range error, and for which, if it is an integer, the
parsers of integers notice that it is too large. -/
def Converts (strtod : Strtod F) (n : Number) : Prop :=
  (n.isInteger ∧ -2 ^ 63 ≤ intValue n ∧ intValue n < 2 ^ 64) ∨
    (n.negative = false ∧ strtod.errno n.bytes = false ∧ (n.isInteger →
      (grnAtoll n.bytes).2 ≠ n.bytes.length ∧ (grnAtoull n.bytes).2 ≠ n.bytes.length))

theorem stops_tail (n : Number) : Stops n.tail := by
  obtain ⟨negative, int, frac, exp⟩ := n
  intro c hc
  cases frac with
  | some f =>
    obtain rfl : 0x2e = c := by simpa [Number.tail] using hc
    rfl
  | none =>
    cases exp with
    | none => simp [Number.tail] at hc
    | some e =>
      obtain ⟨upper, sign, first, rest⟩ := e
      cases upper with
      | true =>
        obtain rfl : 0x45 = c := by simpa [Number.tail, Exponent.bytes] using hc
        rfl
      | false =>
        obtain rfl : 0x65 = c := by simpa [Number.tail, Exponent.bytes] using hc
        rfl

theorem tail_eq_nil_iff (n : Number) : n.tail = [] ↔ n.isInteger = true := by
  obtain ⟨negative, int, frac, exp⟩ := n
  cases frac <;> cases exp <;> simp [Number.tail, Number.isInteger, Exponent.bytes]

theorem exists_toDigits_eq (i : IntPart) : ∃ d ds, i.toDigits = d :: ds := by
  cases i with
  | zero => exact ⟨_, _, rfl⟩
  | digits first rest => exact ⟨_, _, rfl⟩

/-- A digit is not a sign. -/
theorem digitByte_ne (d : Fin 10) : digitByte d ≠ 0x2d := by
  revert d
  decide

section Bytes

variable {num : Number}

theorem bytes_of_negative (h : num.negative = true) :
    num.bytes = 0x2d :: (num.int.toDigits.map digitByte ++ num.tail) := by
  simp [Number.bytes, h]

theorem bytes_of_not_negative (h : num.negative = false) :
    num.bytes = num.int.toDigits.map digitByte ++ num.tail := by
  simp [Number.bytes, h]

/-- The first digit is always read. -/
theorem one_le_atollLoop (negative : Bool) (i : IntPart) (tail : List UInt8) :
    1 ≤ (atollLoop negative 0 0 (i.toDigits.map digitByte ++ tail)).2 := by
  obtain ⟨d, ds, hds⟩ := exists_toDigits_eq i
  have hzero : signed negative 0 = 0 := by cases negative <;> rfl
  obtain ⟨hnext, hno⟩ := @atollNext_eq 0 negative d
    (by cases negative <;> simp only [signed] <;> omega)
    (by cases negative <;> simp only [signed] <;> omega)
  rw [hzero] at hnext hno
  simp only [hds, List.map_cons, List.cons_append, atollLoop, digit?_digitByte, hnext, hno,
    Bool.false_eq_true, if_false]
  exact le_atollLoop _ _ _

theorem grnAtoll_of_negative (h : num.negative = true) :
    ∃ v k, atollLoop true 0 0 (num.int.toDigits.map digitByte ++ num.tail) = (v, k + 1) ∧
      grnAtoll num.bytes = (v, k + 2) := by
  have hpos := one_le_atollLoop true num.int num.tail
  rw [bytes_of_negative h, grnAtoll]
  generalize atollLoop true 0 0 _ = r at hpos
  obtain ⟨v, k⟩ := r
  obtain ⟨k, rfl⟩ : ∃ m, k = m + 1 := ⟨k - 1, by simp only at hpos; omega⟩
  exact ⟨v, k, rfl, rfl⟩

theorem grnAtoll_of_not_negative (h : num.negative = false) :
    grnAtoll num.bytes = atollLoop false 0 0 (num.int.toDigits.map digitByte ++ num.tail) := by
  obtain ⟨d, ds, hds⟩ := exists_toDigits_eq num.int
  rw [bytes_of_not_negative h, hds, List.map_cons, List.cons_append, grnAtoll]
  intro str hstr
  exact digitByte_ne d (List.cons.inj hstr).1

theorem grnAtoull_of_negative (h : num.negative = true) : grnAtoull num.bytes = (0, 0) := by
  rw [bytes_of_negative h, grnAtoull, atoullLoop]
  rfl

theorem grnAtoull_of_not_negative (h : num.negative = false) :
    grnAtoull num.bytes = atoullLoop 0 0 (num.int.toDigits.map digitByte ++ num.tail) := by
  rw [bytes_of_not_negative h, grnAtoull]

theorem grnAtoll_pos (num : Number) : (grnAtoll num.bytes).2 ≠ 0 := by
  cases h : num.negative with
  | true =>
    obtain ⟨v, k, -, heq⟩ := grnAtoll_of_negative h
    rw [heq]
    exact Nat.succ_ne_zero _
  | false =>
    rw [grnAtoll_of_not_negative h]
    exact Nat.ne_of_gt (one_le_atollLoop false num.int num.tail)

theorem grnAtoull_pos (h : num.negative = false) : (grnAtoull num.bytes).2 ≠ 0 := by
  obtain ⟨d, ds, hds⟩ := exists_toDigits_eq num.int
  have hno : ¬ (0 * 10 + d.val) % 2 ^ 64 < 0 := Nat.not_lt_zero _
  rw [grnAtoull_of_not_negative h, hds, List.map_cons, List.cons_append]
  simp only [atoullLoop, digit?_digitByte, hno, if_false]
  exact Nat.ne_of_gt (le_atoullLoop _)

/-- A number with a fraction or an exponent is not read to the end. -/
theorem grnAtoll_ne_of_not_isInteger (h : num.isInteger = false) :
    (grnAtoll num.bytes).2 ≠ num.bytes.length := by
  have htail : 0 < num.tail.length := List.length_pos_iff.mpr fun hnil => by
    rw [tail_eq_nil_iff, h] at hnil
    cases hnil
  cases hneg : num.negative with
  | true =>
    obtain ⟨v, k, hloop, heq⟩ := grnAtoll_of_negative hneg
    have hle := @atollLoop_le num.int.toDigits num.tail 0 true 0 (stops_tail num)
    rw [hloop] at hle
    rw [heq, bytes_of_negative hneg, List.length_cons, List.length_append, List.length_map]
    simp only at hle ⊢
    omega
  | false =>
    have hle := @atollLoop_le num.int.toDigits num.tail 0 false 0 (stops_tail num)
    rw [grnAtoll_of_not_negative hneg, bytes_of_not_negative hneg, List.length_append,
      List.length_map]
    omega

theorem grnAtoull_ne_of_not_isInteger (hneg : num.negative = false) (h : num.isInteger = false) :
    (grnAtoull num.bytes).2 ≠ num.bytes.length := by
  have htail : 0 < num.tail.length := List.length_pos_iff.mpr fun hnil => by
    rw [tail_eq_nil_iff, h] at hnil
    cases hnil
  have hle := @atoullLoop_le num.int.toDigits num.tail 0 0 (stops_tail num)
  rw [grnAtoull_of_not_negative hneg, bytes_of_not_negative hneg, List.length_append,
    List.length_map]
  omega

/-- **Integers of the range of `int64_t`.** -/
theorem grnAtoll_eq (hint : num.isInteger = true) (hlow : -2 ^ 63 ≤ intValue num)
    (hhigh : intValue num < 2 ^ 63) : grnAtoll num.bytes = (intValue num, num.bytes.length) := by
  have htail : num.tail = [] := (tail_eq_nil_iff num).mpr hint
  have hloop := @atollLoop_eq num.int.toDigits num.tail 0 0 num.negative (stops_tail num) hlow hhigh
  have hzero : signed num.negative 0 = 0 := by cases num.negative <;> rfl
  rw [hzero] at hloop
  cases hneg : num.negative with
  | true =>
    obtain ⟨v, k, hloop', heq⟩ := grnAtoll_of_negative hneg
    rw [hneg] at hloop
    obtain ⟨hv, hk⟩ := Prod.mk.inj (hloop'.symm.trans hloop)
    rw [heq, bytes_of_negative hneg, htail, hv, intValue, hneg]
    simp only [List.length_cons, List.length_append, List.length_map, List.length_nil,
      Number.natAbs, Prod.mk.injEq, true_and]
    omega
  | false =>
    rw [hneg] at hloop
    rw [grnAtoll_of_not_negative hneg, hloop, bytes_of_not_negative hneg, htail, intValue, hneg]
    simp [Number.natAbs]

/-- **Integers of the range of `uint64_t`.** -/
theorem grnAtoull_eq (hneg : num.negative = false) (hint : num.isInteger = true)
    (hhigh : num.natAbs < 2 ^ 64) : grnAtoull num.bytes = (num.natAbs, num.bytes.length) := by
  have htail : num.tail = [] := (tail_eq_nil_iff num).mpr hint
  rw [grnAtoull_of_not_negative hneg, atoullLoop_eq (stops_tail num) hhigh,
    bytes_of_not_negative hneg, htail]
  simp [Number.natAbs]

/-- Such an integer is not read as a smaller `int64_t`. -/
theorem grnAtoll_ne_of_large (hneg : num.negative = false) (hlow : 2 ^ 63 ≤ num.natAbs)
    (hhigh : num.natAbs < 2 ^ 64) : (grnAtoll num.bytes).2 ≠ num.bytes.length := by
  have hlt := @atollLoop_lt num.int.toDigits num.tail 0 0 (by omega) hlow hhigh
  rw [grnAtoll_of_not_negative hneg, bytes_of_not_negative hneg, List.length_append,
    List.length_map]
  rw [show ((0 : ℕ) : ℤ) = 0 from rfl] at hlt
  omega

end Bytes

/-- **Which numbers the reader gets right.** -/
theorem convertNumber_eq_iff {num : Number} (hread : strtod.read num.bytes = num.bytes.length) :
    convertNumber strtod num.bytes = denoteNumber strtod num ↔ Converts strtod num := by
  have hpos := grnAtoll_pos num
  by_cases hint64 : num.isInteger ∧ -2 ^ 63 ≤ intValue num ∧ intValue num < 2 ^ 63
  · obtain ⟨hint, hlow, hhigh⟩ := hint64
    have heq := grnAtoll_eq hint hlow hhigh
    refine iff_of_true ?_ (.inl ⟨hint, hlow, by omega⟩)
    rw [convertNumber, heq, if_pos rfl, denoteNumber, if_pos ⟨hint, hlow, hhigh⟩]
  · by_cases huint64 : num.isInteger ∧ 0 ≤ intValue num ∧ intValue num < 2 ^ 64
    · obtain ⟨hint, hlow, hhigh⟩ := huint64
      have hlarge : 2 ^ 63 ≤ intValue num := by
        by_contra hsmall
        exact hint64 ⟨hint, by omega, by omega⟩
      have hneg : num.negative = false := by
        cases hneg : num.negative with
        | false => rfl
        | true => simp only [intValue, signed, hneg, if_true] at hlarge; omega
      have hvalue : intValue num = num.natAbs := by simp [intValue, signed, hneg]
      have hne := grnAtoll_ne_of_large hneg (by omega) (by omega)
      have heq := grnAtoull_eq hneg hint (by omega)
      refine iff_of_true ?_ (.inl ⟨hint, by omega, hhigh⟩)
      rw [convertNumber, if_neg hne, if_pos hpos, heq, if_pos rfl, denoteNumber, if_neg hint64,
        if_pos ⟨hint, hlow, hhigh⟩, hvalue]
      rfl
    · have hrange : ¬ (num.isInteger ∧ -2 ^ 63 ≤ intValue num ∧ intValue num < 2 ^ 64) := by
        rintro ⟨hint, hlow, hhigh⟩
        by_cases hsmall : intValue num < 2 ^ 63
        · exact hint64 ⟨hint, hlow, hsmall⟩
        · exact huint64 ⟨hint, by omega, hhigh⟩
      rw [denoteNumber, if_neg hint64, if_neg huint64, Converts, or_iff_right hrange]
      cases hneg : num.negative with
      | true =>
        -- `grn_atoull` reads no sign
        have hzero := grnAtoull_of_negative hneg
        have hlen : num.bytes.length ≠ 0 := by simp [bytes_of_negative hneg]
        simp only [convertNumber, hzero, hlen.symm, if_false, ne_eq, not_true_eq_false, ite_self]
        split_ifs <;> simp
      | false =>
        have hupos := grnAtoull_pos hneg
        rw [convertNumber, if_pos hpos, if_pos hupos]
        cases hint : num.isInteger with
        | false =>
          rw [if_neg (grnAtoll_ne_of_not_isInteger hint),
            if_neg (grnAtoull_ne_of_not_isInteger hneg hint)]
          cases herrno : strtod.errno num.bytes <;> simp [hread]
        | true =>
          split_ifs with h1 h2 h3
          · simp [h1]
          · simp [h2]
          · simp [h1, h2, h3.1]
          · have herrno : strtod.errno num.bytes ≠ false := fun h => h3 ⟨h, hread⟩
            simp [herrno]

end Groonga.Load
