import Groonga.Load.Number

/-!
# Integers as decimal texts

The parsers of `str.c` take one digit after the other. They find an overflow by comparing the value
before a digit with the value behind it, in the type they return; a value that has wrapped around
need not be smaller, and then they go on. The printers write the digits from the last one to the
first, and turn them around.

A parser gives the value and how many bytes it read.
-/

namespace Groonga.Str

open Lib.JsonText Load

/-! ## The parsers -/

/-- The result of signed arithmetic in `w` bits. -/
def wrap (w : ℕ) (x : ℤ) : ℤ := (x + 2 ^ (w - 1)) % 2 ^ w - 2 ^ (w - 1)

/-- The loop over the digits: at an overflow the value is zero, and the digit is not read. -/
def digitsLoop (next : ℤ → ℕ → ℤ) (overflows : ℤ → ℤ → Bool) : ℤ → ℕ → List UInt8 → ℤ × ℕ
  | v, n, [] => (v, n)
  | v, n, c :: str =>
    match digit? c with
    | none => (v, n)
    | some d =>
      if overflows v (next v d) then (0, n) else digitsLoop next overflows (next v d) (n + 1) str

/-- The test for an overflow of the signed parsers up to 32 bits, which keep the negated value. -/
def atoiOverflows (w : ℕ) (negative : Bool) (v t : ℤ) : Bool :=
  v < t || (!negative && t == -2 ^ (w - 1))

/-- A sign is read with the digits behind it: without a digit it is not read. -/
def behindSign : ℤ × ℕ → ℤ × ℕ
  | (v, 0) => (v, 0)
  | (v, n + 1) => (v, n + 2)

/-- The signed parsers up to 32 bits. -/
def atoi (w : ℕ) (str : List UInt8) : ℤ × ℕ :=
  match str with
  | 0x2d :: str =>
    behindSign (digitsLoop (fun v d => wrap w (v * 10 - d)) (atoiOverflows w true) 0 0 str)
  | str =>
    match digitsLoop (fun v d => wrap w (v * 10 - d)) (atoiOverflows w false) 0 0 str with
    | (v, n) => (wrap w (-v), n)

/-- The unsigned parsers. -/
def atoui (w : ℕ) (str : List UInt8) : ℤ × ℕ :=
  digitsLoop (fun v d => (v * 10 + d) % 2 ^ w) (fun v t => t < v) 0 0 str

/-- `grn_atoi8`. -/
def grnAtoi8 : List UInt8 → ℤ × ℕ := atoi 8

/-- `grn_atoui8`. -/
def grnAtoui8 : List UInt8 → ℤ × ℕ := atoui 8

/-- `grn_atoi16`. -/
def grnAtoi16 : List UInt8 → ℤ × ℕ := atoi 16

/-- `grn_atoui16`. -/
def grnAtoui16 : List UInt8 → ℤ × ℕ := atoui 16

/-- `grn_atoi`. -/
def grnAtoi : List UInt8 → ℤ × ℕ := atoi 32

/-- `grn_atoui`. -/
def grnAtoui : List UInt8 → ℤ × ℕ := atoui 32

/-! ## `grn_aton` -/

/-- The object that `grn_aton` makes. -/
inductive Numeric (F : Type)
  | int32 (v : ℤ)
  | uint32 (v : ℤ)
  | int64 (v : ℤ)
  | uint64 (v : ℕ)
  | float (x : F)
  deriving DecidableEq, Repr

/-- The integer of an object. -/
def Numeric.integer? {F : Type} : Numeric F → Option ℤ
  | int32 v => some v
  | uint32 v => some v
  | int64 v => some v
  | uint64 v => some v
  | float _ => none

/-- The result of `grn_aton`: whether the code is `GRN_SUCCESS`, the object, if it was made, and
what is left of the text, if it was set. -/
structure Aton (F : Type) where
  success : Bool
  res : Option (Numeric F)
  rest : Option (List UInt8)
  deriving DecidableEq, Repr

/-- The object for a value of `grn_atoll`. -/
def integerOf {F : Type} (v : ℤ) : Numeric F :=
  if -2 ^ 31 ≤ v ∧ v < 2 ^ 31 then .int32 v
  else if 2 ^ 31 ≤ v ∧ v < 2 ^ 32 then .uint32 v
  else .int64 v

/-- The byte where `grn_atoll` stopped is one that a `double` may have. -/
def mayContinue (c : UInt8) : Bool := c == 0x2e || c == 0x65 || c == 0x45 || (digit? c).isSome

/-- The last attempt of `grn_aton`: a `double`. -/
def atonFloat {F : Type} (strtod : Strtod F) (p rest : List UInt8) (restChar : UInt8) : Aton F :=
  if mayContinue restChar then
    if strtod.errno p = false ∧ strtod.read p = p.length then
      ⟨true, some (.float (strtod.value p)), some []⟩
    else ⟨false, none, some rest⟩
  else ⟨true, none, some rest⟩

/-- `grn_aton` behind a `+`. There is no result when the byte at the end decides what is done. -/
def atonUnsigned {F : Type} (strtod : Strtod F) (p : List UInt8) : Option (Aton F) :=
  match p with
  | [] => none
  | c :: _ =>
    if c = 0x2d ∨ (digit? c).isSome then
      match p.drop (grnAtoll p).2 with
      | [] => some ⟨true, some (integerOf (grnAtoll p).1), some []⟩
      | restChar :: rest =>
        if c ≠ 0x2d ∧ (digit? restChar).isSome then
          match p.drop (grnAtoull p).2 with
          | [] => some ⟨true, some (.uint64 (grnAtoull p).1), some []⟩
          | c :: rest => some (atonFloat strtod p (c :: rest) restChar)
        else some (atonFloat strtod p (restChar :: rest) restChar)
    else some ⟨false, none, none⟩

/-- `grn_aton`. -/
def grnAton {F : Type} (strtod : Strtod F) (str : List UInt8) : Option (Aton F) :=
  match str with
  | 0x2b :: str => atonUnsigned strtod str
  | str => atonUnsigned strtod str

/-! ## The printers -/

/-- The loop that writes the digits of a value, the last one first, while there is room: whether it
came to the end, and the bytes. -/
def putDigits : ℕ → ℕ → Bool × List UInt8
  | 0, _ => (false, [])
  | room + 1, i =>
    if 0 < i / 10 then
      ((putDigits room (i / 10)).1, UInt8.ofNat (i % 10 + 0x30) :: (putDigits room (i / 10)).2)
    else (true, [UInt8.ofNat (i % 10 + 0x30)])

/-- The end of a printer: the bytes behind the sign are turned around, if all digits were
written. -/
def turnAround (sign first : List UInt8) (r : Bool × List UInt8) : Bool × List UInt8 :=
  (r.1, sign ++ if r.1 then (first ++ r.2).reverse else first ++ r.2)

/-- The last digit of a negative value. -/
def lastDigit (i : ℤ) : UInt8 := UInt8.ofNat ((-(i.tmod 10)).toNat + 0x30)

/-- `grn_itoa`: whether it succeeds, and the bytes from `p` on that it wrote, where `size` bytes are
before `end`. -/
def grnItoa (i : ℤ) (size : ℕ) : Bool × List UInt8 :=
  if size = 0 then (false, [])
  else if i < 0 then
    if i = -2 ^ 31 then
      if size = 1 then (false, [0x2d])
      else turnAround [0x2d] [lastDigit i] (putDigits (size - 2) (wrap 32 (-(i.tdiv 10))).toNat)
    else turnAround [0x2d] [] (putDigits (size - 1) (wrap 32 (-i)).toNat)
  else turnAround [] [] (putDigits size i.toNat)

/-- `grn_lltoa`. The last digit of the least value is written without a look at `end`. -/
def grnLltoa (i : ℤ) (size : ℕ) : Bool × List UInt8 :=
  if size = 0 then (false, [])
  else if i < 0 then
    if i = -2 ^ 63 then
      turnAround [0x2d] [lastDigit i] (putDigits (size - 2) (wrap 64 (-(i.tdiv 10))).toNat)
    else turnAround [0x2d] [] (putDigits (size - 1) (wrap 64 (-i)).toNat)
  else turnAround [] [] (putDigits size i.toNat)

/-- `grn_ulltoa`. -/
def grnUlltoa (i : ℕ) (size : ℕ) : Bool × List UInt8 :=
  if size = 0 then (false, []) else turnAround [] [] (putDigits size i)

/-! ## Where an overflow shows -/

variable {F : Type} {ds pre post : List (Fin 10)} {d : Fin 10} {v n w : ℕ} {negative : Bool}
  {next : ℤ → ℕ → ℤ} {overflows : ℤ → ℤ → Bool} {f : ℕ → ℤ}

/-- **A digit shows the overflow**: the test holds for what the number before the digit and the
number behind it are in the type. -/
def Shows (overflows : ℤ → ℤ → Bool) (f : ℕ → ℤ) (v : ℕ) (ds : List (Fin 10)) : Prop :=
  ∃ pre d post, ds = pre ++ d :: post ∧
    overflows (f (ofDigits v pre)) (f (ofDigits v pre * 10 + d.val)) = true

theorem not_shows_nil : ¬ Shows overflows f v [] := by
  rintro ⟨pre, d, post, h, -⟩
  exact List.append_ne_nil_of_right_ne_nil pre (List.cons_ne_nil d post) h.symm

theorem shows_cons : Shows overflows f v (d :: ds) ↔
    overflows (f v) (f (v * 10 + d.val)) = true ∨ Shows overflows f (v * 10 + d.val) ds := by
  constructor
  · rintro ⟨pre, e, post, h, hover⟩
    cases pre with
    | nil =>
      obtain ⟨rfl, rfl⟩ := List.cons.inj h
      exact .inl hover
    | cons a pre =>
      obtain ⟨rfl, rfl⟩ := List.cons.inj h
      exact .inr ⟨pre, e, post, rfl, hover⟩
  · rintro (hover | ⟨pre, e, post, rfl, hover⟩)
    · exact ⟨[], d, ds, rfl, hover⟩
    · exact ⟨d :: pre, e, post, rfl, hover⟩

/-- The loop reads all digits if no digit shows the overflow, and then has the number that they
denote, as it is in the type. -/
theorem digitsLoop_of_not_shows (hnext : ∀ v (d : Fin 10), next (f v) d.val = f (v * 10 + d.val))
    (h : ¬ Shows overflows f v ds) :
    digitsLoop next overflows (f v) n (ds.map digitByte) = (f (ofDigits v ds), n + ds.length) := by
  induction ds generalizing v n with
  | nil => rfl
  | cons d ds ih =>
    rw [shows_cons, not_or] at h
    obtain ⟨hno, h⟩ := h
    rw [List.map_cons, digitsLoop, digit?_digitByte]
    simp only [hnext]
    rw [if_neg hno, ih h, ofDigits_cons, List.length_cons, Nat.add_right_comm, Nat.add_assoc]

/-- Else it stops before a digit. -/
theorem digitsLoop_of_shows (hnext : ∀ v (d : Fin 10), next (f v) d.val = f (v * 10 + d.val))
    (h : Shows overflows f v ds) :
    (digitsLoop next overflows (f v) n (ds.map digitByte)).2 < n + ds.length := by
  induction ds generalizing v n with
  | nil => exact absurd h not_shows_nil
  | cons d ds ih =>
    rw [List.map_cons, digitsLoop, digit?_digitByte, List.length_cons]
    simp only [hnext]
    rcases Bool.eq_false_or_eq_true (overflows (f v) (f (v * 10 + d.val))) with hover | hno
    · rw [if_pos hover]
      exact Nat.lt_add_of_pos_right (Nat.succ_pos _)
    · rw [if_neg (Bool.eq_false_iff.mp hno)]
      have h := (shows_cons.mp h).resolve_left (Bool.eq_false_iff.mp hno)
      have := @ih (v * 10 + d.val) (n + 1) h
      rwa [Nat.add_assoc, Nat.add_comm 1] at this

/-- No digit shows an overflow when the test fails for any two numbers up to the one denoted. -/
theorem not_shows_of_le (h : ∀ a b, a ≤ b → b ≤ ofDigits v ds → overflows (f a) (f b) = false) :
    ¬ Shows overflows f v ds := by
  rintro ⟨pre, d, post, rfl, hover⟩
  have hle : ofDigits v pre * 10 + d.val ≤ ofDigits v (pre ++ d :: post) := by
    have : ofDigits v (pre ++ d :: post) = ofDigits (ofDigits v pre * 10 + d.val) post := by
      simp only [ofDigits, List.foldl_append, List.foldl_cons]
    rw [this]
    exact le_ofDigits
  rw [h _ _ (by omega) hle] at hover
  exact Bool.noConfusion hover

/-! ## Wrapping around -/

section Wrap

variable {x y : ℤ}

theorem wrap_emod (w : ℕ) (x : ℤ) : wrap w x % 2 ^ w = x % 2 ^ w := by
  rw [wrap, Int.sub_emod, Int.emod_emod, ← Int.sub_emod, Int.add_sub_cancel]

theorem wrap_congr (h : x % 2 ^ w = y % 2 ^ w) : wrap w x = wrap w y := by
  rw [wrap, wrap, Int.add_emod, h, ← Int.add_emod]

theorem wrap_mul_sub (w : ℕ) (x d : ℤ) : wrap w (wrap w x * 10 - d) = wrap w (x * 10 - d) := by
  apply wrap_congr
  rw [Int.sub_emod, Int.mul_emod, wrap_emod, ← Int.mul_emod, ← Int.sub_emod]

theorem wrap_mul_add (w : ℕ) (x d : ℤ) : wrap w (wrap w x * 10 + d) = wrap w (x * 10 + d) := by
  apply wrap_congr
  rw [Int.add_emod, Int.mul_emod, wrap_emod, ← Int.mul_emod, ← Int.add_emod]

theorem wrap_neg_wrap (w : ℕ) (x : ℤ) : wrap w (-wrap w (-x)) = wrap w x := by
  apply wrap_congr
  rw [← Int.zero_sub, Int.sub_emod, wrap_emod, ← Int.sub_emod, Int.zero_sub, Int.neg_neg]

/-- The range of a signed type. -/
def Fits (w : ℕ) (x : ℤ) : Prop := -2 ^ (w - 1) ≤ x ∧ x < 2 ^ (w - 1)

theorem two_pow_half (hw : 0 < w) : (2 : ℤ) ^ w = 2 * 2 ^ (w - 1) := by
  obtain ⟨k, rfl⟩ := Nat.exists_eq_add_of_lt hw
  rw [Nat.zero_add, Nat.add_sub_cancel, Int.pow_succ, Int.mul_comm]

/-- A number of the range is not changed. -/
theorem wrap_of_fits (hw : 0 < w) (h : Fits w x) : wrap w x = x := by
  obtain ⟨hlow, hhigh⟩ := h
  rw [wrap, Int.emod_eq_of_lt (by omega) (by rw [two_pow_half hw]; omega), Int.add_sub_cancel]

theorem fits_wrap (hw : 0 < w) (x : ℤ) : Fits w (wrap w x) := by
  have hpos : (0 : ℤ) < 2 ^ w := Int.pow_pos (by decide)
  have hlow := Int.emod_nonneg (x + 2 ^ (w - 1)) (Int.ne_of_gt hpos)
  have hhigh := Int.emod_lt_of_pos (x + 2 ^ (w - 1)) hpos
  have hhalf := two_pow_half hw
  rw [Fits, wrap]
  constructor
  · omega
  · omega

theorem wrap_zero (hw : 0 < w) : wrap w 0 = 0 := by
  have hpos : (0 : ℤ) < 2 ^ (w - 1) := Int.pow_pos (by decide)
  apply wrap_of_fits hw
  exact ⟨by omega, hpos⟩

theorem wrapInt64_eq_wrap (x : ℤ) : wrapInt64 x = wrap 64 x := by
  simp only [wrapInt64, wrap, Nat.reduceSub]

/-- A number that was read as it is has the range. -/
theorem wrap_eq_iff (hw : 0 < w) : wrap w x = x ↔ Fits w x :=
  ⟨fun h => h ▸ fits_wrap hw x, wrap_of_fits hw⟩

end Wrap

/-! ## What the parsers give -/

/-- A number with an optional sign. -/
def text (negative : Bool) (ds : List (Fin 10)) : List UInt8 :=
  (if negative then [0x2d] else []) ++ ds.map digitByte

/-- The parser stops before the end, or gives this value for the whole text. -/
def Parses (read : List UInt8 → ℤ × ℕ) (bytes : List UInt8) (stops : Prop) (x : ℤ) : Prop :=
  (stops → (read bytes).2 < bytes.length) ∧ (¬ stops → read bytes = (x, bytes.length))

theorem text_false : text false ds = ds.map digitByte := rfl

theorem text_true : text true ds = 0x2d :: ds.map digitByte := rfl

theorem length_text_true : (text true ds).length = ds.length + 1 := by
  rw [text_true, List.length_cons, List.length_map]

/-- Behind a sign. -/
theorem parses_behindSign {read : List UInt8 → ℤ × ℕ} {r : ℤ × ℕ} {x : ℤ} {stops : Prop}
    (hds : ds ≠ []) (hr : read (text true ds) = behindSign r) (hstops : stops → r.2 < ds.length)
    (hread : ¬ stops → r = (x, ds.length)) : Parses read (text true ds) stops x := by
  rw [Parses, hr, length_text_true]
  constructor
  · intro h
    have hlt := hstops h
    rcases r with ⟨v, - | k⟩
    · exact Nat.succ_pos _
    · exact Nat.succ_lt_succ hlt
  · intro h
    rw [hread h]
    cases ds with
    | nil => exact absurd rfl hds
    | cons d ds => rfl

/-- A text without a sign starts with a digit. -/
theorem text_false_ne (hds : ds ≠ []) (str : List UInt8) : text false ds ≠ 0x2d :: str := by
  cases ds with
  | nil => exact absurd rfl hds
  | cons d ds =>
    intro h
    exact digitByte_ne d (List.cons.inj h).1

/-- **The unsigned parsers.** -/
theorem parses_atoui (w : ℕ) (ds : List (Fin 10)) :
    Parses (atoui w) (text false ds) (Shows (fun v t => t < v) (fun v => (v : ℤ) % 2 ^ w) 0 ds)
      ((ofDigits 0 ds : ℤ) % 2 ^ w) := by
  have hnext : ∀ (v : ℕ) (d : Fin 10), ((v : ℤ) % 2 ^ w * 10 + (d.val : ℤ)) % 2 ^ w =
      ((v * 10 + d.val : ℕ) : ℤ) % 2 ^ w := by
    intro v d
    rw [Int.natCast_add, Int.natCast_mul, Int.add_emod, Int.mul_emod, Int.emod_emod,
      ← Int.mul_emod, ← Int.add_emod]
    rfl
  rw [Parses, text_false, List.length_map]
  constructor
  · intro h
    have := @digitsLoop_of_shows ds 0 0 (fun v d => (v * 10 + d) % 2 ^ w) _ _ hnext h
    rwa [Nat.zero_add] at this
  · intro h
    have := @digitsLoop_of_not_shows ds 0 0 (fun v d => (v * 10 + d) % 2 ^ w) _ _ hnext h
    rwa [Nat.zero_add] at this

/-- **The signed parsers up to 32 bits.** -/
theorem parses_atoi (hw : 0 < w) (negative : Bool) (hds : ds ≠ []) :
    Parses (atoi w) (text negative ds)
      (Shows (atoiOverflows w negative) (fun v => wrap w (-(v : ℤ))) 0 ds)
      (wrap w (signed negative (ofDigits 0 ds))) := by
  have hnext : ∀ (v : ℕ) (d : Fin 10), wrap w (wrap w (-(v : ℤ)) * 10 - (d.val : ℤ)) =
      wrap w (-((v * 10 + d.val : ℕ) : ℤ)) := by
    intro v d
    rw [wrap_mul_sub]
    congr 1
    omega
  have hstops := @digitsLoop_of_shows ds 0 0 (fun v d => wrap w (v * 10 - d))
    (atoiOverflows w negative) (fun v => wrap w (-(v : ℤ))) hnext
  have hread := @digitsLoop_of_not_shows ds 0 0 (fun v d => wrap w (v * 10 - d))
    (atoiOverflows w negative) (fun v => wrap w (-(v : ℤ))) hnext
  simp only [Int.natCast_zero, Int.neg_zero, wrap_zero hw, Nat.zero_add] at hstops hread
  cases negative with
  | true => exact parses_behindSign hds rfl hstops hread
  | false =>
    have hatoi : atoi w (text false ds) =
        (wrap w (-(digitsLoop (fun v d => wrap w (v * 10 - d)) (atoiOverflows w false) 0 0
          (text false ds)).1), (digitsLoop (fun v d => wrap w (v * 10 - d)) (atoiOverflows w false)
          0 0 (text false ds)).2) := by
      rw [atoi]
      exact fun str h => text_false_ne hds str h
    rw [Parses, hatoi, text_false, List.length_map]
    constructor
    · exact hstops
    · intro h
      rw [hread h]
      exact congrArg (·, ds.length) (wrap_neg_wrap w _)

/-- The loops of `grn_atoll`. -/
theorem atollLoop_eq_digitsLoop (str : List UInt8) (x : ℤ) :
    atollLoop negative x n str =
      digitsLoop (atollNext negative) (atollOverflows negative) x n str := by
  induction str generalizing x n with
  | nil => rfl
  | cons c str ih =>
    rw [atollLoop, digitsLoop]
    cases digit? c with
    | none => rfl
    | some d => simp only [ih]

/-- **`grn_atoll`.** -/
theorem parses_grnAtoll (negative : Bool) (hds : ds ≠ []) :
    Parses grnAtoll (text negative ds)
      (Shows (atollOverflows negative) (fun v => wrap 64 (signed negative v)) 0 ds)
      (wrap 64 (signed negative (ofDigits 0 ds))) := by
  have hnext : ∀ (v : ℕ) (d : Fin 10), atollNext negative (wrap 64 (signed negative v)) d.val =
      wrap 64 (signed negative (v * 10 + d.val)) := by
    intro v d
    rw [atollNext, wrapInt64_eq_wrap]
    cases negative with
    | true =>
      rw [if_pos rfl, wrap_mul_sub]
      congr 1
      simp only [signed, if_true]
      omega
    | false =>
      rw [if_neg Bool.false_ne_true, wrap_mul_add]
      congr 1
  have hzero : wrap 64 (signed negative 0) = 0 := by
    have : signed negative 0 = 0 := by cases negative <;> rfl
    rw [this, wrap_zero (by decide)]
  have hstops := @digitsLoop_of_shows ds 0 0 (atollNext negative) (atollOverflows negative)
    (fun v => wrap 64 (signed negative v)) hnext
  have hread := @digitsLoop_of_not_shows ds 0 0 (atollNext negative) (atollOverflows negative)
    (fun v => wrap 64 (signed negative v)) hnext
  simp only [hzero, Nat.zero_add, ← atollLoop_eq_digitsLoop] at hstops hread
  cases negative with
  | true =>
    refine parses_behindSign hds ?_ hstops hread
    rw [text_true, grnAtoll]
    rcases atollLoop true 0 0 _ with ⟨v, - | k⟩ <;> rfl
  | false =>
    have hatoll : grnAtoll (text false ds) = atollLoop false 0 0 (text false ds) := by
      rw [grnAtoll]
      exact fun str h => text_false_ne hds str h
    rw [Parses, hatoll, text_false, List.length_map]
    exact ⟨hstops, hread⟩

/-- `grn_atoull` is the unsigned parser with 64 bits. -/
theorem atoullLoop_eq_digitsLoop (str : List UInt8) (x n : ℕ) :
    digitsLoop (fun v d => (v * 10 + d) % 2 ^ 64) (fun v t => t < v) x n str =
      (((atoullLoop x n str).1 : ℤ), (atoullLoop x n str).2) := by
  induction str generalizing x n with
  | nil => rfl
  | cons c str ih =>
    rw [atoullLoop, digitsLoop]
    cases digit? c with
    | none => rfl
    | some d =>
      have hcast : ((x : ℤ) * 10 + (d : ℤ)) % 2 ^ 64 = ((x * 10 + d) % 2 ^ 64 : ℕ) := by omega
      simp only [hcast, Int.ofNat_lt]
      by_cases hover : (x * 10 + d) % 2 ^ 64 < x
      · rw [if_pos hover, if_pos (decide_eq_true hover)]
        rfl
      · rw [if_neg hover, if_neg (by simpa using hover), ih]

/-- `grn_atoull`, with the value as an integer. -/
def atoull (str : List UInt8) : ℤ × ℕ := ((grnAtoull str).1, (grnAtoull str).2)

theorem atoull_eq : atoull = atoui 64 :=
  funext fun str => (atoullLoop_eq_digitsLoop str 0 0).symm

/-! ## When they are exact -/

/-- **A parser is exact for a text**: it reads all of it as the number when the type has the number,
and else not all of it. -/
def Exact (read : List UInt8 → ℤ × ℕ) (Has : ℤ → Prop) (negative : Bool) (ds : List (Fin 10)) :
    Prop :=
  (Has (signed negative (ofDigits 0 ds)) →
    read (text negative ds) = (signed negative (ofDigits 0 ds), (text negative ds).length)) ∧
  (¬ Has (signed negative (ofDigits 0 ds)) →
    (read (text negative ds)).2 ≠ (text negative ds).length)

/-- A parser is exact when the type has the number, or an overflow shows. -/
theorem Parses.exact_iff {read : List UInt8 → ℤ × ℕ} {Has : ℤ → Prop} {x : ℤ} {stops : Prop}
    (h : Parses read (text negative ds) stops x)
    (hhas : Has (signed negative (ofDigits 0 ds)) → ¬ stops ∧ x = signed negative (ofDigits 0 ds)) :
    Exact read Has negative ds ↔ Has (signed negative (ofDigits 0 ds)) ∨ stops := by
  constructor
  · rintro ⟨-, hnot⟩
    by_cases hin : Has (signed negative (ofDigits 0 ds))
    · exact .inl hin
    · refine .inr (by_contra fun hno => hnot hin ?_)
      rw [h.2 hno]
  · intro hor
    refine ⟨fun hin => ?_, fun hin => Nat.ne_of_lt (h.1 (hor.resolve_left hin))⟩
    obtain ⟨hno, hx⟩ := hhas hin
    rw [h.2 hno, hx]

/-- The range of an unsigned type. -/
def HasUnsigned (w : ℕ) (x : ℤ) : Prop := 0 ≤ x ∧ x < 2 ^ w

/-- The overflow of an unsigned type shows: the number in the type is smaller behind a digit. -/
def UnsignedShows (w : ℕ) (ds : List (Fin 10)) : Prop :=
  Shows (fun v t => t < v) (fun v => (v : ℤ) % 2 ^ w) 0 ds

/-- The overflow of a signed type up to 32 bits shows: the negated number in the type is larger
behind a digit, or there is no sign and it is the least of the type. -/
def SignedShows (w : ℕ) (negative : Bool) (ds : List (Fin 10)) : Prop :=
  Shows (atoiOverflows w negative) (fun v => wrap w (-(v : ℤ))) 0 ds

/-- The overflow of `int64_t` shows: the number in the type is nearer to zero, or beyond, behind a
digit. -/
def LongShows (negative : Bool) (ds : List (Fin 10)) : Prop :=
  Shows (atollOverflows negative) (fun v => wrap 64 (signed negative v)) 0 ds

theorem atoui_has (h : HasUnsigned w (ofDigits 0 ds)) :
    ¬ UnsignedShows w ds ∧ (ofDigits 0 ds : ℤ) % 2 ^ w = ofDigits 0 ds := by
  have hmod : ∀ a, a ≤ ofDigits 0 ds → (a : ℤ) % 2 ^ w = a := fun a ha =>
    Int.emod_eq_of_lt (Int.natCast_nonneg a) (Int.lt_of_le_of_lt (Int.ofNat_le.mpr ha) h.2)
  refine ⟨not_shows_of_le fun a b hab hb => ?_, hmod _ (Nat.le_refl _)⟩
  rw [hmod a (Nat.le_trans hab hb), hmod b hb, decide_eq_false_iff_not]
  omega

theorem atoi_has (hw : 0 < w) (h : Fits w (signed negative (ofDigits 0 ds))) :
    ¬ SignedShows w negative ds ∧
      wrap w (signed negative (ofDigits 0 ds)) = signed negative (ofDigits 0 ds) := by
  refine ⟨not_shows_of_le fun a b hab hb => ?_, wrap_of_fits hw h⟩
  have hpos : (0 : ℤ) < 2 ^ (w - 1) := Int.pow_pos (by decide)
  have hfits : ∀ c, c ≤ ofDigits 0 ds → Fits w (-(c : ℤ)) ∧
      (negative = false → -(c : ℤ) ≠ -2 ^ (w - 1)) := by
    intro c hc
    obtain ⟨hlow, hhigh⟩ := h
    cases negative with
    | true =>
      simp only [signed, if_true] at hlow
      exact ⟨⟨by omega, by omega⟩, fun h => absurd h (by decide)⟩
    | false =>
      simp only [signed, Bool.false_eq_true, if_false] at hhigh
      exact ⟨⟨by omega, by omega⟩, fun _ => by omega⟩
  obtain ⟨hb, hleast⟩ := hfits b hb
  rw [wrap_of_fits hw (hfits a (by omega)).1, wrap_of_fits hw hb, atoiOverflows,
    Bool.or_eq_false_iff, Bool.and_eq_false_iff, decide_eq_false_iff_not, beq_eq_false_iff_ne]
  refine ⟨by omega, ?_⟩
  cases negative with
  | true => exact .inl rfl
  | false => exact .inr (hleast rfl)

theorem atoll_has (h : Fits 64 (signed negative (ofDigits 0 ds))) :
    ¬ LongShows negative ds ∧
      wrap 64 (signed negative (ofDigits 0 ds)) = signed negative (ofDigits 0 ds) := by
  refine ⟨not_shows_of_le fun a b hab hb => ?_, wrap_of_fits (by decide) h⟩
  have hfits : ∀ c, c ≤ ofDigits 0 ds → Fits 64 (signed negative c) := by
    intro c hc
    obtain ⟨hlow, hhigh⟩ := h
    cases negative with
    | true =>
      simp only [signed, if_true] at hlow hhigh ⊢
      exact ⟨by omega, by omega⟩
    | false =>
      simp only [signed, Bool.false_eq_true, if_false] at hlow hhigh ⊢
      exact ⟨by omega, by omega⟩
  rw [wrap_of_fits (by decide) (hfits a (by omega)), wrap_of_fits (by decide) (hfits b hb)]
  cases negative with
  | true =>
    simp only [signed, atollOverflows, if_true, decide_eq_false_iff_not]
    omega
  | false =>
    simp only [signed, atollOverflows, Bool.false_eq_true, if_false, decide_eq_false_iff_not]
    omega

theorem exact_atoui_iff (w : ℕ) (ds : List (Fin 10)) : Exact (atoui w) (HasUnsigned w) false ds ↔
    HasUnsigned w (ofDigits 0 ds) ∨ UnsignedShows w ds :=
  (parses_atoui w ds).exact_iff atoui_has

theorem exact_atoi_iff (hw : 0 < w) (hds : ds ≠ []) : Exact (atoi w) (Fits w) negative ds ↔
    Fits w (signed negative (ofDigits 0 ds)) ∨ SignedShows w negative ds :=
  (parses_atoi hw negative hds).exact_iff (atoi_has hw)

theorem exact_grnAtoll_iff (hds : ds ≠ []) : Exact grnAtoll (Fits 64) negative ds ↔
    Fits 64 (signed negative (ofDigits 0 ds)) ∨ LongShows negative ds :=
  (parses_grnAtoll negative hds).exact_iff atoll_has

theorem exact_atoull_iff (ds : List (Fin 10)) : Exact atoull (HasUnsigned 64) false ds ↔
    HasUnsigned 64 (ofDigits 0 ds) ∨ UnsignedShows 64 ds := by
  rw [← exact_atoui_iff, atoull_eq]

/-! ## When `grn_aton` is right -/

/-- The text of `grn_aton`. -/
def plusText (plus negative : Bool) (ds : List (Fin 10)) : List UInt8 :=
  (if plus then [0x2b] else []) ++ text negative ds

/-- **If `grn_aton` makes an integer, it is the number.** -/
def AtonRight (strtod : Strtod F) (plus negative : Bool) (ds : List (Fin 10)) : Prop :=
  ∃ r, grnAton strtod (plusText plus negative ds) = some r ∧
    ∀ o ∈ r.res, ∀ x ∈ o.integer?, x = signed negative (ofDigits 0 ds)

theorem integer?_integerOf (x : ℤ) : (integerOf x : Numeric F).integer? = some x := by
  rw [integerOf]
  split_ifs <;> rfl

theorem integer?_atonFloat {strtod : Strtod F} {p rest : List UInt8} {c : UInt8} {o : Numeric F}
    (h : (atonFloat strtod p rest c).res = some o) : o.integer? = none := by
  rw [atonFloat] at h
  split_ifs at h
  · obtain rfl := Option.some.inj h
    rfl

/-- The integers that `grn_aton` finds are the numbers. -/
def AtonShows (negative : Bool) (ds : List (Fin 10)) : Prop :=
  (Fits 64 (signed negative (ofDigits 0 ds)) ∨ LongShows negative ds) ∧
    (negative = false → LongShows false ds →
      HasUnsigned 64 (ofDigits 0 ds) ∨ UnsignedShows 64 ds)

theorem grnAton_plusText (strtod : Strtod F) (plus : Bool) (hds : ds ≠ []) :
    grnAton strtod (plusText plus negative ds) = atonUnsigned strtod (text negative ds) := by
  cases plus with
  | true => rfl
  | false =>
    rw [plusText, if_neg Bool.false_ne_true, List.nil_append, grnAton]
    intro str h
    cases negative with
    | true => exact absurd (List.cons.inj h).1 (by decide)
    | false =>
      obtain ⟨d, ds, rfl⟩ := List.exists_cons_of_ne_nil hds
      have hne : ∀ d : Fin 10, digitByte d ≠ 0x2b := by decide
      exact hne d (List.cons.inj h).1

/-- The bytes of a text without a sign are digits. -/
theorem isSome_digit?_of_mem {c : UInt8} (h : c ∈ text false ds) : (digit? c).isSome := by
  obtain ⟨d, -, rfl⟩ := List.mem_map.mp h
  rw [digit?_digitByte]
  rfl

/-- Where `grn_atoll` reads the whole text. -/
theorem atonUnsigned_of_not_longShows {strtod : Strtod F} (hds : ds ≠ [])
    (h : ¬ LongShows negative ds) :
    atonUnsigned strtod (text negative ds) =
      some ⟨true, some (integerOf (wrap 64 (signed negative (ofDigits 0 ds)))), some []⟩ := by
  have hread := (parses_grnAtoll negative hds).2 h
  obtain ⟨d, ds, rfl⟩ := List.exists_cons_of_ne_nil hds
  cases negative with
  | true =>
    rw [text_true] at hread ⊢
    simp only [atonUnsigned, hread, List.drop_length, true_or, if_true]
  | false =>
    have hdigit : (digit? (digitByte d)).isSome := by
      rw [digit?_digitByte]
      rfl
    rw [text_false, List.map_cons] at hread ⊢
    simp only [atonUnsigned, hread, List.drop_length, hdigit, or_true, if_true]

/-- Where `grn_atoll` stops at an overflow of a negative number, no integer is made. -/
theorem atonUnsigned_of_longShows_negative {strtod : Strtod F} (hds : ds ≠ [])
    (h : LongShows true ds) :
    ∃ rest c, atonUnsigned strtod (text true ds) =
      some (atonFloat strtod (text true ds) (c :: rest) c) := by
  have hlt := (parses_grnAtoll true hds).1 h
  obtain ⟨c, rest, hrest⟩ := List.exists_cons_of_length_pos
    (by rw [List.length_drop]; exact Nat.sub_pos_of_lt hlt :
      0 < ((text true ds).drop (grnAtoll (text true ds)).2).length)
  refine ⟨rest, c, ?_⟩
  rw [text_true] at hrest ⊢
  simp only [atonUnsigned, hrest, true_or, if_true, ne_eq, not_true_eq_false, false_and, if_false]

/-- Where `grn_atoll` stops at an overflow of a number without a sign, `grn_atoull` is tried. -/
theorem atonUnsigned_of_longShows {strtod : Strtod F} (hds : ds ≠ []) (h : LongShows false ds) :
    (¬ UnsignedShows 64 ds → atonUnsigned strtod (text false ds) =
      some ⟨true, some (.uint64 (grnAtoull (text false ds)).1), some []⟩) ∧
    (UnsignedShows 64 ds → ∃ rest c, atonUnsigned strtod (text false ds) =
      some (atonFloat strtod (text false ds) rest c)) := by
  have hlt := (parses_grnAtoll false hds).1 h
  obtain ⟨c, rest, hrest⟩ := List.exists_cons_of_length_pos
    (by rw [List.length_drop]; exact Nat.sub_pos_of_lt hlt :
      0 < ((text false ds).drop (grnAtoll (text false ds)).2).length)
  have hc : (digit? c).isSome := isSome_digit?_of_mem
    (List.mem_of_mem_drop (hrest ▸ List.mem_cons_self))
  have hparses := parses_atoui 64 ds
  rw [← atoull_eq] at hparses
  obtain ⟨d, ds', rfl⟩ := List.exists_cons_of_ne_nil hds
  have hdigit : (digit? (digitByte d)).isSome := by
    rw [digit?_digitByte]
    rfl
  have hne : ¬ digitByte d = 0x2d := digitByte_ne d
  constructor
  · intro hno
    have hread : (grnAtoull (text false (d :: ds'))).2 = (text false (d :: ds')).length :=
      congrArg Prod.snd (hparses.2 hno)
    rw [text_false, List.map_cons] at hrest hread ⊢
    simp only [atonUnsigned, hrest, hread, List.drop_length, hdigit, hne, hc, or_true, if_true,
      ne_eq, not_false_eq_true, true_and]
  · intro hshows
    obtain ⟨c', rest', hrest'⟩ := List.exists_cons_of_length_pos
      (by rw [List.length_drop]; exact Nat.sub_pos_of_lt (hparses.1 hshows) :
        0 < ((text false (d :: ds')).drop (grnAtoull (text false (d :: ds'))).2).length)
    refine ⟨c' :: rest', c, ?_⟩
    rw [text_false, List.map_cons] at hrest hrest' ⊢
    simp only [atonUnsigned, hrest, hrest', hdigit, hne, hc, or_true, if_true, ne_eq,
      not_false_eq_true, true_and]

/-- A result without an integer is right. -/
theorem integer?_res_atonFloat {strtod : Strtod F} {p rest : List UInt8} {c : UInt8} (x : ℤ) :
    ∀ o ∈ (atonFloat strtod p rest c).res, ∀ y ∈ o.integer?, y = x := by
  intro o ho y hy
  rw [integer?_atonFloat ho] at hy
  cases hy

theorem atonRight_iff {strtod : Strtod F} (plus : Bool) (hds : ds ≠ []) :
    AtonRight strtod plus negative ds ↔ AtonShows negative ds := by
  rw [AtonRight, grnAton_plusText strtod plus hds, AtonShows]
  by_cases hlong : LongShows negative ds
  · have hnot : ¬ Fits 64 (signed negative (ofDigits 0 ds)) := fun hfits =>
      (atoll_has hfits).1 hlong
    cases negative with
    | true =>
      obtain ⟨rest, c, heq⟩ := @atonUnsigned_of_longShows_negative F ds strtod hds hlong
      exact ⟨fun _ => ⟨.inr hlong, nofun⟩, fun _ => ⟨_, heq, integer?_res_atonFloat _⟩⟩
    | false =>
      obtain ⟨hread, hstops⟩ := @atonUnsigned_of_longShows F ds strtod hds hlong
      by_cases hshows : UnsignedShows 64 ds
      · obtain ⟨rest, c, heq⟩ := hstops hshows
        exact ⟨fun _ => ⟨.inr hlong, fun _ _ => .inr hshows⟩,
          fun _ => ⟨_, heq, integer?_res_atonFloat _⟩⟩
      · have hvalue : ((grnAtoull (text false ds)).1 : ℤ) = (ofDigits 0 ds : ℤ) % 2 ^ 64 :=
          congrArg Prod.fst ((atoull_eq ▸ parses_atoui 64 ds : Parses atoull _ _ _).2 hshows)
        rw [hread hshows]
        constructor
        · rintro ⟨r, hr, hright⟩
          refine ⟨.inr hlong, fun _ _ => .inl ?_⟩
          obtain rfl := Option.some.inj hr
          have := hright _ rfl _ rfl
          rw [hvalue] at this
          exact ⟨Int.natCast_nonneg _, by simp only [signed] at this; omega⟩
        · rintro ⟨-, h⟩
          refine ⟨_, rfl, fun o ho x hx => ?_⟩
          obtain rfl := Option.some.inj ho
          obtain rfl := Option.some.inj hx
          rw [hvalue]
          exact (atoui_has ((h rfl hlong).resolve_right hshows)).2
  · rw [@atonUnsigned_of_not_longShows F ds negative strtod hds hlong]
    constructor
    · rintro ⟨r, hr, hright⟩
      obtain rfl := Option.some.inj hr
      have := hright _ rfl _ (integer?_integerOf _)
      refine ⟨.inl ((wrap_eq_iff (by decide)).mp this), fun hneg => ?_⟩
      subst hneg
      exact fun h => absurd h hlong
    · rintro ⟨h, -⟩
      refine ⟨_, rfl, fun o ho x hx => ?_⟩
      obtain rfl := Option.some.inj ho
      rw [integer?_integerOf] at hx
      obtain rfl := Option.some.inj hx
      exact wrap_of_fits (by decide) (h.resolve_right hlong)

/-! ## The printers -/

/-- The digits of a number without leading zeros. -/
def Canonical (ds : List (Fin 10)) : Prop :=
  ds ≠ [] ∧ ∀ d ∈ ds.head?, d.val = 0 → ds.length = 1

/-- The digits of a number behind which another digit stands. -/
theorem Canonical.append_singleton (h : Canonical ds) (hvalue : ofDigits 0 ds ≠ 0) (d : Fin 10) :
    Canonical (ds ++ [d]) ∧ ofDigits 0 (ds ++ [d]) = ofDigits 0 ds * 10 + d.val := by
  refine ⟨⟨List.append_ne_nil_of_left_ne_nil h.1 _, fun e he hzero => ?_⟩, ?_⟩
  · rw [List.head?_append_of_ne_nil _ h.1] at he
    have hlength := h.2 e he hzero
    obtain ⟨f, rfl⟩ := List.length_eq_one_iff.mp hlength
    obtain rfl := Option.some.inj he
    refine absurd ?_ hvalue
    rw [ofDigits, List.foldl_cons, List.foldl_nil, hzero]
  · simp only [ofDigits, List.foldl_append, List.foldl_cons, List.foldl_nil]

/-- The digits that the loop writes, as far as there is room. -/
theorem exists_digits (i : ℕ) : ∃ ds : List (Fin 10), Canonical ds ∧ ofDigits 0 ds = i ∧
    ∀ room, putDigits room i =
      (decide (ds.length ≤ room), ((ds.map digitByte).reverse).take room) := by
  have hbyte : ∀ d : Fin 10, UInt8.ofNat (d.val + 0x30) = digitByte d := by decide
  induction i using Nat.strongRecOn with
  | ind i ih =>
    have hlast := hbyte ⟨i % 10, Nat.mod_lt _ (by decide)⟩
    by_cases hi : 0 < i / 10
    · obtain ⟨ds, hcanon, hvalue, hput⟩ := ih (i / 10) (by omega)
      obtain ⟨hcanon', hvalue'⟩ :=
        hcanon.append_singleton (by omega) ⟨i % 10, Nat.mod_lt _ (by decide)⟩
      refine ⟨_, hcanon', ?_, ?_⟩
      · rw [hvalue', hvalue]
        exact Nat.div_add_mod' i 10
      · intro room
        cases room with
        | zero => simp [putDigits]
        | succ room =>
          rw [putDigits, if_pos hi, hput room, hlast]
          simp
    · refine ⟨[⟨i % 10, Nat.mod_lt _ (by decide)⟩], ⟨List.cons_ne_nil _ _, ?_⟩, ?_, ?_⟩
      · exact fun _ _ _ => rfl
      · simp only [ofDigits, List.foldl_cons, List.foldl_nil]
        omega
      · intro room
        cases room with
        | zero => rfl
        | succ room =>
          rw [putDigits, if_neg hi, hlast]
          simp

/-- **A printer is right**: no byte at or past the end is written, it succeeds when the text has the
room, and then it wrote the text without leading zeros, which is read as the value again. -/
def Prints (r : Bool × List UInt8) (size : ℕ) (x : ℤ) (read : List UInt8 → ℤ × ℕ) : Prop :=
  r.2.length ≤ size ∧ ∃ negative ds, Canonical ds ∧ (negative = true → ofDigits 0 ds ≠ 0) ∧
    signed negative (ofDigits 0 ds) = x ∧ (r.1 = true ↔ (text negative ds).length ≤ size) ∧
    (r.1 = true → r.2 = text negative ds ∧ read r.2 = (x, r.2.length))

/-- What is written behind a sign, with the digits that were written before the loop. -/
theorem turnAround_putDigits {room i : ℕ} (sign : List UInt8) (first : List (Fin 10))
    (hput : putDigits room i =
      (decide (ds.length ≤ room), ((ds.map digitByte).reverse).take room)) :
    ((turnAround sign (first.map digitByte) (putDigits room i)).1 = true ↔ ds.length ≤ room) ∧
    ((turnAround sign (first.map digitByte) (putDigits room i)).1 = true →
      (turnAround sign (first.map digitByte) (putDigits room i)).2 =
        sign ++ (ds ++ first.reverse).map digitByte) ∧
    (turnAround sign (first.map digitByte) (putDigits room i)).2.length ≤
      sign.length + (first.length + room) := by
  rw [hput, turnAround]
  refine ⟨decide_eq_true_iff, fun hroom => ?_, ?_⟩
  · have hroom : ds.length ≤ room := of_decide_eq_true hroom
    rw [if_pos (decide_eq_true hroom), List.take_of_length_le (by simpa using hroom)]
    simp
  · split_ifs <;> simp <;> omega

/-- A value that is printed without a digit before the loop. -/
theorem prints_turnAround {i size : ℕ} {x : ℤ} {read : List UInt8 → ℤ × ℕ} (negative : Bool)
    (hsize : size ≠ 0) (hx : signed negative i = x) (hneg : negative = true → i ≠ 0)
    (hread : ∀ ds, ds ≠ [] → ofDigits 0 ds = i →
      read (text negative ds) = (x, (text negative ds).length)) :
    Prints (turnAround (if negative then [0x2d] else []) []
      (putDigits (if negative then size - 1 else size) i)) size x read := by
  obtain ⟨ds, hcanon, hvalue, hput⟩ := exists_digits i
  obtain ⟨hok, hout, hlen⟩ := @turnAround_putDigits ds _ i (if negative then [0x2d] else []) []
    (hput (if negative then size - 1 else size))
  simp only [List.map_nil, List.reverse_nil, List.append_nil, List.length_nil] at hok hout hlen
  have hlength : (text negative ds).length = (if negative then 1 else 0) + ds.length := by
    cases negative <;> simp [text, Nat.add_comm]
  refine ⟨?_, negative, ds, hcanon, fun h => hvalue ▸ hneg h, hvalue ▸ hx, ?_, fun h => ?_⟩
  · cases negative with
    | true =>
      simp only [if_true, List.length_singleton] at hlen ⊢
      omega
    | false =>
      simp only [Bool.false_eq_true, if_false, List.length_nil] at hlen ⊢
      omega
  · rw [hok, hlength]
    cases negative with
    | true =>
      simp only [if_true]
      omega
    | false => simp
  · have hout : _ = text negative ds := hout h
    rw [hout]
    exact ⟨rfl, hread ds hcanon.1 hvalue⟩

/-- Nothing is printed without any room. -/
theorem prints_zero {i : ℕ} {x : ℤ} {read : List UInt8 → ℤ × ℕ} (negative : Bool)
    (hx : signed negative i = x) (hneg : negative = true → i ≠ 0) :
    Prints (false, []) 0 x read := by
  obtain ⟨ds, hcanon, hvalue, -⟩ := exists_digits i
  refine ⟨Nat.le_refl 0, negative, ds, hcanon, fun h => hvalue ▸ hneg h, hvalue ▸ hx, ?_, nofun⟩
  refine ⟨nofun, fun h => absurd (List.length_eq_zero_iff.mp (Nat.le_zero.mp h)) ?_⟩
  exact List.append_ne_nil_of_right_ne_nil _ (by simpa using hcanon.1)

/-- The least value of a type: its last digit is written before the loop. -/
theorem prints_least {i size : ℕ} {x : ℤ} {read : List UInt8 → ℤ × ℕ} (d : Fin 10)
    (hsize : 2 ≤ size) (hi : i ≠ 0) (hx : -((i * 10 + d.val : ℕ) : ℤ) = x)
    (hread : ∀ ds, ds ≠ [] → ofDigits 0 ds = i * 10 + d.val →
      read (text true ds) = (x, (text true ds).length)) :
    Prints (turnAround [0x2d] [digitByte d] (putDigits (size - 2) i)) size x read := by
  obtain ⟨ds, hcanon, hvalue, hput⟩ := exists_digits i
  obtain ⟨hok, hout, hlen⟩ := @turnAround_putDigits ds _ i [0x2d] [d] (hput (size - 2))
  simp only [List.map_singleton, List.reverse_singleton, List.length_singleton] at hok hout hlen
  obtain ⟨hcanon', hvalue'⟩ := hcanon.append_singleton (hvalue ▸ hi) d
  rw [hvalue] at hvalue'
  refine ⟨by omega, true, ds ++ [d], hcanon', fun _ => by omega, ?_, ?_, fun h => ?_⟩
  · rw [signed, if_pos rfl, hvalue', hx]
  · rw [hok, length_text_true, List.length_append, List.length_singleton]
    omega
  · have hout : _ = text true (ds ++ [d]) := hout h
    rw [hout]
    exact ⟨rfl, hread _ hcanon'.1 hvalue'⟩

section Printers

variable {i : ℤ}

/-- A value without the least one of a type: the sign, and the digits of its absolute value. -/
theorem prints_natAbs {x : ℤ} {read : List UInt8 → ℤ × ℕ} (size : ℕ) (hsize : size ≠ 0)
    (hread : ∀ negative ds, ds ≠ [] → signed negative (ofDigits 0 ds) = x →
      read (text negative ds) = (x, (text negative ds).length)) :
    (x < 0 → Prints (turnAround [0x2d] [] (putDigits (size - 1) (-x).toNat)) size x read) ∧
    (0 ≤ x → Prints (turnAround [] [] (putDigits size x.toNat)) size x read) := by
  constructor
  · intro hx
    have hsigned : signed true (-x).toNat = x := by
      rw [signed, if_pos rfl]
      omega
    exact prints_turnAround true hsize hsigned (fun _ => by omega)
      fun ds hds hvalue => hread true ds hds (hvalue ▸ hsigned)
  · intro hx
    have hsigned : signed false x.toNat = x := Int.toNat_of_nonneg hx
    exact prints_turnAround false hsize hsigned (fun h => absurd h Bool.false_ne_true)
      fun ds hds hvalue => hread false ds hds (hvalue ▸ hsigned)

theorem prints_natAbs_zero {read : List UInt8 → ℤ × ℕ} (x : ℤ) : Prints (false, []) 0 x read := by
  by_cases hx : x < 0
  · refine @prints_zero x.natAbs x read true ?_ fun _ => by omega
    rw [signed, if_pos rfl]
    omega
  · refine @prints_zero x.natAbs x read false ?_ fun h => absurd h Bool.false_ne_true
    rw [signed, if_neg Bool.false_ne_true]
    omega

/-- A canonical text of a value that has two bytes at least is not printed in one. -/
theorem prints_sign {read : List UInt8 → ℤ × ℕ} {x : ℤ} (hx : x < 0) :
    Prints (false, [0x2d]) 1 x read := by
  obtain ⟨ds, hcanon, hvalue, -⟩ := exists_digits x.natAbs
  refine ⟨Nat.le_refl 1, true, ds, hcanon, fun _ => by omega, ?_, ⟨nofun, fun h => ?_⟩, nofun⟩
  · rw [signed, if_pos rfl]
    omega
  · rw [length_text_true] at h
    exact absurd (List.length_eq_zero_iff.mp (by omega)) hcanon.1

theorem wrap_neg_of_fits (hw : 0 < w) (hx : Fits w i) (hne : i ≠ -2 ^ (w - 1)) :
    wrap w (-i) = -i := by
  obtain ⟨hlow, hhigh⟩ := hx
  exact wrap_of_fits hw ⟨by omega, by omega⟩

/-- **`grn_itoa`.** -/
theorem prints_grnItoa (hi : Fits 32 i) (size : ℕ) : Prints (grnItoa i size) size i grnAtoi := by
  have hread : ∀ negative ds, ds ≠ [] → signed negative (ofDigits 0 ds) = i →
      grnAtoi (text negative ds) = (i, (text negative ds).length) := by
    intro negative ds hds hvalue
    have hexact := (@exact_atoi_iff ds 32 negative (by decide) hds).mpr (.inl (hvalue ▸ hi))
    have := hexact.1 (hvalue ▸ hi)
    rwa [hvalue] at this
  rw [grnItoa]
  by_cases hsize : size = 0
  · rw [if_pos hsize, hsize]
    exact prints_natAbs_zero i
  · rw [if_neg hsize]
    obtain ⟨hneg, hnonneg⟩ := prints_natAbs size hsize hread
    by_cases hlt : i < 0
    · rw [if_pos hlt]
      by_cases hleast : i = -2 ^ 31
      · rw [if_pos hleast]
        by_cases hone : size = 1
        · rw [if_pos hone, hone]
          exact prints_sign hlt
        · rw [if_neg hone]
          have hrest : (wrap 32 (-(i.tdiv 10))).toNat = 214748364 := by
            rw [hleast]
            decide +kernel
          have hlast : lastDigit i = digitByte 8 := by
            rw [hleast]
            decide +kernel
          rw [hrest, hlast]
          exact prints_least 8 (by omega) (by decide) hleast.symm fun ds hds hvalue =>
            hread true ds hds (by rw [signed, if_pos rfl, hvalue, hleast]; rfl)
      · rw [if_neg hleast, wrap_neg_of_fits (by decide) hi hleast]
        exact hneg hlt
    · rw [if_neg hlt]
      exact hnonneg (Int.not_lt.mp hlt)

/-- **`grn_lltoa`**: the least value does not look for the room of its last digit. -/
theorem prints_grnLltoa_iff (hi : Fits 64 i) (size : ℕ) :
    Prints (grnLltoa i size) size i grnAtoll ↔ ¬ (i = -2 ^ 63 ∧ size = 1) := by
  have hread : ∀ negative ds, ds ≠ [] → signed negative (ofDigits 0 ds) = i →
      grnAtoll (text negative ds) = (i, (text negative ds).length) := by
    intro negative ds hds hvalue
    have hexact := (@exact_grnAtoll_iff ds negative hds).mpr (.inl (hvalue ▸ hi))
    have := hexact.1 (hvalue ▸ hi)
    rwa [hvalue] at this
  rw [grnLltoa]
  by_cases hsize : size = 0
  · rw [if_pos hsize, hsize]
    exact iff_of_true (prints_natAbs_zero i) fun h => absurd h.2 (by decide)
  · rw [if_neg hsize]
    obtain ⟨hneg, hnonneg⟩ := prints_natAbs size hsize hread
    by_cases hlt : i < 0
    · rw [if_pos hlt]
      by_cases hleast : i = -2 ^ 63
      · rw [if_pos hleast]
        have hrest : (wrap 64 (-(i.tdiv 10))).toNat = 922337203685477580 := by
          rw [hleast]
          decide +kernel
        have hlast : lastDigit i = digitByte 8 := by
          rw [hleast]
          decide +kernel
        rw [hrest, hlast]
        by_cases hone : size = 1
        · subst hone
          refine iff_of_false (fun h => ?_) fun h => h ⟨hleast, rfl⟩
          exact absurd h.1 (by decide)
        · refine iff_of_true ?_ fun h => hone h.2
          exact prints_least 8 (by omega) (by decide) hleast.symm fun ds hds hvalue =>
            hread true ds hds (by rw [signed, if_pos rfl, hvalue, hleast]; rfl)
      · rw [if_neg hleast, wrap_neg_of_fits (by decide) hi hleast]
        exact iff_of_true (hneg hlt) fun h => hleast h.1
    · rw [if_neg hlt]
      exact iff_of_true (hnonneg (Int.not_lt.mp hlt)) fun h => by omega

/-- **`grn_ulltoa`.** -/
theorem prints_grnUlltoa {i : ℕ} (hi : i < 2 ^ 64) (size : ℕ) :
    Prints (grnUlltoa i size) size i atoull := by
  rw [grnUlltoa]
  by_cases hsize : size = 0
  · rw [if_pos hsize, hsize]
    exact prints_natAbs_zero i
  · rw [if_neg hsize]
    refine prints_turnAround false hsize rfl nofun fun ds hds hvalue => ?_
    have hhas : HasUnsigned 64 (signed false (ofDigits 0 ds)) := by
      rw [hvalue]
      exact ⟨Int.natCast_nonneg i, by simp only [signed, Bool.false_eq_true, if_false]; omega⟩
    have := ((exact_atoull_iff ds).mpr (.inl hhas)).1 hhas
    rwa [hvalue] at this

end Printers

/-! ## Exact or refused -/

/-- **Integers as texts.** A parser is exact for a number that its type has, and else if the
overflow shows at one of the digits. `grn_aton` makes no other integer than the number if this is so
for the parsers that it uses. The printers write the text that is read as the value again, within
the room they have, but for `grn_lltoa` with the least value and one byte of room. -/
theorem decimal_exact_iff (strtod : Strtod F) :
    (∀ ds : List (Fin 10), ds ≠ [] →
      (Exact grnAtoui8 (HasUnsigned 8) false ds ↔
        HasUnsigned 8 (ofDigits 0 ds) ∨ UnsignedShows 8 ds) ∧
      (Exact grnAtoui16 (HasUnsigned 16) false ds ↔
        HasUnsigned 16 (ofDigits 0 ds) ∨ UnsignedShows 16 ds) ∧
      (Exact grnAtoui (HasUnsigned 32) false ds ↔
        HasUnsigned 32 (ofDigits 0 ds) ∨ UnsignedShows 32 ds) ∧
      (Exact atoull (HasUnsigned 64) false ds ↔
        HasUnsigned 64 (ofDigits 0 ds) ∨ UnsignedShows 64 ds)) ∧
    (∀ negative, ∀ ds : List (Fin 10), ds ≠ [] →
      (Exact grnAtoi8 (Fits 8) negative ds ↔
        Fits 8 (signed negative (ofDigits 0 ds)) ∨ SignedShows 8 negative ds) ∧
      (Exact grnAtoi16 (Fits 16) negative ds ↔
        Fits 16 (signed negative (ofDigits 0 ds)) ∨ SignedShows 16 negative ds) ∧
      (Exact grnAtoi (Fits 32) negative ds ↔
        Fits 32 (signed negative (ofDigits 0 ds)) ∨ SignedShows 32 negative ds) ∧
      (Exact grnAtoll (Fits 64) negative ds ↔
        Fits 64 (signed negative (ofDigits 0 ds)) ∨ LongShows negative ds)) ∧
    (∀ plus negative, ∀ ds : List (Fin 10), ds ≠ [] →
      (AtonRight strtod plus negative ds ↔ AtonShows negative ds)) ∧
    (∀ i, Fits 32 i → ∀ size, Prints (grnItoa i size) size i grnAtoi) ∧
    (∀ i, Fits 64 i → ∀ size,
      (Prints (grnLltoa i size) size i grnAtoll ↔ ¬ (i = -2 ^ 63 ∧ size = 1))) ∧
    (∀ i : ℕ, i < 2 ^ 64 → ∀ size, Prints (grnUlltoa i size) size i atoull) := by
  refine ⟨fun ds _ => ?_, fun negative ds hds => ?_, fun plus negative ds hds => ?_, ?_, ?_, ?_⟩
  · exact ⟨exact_atoui_iff 8 ds, exact_atoui_iff 16 ds, exact_atoui_iff 32 ds, exact_atoull_iff ds⟩
  · exact ⟨exact_atoi_iff (by decide) hds, exact_atoi_iff (by decide) hds,
      exact_atoi_iff (by decide) hds, exact_grnAtoll_iff hds⟩
  · exact atonRight_iff plus hds
  · exact fun i hi size => prints_grnItoa hi size
  · exact fun i hi size => prints_grnLltoa_iff hi size
  · exact fun i hi size => prints_grnUlltoa hi size

/-- Some numbers, and some buffers. -/
theorem decimal_exact_iff_some :
    let strtod : Strtod ℕ :=
      ⟨fun str => ofDigits 0 (str.filterMap fun c => (digit? c).map (Fin.ofNat 10)),
        fun str => (str.takeWhile fun c => (digit? c).isSome).length, fun _ => false⟩
    Exact grnAtoui8 (HasUnsigned 8) false [2, 5, 5] ∧ Exact grnAtoi8 (Fits 8) true [1, 2, 8] ∧
      AtonRight strtod true false [7] ∧ Prints (grnItoa (-2 ^ 31) 11) 11 (-2 ^ 31) grnAtoi ∧
      Prints (grnLltoa (-2 ^ 63) 2) 2 (-2 ^ 63) grnAtoll ∧
      Prints (grnUlltoa 10 1) 1 (10 : ℕ) atoull := by
  intro strtod
  obtain ⟨hunsigned, hsigned, haton, hitoa, hlltoa, hulltoa⟩ := decimal_exact_iff strtod
  refine ⟨(hunsigned [2, 5, 5] (List.cons_ne_nil _ _)).1.mpr (.inl ⟨by decide, by decide⟩),
    (hsigned true [1, 2, 8] (List.cons_ne_nil _ _)).1.mpr (.inl ⟨by decide, by decide⟩),
    (haton true false [7] (List.cons_ne_nil _ _)).mpr ⟨.inl ⟨by decide, by decide⟩, fun _ _ => ?_⟩,
    hitoa (-2 ^ 31) ⟨by decide, by decide⟩ 11,
    (hlltoa (-2 ^ 63) ⟨by decide, by decide⟩ 2).mpr fun h => absurd h.2 (by decide),
    hulltoa 10 (by decide) 1⟩
  exact .inl ⟨by decide, by decide⟩

/-- `grn_atoui8` reads all of 300, as 44, and `grn_lltoa` writes two bytes in the room of one. -/
theorem decimal_not_exact :
    ¬ Exact grnAtoui8 (HasUnsigned 8) false [3, 0, 0] ∧ grnAtoui8 (text false [3, 0, 0]) = (44, 3) ∧
      ¬ Prints (grnLltoa (-2 ^ 63) 1) 1 (-2 ^ 63) grnAtoll := by
  have hread : grnAtoui8 (text false [3, 0, 0]) = (44, 3) := by decide
  refine ⟨fun h => ?_, hread, fun h => absurd h.1 (by decide +kernel)⟩
  have := h.2 (fun hhas => absurd hhas.2 (by decide))
  rw [hread] at this
  exact this rfl

end Groonga.Str
