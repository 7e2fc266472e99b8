import Mathlib

/-!
# The variable-length byte code of the inverted index

`GRN_B_ENC` writes a `uint32_t` in one to five bytes; the high bits of the first
byte give the length. The buffer records, the chunk tables and the unpacked
elements of a posting list are all written in this code. `grn_dec_byte_check` is
its reader with bounds checks.

Bytes and `uint32_t` values are natural numbers here, and a pointer into an
input is the list of the bytes from it to the end of the input, so that
`input >= input_end` is `input = []` and `input + k > input_end` is
`input.length < k`.
-/

namespace Groonga.Ii

/-! ## One value -/

/-- `GRN_B_ENC_MAX_SIZE`. -/
def grnBEncMaxSize : ℕ := 5

/-- `GRN_B_ENC`. The five byte form copies the value in host byte order
(little endian). -/
def grnBEnc (v : ℕ) : List ℕ :=
  if v < 0x8f then
    [v]
  else if v < 0x408f then
    [0xc0 + (v - 0x8f) / 0x100, (v - 0x8f) % 0x100]
  else if v < 0x20408f then
    [0xa0 + (v - 0x408f) / 0x10000, (v - 0x408f) / 0x100 % 0x100, (v - 0x408f) % 0x100]
  else if v < 0x1020408f then
    [0x90 + (v - 0x20408f) / 0x1000000, (v - 0x20408f) / 0x10000 % 0x100,
      (v - 0x20408f) / 0x100 % 0x100, (v - 0x20408f) % 0x100]
  else
    [0x8f, v % 0x100, v / 0x100 % 0x100, v / 0x10000 % 0x100, v / 0x1000000 % 0x100]

/-- `grn_dec_byte_check`: the value and the input behind it. -/
def grnDecByteCheck : List ℕ → Except String (ℕ × List ℕ)
  | [] => .error "[ii][dec][byte] input is short: at least 1 byte is needed"
  | v :: input =>
    match v / 0x10 with
    | 0x8 =>
      if v = 0x8f then
        match input with
        | a :: b :: c :: d :: input =>
          .ok (a + b * 0x100 + c * 0x10000 + d * 0x1000000, input)
        | _ => .error "[ii][dec][byte] input is short: at least more 4 bytes are needed"
      else
        .ok (v, input)
    | 0x9 =>
      match input with
      | a :: b :: c :: input =>
        .ok ((((v - 0x90) * 0x100 + a) * 0x100 + b) * 0x100 + c + 0x20408f, input)
      | _ => .error "[ii][dec][byte] input is short: at least more 3 bytes are needed"
    | 0xa | 0xb =>
      match input with
      | a :: b :: input => .ok (((v - 0xa0) * 0x100 + a) * 0x100 + b + 0x408f, input)
      | _ => .error "[ii][dec][byte] input is short: at least more 2 bytes are needed"
    | 0xc | 0xd | 0xe | 0xf =>
      match input with
      | a :: input => .ok ((v - 0xc0) * 0x100 + a + 0x8f, input)
      | _ => .error "[ii][dec][byte] input is short: at least more 1 byte is needed"
    | _ => .ok (v, input)

/-- **Round trip of one value**, with any bytes behind it. -/
theorem grnDecByteCheck_grnBEnc {v : ℕ} (hv : v < 2 ^ 32) (rest : List ℕ) :
    grnDecByteCheck (grnBEnc v ++ rest) = .ok (v, rest) := by
  unfold grnBEnc
  split_ifs with h1 h2 h3 h4
  · -- one byte: any first nibble up to 8, and 0x8f itself is excluded
    have hq : v / 0x10 ≤ 8 := by omega
    have hne : v ≠ 0x8f := by omega
    simp only [List.singleton_append, grnDecByteCheck]
    split <;> first | omega | simp [hne]
  · have hq : (0xc0 + (v - 0x8f) / 0x100) / 0x10 = 0xc ∨
        (0xc0 + (v - 0x8f) / 0x100) / 0x10 = 0xd ∨
        (0xc0 + (v - 0x8f) / 0x100) / 0x10 = 0xe ∨
        (0xc0 + (v - 0x8f) / 0x100) / 0x10 = 0xf := by omega
    have hval : (0xc0 + (v - 0x8f) / 0x100 - 0xc0) * 0x100 + (v - 0x8f) % 0x100 + 0x8f = v := by
      omega
    rcases hq with hq | hq | hq | hq <;>
      simp only [List.cons_append, List.nil_append, grnDecByteCheck, hq, hval]
  · have hq : (0xa0 + (v - 0x408f) / 0x10000) / 0x10 = 0xa ∨
        (0xa0 + (v - 0x408f) / 0x10000) / 0x10 = 0xb := by omega
    have hval : ((0xa0 + (v - 0x408f) / 0x10000 - 0xa0) * 0x100 + (v - 0x408f) / 0x100 % 0x100)
        * 0x100 + (v - 0x408f) % 0x100 + 0x408f = v := by omega
    rcases hq with hq | hq <;>
      simp only [List.cons_append, List.nil_append, grnDecByteCheck, hq, hval]
  · have hq : (0x90 + (v - 0x20408f) / 0x1000000) / 0x10 = 0x9 := by omega
    have hval : (((0x90 + (v - 0x20408f) / 0x1000000 - 0x90) * 0x100
        + (v - 0x20408f) / 0x10000 % 0x100) * 0x100 + (v - 0x20408f) / 0x100 % 0x100)
        * 0x100 + (v - 0x20408f) % 0x100 + 0x20408f = v := by omega
    simp only [List.cons_append, List.nil_append, grnDecByteCheck, hq, hval]
  · have hval : v % 0x100 + v / 0x100 % 0x100 * 0x100 + v / 0x10000 % 0x100 * 0x10000
        + v / 0x1000000 % 0x100 * 0x1000000 = v := by omega
    simp only [List.cons_append, List.nil_append, grnDecByteCheck, Nat.reduceDiv, if_true, hval]

theorem length_grnBEnc_le (v : ℕ) : (grnBEnc v).length ≤ grnBEncMaxSize := by
  unfold grnBEnc grnBEncMaxSize
  split_ifs <;> simp

theorem grnBEnc_ne_nil (v : ℕ) : grnBEnc v ≠ [] := by
  unfold grnBEnc
  split_ifs <;> simp

theorem length_grnBEnc_pos (v : ℕ) : 0 < (grnBEnc v).length :=
  List.length_pos_iff.mpr (grnBEnc_ne_nil v)

/-- Every byte written is a byte. -/
theorem lt_of_mem_grnBEnc {v c : ℕ} (hv : v < 2 ^ 32) (hc : c ∈ grnBEnc v) : c < 0x100 := by
  unfold grnBEnc at hc
  split_ifs at hc <;> simp only [List.mem_cons, List.not_mem_nil, or_false] at hc <;> omega

/-! ## Codes that are not written -/

/-- The bytes of a value that a reader takes: those that are written, and the five byte form, which
can hold any value. -/
def IsByteCode (v : ℕ) (e : List ℕ) : Prop :=
  e = grnBEnc v ∨
    ∃ a b c d, e = [0x8f, a, b, c, d] ∧ v = a + b * 0x100 + c * 0x10000 + d * 0x1000000

/-- A reader takes the codes of a value. -/
theorem grnDecByteCheck_of_isByteCode {v : ℕ} {e : List ℕ} (h : IsByteCode v e) (hv : v < 2 ^ 32)
    (rest : List ℕ) : grnDecByteCheck (e ++ rest) = .ok (v, rest) := by
  rcases h with rfl | ⟨a, b, c, d, rfl, rfl⟩
  · exact grnDecByteCheck_grnBEnc hv rest
  · rfl

/-- The code with two bytes. -/
theorem grnBEnc_two {x a : ℕ} (hx : 0xc0 ≤ x) (hlt : x < 0x100) (ha : a < 0x100) :
    grnBEnc ((x - 0xc0) * 0x100 + a + 0x8f) = [x, a] := by
  rw [grnBEnc, if_neg (by omega), if_pos (by omega)]
  simp only [List.cons.injEq, and_true]
  omega

/-- The code with three bytes. -/
theorem grnBEnc_three {x a b : ℕ} (hx : 0xa0 ≤ x) (hlt : x < 0xc0) (ha : a < 0x100)
    (hb : b < 0x100) :
    grnBEnc (((x - 0xa0) * 0x100 + a) * 0x100 + b + 0x408f) = [x, a, b] := by
  rw [grnBEnc, if_neg (by omega), if_neg (by omega), if_pos (by omega)]
  simp only [List.cons.injEq, and_true]
  omega

/-- The code with four bytes. -/
theorem grnBEnc_four {x a b c : ℕ} (hx : 0x90 ≤ x) (hlt : x < 0xa0) (ha : a < 0x100)
    (hb : b < 0x100) (hc : c < 0x100) :
    grnBEnc ((((x - 0x90) * 0x100 + a) * 0x100 + b) * 0x100 + c + 0x20408f) = [x, a, b, c] := by
  rw [grnBEnc, if_neg (by omega), if_neg (by omega), if_neg (by omega), if_pos (by omega)]
  simp only [List.cons.injEq, and_true]
  omega

/-- **A reader takes nothing but the codes of a value.** -/
theorem isByteCode_of_grnDecByteCheck {p q : List ℕ} {v : ℕ} (hbytes : ∀ b ∈ p, b < 0x100)
    (h : grnDecByteCheck p = .ok (v, q)) : ∃ e, IsByteCode v e ∧ p = e ++ q ∧ v < 2 ^ 32 := by
  cases p with
  | nil => cases h
  | cons x input =>
    have hx : x < 0x100 := hbytes x (List.mem_cons_self ..)
    have hinput : ∀ b ∈ input, b < 0x100 := fun b hb => hbytes b (List.mem_cons_of_mem _ hb)
    rw [grnDecByteCheck.eq_def] at h
    dsimp only at h
    split at h
    · rename_i hq
      split at h
      · rename_i hmark
        split at h
        · rename_i a b c d input
          obtain ⟨rfl, rfl⟩ := Prod.mk.inj (Except.ok.inj h)
          have ha := hinput a (by simp)
          have hb := hinput b (by simp)
          have hc := hinput c (by simp)
          have hd := hinput d (by simp)
          exact ⟨[0x8f, a, b, c, d], Or.inr ⟨a, b, c, d, rfl, rfl⟩, by rw [hmark]; rfl, by omega⟩
        · cases h
      · rename_i hmark
        obtain ⟨rfl, rfl⟩ := Prod.mk.inj (Except.ok.inj h)
        exact ⟨[x], Or.inl (by rw [grnBEnc, if_pos (by omega)]), rfl, by omega⟩
    · rename_i hq
      split at h
      · rename_i a b c input
        obtain ⟨rfl, rfl⟩ := Prod.mk.inj (Except.ok.inj h)
        have ha := hinput a (by simp)
        have hb := hinput b (by simp)
        have hc := hinput c (by simp)
        exact ⟨[x, a, b, c], Or.inl (grnBEnc_four (by omega) (by omega) ha hb hc).symm, rfl,
          by omega⟩
      · cases h
    · rename_i hq
      split at h
      · rename_i a b input
        obtain ⟨rfl, rfl⟩ := Prod.mk.inj (Except.ok.inj h)
        have ha := hinput a (by simp)
        have hb := hinput b (by simp)
        exact ⟨[x, a, b], Or.inl (grnBEnc_three (by omega) (by omega) ha hb).symm, rfl, by omega⟩
      · cases h
    · rename_i hq
      split at h
      · rename_i a b input
        obtain ⟨rfl, rfl⟩ := Prod.mk.inj (Except.ok.inj h)
        have ha := hinput a (by simp)
        have hb := hinput b (by simp)
        exact ⟨[x, a, b], Or.inl (grnBEnc_three (by omega) (by omega) ha hb).symm, rfl, by omega⟩
      · cases h
    · rename_i hq
      split at h
      · rename_i a input
        obtain ⟨rfl, rfl⟩ := Prod.mk.inj (Except.ok.inj h)
        have ha := hinput a (by simp)
        exact ⟨[x, a], Or.inl (grnBEnc_two (by omega) hx ha).symm, rfl, by omega⟩
      · cases h
    · rename_i hq
      split at h
      · rename_i a input
        obtain ⟨rfl, rfl⟩ := Prod.mk.inj (Except.ok.inj h)
        have ha := hinput a (by simp)
        exact ⟨[x, a], Or.inl (grnBEnc_two (by omega) hx ha).symm, rfl, by omega⟩
      · cases h
    · rename_i hq
      split at h
      · rename_i a input
        obtain ⟨rfl, rfl⟩ := Prod.mk.inj (Except.ok.inj h)
        have ha := hinput a (by simp)
        exact ⟨[x, a], Or.inl (grnBEnc_two (by omega) hx ha).symm, rfl, by omega⟩
      · cases h
    · rename_i hq
      split at h
      · rename_i a input
        obtain ⟨rfl, rfl⟩ := Prod.mk.inj (Except.ok.inj h)
        have ha := hinput a (by simp)
        exact ⟨[x, a], Or.inl (grnBEnc_two (by omega) hx ha).symm, rfl, by omega⟩
      · cases h
    · rename_i h8 h9 ha hb hc hd he hf
      simp only [imp_false] at h8 h9 ha hb hc hd he hf
      have hlow : x / 0x10 < 8 := by omega
      obtain ⟨rfl, rfl⟩ := Prod.mk.inj (Except.ok.inj h)
      exact ⟨[x], Or.inl (by rw [grnBEnc, if_pos (by omega)]), rfl, by omega⟩

/-- What is left of an input is not longer than it. -/
theorem length_le_of_grnDecByteCheck {p q : List ℕ} {v : ℕ}
    (h : grnDecByteCheck p = .ok (v, q)) : q.length ≤ p.length := by
  cases p with
  | nil => cases h
  | cons x input =>
    rw [grnDecByteCheck.eq_def] at h
    dsimp only at h
    repeat' split at h
    all_goals first
      | cases h; done
      | obtain ⟨-, rfl⟩ := Prod.mk.inj (Except.ok.inj h); simp only [List.length_cons]; omega

/-! ## A run of values -/

/-- `grn_enc_byte`. -/
def grnEncByte (values : List ℕ) : List ℕ := values.flatMap grnBEnc

/-- `grn_dec_byte`: `n` values. -/
def grnDecByte : ℕ → List ℕ → Except String (List ℕ × List ℕ)
  | 0, input => .ok ([], input)
  | n + 1, input => do
    let (v, input) ← grnDecByteCheck input
    let (values, input) ← grnDecByte n input
    return (v :: values, input)

/-- The loop of `grn_decv` over the last element when nothing is packed: read
until the end of the input. Each round takes at least one byte, so `fuel` is
only there for Lean; the length of the input is enough. -/
def grnDecByteAll : ℕ → List ℕ → Except String (List ℕ)
  | _, [] => .ok []
  | 0, _ :: _ => .error "unreachable"
  | fuel + 1, input => do
    let (v, input) ← grnDecByteCheck input
    let values ← grnDecByteAll fuel input
    return v :: values

@[simp] theorem grnEncByte_nil : grnEncByte [] = [] := rfl

@[simp] theorem grnEncByte_cons (v : ℕ) (values : List ℕ) :
    grnEncByte (v :: values) = grnBEnc v ++ grnEncByte values := rfl

/-- **Round trip of a run.** -/
theorem grnDecByte_grnEncByte {values : List ℕ} (hv : ∀ v ∈ values, v < 2 ^ 32) (rest : List ℕ) :
    grnDecByte values.length (grnEncByte values ++ rest) = .ok (values, rest) := by
  induction values with
  | nil => rfl
  | cons v values ih =>
    rw [List.length_cons, grnDecByte, grnEncByte_cons, List.append_assoc,
      grnDecByteCheck_grnBEnc (hv v (List.mem_cons_self ..))]
    simp only [bind, Except.bind, pure, Except.pure]
    rw [ih fun u hu => hv u (List.mem_cons_of_mem _ hu)]

theorem length_grnEncByte_le (values : List ℕ) :
    (grnEncByte values).length ≤ grnBEncMaxSize * values.length := by
  induction values with
  | nil => simp
  | cons v values ih =>
    have := length_grnBEnc_le v
    rw [grnEncByte_cons, List.length_append, List.length_cons, Nat.mul_succ]
    omega

theorem length_le_length_grnEncByte (values : List ℕ) :
    values.length ≤ (grnEncByte values).length := by
  induction values with
  | nil => simp
  | cons v values ih =>
    have := length_grnBEnc_pos v
    rw [grnEncByte_cons, List.length_append, List.length_cons]
    omega

/-- Reading to the end of the input gives back the whole run. -/
theorem grnDecByteAll_grnEncByte {values : List ℕ} (hv : ∀ v ∈ values, v < 2 ^ 32) {fuel : ℕ}
    (hf : values.length ≤ fuel) : grnDecByteAll fuel (grnEncByte values) = .ok values := by
  induction values generalizing fuel with
  | nil => cases fuel <;> rfl
  | cons v values ih =>
    obtain ⟨fuel, rfl⟩ : ∃ n, fuel = n + 1 := ⟨fuel - 1, by simp at hf; omega⟩
    have hdec := grnDecByteCheck_grnBEnc (hv v (List.mem_cons_self ..)) (grnEncByte values)
    rw [grnEncByte_cons]
    rcases hin : grnBEnc v ++ grnEncByte values with _ | ⟨c, input⟩
    · exact absurd (List.append_eq_nil_iff.mp hin).1 (grnBEnc_ne_nil v)
    · rw [hin] at hdec
      rw [grnDecByteAll, hdec]
      · simp only [bind, Except.bind, pure, Except.pure]
        rw [ih (fun u hu => hv u (List.mem_cons_of_mem _ hu)) (by simpa using hf)]
      · simp

end Groonga.Ii
