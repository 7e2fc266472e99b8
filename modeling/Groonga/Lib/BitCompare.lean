import Groonga.Lib.ByteOrder
import Mathlib

/-!
# Comparing a range of bits

A comparison of two bit strings in a range is decided by the first position in the range at
which they differ. Comparisons of neighbouring ranges are put together with `Ordering.then`,
so that a comparison of bytes, with the first and the last byte masked, is one of bits.
-/

namespace Groonga.Lib

variable {f g : ℕ → Bool} {lo mid hi d : ℕ} {o o' : Ordering}

/-- **The verdict of a comparison** from the position `lo` to the position `hi`. -/
def Verdict (f g : ℕ → Bool) (lo hi : ℕ) : Ordering → Prop
  | .eq => ∀ p, lo ≤ p → p < hi → f p = g p
  | .lt => ∃ q, lo ≤ q ∧ q < hi ∧ (∀ p, lo ≤ p → p < q → f p = g p) ∧ f q = false ∧ g q = true
  | .gt => ∃ q, lo ≤ q ∧ q < hi ∧ (∀ p, lo ≤ p → p < q → f p = g p) ∧ f q = true ∧ g q = false

/-- The first of two neighbouring ranges decides first. -/
theorem Verdict.then (h : Verdict f g lo mid o) (h' : Verdict f g mid hi o') (hlo : lo ≤ mid)
    (hhi : mid ≤ hi) : Verdict f g lo hi (o.then o') := by
  cases o with
  | lt =>
    obtain ⟨q, hq, hqm, hsame, hbits⟩ := h
    exact ⟨q, hq, hqm.trans_le hhi, hsame, hbits⟩
  | gt =>
    obtain ⟨q, hq, hqm, hsame, hbits⟩ := h
    exact ⟨q, hq, hqm.trans_le hhi, hsame, hbits⟩
  | eq =>
    -- nothing is decided before `mid`
    have hboth : ∀ q, (∀ p, mid ≤ p → p < q → f p = g p) → ∀ p, lo ≤ p → p < q → f p = g p := by
      intro q hsame p hp hpq
      rcases Nat.lt_or_ge p mid with hpm | hpm
      · exact h p hp hpm
      · exact hsame p hpm hpq
    cases o' with
    | eq => exact hboth hi h'
    | lt =>
      obtain ⟨q, hq, hqh, hsame, hbits⟩ := h'
      exact ⟨q, hlo.trans hq, hqh, hboth q hsame, hbits⟩
    | gt =>
      obtain ⟨q, hq, hqh, hsame, hbits⟩ := h'
      exact ⟨q, hlo.trans hq, hqh, hboth q hsame, hbits⟩

/-- A verdict on shifted strings. -/
theorem Verdict.shift (h : Verdict (fun p => f (d + p)) (fun p => g (d + p)) lo hi o) :
    Verdict f g (d + lo) (d + hi) o := by
  have hback : ∀ q, (∀ p, lo ≤ p → p < q → f (d + p) = g (d + p)) →
      ∀ p, d + lo ≤ p → p < d + q → f p = g p := by
    intro q hsame p hp hpq
    have := hsame (p - d) (by omega) (by omega)
    rwa [show d + (p - d) = p by omega] at this
  cases o with
  | eq => exact hback hi h
  | lt =>
    obtain ⟨q, hq, hqh, hsame, hbits⟩ := h
    exact ⟨d + q, by omega, by omega, hback q hsame, hbits⟩
  | gt =>
    obtain ⟨q, hq, hqh, hsame, hbits⟩ := h
    exact ⟨d + q, by omega, by omega, hback q hsame, hbits⟩

/-- Only the bits in the range count. -/
theorem Verdict.congr {f' g' : ℕ → Bool} (h : Verdict f g lo hi o)
    (hf : ∀ p, lo ≤ p → p < hi → f' p = f p) (hg : ∀ p, lo ≤ p → p < hi → g' p = g p) :
    Verdict f' g' lo hi o := by
  have hback : ∀ q, q ≤ hi → (∀ p, lo ≤ p → p < q → f p = g p) →
      ∀ p, lo ≤ p → p < q → f' p = g' p := by
    intro q hqh hsame p hp hpq
    rw [hf p hp (by omega), hg p hp (by omega), hsame p hp hpq]
  cases o with
  | eq => exact hback hi le_rfl h
  | lt =>
    obtain ⟨q, hq, hqh, hsame, hfq, hgq⟩ := h
    exact ⟨q, hq, hqh, hback q hqh.le hsame, by rw [hf q hq hqh, hfq], by rw [hg q hq hqh, hgq]⟩
  | gt =>
    obtain ⟨q, hq, hqh, hsame, hfq, hgq⟩ := h
    exact ⟨q, hq, hqh, hback q hqh.le hsame, by rw [hf q hq hqh, hfq], by rw [hg q hq hqh, hgq]⟩

/-! ## Numbers -/

/-- The highest bit in which two numbers of `n` bits differ tells which one is smaller. -/
theorem exists_testBit_of_lt {n x y : ℕ} (hy : y < 2 ^ n) (h : x < y) :
    ∃ p < n, (∀ q < p, x.testBit (n - 1 - q) = y.testBit (n - 1 - q)) ∧
      x.testBit (n - 1 - p) = false ∧ y.testBit (n - 1 - p) = true := by
  have hsome : ∃ p, p < n ∧ x.testBit (n - 1 - p) ≠ y.testBit (n - 1 - p) := by
    obtain ⟨i, hi⟩ := Nat.exists_testBit_ne_of_ne (Nat.ne_of_lt h)
    have hin : i < n := by
      by_contra hout
      have hpow : 2 ^ n ≤ 2 ^ i := Nat.pow_le_pow_right (by omega) (by omega)
      rw [Nat.testBit_lt_two_pow (h.trans hy |>.trans_le hpow),
        Nat.testBit_lt_two_pow (hy.trans_le hpow)] at hi
      exact hi rfl
    exact ⟨n - 1 - i, by omega, by rwa [show n - 1 - (n - 1 - i) = i by omega]⟩
  obtain ⟨p, ⟨hp, hdiff⟩, hfirst⟩ := Nat.findX hsome
  have hsame : ∀ q < p, x.testBit (n - 1 - q) = y.testBit (n - 1 - q) := fun q hq => by
    by_contra hne
    exact hfirst q hq ⟨hq.trans hp, hne⟩
  refine ⟨p, hp, hsame, ?_⟩
  cases hx : x.testBit (n - 1 - p) with
  | false =>
    rw [hx] at hdiff
    exact ⟨rfl, by simpa using hdiff.symm⟩
  | true =>
    -- then `y` would be the smaller one
    have hy' : y.testBit (n - 1 - p) = false := by simpa [hx] using hdiff.symm
    refine absurd h (Nat.not_lt.mpr (Nat.le_of_lt ?_))
    refine Nat.lt_of_testBit (n - 1 - p) hy' hx fun j hj => ?_
    rcases Nat.lt_or_ge j n with hjn | hjn
    · have := hsame (n - 1 - j) (by omega)
      rw [show n - 1 - (n - 1 - j) = j by omega] at this
      exact this.symm
    · have hpow : 2 ^ n ≤ 2 ^ j := Nat.pow_le_pow_right (by omega) hjn
      rw [Nat.testBit_lt_two_pow (hy.trans_le hpow),
        Nat.testBit_lt_two_pow (h.trans hy |>.trans_le hpow)]

/-- **Numbers of `n` bits** are compared from the highest bit on. -/
theorem verdict_compare {n x y : ℕ} (hx : x < 2 ^ n) (hy : y < 2 ^ n) :
    Verdict (fun p => x.testBit (n - 1 - p)) (fun p => y.testBit (n - 1 - p)) 0 n
      (compare x y) := by
  rcases Nat.lt_trichotomy x y with hlt | rfl | hgt
  · rw [Nat.compare_eq_lt.mpr hlt]
    obtain ⟨p, hp, hsame, hbits⟩ := exists_testBit_of_lt hy hlt
    exact ⟨p, Nat.zero_le _, hp, fun q _ hq => hsame q hq, hbits⟩
  · rw [Nat.compare_eq_eq.mpr rfl]
    exact fun _ _ _ => rfl
  · rw [Nat.compare_eq_gt.mpr hgt]
    obtain ⟨p, hp, hsame, hyp, hxp⟩ := exists_testBit_of_lt hx hgt
    exact ⟨p, Nat.zero_le _, hp, fun q _ hq => (hsame q hq).symm, hxp, hyp⟩

/-- A mask restricts the comparison of bytes to the range of its bits. -/
theorem verdict_masked {m i j : ℕ} (x y : UInt8)
    (hmask : ∀ p < 8, m.testBit (7 - p) = decide (i ≤ p ∧ p < j)) (hj : j ≤ 8) :
    Verdict (fun p => x.toNat.testBit (7 - p)) (fun p => y.toNat.testBit (7 - p)) i j
      (compare (x.toNat &&& m) (y.toNat &&& m)) := by
  have hbyte : ∀ z : UInt8, z.toNat &&& m < 2 ^ 8 := fun z => Nat.and_le_left.trans_lt z.toNat_lt
  have hall := verdict_compare (hbyte x) (hbyte y)
  have hbit : ∀ (z : UInt8) p, p < 8 →
      (z.toNat &&& m).testBit (7 - p) = (z.toNat.testBit (7 - p) && decide (i ≤ p ∧ p < j)) := by
    intro z p hp
    rw [Nat.testBit_and, hmask p hp]
  have hin : ∀ (z : UInt8) p, i ≤ p → p < j → (z.toNat &&& m).testBit (7 - p) =
      z.toNat.testBit (7 - p) := fun z p hip hpj => by
    rw [hbit z p (by omega), decide_eq_true ⟨hip, hpj⟩, Bool.and_true]
  have hinside : ∀ (z : UInt8) p, p < 8 → (z.toNat &&& m).testBit (7 - p) = true → i ≤ p ∧ p < j := by
    intro z p hp htrue
    rw [hbit z p hp, Bool.and_eq_true] at htrue
    exact of_decide_eq_true htrue.2
  generalize compare (x.toNat &&& m) (y.toNat &&& m) = o at hall
  cases o with
  | eq =>
    intro p hip hpj
    exact (hin x p hip hpj).symm.trans
      ((hall p (Nat.zero_le _) (hpj.trans_le hj)).trans (hin y p hip hpj))
  | lt =>
    obtain ⟨q, -, hq, hsame, hxq, hyq⟩ := hall
    obtain ⟨hiq, hqj⟩ := hinside y q hq hyq
    refine ⟨q, hiq, hqj, fun p hip hpq => ?_, (hin x q hiq hqj).symm.trans hxq,
      (hin y q hiq hqj).symm.trans hyq⟩
    exact (hin x p hip (hpq.trans hqj)).symm.trans
      ((hsame p (Nat.zero_le _) hpq).trans (hin y p hip (hpq.trans hqj)))
  | gt =>
    obtain ⟨q, -, hq, hsame, hxq, hyq⟩ := hall
    obtain ⟨hiq, hqj⟩ := hinside x q hq hxq
    refine ⟨q, hiq, hqj, fun p hip hpq => ?_, (hin x q hiq hqj).symm.trans hxq,
      (hin y q hiq hqj).symm.trans hyq⟩
    exact (hin x p hip (hpq.trans hqj)).symm.trans
      ((hsame p (Nat.zero_le _) hpq).trans (hin y p hip (hpq.trans hqj)))

/-! ## Strings of bytes -/

/-- A bit of a string, the highest bit of each byte first. -/
def bitAt (s : List UInt8) (p : ℕ) : Bool := (s.getD (p / 8) 0).toNat.testBit (7 - p % 8)

theorem bitAt_add (s : List UInt8) (n : ℕ) {p : ℕ} (hp : p < 8) :
    bitAt s (8 * n + p) = (s.getD n 0).toNat.testBit (7 - p) := by
  rw [bitAt, show (8 * n + p) / 8 = n by omega, show (8 * n + p) % 8 = p by omega]

theorem bitAt_drop (s : List UInt8) (n p : ℕ) : bitAt (s.drop n) p = bitAt s (8 * n + p) := by
  rw [bitAt, bitAt, show (8 * n + p) / 8 = n + p / 8 by omega, show (8 * n + p) % 8 = p % 8 by omega]
  simp only [List.getD_eq_getElem?_getD, List.getElem?_drop]

/-- **Some bits of one byte**, by its mask. -/
theorem verdict_byte {m i j : ℕ} (a b : List UInt8) (n : ℕ)
    (hmask : ∀ p < 8, m.testBit (7 - p) = decide (i ≤ p ∧ p < j)) (hj : j ≤ 8) :
    Verdict (bitAt a) (bitAt b) (8 * n + i) (8 * n + j)
      (compare ((a.getD n 0).toNat &&& m) ((b.getD n 0).toNat &&& m)) := by
  refine Verdict.shift (Verdict.congr (verdict_masked (a.getD n 0) (b.getD n 0) hmask hj) ?_ ?_)
  · exact fun p _ hp => bitAt_add a n (by omega)
  · exact fun p _ hp => bitAt_add b n (by omega)

/-- **`memcmp`** compares bits. -/
theorem verdict_memcmp {n : ℕ} {a b : List UInt8} (ha : n ≤ a.length) (hb : n ≤ b.length) :
    Verdict (bitAt a) (bitAt b) 0 (8 * n) (memcmp (a.take n) (b.take n)) := by
  induction n generalizing a b with
  | zero => exact fun p _ hp => absurd hp (Nat.not_lt_zero p)
  | succ n ih =>
    rcases a with _ | ⟨x, a⟩
    · exact absurd ha (Nat.not_succ_le_zero n)
    rcases b with _ | ⟨y, b⟩
    · exact absurd hb (Nat.not_succ_le_zero n)
    rw [List.take_succ_cons, List.take_succ_cons, memcmp]
    have hfirst : Verdict (bitAt (x :: a)) (bitAt (y :: b)) 0 8 (compare x.toNat y.toNat) := by
      have := verdict_compare x.toNat_lt y.toNat_lt
      refine this.congr (fun p _ hp => ?_) fun p _ hp => ?_
      · simpa using bitAt_add (x :: a) 0 hp
      · simpa using bitAt_add (y :: b) 0 hp
    have hrest : Verdict (bitAt (x :: a)) (bitAt (y :: b)) (8 + 0) (8 + 8 * n)
        (memcmp (a.take n) (b.take n)) := by
      have := ih (Nat.le_of_succ_le_succ ha) (Nat.le_of_succ_le_succ hb)
      refine Verdict.shift (this.congr (fun p _ _ => ?_) fun p _ _ => ?_)
      · exact (bitAt_drop (x :: a) 1 p).symm
      · exact (bitAt_drop (y :: b) 1 p).symm
    have hall := hfirst.then hrest (Nat.zero_le _) (by omega)
    rwa [show 8 + 8 * n = 8 * (n + 1) by omega] at hall

end Groonga.Lib
