import Groonga.Ja.Allocating

/-!
# Setting values of a sound column

A value is written to a new place, which then becomes the place of its record, and the old place is
given back. When all of this succeeds, the record holds the value and the others hold what they
held.
-/

namespace Groonga.Ja

open Lib

variable {g : Config} {L L' : Ledger} {c c' : Ctx} {s : GrnJa} {id e size : ℕ} {value : List UInt8}
  {target : Target} {cas : Option ℕ} {view : List UInt8 → List UInt8}

/-! ## Errors stay -/

theorem perform_rc (e : SegmentEntry) (hrc : c.rc ≠ .success) : (c.perform g e).2.rc ≠ .success := by
  rcases perform_cases g c e with ⟨c', hrun, -, hrc', -⟩ | ⟨c', hrun, -, hrc', -⟩
  · rw [hrun]
    exact hrc' ▸ hrc
  · rw [hrun]
    simp only [hrc']
    decide

theorem freeHugeLoop_rc (n seg : ℕ) (hrc : c.rc ≠ .success) :
    (freeHugeLoop g n seg c).rc ≠ .success := by
  induction n generalizing seg c with
  | zero => exact hrc
  | succ n ih =>
    have hstep := perform_rc (g := g) (.freeHuge seg) hrc
    rw [freeHugeLoop]
    generalize c.perform g (.freeHuge seg) = r at hstep ⊢
    rcases r with ⟨ok, c'⟩
    cases ok with
    | true => exact ih (seg + 1) hstep
    | false => exact hstep

theorem freeChunk_rc (segment position size : ℕ) (hrc : c.rc ≠ .success) :
    (freeChunk g c segment position size).rc ≠ .success := by
  rw [freeChunk, garbageSegmentFor]
  generalize findRoom g c.ja (g.nDataSegments + 1) 0 (c.ja.header.garbages (chunkVariation size)) = r
  obtain ⟨previous, _ | current⟩ := r
  · simp only
    by_cases hfull : findFreeSegment g c.ja.header = g.nDataSegments
    · simp only [if_pos hfull]
      exact notEnough_ne
    · simp only [if_neg hfull]
      have hstep := perform_rc (g := g) (.newGinfo size (findFreeSegment g c.ja.header) previous) hrc
      generalize c.perform g (.newGinfo size (findFreeSegment g c.ja.header) previous) = r at hstep ⊢
      rcases r with ⟨ok, c'⟩
      cases ok with
      | true => exact perform_rc _ hstep
      | false => exact hstep
  · exact perform_rc _ hrc

theorem free_rc (e : ℕ) (hrc : c.rc ≠ .success) : (free g c e).rc ≠ .success := by
  rw [free]
  by_cases htiny : etinyP e
  · rw [if_pos htiny]
    exact hrc
  rw [if_neg htiny]
  by_cases hhuge : ehugeP e
  · rw [if_pos hhuge]
    exact freeHugeLoop_rc _ _ hrc
  rw [if_neg hhuge]
  generalize einfoDec e = d
  obtain ⟨segment, position, size⟩ := d
  simp only
  split_ifs
  · exact hrc
  · exact freeChunk_rc _ _ _ hrc
  · exact perform_rc _ hrc

theorem replace_rc (id e : ℕ) (cas : Option ℕ) (hrc : c.rc ≠ .success) :
    (replace g c id e cas).rc ≠ .success := by
  have hset : ∀ (c' : Ctx) (segment : ℕ), c'.rc ≠ .success →
      (if cas.any (· ≠ readNat (c'.ja.memory segment) (8 * (id % nEinfoInASegment)) 8) then
        { c' with rc := .casError }
      else free g (c'.perform g (.useEinfo id segment e)).2
        (readNat (c'.ja.memory segment) (8 * (id % nEinfoInASegment)) 8)).rc ≠ .success := by
    intro c' segment hrc'
    split_ifs
    · exact fun h => by cases h
    · exact free_rc _ (perform_rc _ hrc')
  rw [replace, einfoSegmentFor]
  simp only
  split_ifs with hvoid hfull
  · exact notEnough_ne
  · have hstep := perform_rc (g := g) (.newEinfo id (findFreeSegment g c.ja.header)) hrc
    generalize c.perform g (.newEinfo id (findFreeSegment g c.ja.header)) = r at hstep ⊢
    rcases r with ⟨ok, c'⟩
    cases ok with
    | true => exact hset c' _ hstep
    | false => exact hstep
  · exact hset c _ hrc

/-! ## The value at its place -/

/-- What is copied to a place lies in the place. -/
theorem Spot.copyTo_memory (hspot : Spot value.length e target) (s : GrnJa) (x u : ℕ) :
    (copyTo s target value).memory x u = s.memory x u ∨ (place g e).Has x u := by
  cases hspot with
  | tiny e hsize => exact .inl rfl
  | within seg pos hseg hend hsize hsome =>
    by_cases hx : x = seg
    · subst hx
      rcases Nat.eq_zero_or_pos value.length with hzero | hpos
      · left
        rw [List.length_eq_zero_iff.mp hzero]
        simp only [copyTo, modify_self]
        exact write_of_not_mem (by simp; omega)
      · by_cases hu : pos ≤ u ∧ u < pos + value.length
        · right
          have hposLt : pos < 0x1000000 := by
            unfold segmentSize at hend
            omega
          obtain ⟨htiny, hhuge, hdec⟩ := einfoEnc_spec hseg hposLt hsize
          rw [place, htiny, hhuge, hdec]
          simp only [Bool.false_eq_true, if_false]
          rw [if_neg (by omega)]
          split_ifs with hchunk
          · exact ⟨rfl, hu.1, Nat.lt_of_lt_of_le hu.2 (Nat.add_le_add_left (le_chunk hchunk) _)⟩
          · exact ⟨rfl, by omega, Nat.lt_of_lt_of_le hu.2
              (Nat.add_le_add_left (aligned_spec value.length).1 _)⟩
        · left
          simp only [copyTo, modify_self]
          exact write_of_not_mem (by omega)
    · exact .inl (congrFun (Function.update_of_ne hx _ _) u)
  | huge seg hseg hsize hwhole =>
    simp only [copyTo, winWrite]
    split_ifs with hin
    · right
      obtain ⟨hle, hu, hlt⟩ := hin
      rw [place_huge hseg hsize]
      refine ⟨hle, ?_⟩
      have hmul : (x - seg) * segmentSize < computeHugeNSegments value.length * segmentSize := by
        omega
      have hdiff := Nat.lt_of_mul_lt_mul_right hmul
      omega
    · exact .inl rfl

theorem copyTo_header (s : GrnJa) (target : Target) (value : List UInt8) :
    (copyTo s target value).header = s.header := by
  cases target <;> rfl

/-- **The value is written to the place in `hand`.** -/
theorem Good.copyTo (hG : Good g s L) (hspot : Spot value.length e target)
    (hhand : L.own hand = place g e) :
    Good g (Ja.copyTo s target value) L ∧ Keeps s (Ja.copyTo s target value) L := by
  have hmem : ∀ x u, (Ja.copyTo s target value).memory x u = s.memory x u ∨ (L.own hand).Has x u := by
    rw [hhand]
    exact hspot.copyTo_memory s
  obtain ⟨hS, hk⟩ := hG.sound.writeHand (copyTo_header _ _ _) hmem
  refine ⟨⟨hS, fun w hw d hd => ?_⟩, hk⟩
  rw [hG.sound.inv.ginfo_eq hw hd (hmem d)]
  exact hG.filled w hw d hd

/-- An element info for a value that is in the place in `hand`. -/
structure Ready (g : Config) (s : GrnJa) (L : Ledger) (e : ℕ) (value : List UInt8) : Prop where
  hand : L.own hand = place g e
  value : valueAt s.memory e = value
  whole : Whole e
  lt : e < 256 ^ 8

theorem Spot.whole (hspot : Spot size e target) : Whole e := by
  cases hspot with
  | tiny e hsize =>
    have htiny' := @etinyP_etinyEnc e size hsize
    refine ⟨fun _ => ?_, fun htiny => ?_, fun htiny => ?_⟩
    · rw [etinyDec, c7_etinyEnc hsize]
      omega
    · exact absurd htiny' (Bool.eq_false_iff.mp htiny)
    · exact absurd htiny' (Bool.eq_false_iff.mp htiny)
  | within seg pos hseg hend hsize hsome =>
    have hposLt : pos < 0x1000000 := by
      unfold segmentSize at hend
      omega
    obtain ⟨htiny', hhuge', hdec⟩ := einfoEnc_spec hseg hposLt hsize
    refine ⟨fun htiny => ?_, fun _ hhuge => ?_, fun _ _ hzero => ?_⟩
    · exact absurd htiny (Bool.eq_false_iff.mp htiny')
    · exact absurd hhuge (Bool.eq_false_iff.mp hhuge')
    · rw [hdec] at hzero
      exact absurd hzero (Nat.ne_of_gt hsome)
  | huge seg hseg hsize hwhole =>
    obtain ⟨htiny', hhuge', hdec⟩ := ehugeEnc_spec hseg hsize
    refine ⟨fun htiny => ?_, fun _ _ => ?_, fun _ hhuge => ?_⟩
    · exact absurd htiny (Bool.eq_false_iff.mp htiny')
    · rw [hdec]
      exact hwhole
    · exact absurd hhuge' (Bool.eq_false_iff.mp hhuge)

theorem Spot.lt (hspot : Spot size e target) (htiny : etinyP e = false) : e < 256 ^ 8 := by
  have hpow : (256 : ℕ) ^ 8 = 0x10000000000000000 := by decide
  rw [hpow]
  cases hspot with
  | tiny e hsize =>
    rw [etinyP_etinyEnc hsize] at htiny
    cases htiny
  | within seg pos hseg hend hsize hsome =>
    rw [einfoEnc]
    omega
  | huge seg hseg hsize hwhole =>
    rw [ehugeEnc]
    omega

theorem valueAt_zero (mem : ℕ → ℕ → UInt8) : valueAt mem 0 = [] := rfl

theorem place_zero : place g 0 = .none := rfl

/-- A value that is in its element info. -/
theorem Spot.ready_tiny (hspot : Spot value.length e target) (hplace : L.own hand = place g e)
    (htiny : etinyP e = true) (s : GrnJa) : Ready g s L (copyToEinfo e value) value := by
  have hvalue := hspot.valueAt_copyTo (s := s)
  rw [filled, if_pos htiny] at hvalue
  cases hspot with
  | tiny e hsize =>
    have hc7 := c7_copyToEinfo (etinyEnc e value.length) hsize
    have htiny' : etinyP (copyToEinfo (etinyEnc e value.length) value) = true := by
      rw [etinyP, hc7, ← etinyP]
      exact htiny
    refine ⟨?_, hvalue, ?_, ?_⟩
    · rw [hplace, place_etinyEnc hsize, place, if_pos htiny']
    · refine ⟨fun _ => ?_, fun hfalse => ?_, fun hfalse => ?_⟩
      · rw [etinyDec, hc7, c7_etinyEnc hsize]
        omega
      · exact absurd htiny' (Bool.eq_false_iff.mp hfalse)
      · exact absurd htiny' (Bool.eq_false_iff.mp hfalse)
    · have hlt := leNat_lt (value ++ (leBytes 8 (etinyEnc e value.length)).drop value.length)
      rw [List.length_append, List.length_drop, length_leBytes] at hlt
      have height : value.length + (8 - value.length) = 8 := by omega
      rwa [height] at hlt
  | within seg pos hseg hend hsize hsome =>
    have hposLt : pos < 0x1000000 := by
      unfold segmentSize at hend
      omega
    rw [(einfoEnc_spec hseg hposLt hsize).1] at htiny
    cases htiny
  | huge seg hseg hsize hwhole =>
    rw [(ehugeEnc_spec hseg hsize).1] at htiny
    cases htiny

/-- A value that was copied to its place. -/
theorem Spot.ready_copyTo (hspot : Spot value.length e target) (hplace : L.own hand = place g e)
    (htiny : etinyP e = false) (s : GrnJa) : Ready g (copyTo s target value) L e value := by
  have hvalue := hspot.valueAt_copyTo (s := s)
  rw [filled, htiny, if_neg Bool.false_ne_true] at hvalue
  exact ⟨hplace, hvalue, hspot.whole, hspot.lt htiny⟩

/-- **A value is put to a new place**, or there is an error. -/
theorem setValue_spec (hG : Good g c.ja L) (hhand : L.own hand = .none)
    (hlen : value.length < 0x100000000) (stack : ℕ) :
    (∃ e c' L', setValue g c id value stack = (true, e, c') ∧ Moved g c c' L L' ∧
      Ready g c'.ja L' e value) ∨ (setValue g c id value stack).2.2.rc ≠ .success := by
  rw [setValue]
  by_cases hzero : value.length = 0
  · left
    rw [if_pos hzero]
    refine ⟨0, c, L, rfl, .refl hG, ⟨hhand.trans place_zero.symm, ?_, whole_zero, by decide⟩⟩
    rw [List.length_eq_zero_iff.mp hzero]
    exact valueAt_zero _
  rw [if_neg hzero]
  have hspec : Allocated g value.length c L (alloc g c id value.length stack) := alloc_spec hG hhand hlen
  generalize alloc g c id value.length stack = r at hspec ⊢
  obtain ⟨⟨ok, e, target⟩, c₁⟩ := r
  rcases hspec with ⟨hok, L', hmove, hplace, hspot⟩ | ⟨hok, hrc⟩
  · obtain rfl : ok = true := hok
    simp only at hplace hspot hmove ⊢
    cases htiny : etinyP e with
    | true =>
      simp only [if_true]
      exact .inl ⟨_, c₁, L', rfl, hmove, hspot.ready_tiny hplace htiny _⟩
    | false =>
      simp only [Bool.false_eq_true, if_false]
      rw [Ctx.walAddEntry]
      split_ifs with hentry
      · exact .inr fun h => by cases h
      · left
        obtain ⟨hG', hk⟩ := hmove.good.copyTo hspot hplace
        exact ⟨e, _, L', rfl, ⟨hG', hmove.keeps.trans hk hmove.own, hmove.own, hmove.rc, hmove.fails⟩,
          hspot.ready_copyTo hplace htiny _⟩
  · obtain rfl : ok = false := hok
    exact .inr hrc

end Groonga.Ja
