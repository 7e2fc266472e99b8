import Groonga.Ja.Setting

/-!
# Replacing values of a sound column

The element info of a record is set to the new place, and the old place comes to `hand` and is
given back. A put that succeeds sets the value of its record and leaves the others as they were,
also when it is skipped because the value is there already.
-/

namespace Groonga.Ja

open Lib

variable {g : Config} {L L' : Ledger} {c c' : Ctx} {s s' : GrnJa} {id e : ℕ} {value : List UInt8}
  {cas : Option ℕ} {view : List UInt8 → List UInt8}

/-! ## The segment of the element info -/

/-- The value in `hand` is as it was when nothing was written to its place. -/
theorem Ready.congr (hready : Ready g s L e value) (hG : Good g s L)
    (hsame : ∀ x u, (L.own Ja.hand).Has x u → s'.memory x u = s.memory x u) :
    Ready g s' L e value := by
  refine ⟨hready.hand, ?_, hready.whole, hready.lt⟩
  have hfits := hG.sound.inv.owned.fits Ja.hand hand_lt
  rw [hready.hand] at hfits hsame
  rw [valueAt_congr hfits hready.whole hsame]
  exact hready.value

/-- The record has a segment for its element info, or there is an error. -/
theorem einfoSegmentFor_spec (hG : Good g c.ja L) (hready : Ready g c.ja L e value)
    (hid : id < idLimit) :
    (∃ c', einfoSegmentFor g c id = (some (c'.ja.header.elementSegs (id / nEinfoInASegment)), c') ∧
      Moved g c c' L L ∧ Ready g c'.ja L e value ∧
      c'.ja.header.elementSegs (id / nEinfoInASegment) ≠ elementSegVoid) ∨
    ∃ c', einfoSegmentFor g c id = (none, c') ∧ c'.rc ≠ .success := by
  rw [einfoSegmentFor]
  by_cases hvoid : c.ja.header.elementSegs (id / nEinfoInASegment) = elementSegVoid
  swap
  · simp only [if_neg hvoid]
    exact .inl ⟨c, rfl, .refl hG, hready, hvoid⟩
  simp only [if_pos hvoid]
  by_cases hfull : findFreeSegment g c.ja.header = g.nDataSegments
  · simp only [if_pos hfull]
    exact .inr ⟨_, rfl, notEnough_ne⟩
  simp only [if_neg hfull]
  obtain ⟨hlt, hfree⟩ := findFreeSegment_spec hfull
  obtain ⟨hS, hk, hseg⟩ := hG.sound.newEinfo hid hvoid hlt hfree
  rcases perform_cases g c (.newEinfo id (findFreeSegment g c.ja.header)) with
    ⟨c₁, hrun, hja, hrc, hfails⟩ | ⟨c₁, hrun, hja, hrc, hfails, hentry⟩
  · left
    have hja' : c₁.ja = einfoSegmentNew c.ja id (findFreeSegment g c.ja.header) := hja
    have hother : ∀ x, x ≠ findFreeSegment g c.ja.header → c₁.ja.memory x = c.ja.memory x := by
      intro x hx
      rw [hja']
      exact Function.update_of_ne hx _ _
    rw [← hja'] at hS hk hseg
    simp only [hrun]
    refine ⟨c₁, by rw [hseg], ⟨⟨hS, fun v hv d hd => ?_⟩, hk, fun _ _ => rfl, hrc, hfails⟩,
      hready.congr hG fun x u hu => ?_, ?_⟩
    · -- the garbage infos are in segments that were not free
      rw [hother d]
      · exact hG.filled v hv d hd
      · rintro rfl
        have hinfo := hG.sound.info_chain hv hd
        rw [hfree] at hinfo
        exact absurd hinfo (by decide)
    · rw [hother x]
      rintro rfl
      exact (hG.sound.inv.owned.fits hand hand_lt).info_ne_zero hu.touches hfree
    · have hlimit := g.nDataSegments_le
      rw [hseg]
      unfold elementSegVoid
      omega
  · simp only [hrun]
    exact .inr ⟨c₁, rfl, by rw [hrc]; decide⟩

/-! ## The element info -/

/-- **What a put leaves.** The record has the value, and the others have what they had. -/
structure Put (g : Config) (s s' : GrnJa) (id : ℕ) (value : List UInt8) : Prop where
  good : ∃ L, Good g s' L ∧ L.own hand = .none
  value : s'.refRaw id = value
  others : ∀ j < idLimit, j ≠ id → s'.refRaw j = s.refRaw j

/-- Steps in front of a put, and steps behind it, that keep what the records hold. -/
theorem Put.of_eq {s₀ : GrnJa} (h : Put g s s' id value)
    (hbefore : ∀ j < idLimit, s.refRaw j = s₀.refRaw j) : Put g s₀ s' id value :=
  ⟨h.good, h.value, fun j hj hne => (h.others j hj hne).trans (hbefore j hj)⟩

/-- The element info is set, and the old place is in `hand`. -/
theorem useEinfo_spec (hG : Good g s L) (hready : Ready g s L e value) (hid : id < idLimit)
    (hvoid : s.header.elementSegs (id / nEinfoInASegment) ≠ elementSegVoid) :
    let s' := einfoSegmentUse s id (s.header.elementSegs (id / nEinfoInASegment)) e
    ∃ L', Good g s' L' ∧ L'.own hand = place g (s.einfo id) ∧ s'.refRaw id = value ∧
      ∀ j < idLimit, j ≠ id → s'.refRaw j = s.refRaw j := by
  intro s'
  obtain ⟨hS, hnew, hrest, hmem⟩ := hG.sound.useEinfo hid hvoid hready.hand hready.whole hready.lt
  have hother : ∀ x, x ≠ s.header.elementSegs (id / nEinfoInASegment) → s'.memory x = s.memory x :=
    fun x hx => Function.update_of_ne hx _ _
  refine ⟨_, ⟨hS, fun v hv d hd => ?_⟩, ?_, ?_, fun j hj hne => ?_⟩
  · show 0 < (ginfo (s'.memory d)).nrecs
    rw [hother d]
    · exact hG.filled v hv d hd
    · rintro rfl
      have hinfo := hG.sound.info_chain hv hd
      have hlt := (hG.sound.info_einfo hid hvoid).2
      omega
  · show L.own (Equiv.swap id hand hand) = _
    rw [Equiv.swap_apply_right]
    exact hG.sound.own id hid
  · rw [GrnJa.refRaw, hnew]
    exact (hready.congr hG fun x u hu => hmem hand hand_lt x u hu).value
  · have hfits := hG.sound.inv.owned.fits j (lt_nOwners hj)
    have hplaces := hmem j (lt_nOwners hj)
    rw [hG.sound.own j hj] at hfits hplaces
    rw [GrnJa.refRaw, GrnJa.refRaw, hrest j hj hne]
    exact valueAt_congr hfits (hG.sound.whole j hj) hplaces

/-- **A record is given a new place**, and there is no error. -/
theorem replace_spec (hG : Good g c.ja L) (hready : Ready g c.ja L e value) (hid : id < idLimit)
    (hrc : (replace g c id e cas).rc = .success) : Put g c.ja (replace g c id e cas).ja id value := by
  rw [replace] at hrc ⊢
  rcases einfoSegmentFor_spec hG hready hid with ⟨c₁, hrun, hmove, hready₁, hvoid⟩ | ⟨c₁, hrun, hne⟩
  · have hback : readNat (c₁.ja.memory (c₁.ja.header.elementSegs (id / nEinfoInASegment)))
        (8 * (id % nEinfoInASegment)) 8 = c₁.ja.einfo id := by
      simp only [GrnJa.einfo, if_neg hvoid]
    simp only [hrun, hback] at hrc ⊢
    by_cases hcas : cas.any (· ≠ c₁.ja.einfo id) = true
    · simp only [hcas, if_true] at hrc
      cases hrc
    · simp only [if_neg hcas] at hrc ⊢
      obtain ⟨L', hG', hhand, hvalue, hothers⟩ := useEinfo_spec hmove.good hready₁ hid hvoid
      rcases perform_cases g c₁ (.useEinfo id (c₁.ja.header.elementSegs (id / nEinfoInASegment)) e) with
        ⟨c₂, hrun₂, hja, -, -⟩ | ⟨c₂, hrun₂, -, hrc₂, -⟩
      · have hja' : c₂.ja = einfoSegmentUse c₁.ja id
          (c₁.ja.header.elementSegs (id / nEinfoInASegment)) e := hja
        rw [← hja'] at hG' hvalue hothers
        simp only [hrun₂] at hrc ⊢
        rcases free_spec hG' hhand with ⟨L'', hmove', hnone⟩ | hstop
        · refine ⟨⟨L'', hmove'.good, hnone⟩, ?_, fun j hj hne => ?_⟩
          · rw [hG'.sound.refRaw_eq hmove'.keeps hid, hvalue]
          · rw [hG'.sound.refRaw_eq hmove'.keeps hj, hothers j hj hne,
              hG.sound.refRaw_eq hmove.keeps hj]
        · exact absurd hrc hstop.rc
      · simp only [hrun₂] at hrc
        exact absurd hrc (free_rc _ (by rw [hrc₂]; decide))
  · simp only [hrun] at hrc
    exact absurd hrc hne

/-! ## Puts -/

/-- **The end of a put.** The record is given the place in `hand`, which is given back when this
fails. -/
def finish (g : Config) (c : Ctx) (id e : ℕ) (cas : Option ℕ) : Ctx :=
  if (replace g c id e cas).rc = .success then replace g c id e cas
  else free g (replace g c id e cas) e

theorem finish_rc (id e : ℕ) (cas : Option ℕ) (hrc : c.rc ≠ .success) :
    (finish g c id e cas).rc ≠ .success := by
  have hrc' := replace_rc (g := g) id e cas hrc
  rw [finish, if_neg hrc']
  exact free_rc _ hrc'

theorem finish_spec (hG : Good g c.ja L) (hmove : Moved g c c' L L') (hready : Ready g c'.ja L' e value)
    (hid : id < idLimit) (hrc : (finish g c' id e cas).rc = .success) :
    Put g c.ja (finish g c' id e cas).ja id value := by
  rw [finish] at hrc ⊢
  split_ifs at hrc ⊢ with hok
  · exact (replace_spec hmove.good hready hid hok).of_eq fun j hj => hG.sound.refRaw_eq hmove.keeps hj
  · exact absurd hrc (free_rc _ hok)

theorem putRaw_eq (g : Config) (view : List UInt8 → List UInt8) (c : Ctx) (id : ℕ) (value : List UInt8)
    (cas : Option ℕ) (stack : ℕ) : putRaw g view c id value cas stack =
      if 0 < value.length ∧ c.ja.ref view id = value then c
      else finish g (setValue g c id value stack).2.2 id (setValue g c id value stack).2.1 cas := rfl

/-- **A put that succeeds.** `view` is what the decompression makes of the stored bytes. When the
value is there already, the column stays as it is. -/
theorem putRaw_spec (hG : Good g c.ja L) (hhand : L.own hand = .none) (hid : id < idLimit)
    (hlen : value.length < 0x100000000) {stack : ℕ}
    (hrc : (putRaw g view c id value cas stack).rc = .success) :
    (0 < value.length ∧ c.ja.ref view id = value ∧ putRaw g view c id value cas stack = c) ∨
      Put g c.ja (putRaw g view c id value cas stack).ja id value := by
  rw [putRaw_eq] at hrc ⊢
  split_ifs at hrc ⊢ with hsame
  · exact .inl ⟨hsame.1, hsame.2, rfl⟩
  right
  rcases @setValue_spec g L c id value hG hhand hlen stack with ⟨e, c₁, L', hrun, hmove, hready⟩ | hne
  · simp only [hrun] at hrc ⊢
    exact finish_spec hG hmove hready hid hrc
  · exact absurd hrc (finish_rc _ _ _ hne)

end Groonga.Ja
