import Groonga.Ja.Stored

/-!
# Columns that agree with a ledger

In a sound column the header keeps its invariant for a ledger in which each record has the place
that its element info refers to. A step writes to free segments, to garbage infos and to the place
that is being handed over, and so the records hold what they held.
-/

namespace Groonga.Ja

open Lib

variable {g : Config} {h h' : Header} {gi gi' : ℕ → GInfo} {L L' L'' : Ledger} {s s' s'' : GrnJa}
  {id x u v : ℕ}

/-- A column that agrees with a ledger. -/
structure Sound (g : Config) (s : GrnJa) (L : Ledger) : Prop where
  inv : Inv g s.header (fun c => ginfo (s.memory c)) L
  own : ∀ id < idLimit, L.own id = place g (s.einfo id)
  whole : ∀ id < idLimit, Whole (s.einfo id)

/-- The element infos of the records and the bytes of their places are as they were. -/
structure Keeps (s s' : GrnJa) (L : Ledger) : Prop where
  einfo : ∀ id < idLimit, s'.einfo id = s.einfo id
  places : ∀ id < idLimit, ∀ x u, (L.own id).Has x u → s'.memory x u = s.memory x u

theorem Keeps.refl (s : GrnJa) (L : Ledger) : Keeps s s L := ⟨fun _ _ => rfl, fun _ _ _ _ _ => rfl⟩

theorem Keeps.trans (hk : Keeps s s' L) (hk' : Keeps s' s'' L')
    (hown : ∀ id < idLimit, L'.own id = L.own id) : Keeps s s'' L := by
  refine ⟨fun id hid => (hk'.einfo id hid).trans (hk.einfo id hid), fun id hid x u hu => ?_⟩
  rw [hk'.places id hid x u (by rwa [hown id hid]), hk.places id hid x u hu]

theorem lt_nOwners (hid : id < idLimit) : id < nOwners := by
  unfold nOwners
  exact Nat.lt_succ_of_lt hid

theorem ne_hand (hid : id < idLimit) : id ≠ hand := by
  unfold hand
  exact Nat.ne_of_lt hid

theorem lseg_lt (hid : id < idLimit) : id / nEinfoInASegment < nElementSegments := by
  unfold idLimit at hid
  unfold nEinfoInASegment nElementSegments
  omega

/-- **The records hold what they held.** -/
theorem Sound.refRaw_eq (hS : Sound g s L) (hk : Keeps s s' L) (hid : id < idLimit) :
    s'.refRaw id = s.refRaw id := by
  have hfits := hS.inv.owned.fits id (lt_nOwners hid)
  have hplaces := hk.places id hid
  rw [hS.own id hid] at hfits hplaces
  rw [GrnJa.refRaw, GrnJa.refRaw, hk.einfo id hid]
  exact valueAt_congr hfits (hS.whole id hid) hplaces

/-- The invariant looks at the garbage infos of the chains only. -/
theorem Inv.congr (hI : Inv g h gi L) (hgi : ∀ v < nVariations, ∀ c ∈ L.chain v, gi' c = gi c) :
    Inv g h gi' L := by
  refine ⟨hI.einfos, ⟨fun v hv => (hI.chains.path v hv).congr fun c hc => by rw [hgi v hv c hc],
    hI.chains.nodup, hI.chains.info, fun v hv c hc => ?_⟩, hI.chunks.congr fun v hv => ?_, hI.sequence,
    hI.owned⟩
  · rw [hgi v hv c hc]
    exact hI.chains.ring v hv c hc
  · exact chunksOf_congr fun c hc => hgi v hv c hc

/-- The segment of an element info is not one of values and not one of garbage infos. -/
theorem Sound.info_einfo (hS : Sound g s L) (hid : id < idLimit)
    (hne : s.header.elementSegs (id / nEinfoInASegment) ≠ elementSegVoid) :
    segEinfo ≤ s.header.segmentInfos (s.header.elementSegs (id / nEinfoInASegment)) ∧
      s.header.segmentInfos (s.header.elementSegs (id / nEinfoInASegment)) < segGinfo := by
  have hl := lseg_lt hid
  rw [(hS.inv.einfos.info _ hl hne).2]
  refine ⟨Nat.le_add_right _ _, ?_⟩
  calc segEinfo + id / nEinfoInASegment < segEinfo + nElementSegments := Nat.add_lt_add_left hl _
    _ ≤ segGinfo := by decide

theorem einfo_congr (hsegs : s'.header.elementSegs = s.header.elementSegs)
    (hmem : s.header.elementSegs (id / nEinfoInASegment) ≠ elementSegVoid →
      s'.memory (s.header.elementSegs (id / nEinfoInASegment)) =
        s.memory (s.header.elementSegs (id / nEinfoInASegment))) : s'.einfo id = s.einfo id := by
  simp only [GrnJa.einfo, hsegs]
  split_ifs with hvoid
  · rfl
  · rw [hmem hvoid]

/-- **What a step of the store may do.** It keeps the invariant, the places of the records and the
segments of element infos, and writes only to free segments, to garbage infos, and to the place in
`hand` before or after it. -/
theorem Sound.step (hS : Sound g s L) (hinv : Inv g s'.header (fun c => ginfo (s'.memory c)) L')
    (hown : ∀ id < idLimit, L'.own id = L.own id)
    (hsegs : s'.header.elementSegs = s.header.elementSegs)
    (hmem : ∀ x u, s'.memory x u = s.memory x u ∨ s.header.segmentInfos x = 0 ∨
      segGinfo ≤ s.header.segmentInfos x ∨ (L.own hand).Has x u ∨ (L'.own hand).Has x u) :
    Sound g s' L' ∧ Keeps s s' L := by
  have heinfo : ∀ id < idLimit, s'.einfo id = s.einfo id := by
    refine fun id hid => einfo_congr hsegs fun hne => funext fun u => ?_
    obtain ⟨hle, hlt⟩ := hS.info_einfo hid hne
    rcases hmem (s.header.elementSegs (id / nEinfoInASegment)) u with h | h | h | h | h
    · exact h
    · unfold segEinfo at hle
      omega
    · omega
    · have := (hS.inv.owned.fits hand hand_lt).info_lt h.touches
      omega
    · have hlt' := (hinv.owned.fits hand hand_lt).info_lt h.touches
      have hinfo := (hinv.einfos.info _ (lseg_lt hid) (by rwa [hsegs])).2
      rw [hsegs] at hinfo
      exact absurd (hinfo ▸ hlt') (Nat.not_lt.mpr (Nat.le_add_right _ _))
  refine ⟨⟨hinv, fun id hid => by rw [hown id hid, hS.own id hid, heinfo id hid],
    fun id hid => by rw [heinfo id hid]; exact hS.whole id hid⟩, heinfo, fun id hid x u hu => ?_⟩
  have hfits := hS.inv.owned.fits id (lt_nOwners hid)
  have hne := hfits.info_ne_zero hu.touches
  have hlt := hfits.info_lt hu.touches
  rcases hmem x u with h | h | h | h | h
  · exact h
  · exact absurd h hne
  · unfold segEinfo at hlt
    unfold segGinfo at h
    omega
  · exact absurd h (hS.inv.owned.apart id (lt_nOwners hid) hand hand_lt (ne_hand hid) x u hu)
  · have hapart := hinv.owned.apart id (lt_nOwners hid) hand hand_lt (ne_hand hid) x u
    rw [hown id hid] at hapart
    exact absurd h (hapart hu)

/-- A step that only changes the header. -/
theorem Sound.setHeader (hS : Sound g s L) (hinv : Inv g h (fun c => ginfo (s.memory c)) L')
    (hown : ∀ id < idLimit, L'.own id = L.own id)
    (hsegs : h.elementSegs = s.header.elementSegs) :
    Sound g { s with header := h } L' ∧ Keeps s { s with header := h } L :=
  hS.step hinv hown hsegs fun _ _ => .inl rfl

/-- The ledger after the place in `hand` was given or taken. -/
theorem own_update_hand (p : Place) (hid : id < idLimit) :
    Function.update L.own hand p id = L.own id := Function.update_of_ne (ne_hand hid) _ _

/-- Writing to the place in `hand` does not change the garbage infos. -/
theorem Inv.ginfo_eq (hI : Inv g h gi L) {c : ℕ} (hv : v < nVariations) (hc : c ∈ L.chain v)
    {m m' : ℕ → ℕ → UInt8} (hmem : ∀ u, m' c u = m c u ∨ (L.own hand).Has c u) :
    ginfo (m' c) = ginfo (m c) := by
  congr 1
  funext u
  refine (hmem u).resolve_right fun h => ?_
  have hlt := (hI.owned.fits hand hand_lt).info_lt h.touches
  have hinfo := (hI.chains.info v hv c hc).2
  unfold segEinfo at hlt
  unfold segGinfo at hinfo
  omega

/-- **A value is written to the place in `hand`.** -/
theorem Sound.writeHand (hS : Sound g s L)
    (hheader : s'.header = s.header)
    (hmem : ∀ x u, s'.memory x u = s.memory x u ∨ (L.own hand).Has x u) :
    Sound g s' L ∧ Keeps s s' L := by
  refine hS.step ?_ (fun _ _ => rfl) (by rw [hheader])
    fun x u => (hmem x u).imp_right fun h => .inr (.inr (.inl h))
  rw [hheader]
  exact hS.inv.congr fun v hv c hc => hS.inv.ginfo_eq hv hc fun u => hmem c u

end Groonga.Ja
