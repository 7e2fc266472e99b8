import Groonga.Ja.Sound

/-!
# Garbage infos of a sound column

The fields of a garbage info are numbers in its segment. A field that is written is read again, and
the other fields are as they were. So the steps for garbage infos keep a column sound.
-/

namespace Groonga.Ja

open Lib

variable {g : Config} {L L' : Ledger} {s : GrnJa} {m : ℕ → UInt8} {c v size : ℕ}

/-! ## Fields -/

/-- A number of four bytes that is written is read again. -/
theorem readNat_writeNat_four {a n : ℕ} (hn : n < 0x100000000) :
    readNat (writeNat m a 4 n) a 4 = n := by
  rw [readNat_writeNat]
  exact Nat.mod_eq_of_lt hn

/-- The records of a garbage info are behind the four numbers. -/
theorem ginfo_head_tail_nrecs {tail n : ℕ} (ht : tail < 0x100000000) (hn : n < 0x100000000) :
    ginfo (writeNat (writeNat m 4 4 tail) 8 4 n) = { ginfo m with tail := tail, nrecs := n } := by
  have hother : ∀ b, b + 4 ≤ 4 ∨ 12 ≤ b →
      readNat (writeNat (writeNat m 4 4 tail) 8 4 n) b 4 = readNat m b 4 := by
    intro b hb
    rw [readNat_writeNat_of_apart (by omega), readNat_writeNat_of_apart (by omega)]
  have htail : readNat (writeNat (writeNat m 4 4 tail) 8 4 n) 4 4 = tail := by
    rw [readNat_writeNat_of_apart (by omega), readNat_writeNat_four ht]
  simp only [ginfo, GInfo.mk.injEq]
  refine ⟨hother 0 (by omega), htail, readNat_writeNat_four hn, hother 12 (by omega), ?_⟩
  funext i
  rw [hother _ (by omega), hother _ (by omega)]

theorem ginfo_next {n : ℕ} (hn : n < 0x100000000) :
    ginfo (writeNat m 12 4 n) = { ginfo m with next := n } := by
  have hother : ∀ b, b + 4 ≤ 12 ∨ 16 ≤ b → readNat (writeNat m 12 4 n) b 4 = readNat m b 4 :=
    fun b hb => readNat_writeNat_of_apart (by omega)
  simp only [ginfo, GInfo.mk.injEq]
  refine ⟨hother 0 (by omega), hother 4 (by omega), hother 8 (by omega), readNat_writeNat_four hn, ?_⟩
  funext i
  rw [hother _ (by omega), hother _ (by omega)]

/-- A new garbage info. -/
theorem ginfo_new : (ginfo (writeNat (writeNat (writeNat (writeNat m 0 4 0) 4 4 0) 8 4 0) 12 4 0)).head = 0 ∧
    (ginfo (writeNat (writeNat (writeNat (writeNat m 0 4 0) 4 4 0) 8 4 0) 12 4 0)).tail = 0 ∧
    (ginfo (writeNat (writeNat (writeNat (writeNat m 0 4 0) 4 4 0) 8 4 0) 12 4 0)).nrecs = 0 ∧
    (ginfo (writeNat (writeNat (writeNat (writeNat m 0 4 0) 4 4 0) 8 4 0) 12 4 0)).next = 0 := by
  have hzero : (0 : ℕ) < 0x100000000 := by decide
  refine ⟨?_, ?_, ?_, ?_⟩
  · show readNat _ 0 4 = 0
    rw [readNat_writeNat_of_apart (by omega), readNat_writeNat_of_apart (by omega),
      readNat_writeNat_of_apart (by omega), readNat_writeNat_four hzero]
  · show readNat _ 4 4 = 0
    rw [readNat_writeNat_of_apart (by omega), readNat_writeNat_of_apart (by omega),
      readNat_writeNat_four hzero]
  · show readNat _ 8 4 = 0
    rw [readNat_writeNat_of_apart (by omega), readNat_writeNat_four hzero]
  · show readNat _ 12 4 = 0
    rw [readNat_writeNat_four hzero]

/-- A chunk is written behind the last one. -/
theorem ginfo_push {seg pos head n index : ℕ} (hseg : seg < 0x100000000) (hpos : pos < 0x100000000)
    (hhead : head < 0x100000000) (hn : n < 0x100000000) :
    ginfo (writeNat (writeNat (writeNat (writeNat m (16 + 8 * index) 4 seg) (20 + 8 * index) 4 pos)
      0 4 head) 8 4 n) = { ginfo m with
        head := head
        nrecs := n
        recs := Function.update (ginfo m).recs index ⟨seg, pos⟩ } := by
  simp only [ginfo, GInfo.mk.injEq]
  refine ⟨?_, ?_, readNat_writeNat_four hn, ?_, ?_⟩
  · rw [readNat_writeNat_of_apart (by omega), readNat_writeNat_four hhead]
  · rw [readNat_writeNat_of_apart (by omega), readNat_writeNat_of_apart (by omega),
      readNat_writeNat_of_apart (by omega), readNat_writeNat_of_apart (by omega)]
  · rw [readNat_writeNat_of_apart (by omega), readNat_writeNat_of_apart (by omega),
      readNat_writeNat_of_apart (by omega), readNat_writeNat_of_apart (by omega)]
  · funext i
    rw [readNat_writeNat_of_apart (by omega), readNat_writeNat_of_apart (by omega),
      @readNat_writeNat_of_apart _ 8 4 (20 + 8 * i) 4 n (by omega),
      @readNat_writeNat_of_apart _ 0 4 (20 + 8 * i) 4 head (by omega)]
    by_cases hi : i = index
    · subst hi
      rw [Function.update_self, readNat_writeNat_of_apart (by omega), readNat_writeNat_four hseg,
        readNat_writeNat_four hpos]
    · rw [Function.update_of_ne hi, readNat_writeNat_of_apart (by omega),
        readNat_writeNat_of_apart (by omega), readNat_writeNat_of_apart (by omega),
        readNat_writeNat_of_apart (by omega)]

/-! ## Steps -/

/-- Each garbage info of the chains has a chunk. -/
def Filled (s : GrnJa) (L : Ledger) : Prop :=
  ∀ v < nVariations, ∀ c ∈ L.chain v, 0 < (ginfo (s.memory c)).nrecs

/-- A number of garbage infos or of chunks fits into four bytes. -/
theorem Sound.nGarbages_lt (hS : Sound g s L) (hv : v < nVariations) :
    s.header.nGarbages v < 0xffffffff := by
  have hcount := hS.inv.chunks.count v hv
  have hbound := hS.inv.chunks.bound v hv
  have hlt : nOwners + nGarbagesTh < 0xffffffff := by
    unfold nOwners
    decide
  omega

theorem Sound.nrecs_le (hS : Sound g s L) (hv : v < nVariations) (hc : c ∈ L.chain v) :
    (ginfo (s.memory c)).nrecs ≤ 0x7fffe :=
  Nat.le_trans (hS.inv.chains.ring v hv c hc).2.2 g.nGarbagesInASegment_le

theorem Sound.info_chain (hS : Sound g s L) (hv : v < nVariations) (hc : c ∈ L.chain v) :
    segGinfo ≤ s.header.segmentInfos c := by
  rw [(hS.inv.chains.info v hv c hc).2]
  exact Nat.le_add_right _ _

@[simp] theorem modify_self (s : GrnJa) (seg : ℕ) (f : (ℕ → UInt8) → ℕ → UInt8) :
    (s.modify seg f).memory seg = f (s.memory seg) := Function.update_self _ _ _

/-- **The first chunk of the first garbage info is handed out again.** -/
theorem Sound.reuse {cs : List ℕ} (hS : Sound g s L) (hv : v < nVariations)
    (hhand : L.own hand = .none) (hchain : L.chain v = c :: cs)
    (hpos : 0 < (ginfo (s.memory c)).nrecs) (hsize : chunkVariation size = v) :
    let info := ginfo (s.memory c)
    let s' := chunkSegmentReuse s c ((info.tail + 1) % g.nGarbagesInASegment) (info.nrecs - 1)
      (s.header.nGarbages v - 1) size
    let L' := { L with own := Function.update L.own hand (.chunk (info.recs info.tail) v) }
    Sound g s' L' ∧ Keeps s s' L ∧ (ginfo (s'.memory c)).nrecs = info.nrecs - 1 := by
  intro info s' L'
  have hmem : c ∈ L.chain v := by rw [hchain]; exact List.mem_cons_self
  have hcap := g.nGarbagesInASegment_pos
  have hcap' := g.nGarbagesInASegment_le
  have htail : (info.tail + 1) % g.nGarbagesInASegment < 0x100000000 :=
    Nat.lt_trans (Nat.mod_lt _ hcap) (by omega)
  have hn : info.nrecs - 1 < 0x100000000 := by
    have hle : info.nrecs ≤ 0x7fffe := hS.nrecs_le hv hmem
    omega
  have hc : ginfo (s'.memory c) = { info with
      tail := (info.tail + 1) % g.nGarbagesInASegment
      nrecs := info.nrecs - 1 } := by
    simp only [s', chunkSegmentReuse, modify_self]
    exact ginfo_head_tail_nrecs htail hn
  have hother : ∀ d, d ≠ c → s'.memory d = s.memory d := fun d hd => Function.update_of_ne hd _ _
  have hsame : ∀ d, d ≠ c → ginfo (s'.memory d) = ginfo (s.memory d) := fun d hd => by rw [hother d hd]
  have hinv := hS.inv.reuse (n := info.nrecs - 1) hv hhand hchain (Nat.sub_add_cancel hpos).symm
    hsame hc
  have hheader : s'.header = { s.header with
      nGarbages := Function.update s.header.nGarbages v (s.header.nGarbages v - 1) } := by
    simp only [s', chunkSegmentReuse, hsize]
    rfl
  obtain ⟨hS', hk⟩ : Sound g s' L' ∧ Keeps s s' L := hS.step (by rw [hheader]; exact hinv)
    (fun id hid => own_update_hand _ hid) (by rw [hheader]) fun x u => by
      by_cases hx : x = c
      · subst hx
        exact .inr (.inr (.inl (hS.info_chain hv hmem)))
      · rw [hother x hx]
        exact .inl rfl
  exact ⟨hS', hk, by rw [hc]⟩

/-- **The first garbage info is given back**, when it has no chunks. -/
theorem Sound.freeGinfo {cs : List ℕ} (hS : Sound g s L) (hv : v < nVariations)
    (hchain : L.chain v = c :: cs) (hzero : (ginfo (s.memory c)).nrecs = 0)
    (hsize : chunkVariation size = v) :
    let s' := ginfoSegmentFree s 0 c (ginfo (s.memory c)).next size
    Sound g s' { L with chain := Function.update L.chain v cs } ∧ Keeps s s' L := by
  intro s'
  have hheader : s' = { s with header := { s.header.setInfo c 0 with
      garbages := Function.update s.header.garbages v (ginfo (s.memory c)).next } } := by
    simp only [s', ginfoSegmentFree, setNextGarbageSegment, hsize, ne_eq, not_true_eq_false, if_false]
    rfl
  rw [hheader]
  exact hS.setHeader (hS.inv.freeGinfo hv hchain hzero) (fun _ _ => rfl) rfl

/-- **A new garbage info** behind the last one. -/
theorem Sound.newGinfo {seg : ℕ} (hS : Sound g s L) (hv : v < nVariations)
    (hseg : seg < g.nDataSegments) (hfree : s.header.segmentInfos seg = 0)
    (hsize : chunkVariation size = v) :
    let s' := ginfoSegmentNew s ((L.chain v).getLastD 0) seg size
    let L' := { L with chain := Function.update L.chain v (L.chain v ++ [seg]) }
    Sound g s' L' ∧ Keeps s s' L ∧ (ginfo (s'.memory seg)).nrecs = 0 ∧
      ∀ d, d ≠ seg → (ginfo (s'.memory d)).nrecs = (ginfo (s.memory d)).nrecs := by
  intro s' L'
  have hlimit := g.nDataSegments_le
  -- the last garbage info has a segment that is not free
  have hlastNe : L.chain v ≠ [] → (L.chain v).getLastD 0 ≠ 0 ∧ (L.chain v).getLastD 0 ≠ seg ∧
      segGinfo ≤ s.header.segmentInfos ((L.chain v).getLastD 0) := by
    intro hnil
    have hmem := getLastD_mem hnil
    have hinfo := hS.info_chain hv hmem
    refine ⟨fun hzero => ?_, fun heq => ?_, hinfo⟩
    · rw [hzero, hS.inv.einfos.zero.2] at hinfo
      exact absurd hinfo (by decide)
    · rw [heq, hfree] at hinfo
      exact absurd hinfo (by decide)
  have hmemory : s'.memory = if L.chain v = [] then
      Function.update s.memory seg (writeNat (writeNat (writeNat (writeNat (s.memory seg) 0 4 0) 4 4 0)
        8 4 0) 12 4 0)
    else
      Function.update (Function.update s.memory seg (writeNat (writeNat (writeNat
        (writeNat (s.memory seg) 0 4 0) 4 4 0) 8 4 0) 12 4 0)) ((L.chain v).getLastD 0)
        (writeNat (s.memory ((L.chain v).getLastD 0)) 12 4 seg) := by
    split_ifs with hnil
    · simp only [s', ginfoSegmentNew, setNextGarbageSegment, hnil, List.getLastD_nil, ne_eq,
        not_true_eq_false, if_false, GrnJa.modify]
    · obtain ⟨hne, hseg', -⟩ := hlastNe hnil
      simp only [s', ginfoSegmentNew, setNextGarbageSegment, ne_eq, hne, not_false_eq_true, if_true,
        GrnJa.modify, Function.update_of_ne hseg']
  have hheader : s'.header = { s.header.setInfo seg (segGinfo + v) with
      garbages := if L.chain v = [] then Function.update s.header.garbages v seg
        else s.header.garbages } := by
    split_ifs with hnil
    · simp only [s', ginfoSegmentNew, setNextGarbageSegment, hnil, List.getLastD_nil, ne_eq,
        not_true_eq_false, if_false, GrnJa.modify, hsize]
      rfl
    · simp only [s', ginfoSegmentNew, setNextGarbageSegment, ne_eq, (hlastNe hnil).1,
        not_false_eq_true, if_true, GrnJa.modify, hsize]
      rfl
  have hself : s'.memory seg = writeNat (writeNat (writeNat (writeNat (s.memory seg) 0 4 0) 4 4 0)
      8 4 0) 12 4 0 := by
    rw [hmemory]
    split_ifs with hnil
    · exact Function.update_self _ _ _
    · rw [Function.update_of_ne (Ne.symm (hlastNe hnil).2.1), Function.update_self]
  have hother : ∀ d, d ≠ seg → d ≠ (L.chain v).getLastD 0 ∨ L.chain v = [] →
      s'.memory d = s.memory d := by
    intro d hd hlast
    rw [hmemory]
    split_ifs with hnil
    · exact Function.update_of_ne hd _ _
    · rw [Function.update_of_ne (hlast.resolve_right hnil), Function.update_of_ne hd]
  have hlast : L.chain v ≠ [] → ginfo (s'.memory ((L.chain v).getLastD 0)) =
      { ginfo (s.memory ((L.chain v).getLastD 0)) with next := seg } := by
    intro hnil
    rw [hmemory, if_neg hnil, Function.update_self]
    exact ginfo_next (by omega)
  have hfields : ∀ d, d ≠ seg → ginfo (s'.memory d) =
      { ginfo (s.memory d) with next := (ginfo (s'.memory d)).next } := by
    intro d hd
    by_cases hnil : L.chain v = []
    · rw [hother d hd (.inr hnil)]
    · by_cases hdl : d = (L.chain v).getLastD 0
      · rw [hdl, hlast hnil]
      · rw [hother d hd (.inl hdl)]
  have hnew := @ginfo_new (s.memory seg)
  have hinv := hS.inv.newGinfo hv hseg hfree (by simp only [hself]; exact hnew) hfields (fun d hd hdl => by simp only [hother d hd (.inl hdl)])
    fun hnil => by simp only [hlast hnil]
  obtain ⟨hS', hk⟩ : Sound g s' L' ∧ Keeps s s' L := hS.step (by rw [hheader]; exact hinv)
    (fun _ _ => rfl)
    (by rw [hheader]; rfl) fun x u => by
      by_cases hx : x = seg
      · exact .inr (.inl (hx ▸ hfree))
      · by_cases hnil : L.chain v = []
        · exact .inl (by rw [hother x hx (.inr hnil)])
        · by_cases hxl : x = (L.chain v).getLastD 0
          · exact .inr (.inr (.inl (hxl ▸ (hlastNe hnil).2.2)))
          · exact .inl (by rw [hother x hx (.inl hxl)])
  refine ⟨hS', hk, by rw [hself]; exact hnew.2.2.1, fun d hd => by rw [hfields d hd]⟩

/-- **A chunk is recorded in a garbage info with room.** -/
theorem Sound.useGinfo {a : Pos} (hS : Sound g s L) (hv : v < nVariations)
    (hhand : L.own hand = .chunk a v) (hmem : c ∈ L.chain v)
    (hroom : (ginfo (s.memory c)).nrecs < g.nGarbagesInASegment) (hsize : chunkVariation size = v) :
    let info := ginfo (s.memory c)
    let s' := ginfoSegmentUse g s c a.seg a.pos ((info.head + 1) % g.nGarbagesInASegment)
      (info.nrecs + 1) (s.header.nGarbages v + 1) size
    Sound g s' { L with own := Function.update L.own hand .none } ∧ Keeps s s' L ∧
      (ginfo (s'.memory c)).nrecs = info.nrecs + 1 := by
  intro info s'
  have hcap := g.nGarbagesInASegment_pos
  have hcap' := g.nGarbagesInASegment_le
  have hlimit := g.nDataSegments_le
  obtain ⟨hlt, hhead, -⟩ := hS.inv.chains.ring v hv c hmem
  have hheadLt : info.head < g.nGarbagesInASegment := by
    simp only [info, hhead]
    exact Nat.mod_lt _ hcap
  have hfits := hS.inv.owned.fits hand hand_lt
  rw [hhand] at hfits
  have hsegLt := hfits.2.seg_lt
  have hposLt := hfits.2.pos_lt
  unfold segmentSize at hposLt
  have hindex : (if (info.head + 1) % g.nGarbagesInASegment = 0 then g.nGarbagesInASegment - 1
      else (info.head + 1) % g.nGarbagesInASegment - 1) = info.head := by
    by_cases hend : info.head + 1 = g.nGarbagesInASegment
    · rw [hend, Nat.mod_self, if_pos rfl]
      omega
    · rw [Nat.mod_eq_of_lt (by omega), if_neg (by omega), Nat.add_sub_cancel]
  have hroom' : info.nrecs < g.nGarbagesInASegment := hroom
  have hc : ginfo (s'.memory c) = { info with
      head := (info.head + 1) % g.nGarbagesInASegment
      nrecs := info.nrecs + 1
      recs := Function.update info.recs info.head ⟨a.seg, a.pos⟩ } := by
    simp only [s', ginfoSegmentUse, modify_self, hindex]
    exact ginfo_push (by omega) (by omega) (Nat.lt_trans (Nat.mod_lt _ hcap) (by omega)) (by omega)
  have hother : ∀ d, d ≠ c → s'.memory d = s.memory d := fun d hd => Function.update_of_ne hd _ _
  have hsame : ∀ d, d ≠ c → ginfo (s'.memory d) = ginfo (s.memory d) := fun d hd => by rw [hother d hd]
  have hinv := hS.inv.useGinfo hv hhand hmem hroom hsame (by rw [hc]) (by rw [hc]) (by rw [hc]) (by rw [hc])
    (by rw [hc]; exact Function.update_self _ _ _) fun i hi => by
      rw [hc]
      exact Function.update_of_ne hi _ _
  have hheader : s'.header = { s.header with
      nGarbages := Function.update s.header.nGarbages v (s.header.nGarbages v + 1) } := by
    simp only [s', ginfoSegmentUse, hsize]
    rfl
  obtain ⟨hS', hk⟩ : Sound g s' { L with own := Function.update L.own hand .none } ∧ Keeps s s' L := hS.step
    (by rw [hheader]; exact hinv) (fun id hid => own_update_hand _ hid) (by rw [hheader]) fun x u => by
      by_cases hx : x = c
      · subst hx
        exact .inr (.inr (.inl (hS.info_chain hv hmem)))
      · rw [hother x hx]
        exact .inl rfl
  exact ⟨hS', hk, by rw [hc]⟩

end Groonga.Ja
