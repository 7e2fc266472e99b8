import Groonga.Pat.Wal

/-!
# Recovering a patricia trie

The recovery of a file from before some operations does with each entry what the operation did, so it
leads to the file from after them. What an operation changes without an entry is lost: the cursors of
the ring when they pass a slot that is not used.
-/

namespace Groonga.Pat

open Lib Lib.Patricia Lib.Patricia.Trie

variable {s s' : GrnPat} {t : Trie ℕ} {own : ℕ → ℕ} {free : ℕ → List ℕ} {lost : Finset ℕ}
  {key : List UInt8} {id n c d i slot : ℕ} {e : WalEntry} {es es' wal : List WalEntry}

/-! ## Entries that are done at once -/

/-- The entries one after another. -/
def recoverAll : List WalEntry → GrnPat → Option GrnPat := redoAll fun e s => recoverEntry s e

/-- The recovery does not wait with the entry. -/
def WalEntry.AtOnce : WalEntry → Prop
  | .defragKey _ _ _ | .defragCurrentKey _ _ => False
  | _ => True

/-- **The loop of the recovery** over entries that are done at once. -/
theorem recoverLoop_append (hes : ∀ e ∈ es, e.AtOnce) (startId : ℕ) :
    recoverLoop wal id startId (es ++ es') s =
      (recoverAll es s).bind (recoverLoop wal (id + es.length) startId es') := by
  induction es generalizing id s with
  | nil => rfl
  | cons e es ih =>
    have hstep : recoverLoop wal id startId (e :: es ++ es') s =
        (recoverEntry s e).bind (recoverLoop wal (id + 1) startId (es ++ es')) := by
      have he := hes e List.mem_cons_self
      cases e with
      | defragKey => exact he.elim
      | defragCurrentKey => exact he.elim
      | _ => rfl
    rw [hstep, recoverAll, redoAll]
    cases recoverEntry s e with
    | none => rfl
    | some s₁ =>
      rw [Option.bind_some, Option.bind_some, ih fun e he => hes e (List.mem_cons_of_mem _ he)]
      rw [List.length_cons, Nat.add_assoc, Nat.add_comm es.length 1]
      rfl

theorem recoverAll_append (s : GrnPat) :
    recoverAll (es ++ es') s = (recoverAll es s).bind (recoverAll es') := redoAll_append

theorem recoverAll_singleton (s : GrnPat) (e : WalEntry) : recoverAll [e] s = recoverEntry s e := by
  rw [recoverAll, redoAll]
  cases recoverEntry s e <;> rfl

/-! ## The file with other cursors -/

/-- The file, with other cursors of the ring. -/
def GrnPat.withCursors (s : GrnPat) (n c d : ℕ) : GrnPat :=
  { s.file with currDel := n, currDel2 := c, currDel3 := d }

theorem file_eq (s : GrnPat) : s.file = s.withCursors s.currDel s.currDel2 s.currDel3 := rfl

theorem setCache_file (s : GrnPat) (key : List UInt8) (id : ℕ) : (s.setCache key id).file = s.file := by
  obtain ⟨cache, heq⟩ := @setCache_eq s key id
  rw [heq]
  rfl

/-- A link is stored that is there. -/
theorem store_load (s : GrnPat) (p : Loc) : s.store p (s.load p) = s := by
  have hnode : (s.nodes p.node).setChild p.direction (s.load p) = s.nodes p.node := by
    rw [Node.setChild, GrnPat.load, Function.update_eq_self]
  rw [GrnPat.store, GrnPat.modify, hnode, Function.update_eq_self]

/-! ## Additions -/

theorem grnPatReuseNode_file (s : GrnPat) (id : ℕ) (key : List UInt8) (check checkMax : ℕ) (location : Loc) :
    grnPatReuseNode s.file id key check checkMax location = (grnPatReuseNode s id key check checkMax location).file := by
  have hnodes : s.file.nodes = s.nodes := rfl
  rw [grnPatReuseNode, grnPatReuseNode, hnodes]
  cases (s.nodes id).key <;> rfl

theorem keyPut_file (s : GrnPat) (key : List UInt8) :
    keyPut s.file key = (keyPut s key).map fun r => (r.1.file, r.2) := by
  cases s
  unfold keyPut GrnPat.file
  simp only
  -- the numbers are too large to be compared by evaluation
  generalize grnPatMaxTotalKeySize _ = max
  generalize maxNSegments _ = n
  generalize keySegmentSize = size
  split_ifs <;> rfl

theorem grnPatAddNode_file (s : GrnPat) (id : ℕ) (key : List UInt8) (check checkMax : ℕ) (location : Loc) :
    grnPatAddNode s.file id key check checkMax location =
      (grnPatAddNode s id key check checkMax location).map GrnPat.file := by
  have hset : patNodeSetKey s.file id key = (patNodeSetKey s id key).map GrnPat.file := by
    have hlarge : s.file.isKeyLarge = s.isKeyLarge := rfl
    rw [patNodeSetKey, patNodeSetKey, hlarge, keyPut_file]
    split_ifs
    · rfl
    · rfl
    · cases keyPut s key <;> rfl
  rw [grnPatAddNode, grnPatAddNode, hset]
  cases patNodeSetKey s id key <;> rfl

/-- **An addition is recovered.** -/
theorem recoverAll_addWal {b : Bool} (hadd : grnPatAdd s key = some (s', id, b)) :
    recoverAll (addWal s key) s.file = some s'.file := by
  rw [grnPatAdd] at hadd
  rw [addWal]
  by_cases hkey : key = [] ∨ maxKeySize < key.length
  · rw [if_pos hkey] at hadd
    cases hadd
  rw [if_neg hkey] at hadd ⊢
  rw [grnPatAddInternal] at hadd
  dsimp only at hadd ⊢
  by_cases hcached : s.cacheSize ≠ 0 ∧ s.cache (grnPatCacheComputeId s.cacheSize key) ≠ 0 ∧
      s.keyOf (s.cache (grnPatCacheComputeId s.cacheSize key)) = key
  · rw [if_pos hcached] at hadd ⊢
    obtain ⟨rfl, -⟩ := Prod.mk.inj (Option.some.inj hadd)
    rfl
  rw [if_neg hcached] at hadd ⊢
  cases hfind : grnPatAddInternalFind s key with
  | none => simp [hfind] at hadd
  | some r =>
    simp only [hfind, Option.bind_eq_bind, Option.bind_some] at hadd ⊢
    rcases r with id' | ⟨location, check⟩
    · obtain ⟨rfl, -⟩ := Prod.mk.inj (Option.some.inj hadd)
      rw [setCache_file]
      rfl
    dsimp only at hadd ⊢
    have hload : s.file.store location (s.load location) = s.file := store_load s.file location
    by_cases hgarbage : s.garbages (patKeyStorageSize s.isKeyLarge key.length) ≠ 0
    · rw [if_pos hgarbage] at hadd ⊢
      obtain ⟨rfl, -⟩ := Prod.mk.inj (Option.some.inj hadd)
      rw [recoverAll_singleton, setCache_file, ← grnPatReuseNode_file]
      exact congrArg (fun s => some (grnPatReuseNode s _ key check (patCheckPack key.length 0 false) location)) hload
    · rw [if_neg hgarbage] at hadd ⊢
      by_cases hmax : grnIdMax < s.currRec + 1
      · rw [if_pos hmax] at hadd
        cases hadd
      rw [if_neg hmax] at hadd
      have hfile := grnPatAddNode_file s (s.currRec + 1) key check (patCheckPack key.length 0 false) location
      cases hnode : grnPatAddNode s (s.currRec + 1) key check (patCheckPack key.length 0 false) location with
      | none =>
        rw [hnode, Option.bind_none] at hadd
        cases hadd
      | some s₁ =>
        simp only [hnode, Option.bind_some] at hadd
        obtain ⟨rfl, -⟩ := Prod.mk.inj (Option.some.inj hadd)
        rw [hnode] at hfile
        rw [recoverAll_singleton, recoverEntry, recoverAddEntry, if_neg hmax, setCache_file]
        refine Eq.trans ?_ hfile
        exact congrArg (fun s' => grnPatAddNode s' (s.currRec + 1) key check (patCheckPack key.length 0 false)
          location) hload

/-! ## Turns of pending deletions -/

/-- `delinfo_turn_2` neither reads the cursors of the ring nor the cache. -/
theorem delinfoTurn2_withCursors (s : GrnPat) (i n c d : ℕ) :
    delinfoTurn2 (s.withCursors n c d) i = (delinfoTurn2 s i).map fun s => s.withCursors n c d := by
  have hdelinfos : (s.withCursors n c d).delinfos = s.delinfos := rfl
  unfold delinfoTurn2
  rw [hdelinfos]
  by_cases hstat : (s.delinfos i).stat = .phase1
  · simp only [hstat, ne_eq, not_true_eq_false, if_false, Option.bind_eq_bind, Option.map_bind]
    have hcongr : ∀ key checkMax fuel p lo, turn2Loop
        (((s.withCursors n c d).setDeleting (s.delinfos i).ld false).setDeleting (s.delinfos i).d false)
          key checkMax (s.delinfos i).d fuel p lo =
        turn2Loop ((s.setDeleting (s.delinfos i).ld false).setDeleting (s.delinfos i).d false) key
          checkMax (s.delinfos i).d fuel p lo := fun key checkMax fuel p lo => by
      apply turn2Loop_congr
      rfl
    rw [hcongr]
    refine congrArg _ (funext fun p => ?_)
    cases p <;> rfl
  · simp only [ne_eq, hstat, not_false_eq_true, if_true, Option.map_some]

theorem setLength_self (k : StoredKey) : k.setLength k.length = k := by
  cases k with
  | immediate key =>
    refine congrArg StoredKey.immediate (List.ext_getElem (by simp [StoredKey.length]) fun j hj _ => ?_)
    simp [StoredKey.length] at hj ⊢
    simp [hj]
  | stored offset length => rfl

/-- The slot is written as it is. -/
theorem setDelinfo_same (s : GrnPat) (i : ℕ) : s.setDelinfo i (s.delinfos i) = s := by
  rw [GrnPat.setDelinfo, Function.update_eq_self]

/-- **The second phase is recovered.** A slot that is not in the first phase has no entry. -/
theorem recoverAll_turn2Wal (h : delinfoTurn2 s i = some s') : recoverAll (turn2Wal s i) (s.withCursors n c d) =
    some (s'.withCursors n (if (s.delinfos i).stat = .phase1 then (i + 1) % nDelinfos else c) d) := by
  rw [turn2Wal]
  by_cases hstat : (s.delinfos i).stat = .phase1
  · rw [if_neg (not_not.mpr hstat), if_pos hstat, recoverAll_singleton, recoverEntry, recoverDeleteInfoPhase2]
    have hdelinfo : ({ s.withCursors n c d with currDel2 := i } : GrnPat).setDelinfo i
        ⟨(s.delinfos i).d, (s.delinfos i).ld, .phase1⟩ = s.withCursors n i d := by
      have heta : s.delinfos i = ⟨(s.delinfos i).d, (s.delinfos i).ld, .phase1⟩ := by
        rw [← hstat]
      rw [← heta]
      exact setDelinfo_same (s.withCursors n i d) i
    have hnode : (s.withCursors n i d).modify (s.delinfos i).d (fun dn => { dn with
        key := dn.key.setLength (s.nodes (s.delinfos i).d).key.length
        check := (s.nodes (s.delinfos i).d).check
        lr := fun side => if side then (s.nodes (s.delinfos i).d).lr true else (s.nodes (s.delinfos i).d).lr false }) =
        s.withCursors n i d := by
      rw [GrnPat.modify]
      have hlr : (fun side => if side then (s.nodes (s.delinfos i).d).lr true
          else (s.nodes (s.delinfos i).d).lr false) = (s.nodes (s.delinfos i).d).lr := by
        funext side
        cases side <;> rfl
      have hself : (s.withCursors n i d).nodes = s.nodes := rfl
      rw [hself, setLength_self]
      simp only [hlr]
      exact congrArg (fun nodes => ({ s.withCursors n i d with nodes := nodes } : GrnPat))
        (Function.update_eq_self _ s.nodes)
    simp only [hdelinfo, hnode, delinfoTurn2_withCursors, h, Option.map_some]
    rfl
  · rw [if_pos hstat, if_neg hstat]
    have heq : delinfoTurn2 s i = some s := if_pos hstat
    obtain rfl := Option.some.inj (h.symm.trans heq)
    rfl

/-- **The third phase is recovered.** A slot that is not in the second phase has no entry. -/
theorem recoverAll_turn3Wal : recoverAll (turn3Wal s i) (s.withCursors n c d) =
    some ((delinfoTurn3 s i).withCursors n c
      (if (s.delinfos i).stat = .phase2 then (i + 1) % nDelinfos else d)) := by
  rw [turn3Wal]
  by_cases hstat : (s.delinfos i).stat = .phase2
  · rw [if_neg (not_not.mpr hstat), if_pos hstat, recoverAll_singleton, recoverEntry, recoverDeleteInfoPhase3]
    have hdelinfo : ({ s.withCursors n c d with currDel3 := i } : GrnPat).setDelinfo i
        { ({ s.withCursors n c d with currDel3 := i } : GrnPat).delinfos i with
          d := (s.delinfos i).d, stat := .phase2 } = s.withCursors n c i := by
      have heta : ({ s.delinfos i with d := (s.delinfos i).d, stat := .phase2 } : Delinfo) = s.delinfos i := by
        rw [← hstat]
      exact (congrArg _ heta).trans (setDelinfo_same (s.withCursors n c i) i)
    rw [hdelinfo]
    have hgarbages : ({ s.withCursors n c i with
        garbages := Function.update (s.withCursors n c i).garbages
          ((s.withCursors n c i).nodes (s.delinfos i).d).key.storageSize
          (s.garbages (s.nodes (s.delinfos i).d).key.storageSize) } : GrnPat) = s.withCursors n c i :=
      congrArg (fun garbages => ({ s.withCursors n c i with garbages := garbages } : GrnPat))
        (Function.update_eq_self _ s.garbages)
    rw [hgarbages]
    have hturn : delinfoTurn3 (s.withCursors n c i) i = (delinfoTurn3 s i).withCursors n c i := by
      rw [delinfoTurn3, delinfoTurn3]
      have hself : (s.withCursors n c i).delinfos = s.delinfos := rfl
      rw [hself, if_neg (not_not.mpr hstat), if_neg (not_not.mpr hstat)]
      rfl
    rw [hturn]
    rfl
  · rw [if_pos hstat, if_neg hstat]
    have heq : delinfoTurn3 s i = s := if_pos hstat
    rw [heq]
    rfl

/-- What a turn does to the slots. -/
theorem delinfoTurn2_delinfos (h : delinfoTurn2 s i = some s') : s'.delinfos =
    if (s.delinfos i).stat = .phase1 then Function.update s.delinfos i { s.delinfos i with stat := .phase2 }
    else s.delinfos := by
  by_cases hstat : (s.delinfos i).stat = .phase1
  · rw [if_pos hstat]
    unfold delinfoTurn2 at h
    simp only [hstat, ne_eq, not_true_eq_false, if_false, Option.bind_eq_bind, Option.bind_eq_some_iff] at h
    obtain ⟨p, -, h⟩ := h
    obtain rfl := Option.some.inj h
    cases p <;> rfl
  · rw [if_neg hstat]
    have heq : delinfoTurn2 s i = some s := if_pos hstat
    obtain rfl := Option.some.inj (h.symm.trans heq)
    rfl

/-- A turn does not move the cursors. -/
theorem delinfoTurn2_cursors (h : delinfoTurn2 s i = some s') :
    s'.currDel = s.currDel ∧ s'.currDel2 = s.currDel2 ∧ s'.currDel3 = s.currDel3 := by
  by_cases hstat : (s.delinfos i).stat = .phase1
  · unfold delinfoTurn2 at h
    simp only [hstat, ne_eq, not_true_eq_false, if_false, Option.bind_eq_bind, Option.bind_eq_some_iff] at h
    obtain ⟨p, -, h⟩ := h
    obtain rfl := Option.some.inj h
    cases p <;> exact ⟨rfl, rfl, rfl⟩
  · have heq : delinfoTurn2 s i = some s := if_pos hstat
    obtain rfl := Option.some.inj (h.symm.trans heq)
    exact ⟨rfl, rfl, rfl⟩

theorem turn2s_cursors {gap : ℕ} (h : turn2s s gap = some s') : s'.currDel = s.currDel ∧ s'.currDel3 = s.currDel3 := by
  induction gap generalizing s with
  | zero =>
    obtain rfl := Option.some.inj h
    exact ⟨rfl, rfl⟩
  | succ gap ih =>
    rw [turn2s] at h
    cases hturn : delinfoTurn2 s s.currDel2 with
    | none =>
      rw [hturn] at h
      cases h
    | some s₁ =>
      rw [hturn] at h
      obtain ⟨hdel, -, hdel3⟩ := delinfoTurn2_cursors hturn
      obtain ⟨hdel', hdel3'⟩ := ih h
      exact ⟨hdel'.trans hdel, hdel3'.trans hdel3⟩

/-- The loop of `delinfo_new` over at most one slot. -/
theorem recoverAll_turn2sWal {gap : ℕ} (hgap : gap ≤ 1) (h : turn2s s gap = some s') :
    recoverAll (turn2sWal s gap) (s.withCursors n s.currDel2 d) = some (s'.withCursors n
      (if 0 < gap ∧ (s.delinfos s.currDel2).stat ≠ .phase1 then s.currDel2 else s'.currDel2) d) := by
  rcases Nat.le_one_iff_eq_zero_or_eq_one.mp hgap with rfl | rfl
  · obtain rfl := Option.some.inj h
    rw [if_neg (fun hpos => Nat.lt_irrefl 0 hpos.1)]
    rfl
  · rw [turn2s] at h
    cases hturn : delinfoTurn2 s s.currDel2 with
    | none =>
      rw [hturn] at h
      cases h
    | some s₁ =>
      rw [hturn] at h
      obtain rfl := Option.some.inj h
      obtain ⟨-, hcurrDel2, -⟩ := delinfoTurn2_cursors hturn
      rw [turn2sWal, hturn, recoverAll_append, recoverAll_turn2Wal hturn, Option.bind_some]
      show some _ = some _
      rw [hcurrDel2]
      by_cases hstat : (s.delinfos s.currDel2).stat = .phase1
      · rw [if_pos hstat, if_neg (fun hne => hne.2 hstat)]
        rfl
      · rw [if_neg hstat, if_pos ⟨Nat.one_pos, hstat⟩]
        rfl

/-- At most one slot leaves the first phase. -/
theorem Ring.deletionGap_le (h : Ring s) : deletionGap s ≤ 1 := by
  have hhalf := h.half
  have hlt := h.del_lt
  have hlt2 := h.del2_lt
  simp only [deletionGap, nDelinfos]
  omega

/-- No turn takes a slot out of the second phase. -/
theorem turn2s_phase2 {gap : ℕ} (h : turn2s s gap = some s') (hstat : (s.delinfos i).stat = .phase2) :
    (s'.delinfos i).stat = .phase2 := by
  induction gap generalizing s with
  | zero =>
    obtain rfl := Option.some.inj h
    exact hstat
  | succ gap ih =>
    rw [turn2s] at h
    cases hturn : delinfoTurn2 s s.currDel2 with
    | none =>
      rw [hturn] at h
      cases h
    | some s₁ =>
      rw [hturn] at h
      refine ih h ?_
      show (s₁.delinfos i).stat = .phase2
      rw [delinfoTurn2_delinfos hturn]
      split_ifs with hphase1
      · by_cases hi : i = s.currDel2
        · rw [hi, Function.update_self]
        · rw [Function.update_of_ne hi]
          exact hstat
      · exact hstat

/-- What the turns have no entries for is in the cursors of the ring. -/
theorem recoverAll_delinfoNewWal (hring : Ring s) (h : delinfoNew s = some (s', slot)) :
    ∃ c d, recoverAll (delinfoNewWal s) s.file = some (s'.withCursors s'.currDel c d) ∧
      (¬ (0 < deletionGap s ∧ (s.delinfos s.currDel2).stat ≠ .phase1) → c = s'.currDel2) ∧
      (((s.currDel + 1) % nDelinfos = s.currDel3 → (s.delinfos s.currDel3).stat = .phase2) → d = s'.currDel3) := by
  rw [delinfoNew] at h
  cases hturns : turn2s s (deletionGap s) with
  | none =>
    have hturns' : turn2s s (((s.currDel + 1) % nDelinfos + nDelinfos - s.currDel2) % nDelinfos - nDelinfos / 2) =
        none := hturns
    simp only [hturns', Option.bind_eq_bind, Option.bind_none] at h
    cases h
  | some s₁ =>
    have hturns' : turn2s s (((s.currDel + 1) % nDelinfos + nDelinfos - s.currDel2) % nDelinfos - nDelinfos / 2) =
        some s₁ := hturns
    simp only [hturns', Option.bind_eq_bind, Option.bind_some] at h
    obtain ⟨rfl, rfl⟩ := Prod.mk.inj (Option.some.inj h)
    have hrecover := @recoverAll_turn2sWal s s₁ ((s.currDel + 1) % nDelinfos) s.currDel3 (deletionGap s)
      hring.deletionGap_le hturns
    obtain ⟨hdel, hdel3⟩ := turn2s_cursors hturns
    have hstart : recoverEntry s.file (.deleteInfoPhase1 s.currDel) =
        some (s.withCursors ((s.currDel + 1) % nDelinfos) s.currDel2 s.currDel3) := rfl
    rw [delinfoNewWal, recoverAll, redoAll, hstart, Option.bind_some]
    show ∃ c d, recoverAll (turn2sWal s (deletionGap s) ++ _) _ = _ ∧ _
    rw [recoverAll_append, hrecover, Option.bind_some, hturns]
    dsimp only
    rw [hdel, hdel3]
    generalize hc : (if 0 < deletionGap s ∧ (s.delinfos s.currDel2).stat ≠ .phase1 then s.currDel2 else s₁.currDel2) = c
    have hc' : ¬ (0 < deletionGap s ∧ (s.delinfos s.currDel2).stat ≠ .phase1) → c = s₁.currDel2 := fun hno => by
      rw [← hc, if_neg hno]
    by_cases hround : (s.currDel + 1) % nDelinfos = s.currDel3
    · rw [if_pos hround, if_pos hround, recoverAll_turn3Wal]
      refine ⟨c, _, rfl, ?_, fun hphase2 => ?_⟩
      · rw [delinfoTurn3]
        split_ifs <;> exact hc'
      · rw [if_pos (turn2s_phase2 hturns (hphase2 hround))]
        rw [delinfoTurn3]
        show _ = ((if (s₁.delinfos s.currDel3).stat ≠ .phase2 then s₁ else _).currDel3 + 1) % nDelinfos
        rw [← hdel3]
        split_ifs <;> rfl
    · rw [if_neg hround, if_neg hround]
      exact ⟨c, s.currDel3, rfl, hc', fun _ => hdel3.symm⟩

/-! ## Deletions -/

/-- The search ends behind a branch, with the link to that branch. -/
theorem delLoop_location {checkMax fuel : ℕ} {st st' : DelState}
    (hst : st.nodeCheck = -1 ∨ (s.load st.p0 = st.nodePrevious ∧ st.p.node = st.nodePrevious))
    (h : delLoop s key checkMax fuel st = some (some st')) :
    s.load st'.p0 = st'.nodePrevious ∧ st'.p.node = st'.nodePrevious := by
  induction fuel generalizing st with
  | zero => cases h
  | succ fuel ih =>
    rw [delLoop] at h
    dsimp only at h
    split_ifs at h with hnil hmax hout hkey
    · cases h
    · cases h
    · obtain rfl := Option.some.inj (Option.some.inj h)
      refine hst.resolve_left fun hneg => ?_
      rw [hneg] at hout
      omega
    · cases h
    · exact ih (.inr ⟨rfl, rfl⟩) h

/-- `delinfo_search` reads the slots and two cursors. -/
theorem delinfoSearch_congr (hdelinfos : s'.delinfos = s.delinfos) (hdel : s'.currDel = s.currDel)
    (hdel2 : s'.currDel2 = s.currDel2) (id : ℕ) : delinfoSearch s' id = delinfoSearch s id := by
  have hloop : ∀ fuel i, searchLoop s' id fuel i = searchLoop s id fuel i := fun fuel => by
    induction fuel with
    | zero => exact fun _ => rfl
    | succ fuel ih =>
      intro i
      rw [searchLoop, searchLoop, hdelinfos, hdel]
      split_ifs
      · rfl
      · dsimp only
        rw [ih]
  rw [delinfoSearch, delinfoSearch, hdel2, hloop]

/-- What `delinfo_search` finds is in the first phase. -/
theorem delinfoSearch_phase1 (h : delinfoSearch s id = some i) : (s.delinfos i).stat = .phase1 := by
  have hloop : ∀ fuel j, searchLoop s id fuel j = some i → (s.delinfos i).stat = .phase1 := fun fuel => by
    induction fuel with
    | zero => exact fun _ h => nomatch h
    | succ fuel ih =>
      intro j h
      rw [searchLoop] at h
      dsimp only at h
      split_ifs at h with hend hfound
      · obtain rfl := Option.some.inj h
        exact hfound.1
      · exact ih _ h
  exact hloop _ _ h

/-- The file, with another cursor of the third phase. -/
def GrnPat.withThird (s : GrnPat) (d : ℕ) : GrnPat := s.withCursors s.currDel s.currDel2 d

theorem keepOtherside_withThird (s : GrnPat) (otherside : ℕ) (p0 : Loc) (check0 check d : ℕ) :
    keepOtherside (s.withThird d) otherside p0 check0 check =
      (keepOtherside s otherside p0 check0 check).withThird d := by
  have hnodes : (s.withThird d).nodes = s.nodes := rfl
  rw [keepOtherside, keepOtherside, hnodes]
  by_cases hother : otherside = 0
  · rw [if_pos hother, if_pos hother]
  rw [if_neg hother, if_neg hother]
  dsimp only
  by_cases hcheck : check0 < (s.nodes otherside).check ∧ (s.nodes otherside).check ≤ check
  · rw [if_pos hcheck, if_pos hcheck]
    have hset : (s.withThird d).setCheck otherside 0 = (s.setCheck otherside 0).withThird d := rfl
    rw [hset]
    have hnodes' : ((s.setCheck otherside 0).withThird d).nodes = (s.setCheck otherside 0).nodes := rfl
    rw [hnodes']
    split_ifs <;> rfl
  · rw [if_neg hcheck, if_neg hcheck, hnodes]
    split_ifs <;> rfl

theorem recordDeletionAt_withThird (s : GrnPat) (slot id previous previousId d : ℕ) :
    recordDeletionAt (s.withThird d) slot id previous previousId =
      (recordDeletionAt s slot id previous previousId).withThird d := by
  have hnodes : (s.withThird d).nodes = s.nodes := rfl
  have hsearch : ∀ id, delinfoSearch (s.withThird d) id = delinfoSearch s id :=
    delinfoSearch_congr rfl rfl rfl
  rw [recordDeletionAt, recordDeletionAt, hnodes, hsearch, hsearch]
  generalize (if (s.nodes id).deleting = true then delinfoSearch s id else none) = ldi
  generalize (if (s.nodes previous).deleting = true then delinfoSearch s previousId else none) = ddi
  rcases ldi with _ | ldi <;> rcases ddi with _ | ddi
  · rfl
  · rfl
  · rfl
  · dsimp only
    split_ifs <;> rfl

/-- The deletion does not read the cursor of the third phase. -/
theorem recoverDelInternal_withThird (s : GrnPat) (slot id otherside : ℕ) (p p0 : Loc) (check0 check d : ℕ) :
    recoverDelInternal (s.withThird d) slot id otherside p p0 check0 check =
      (recoverDelInternal s slot id otherside p p0 check0 check).withThird d := by
  have hnodes : (s.withThird d).nodes = s.nodes := rfl
  have hload : ∀ p, (s.withThird d).load p = s.load p := fun _ => rfl
  rw [recoverDelInternal, recoverDelInternal, hnodes, hload]
  by_cases hself : id = p.node
  · rw [if_pos hself, if_pos hself]
    dsimp only
    have hset : (s.withThird d).setDelinfo slot { (s.withThird d).delinfos slot with d := id, stat := .phase2 } =
        (s.setDelinfo slot { s.delinfos slot with d := id, stat := .phase2 }).withThird d := rfl
    rw [hset, keepOtherside_withThird]
    rfl
  rw [if_neg hself, if_neg hself]
  dsimp only
  rw [recordDeletionAt_withThird]
  split_ifs
  · rfl
  · rfl
  · rfl
  · rw [keepOtherside_withThird]
    rfl

/-- A slot that is not in use is not among those that are found, so the order of the changes does not
matter. -/
theorem recordDeletionAt_eq (hslot : (s.delinfos slot).stat = .empty) (previous : ℕ) :
    recordDeletionAt s slot id previous previous = recordDeletion s slot id previous := by
  have hne : ∀ i j, (if (s.nodes i).deleting then delinfoSearch s i else none) = some j → j ≠ slot := by
    intro i j hj
    split_ifs at hj
    rintro rfl
    rw [delinfoSearch_phase1 hj] at hslot
    cases hslot
  have hldi := hne id
  have hddi := hne previous
  rw [recordDeletionAt, recordDeletion]
  generalize (if (s.nodes id).deleting = true then delinfoSearch s id else none) = ldi at hldi
  generalize (if (s.nodes previous).deleting = true then delinfoSearch s previous else none) = ddi at hddi
  rcases ldi with _ | ldi <;> rcases ddi with _ | ddi
  · refine congrArg (fun delinfos => ({ (s.setDeleting id true).setDeleting previous true with
      delinfos := delinfos } : GrnPat)) (funext fun j => ?_)
    by_cases hj : j = slot
    · subst hj
      simp [GrnPat.setDelinfo, GrnPat.setDeleting, GrnPat.modify]
    · simp [GrnPat.setDelinfo, GrnPat.setDeleting, GrnPat.modify, hj]
  · have hddi' := hddi ddi rfl
    refine congrArg (fun delinfos => ({ (s.setDeleting id true).setDeleting previous false with
      delinfos := delinfos } : GrnPat)) (funext fun j => ?_)
    by_cases hj : j = slot
    · subst hj
      simp [GrnPat.setDelinfo, GrnPat.setDeleting, GrnPat.modify, hddi', Ne.symm hddi']
    · by_cases hj' : j = ddi
      · subst hj'
        simp [GrnPat.setDelinfo, GrnPat.setDeleting, GrnPat.modify, hj]
      · simp [GrnPat.setDelinfo, GrnPat.setDeleting, GrnPat.modify, hj, hj']
  · have hldi' := hldi ldi rfl
    refine congrArg (fun delinfos => ({ (s.setDeleting id false).setDeleting previous true with
      delinfos := delinfos } : GrnPat)) (funext fun j => ?_)
    by_cases hj : j = slot
    · subst hj
      simp [GrnPat.setDelinfo, GrnPat.setDeleting, GrnPat.modify, Ne.symm hldi']
    · by_cases hj' : j = ldi
      · subst hj'
        simp [GrnPat.setDelinfo, GrnPat.setDeleting, GrnPat.modify, hj]
      · simp [GrnPat.setDelinfo, GrnPat.setDeleting, GrnPat.modify, hj, hj']
  · have hldi' := hldi ldi rfl
    have hddi' := hddi ddi rfl
    dsimp only
    by_cases heq : ddi = ldi
    · rw [if_pos heq, if_pos heq]
      refine congrArg (fun delinfos => ({ (s.setDeleting id false).setDeleting previous false with
        delinfos := delinfos } : GrnPat)) (funext fun j => ?_)
      by_cases hj : j = slot
      · subst hj
        simp [GrnPat.setDelinfo, GrnPat.setDeleting, GrnPat.modify, Ne.symm hddi']
      · by_cases hj' : j = ddi
        · subst hj'
          simp [GrnPat.setDelinfo, GrnPat.setDeleting, GrnPat.modify, hj]
        · simp [GrnPat.setDelinfo, GrnPat.setDeleting, GrnPat.modify, hj, hj']
    · rw [if_neg heq, if_neg heq]
      refine congrArg (fun delinfos => ({ (s.setDeleting id false).setDeleting previous false with
        delinfos := delinfos } : GrnPat)) (funext fun j => ?_)
      by_cases hj : j = slot
      · subst hj
        simp [GrnPat.setDelinfo, GrnPat.setDeleting, GrnPat.modify, Ne.symm hddi', Ne.symm hldi']
      · by_cases hj' : j = ldi
        · subst hj'
          simp [GrnPat.setDelinfo, GrnPat.setDeleting, GrnPat.modify, hj, Ne.symm heq, hddi']
        · by_cases hj'' : j = ddi
          · subst hj''
            simp [GrnPat.setDelinfo, GrnPat.setDeleting, GrnPat.modify, hj, hj']
          · simp [GrnPat.setDelinfo, GrnPat.setDeleting, GrnPat.modify, hj, hj', hj'']

/-- A deletion leaves the counters to the operation, and the cursor of the third phase. -/
theorem recoverDelInternal_counters (s : GrnPat) (slot id otherside : ℕ) (p p0 : Loc) (check0 check : ℕ) :
    (recoverDelInternal s slot id otherside p p0 check0 check).nGarbages = s.nGarbages ∧
      (recoverDelInternal s slot id otherside p p0 check0 check).nEntries = s.nEntries ∧
      (recoverDelInternal s slot id otherside p p0 check0 check).currDel3 = s.currDel3 := by
  have hkeep : ∀ (s : GrnPat), ∃ nodes', (keepOtherside s otherside p0 check0 check).store p0 otherside =
      { s with nodes := nodes' } := fun s => by
    obtain ⟨nodes', heq, -⟩ := @keepOtherside_eq_nodes s otherside check0 check p0
    rw [heq]
    exact ⟨_, rfl⟩
  have hrecord : ∀ previousId, (recordDeletionAt s slot id p.node previousId).nGarbages = s.nGarbages ∧
      (recordDeletionAt s slot id p.node previousId).nEntries = s.nEntries ∧
      (recordDeletionAt s slot id p.node previousId).currDel3 = s.currDel3 := fun previousId => by
    rw [recordDeletionAt]
    generalize (if (s.nodes id).deleting = true then delinfoSearch s id else none) = ldi
    generalize (if (s.nodes p.node).deleting = true then delinfoSearch s previousId else none) = ddi
    rcases ldi with _ | ldi <;> rcases ddi with _ | ddi
    · exact ⟨rfl, rfl, rfl⟩
    · exact ⟨rfl, rfl, rfl⟩
    · exact ⟨rfl, rfl, rfl⟩
    · dsimp only
      by_cases heq : ddi = ldi
      · rw [if_pos heq]
        exact ⟨rfl, rfl, rfl⟩
      · rw [if_neg heq]
        exact ⟨rfl, rfl, rfl⟩
  rw [recoverDelInternal]
  dsimp only
  split_ifs
  · obtain ⟨nodes', heq⟩ := hkeep (s.setDelinfo slot { s.delinfos slot with d := id, stat := .phase2 })
    rw [heq]
    exact ⟨rfl, rfl, rfl⟩
  · exact ⟨rfl, rfl, rfl⟩
  · exact hrecord (s.load p0)
  · exact hrecord (s.load p0)
  · obtain ⟨nodes', heq⟩ := hkeep (recordDeletionAt s slot id p.node (s.load p0))
    rw [heq]
    exact hrecord (s.load p0)

/-- **The recovery does what the operation did**: the slot is new and the link leads to the branch. -/
theorem grnPatDelInternal_eq_recover {otherside : ℕ} {st : DelState} (hslot : (s.delinfos slot).stat = .empty)
    (hp0 : s.load st.p0 = st.nodePrevious) (hp : st.p.node = st.nodePrevious) :
    grnPatDelInternal s slot id otherside st =
      { recoverDelInternal s slot id otherside st.p st.p0
          (if st.nodePreviousCheck < 0 then 65535 else st.nodePreviousCheck.toNat) st.nodeCheck.toNat with
        nGarbages := s.nGarbages + 1
        nEntries := s.nEntries - 1 } := by
  have htable : grnPatDelInternal s slot id otherside st = counted (recoverDelInternal s slot id otherside st.p st.p0
      (if st.nodePreviousCheck < 0 then 65535 else st.nodePreviousCheck.toNat) st.nodeCheck.toNat) := by
    rw [recoverDelInternal, hp0, hp]
    dsimp only
    rw [recordDeletionAt_eq hslot]
    rfl
  rw [htable, counted, (recoverDelInternal_counters ..).1, (recoverDelInternal_counters ..).2.1]

/-- **A deletion is recovered**, but for the cursors of the ring when they pass a slot without an
entry. The entry of a deleted record also has the cursor of the second phase. -/
theorem recoverAll_delWal (hI : Inv s t own free lost) {b : Bool} (h : _grnPatDel s key = some (s', b)) :
    ∃ c d, recoverAll (delWal s key) s.file = some (s'.withCursors s'.currDel c d) ∧
      (b = true ∨ ¬ (0 < deletionGap s ∧ (s.delinfos s.currDel2).stat ≠ .phase1) → c = s'.currDel2) ∧
      (((s.currDel + 1) % nDelinfos = s.currDel3 → (s.delinfos s.currDel3).stat = .phase2) → d = s'.currDel3) := by
  obtain ⟨s₁, -, -, -, hnew, -, -, -, hslot⟩ := delinfoNew_spec hI
  obtain ⟨c, d, hrecover, hc, hd⟩ := recoverAll_delinfoNewWal hI.ring hnew
  rw [_grnPatDel_eq hnew] at h
  obtain ⟨found, hloop, hdel⟩ := Option.bind_eq_some_iff.mp h
  have hloop' : delLoop s₁ key (patCheckPack key.length 0 false) (patCheckPack key.length 0 false + 2)
      ⟨.root, .root, 0, -1, -1⟩ = some found := by
    rw [patCheckPack_length]
    exact hloop
  rw [delWal, hnew, recoverAll_append, hrecover, Option.bind_some]
  dsimp only
  rw [hloop']
  cases found with
  | none =>
    obtain ⟨rfl, rfl⟩ := Prod.mk.inj (Option.some.inj hdel)
    exact ⟨c, d, rfl, fun hor => hc (hor.resolve_left Bool.false_ne_true), hd⟩
  | some st =>
    obtain ⟨hp0, hp⟩ := delLoop_location (.inl rfl) hloop'
    rw [delAt] at hdel
    dsimp only at hdel ⊢
    by_cases hdiff : (s₁.nodes st.nodePrevious).lr false = (s₁.nodes st.nodePrevious).lr true
    · rw [if_pos hdiff] at hdel
      cases hdel
    rw [if_neg hdiff] at hdel
    rw [deleteEntryWal]
    dsimp only
    rw [if_neg hdiff, recoverAll_singleton]
    obtain ⟨rfl, rfl⟩ := Prod.mk.inj (Option.some.inj hdel)
    generalize (if (s₁.nodes st.nodePrevious).lr true = s₁.load st.p then (s₁.nodes st.nodePrevious).lr false
      else (s₁.nodes st.nodePrevious).lr true) = otherside
    have hload : (s₁.setCache key 0).load st.p0 = st.nodePrevious := by
      rw [GrnPat.load, setCache_nodes]
      exact hp0
    have heq := @grnPatDelInternal_eq_recover (s₁.setCache key 0) (s₁.load st.p) s.currDel otherside st
      hslot.setCache.empty hload hp
    have hcache : (s₁.setCache key 0).withThird d = s₁.withThird d := by
      obtain ⟨cache, hcache⟩ := @setCache_eq s₁ key 0
      rw [hcache]
      rfl
    have hthird := recoverDelInternal_withThird (s₁.setCache key 0) s.currDel (s₁.load st.p) otherside st.p st.p0
      (if st.nodePreviousCheck < 0 then 65535 else st.nodePreviousCheck.toNat) st.nodeCheck.toNat d
    have hdel3 := (recoverDelInternal_counters (s₁.setCache key 0) s.currDel (s₁.load st.p) otherside st.p st.p0
      (if st.nodePreviousCheck < 0 then 65535 else st.nodePreviousCheck.toNat) st.nodeCheck.toNat).2.2
    have hcounters : (s₁.setCache key 0).nGarbages = s₁.nGarbages ∧ (s₁.setCache key 0).nEntries = s₁.nEntries ∧
        (s₁.setCache key 0).currDel3 = s₁.currDel3 := by
      obtain ⟨cache, hcache⟩ := @setCache_eq s₁ key 0
      rw [hcache]
      exact ⟨rfl, rfl, rfl⟩
    rw [hcache] at hthird
    rw [heq]
    refine ⟨_, d, ?_, fun _ => rfl, fun h => (hd h).trans ?_⟩
    · rw [recoverEntry, recoverDeleteEntry]
      have hstart : ({ s₁.withCursors s₁.currDel c d with currDel := s₁.currDel, currDel2 := s₁.currDel2 } : GrnPat) =
          s₁.withThird d := rfl
      rw [hstart, hthird, hcounters.1, hcounters.2.1]
      rfl
    · exact (hdel3.trans hcounters.2.2).symm

/-! ## Defragmentations -/

/-- The end of the pending deletions is recovered. -/
theorem recoverAll_turn2ForceWal {m : ℕ} (h : delinfosTurn2Force s m i = some s') :
    ∃ c', recoverAll (turn2ForceWal s m i) (s.withCursors n c d) = some (s'.withCursors n c' d) := by
  induction m generalizing s i c with
  | zero =>
    obtain rfl := Option.some.inj h
    exact ⟨c, rfl⟩
  | succ m ih =>
    rw [delinfosTurn2Force] at h
    rw [turn2ForceWal, recoverAll_append]
    by_cases hstat : (s.delinfos i).stat = .phase1
    · rw [if_neg (not_not.mpr hstat)] at h ⊢
      obtain ⟨s₁, hturn, hrest⟩ := Option.bind_eq_some_iff.mp h
      rw [recoverAll_turn2Wal hturn, Option.bind_some, hturn]
      exact ih hrest
    · rw [if_pos hstat] at h ⊢
      have hnone : turn2Wal s i = [] := if_pos hstat
      rw [hnone]
      exact ih h

theorem recoverDefragKeys_append {moves : List WalEntry} (hmoves : ∀ e ∈ moves, ∃ id key keyOffset,
    e = .defragKey id key keyOffset) (es : List WalEntry) (s : GrnPat) :
    recoverDefragKeys s (moves ++ es) = recoverDefragKeys (recoverDefragKeys s moves) es := by
  induction moves generalizing s with
  | nil => rfl
  | cons e moves ih =>
    obtain ⟨id, key, keyOffset, rfl⟩ := hmoves e List.mem_cons_self
    exact ih (fun e he => hmoves e (List.mem_cons_of_mem _ he)) _

theorem defragKeysWal_moves (s : GrnPat) (ids : List ℕ) (newCurrKey : ℕ) :
    ∀ e ∈ (defragKeysWal s ids newCurrKey).1, ∃ id key keyOffset, e = .defragKey id key keyOffset := by
  induction ids generalizing newCurrKey with
  | nil => exact fun _ he => nomatch he
  | cons id ids ih =>
    intro e he
    rw [defragKeysWal] at he
    dsimp only at he
    split_ifs at he
    · rcases List.mem_cons.mp he with rfl | he
      · exact ⟨_, _, _, rfl⟩
      · exact ih _ e he
    · exact ih _ e he

/-- **The moves are recovered**: the bytes of a key are those from before the first move, and no move
overwrites a key that is still to be moved. -/
theorem recoverDefragKeys_wal {s₀ : GrnPat} {ids : List ℕ} {newCurrKey : ℕ} (h : Movable s ids newCurrKey)
    (hnode : ∀ j ∈ ids, (s.nodes j).key = (s₀.nodes j).key) (hkeyOf : ∀ j ∈ ids, s.keyOf j = s₀.keyOf j) :
    recoverDefragKeys (s.withCursors n c d) (defragKeysWal s₀ ids newCurrKey).1 =
        (patKeyDefragEach s ids newCurrKey).1.withCursors n c d ∧
      (defragKeysWal s₀ ids newCurrKey).2 = (patKeyDefragEach s ids newCurrKey).2 := by
  induction ids generalizing s newCurrKey with
  | nil => exact ⟨rfl, rfl⟩
  | cons id ids ih =>
    have hin := h.inSegment id List.mem_cons_self
    have hdown := defragPosition_le hin.pos (h.le id List.mem_cons_self) hin.segment
    obtain ⟨hfirst, -⟩ := List.pairwise_cons.mp h.order
    obtain ⟨-, hne, -, -, hkeys⟩ := moveTo_spec hin hdown
    have hid := hnode id List.mem_cons_self
    -- the other keys are as they were
    have hother : ∀ j ∈ ids, j ≠ id := fun j hj hji => by
      have hle := hfirst j hj
      have hpos := hin.pos
      have hend : (s.nodes id).key.endOffset = (s.nodes id).key.offset + (s.nodes id).key.length := rfl
      rw [hji] at hle
      omega
    obtain ⟨hmoves, hend⟩ := ih h.tail
      (fun j hj => by
        rw [hne j (hother j hj)]
        exact hnode j (List.mem_cons_of_mem _ hj))
      (fun j hj => by
        have hj' := h.inSegment j (List.mem_cons_of_mem _ hj)
        rw [← hkeyOf j (List.mem_cons_of_mem _ hj), hj'.keyOf_eq]
        have hj₁ : ((moveTo s id (defragPosition newCurrKey (s.nodes id).key.length)).nodes j).key.InSegment := by
          rw [hne j (hother j hj)]
          exact hj'
        rw [hj₁.keyOf_eq, hne j (hother j hj)]
        exact bytesAt_congr fun o ho _ => hkeys o (.inr ((hfirst j hj).trans ho)))
    rw [defragKeysWal]
    dsimp only
    rw [← hid]
    refine ⟨?_, hend⟩
    have hstep : patKeyDefragEach s (id :: ids) newCurrKey =
        patKeyDefragEach (moveTo s id (defragPosition newCurrKey (s.nodes id).key.length)) ids
          (defragPosition newCurrKey (s.nodes id).key.length + (s.nodes id).key.length) := rfl
    rw [hstep, ← hmoves]
    by_cases hmove : (s.nodes id).key.offset ≠ defragPosition newCurrKey (s.nodes id).key.length
    · rw [if_pos hmove, moveTo, if_pos hmove, ← hkeyOf id List.mem_cons_self]
      rfl
    · rw [if_neg hmove, moveTo, if_neg hmove]

/-- A table without records needs no case of its own. -/
theorem compactWal_eq (s : GrnPat) : compactWal s = (defragKeysWal s (defragTargets s) 0).1 ++
    [.defragCurrentKey (activeMaxId s) (defragKeysWal s (defragTargets s) 0).2] := by
  rw [compactWal]
  split_ifs with hempty
  · have heach : grnPatEach s = [] := if_pos hempty
    simp [defragTargets, activeMaxId, heach, defragKeysWal]
  · rfl

/-- The log begins with the move of a key. -/
def BeginsWithMove : List WalEntry → Prop
  | .defragKey _ _ _ :: _ => True
  | _ => False

instance (log : List WalEntry) : Decidable (BeginsWithMove log) := by
  unfold BeginsWithMove
  split <;> infer_instance

theorem recoverDefragKeys_of_not (h : ¬ BeginsWithMove wal) (s : GrnPat) : recoverDefragKeys s wal = s := by
  rcases wal with _ | ⟨e, es⟩
  · rfl
  · cases e with
    | defragKey => exact absurd trivial h
    | _ => rfl

/-- The loop of the recovery waits with the moves. -/
theorem recoverLoop_moves {moves : List WalEntry} (hmoves : ∀ e ∈ moves, ∃ id key keyOffset,
    e = .defragKey id key keyOffset) (startId : ℕ) (hid : id ≠ 0) :
    recoverLoop wal id startId (moves ++ es) s = recoverLoop wal (id + moves.length)
      (if moves ≠ [] ∧ startId = 0 then id else startId) es s := by
  induction moves generalizing id startId with
  | nil =>
    rw [if_neg (fun h => h.1 rfl)]
    rfl
  | cons e moves ih =>
    obtain ⟨id', key, keyOffset, rfl⟩ := hmoves e List.mem_cons_self
    have hstep : recoverLoop wal id startId (.defragKey id' key keyOffset :: moves ++ es) s =
        recoverLoop wal (id + 1) (if startId = 0 then id else startId) (moves ++ es) s := rfl
    have hlength : id + 1 + moves.length = id + (moves.length + 1) := by omega
    rw [hstep, ih (fun e he => hmoves e (List.mem_cons_of_mem _ he)) _ (Nat.succ_ne_zero id), List.length_cons,
      Nat.succ_eq_add_one, hlength]
    congr 1
    by_cases hstart : startId = 0
    · rw [if_pos hstart, if_neg (fun h => hid h.2), if_pos ⟨List.cons_ne_nil _ _, hstart⟩]
    · rw [if_neg hstart, if_neg (fun h => hstart h.2), if_neg (fun h => hstart h.2)]

/-- **The compaction is recovered**, when the log before it does not begin with a move or a key is moved. -/
theorem recoverLoop_compactWal (h : Settled s t own) {log : List WalEntry}
    (hlog : wal = log ++ compactWal s ++ es)
    (hmove : (defragKeysWal s (defragTargets s) 0).1 ≠ [] ∨ ¬ BeginsWithMove log) :
    recoverLoop wal (log.length + 1) 0 (compactWal s ++ es) (s.withCursors n c d) =
      recoverLoop wal (log.length + (compactWal s).length + 1) 0 es (compacted s).file := by
  obtain ⟨hmoves, hend⟩ := @recoverDefragKeys_wal s n c d s (defragTargets s) 0 h.movable (fun _ _ => rfl)
    fun _ _ => rfl
  have hall := defragKeysWal_moves s (defragTargets s) 0
  rw [compactWal_eq] at hlog ⊢
  generalize hkeys : defragKeysWal s (defragTargets s) 0 = keys at *
  obtain ⟨moves, endKey⟩ := keys
  dsimp only at hmoves hend hall hlog hmove ⊢
  rw [List.append_assoc, recoverLoop_moves hall 0 (Nat.succ_ne_zero _), List.length_append, List.length_singleton,
    Nat.add_right_comm log.length 1 moves.length, ← Nat.add_assoc]
  -- what the recovery reads are the moves of this defragmentation
  have hread : recoverDefragKeys (s.withCursors n c d)
      (wal.drop ((if moves ≠ [] ∧ 0 = 0 then log.length + 1 else 0) - 1)) =
        recoverDefragKeys (s.withCursors n c d) moves := by
    by_cases hnil : moves = []
    · rw [if_neg (fun h => h.1 hnil), List.drop_zero, hnil]
      refine recoverDefragKeys_of_not (fun hbegins => ?_) _
      rw [hlog, hnil] at hbegins
      rcases log with _ | ⟨e, log⟩
      · exact hbegins
      · refine hmove.resolve_left (fun hne => hne hnil) ?_
        cases e <;> exact hbegins
    · rw [if_pos ⟨hnil, rfl⟩, Nat.add_sub_cancel, hlog, List.append_assoc, List.drop_left, List.append_assoc,
        recoverDefragKeys_append hall]
      rfl
  have hstep : recoverLoop wal (log.length + moves.length + 1) (if moves ≠ [] ∧ 0 = 0 then log.length + 1 else 0)
      ([.defragCurrentKey (activeMaxId s) endKey] ++ es) (s.withCursors n c d) =
      recoverLoop wal (log.length + moves.length + 1 + 1) 0 es (recoverDefragCurrentKey (s.withCursors n c d) wal
        (if moves ≠ [] ∧ 0 = 0 then log.length + 1 else 0) (activeMaxId s) endKey) := rfl
  rw [hstep, recoverDefragCurrentKey, hread, hmoves, hend]
  rfl

/-! ## Runs -/

/-- An addition of a new key finds a free node, or an id and a place for the key. -/
def AddRoom (s : GrnPat) (key : List UInt8) : Prop :=
  grnPatGet s key = some 0 → s.garbages (patKeyStorageSize s.isKeyLarge key.length) ≠ 0 ∨
    (s.currRec < grnIdMax ∧ (patKeyIsEmbeddable s.isKeyLarge key.length = true ∨ (keyPut s key).isSome))

/-- **The deletion moves the cursors of the ring only over slots that are in use**: the slot that leaves
the third phase is in the second one, and, if there is no such key, the slot that leaves the first half of
the ring is in the first phase. -/
def DelRecorded (s : GrnPat) (key : List UInt8) : Prop :=
  ((s.currDel + 1) % nDelinfos = s.currDel3 → (s.delinfos s.currDel3).stat = .phase2) ∧
    (grnPatGet s key = some 0 → 0 < deletionGap s → (s.delinfos s.currDel2).stat = .phase1)

/-- The operation writes into the log all that it does: `log` is the log before it. -/
def Op.Recorded (s : GrnPat) (log : List WalEntry) : Op → Prop
  | .call (.add key) => key ≠ [] → key.length ≤ maxKeySize → AddRoom s key
  | .call (.delete key) => key ≠ [] → DelRecorded s key
  | .call (.deleteById id) => id ≠ 0 → DelRecorded s (_grnPatKey s id)
  | .call (.get _) => True
  | .defrag => (∃ settled, delinfosTurn2Force s nDelinfos 0 = some settled ∧
      (defragKeysWal settled (defragTargets settled) 0).1 ≠ []) ∨ ¬ BeginsWithMove log

/-- Every operation of a run writes into the log all that it does. -/
def AllRecorded : GrnPat → List WalEntry → List Op → Prop
  | _, _, [] => True
  | s, log, o :: ops => o.Recorded s log ∧ AllRecorded (op s o) (log ++ opWal s o) ops

/-- A new key is not missed for want of room. -/
theorem grnPatAdd_isSome_of_addRoom (h : Inv s t own free lost) (hkey : key ≠ []) (hlen : key.length ≤ maxKeySize)
    (hroom : AddRoom s key) : (grnPatAdd s key).isSome := by
  rcases grnPatAdd_eq h hkey hlen with ⟨a, ha, hka, heq | heq⟩ | ⟨hno, k, t₀, c, rfl, hins, heq⟩
  · rw [heq]
    rfl
  · rw [heq]
    rfl
  · rw [heq]
    simp only [addAt]
    split_ifs with hgarbage hid
    · rfl
    · have hroom' := (hroom (h.grnPatGet_of_not_live hno)).resolve_left hgarbage
      exact absurd hid (Nat.not_lt.mpr hroom'.1)
    · have hroom' := (hroom (h.grnPatGet_of_not_live hno)).resolve_left hgarbage
      rw [Option.isSome_map, patNodeSetKey, if_neg hkey]
      split_ifs with hembed
      · rfl
      · rw [Option.isSome_map]
        exact hroom'.2.resolve_left hembed

theorem addWal_atOnce (s : GrnPat) (key : List UInt8) : ∀ e ∈ addWal s key, e.AtOnce := by
  intro e he
  unfold addWal at he
  dsimp only at he
  split at he
  · cases he
  split at he
  · cases he
  split at he
  · split at he
    · rw [List.mem_singleton.mp he]
      trivial
    · rw [List.mem_singleton.mp he]
      trivial
  · cases he

theorem turn2Wal_atOnce (s : GrnPat) (i : ℕ) : ∀ e ∈ turn2Wal s i, e.AtOnce := by
  intro e he
  rw [turn2Wal] at he
  dsimp only at he
  split_ifs at he
  · cases he
  · rw [List.mem_singleton.mp he]
    trivial

theorem turn2sWal_atOnce (s : GrnPat) (gap : ℕ) : ∀ e ∈ turn2sWal s gap, e.AtOnce := by
  induction gap generalizing s with
  | zero => exact fun _ he => nomatch he
  | succ gap ih =>
    intro e he
    rw [turn2sWal] at he
    rcases List.mem_append.mp he with he | he
    · exact turn2Wal_atOnce s _ e he
    · split at he
      · exact ih _ e he
      · cases he

theorem delinfoNewWal_atOnce (s : GrnPat) : ∀ e ∈ delinfoNewWal s, e.AtOnce := by
  intro e he
  rcases List.mem_cons.mp he with rfl | he
  · trivial
  rcases List.mem_append.mp he with he | he
  · exact turn2sWal_atOnce s _ e he
  split at he
  · split_ifs at he
    · rw [turn3Wal] at he
      split_ifs at he
      · cases he
      · rw [List.mem_singleton.mp he]
        trivial
    · cases he
  · cases he

theorem delWal_atOnce (s : GrnPat) (key : List UInt8) : ∀ e ∈ delWal s key, e.AtOnce := by
  intro e he
  rcases List.mem_append.mp he with he | he
  · exact delinfoNewWal_atOnce s e he
  split at he
  · cases he
  dsimp only at he
  split at he
  · rw [deleteEntryWal] at he
    dsimp only at he
    split at he
    · cases he
    · rw [List.mem_singleton.mp he]
      trivial
  · cases he

theorem turn2ForceWal_atOnce (s : GrnPat) (m i : ℕ) : ∀ e ∈ turn2ForceWal s m i, e.AtOnce := by
  induction m generalizing s i with
  | zero => exact fun _ he => nomatch he
  | succ m ih =>
    intro e he
    rw [turn2ForceWal] at he
    rcases List.mem_append.mp he with he | he
    · exact turn2Wal_atOnce s _ e he
    split_ifs at he
    · exact ih _ _ e he
    · split at he
      · exact ih _ _ e he
      · cases he

/-- An operation whose entries are done at once. -/
theorem recoverLoop_atOnce {log : List WalEntry} (hes : ∀ e ∈ es, e.AtOnce)
    (h : recoverAll es s.file = some s'.file) :
    recoverLoop wal (log.length + 1) 0 (es ++ es') s.file =
      recoverLoop wal (log.length + es.length + 1) 0 es' s'.file := by
  rw [recoverLoop_append hes, h, Option.bind_some, Nat.add_right_comm]

/-- A deletion that is recorded. -/
theorem recoverAll_delWal_of_recorded (h : Inv s t own free lost) (hrec : DelRecorded s key) {b : Bool}
    (hdel : _grnPatDel s key = some (s', b)) : recoverAll (delWal s key) s.file = some s'.file := by
  obtain ⟨c, d, hrecover, hc, hd⟩ := recoverAll_delWal h hdel
  refine hrecover.trans ?_
  have hc' : c = s'.currDel2 := hc (by
    cases b with
    | true => exact .inl rfl
    | false =>
      right
      rintro ⟨hgap, hstat⟩
      obtain ⟨s'', b', t', -, -, hdel', -, hdeleted, -⟩ := @_grnPatDel_spec s t own free lost key h
      obtain ⟨-, rfl⟩ := Prod.mk.inj (Option.some.inj (hdel'.symm.trans hdel))
      cases hdeleted with
      | missing hno => exact hstat (hrec.2 (h.grnPatGet_of_not_live hno) hgap))
  rw [hc', hd hrec.1]
  rfl

theorem recoverLoop_delWal {log : List WalEntry} (h : Inv s t own free lost) (hrec : DelRecorded s key)
    {b : Bool} (hdel : _grnPatDel s key = some (s', b)) :
    recoverLoop wal (log.length + 1) 0 (delWal s key ++ es') s.file =
      recoverLoop wal (log.length + (delWal s key).length + 1) 0 es' s'.file :=
  recoverLoop_atOnce (delWal_atOnce s key) (recoverAll_delWal_of_recorded h hrec hdel)

/-- **An operation is recovered.** -/
theorem recoverLoop_opWal (h : Inv s t own free lost) {o : Op} {log : List WalEntry} (hrec : o.Recorded s log)
    (hlog : wal = log ++ opWal s o ++ es') :
    recoverLoop wal (log.length + 1) 0 (opWal s o ++ es') s.file =
      recoverLoop wal (log.length + (opWal s o).length + 1) 0 es' (op s o).file := by
  cases o with
  | call c =>
    cases c with
    | add key =>
      refine recoverLoop_atOnce (addWal_atOnce s key) ?_
      show recoverAll (addWal s key) s.file = some (call s (.add key)).1.file
      cases hadd : grnPatAdd s key with
      | some r =>
        obtain ⟨s', id, b⟩ := r
        rw [recoverAll_addWal hadd]
        simp only [call, hadd]
      | none =>
        -- nothing was written, as the key cannot be added
        by_cases hkey : key = [] ∨ maxKeySize < key.length
        · have hnone : addWal s key = [] := if_pos hkey
          rw [hnone]
          simp only [call, hadd]
          rfl
        · push Not at hkey
          have hsome := grnPatAdd_isSome_of_addRoom h hkey.1 hkey.2 (hrec hkey.1 hkey.2)
          rw [hadd] at hsome
          cases hsome
    | delete key =>
      by_cases hkey : key = []
      · have hnone : opWal s (.call (.delete key)) = [] := if_pos hkey
        have heq : grnPatDelete s key = some (s, false) := if_pos hkey
        rw [hnone]
        simp only [op, call, heq]
        rfl
      · have hwal : opWal s (.call (.delete key)) = delWal s key := if_neg hkey
        obtain ⟨s', b, -, -, -, hdel, -⟩ := @_grnPatDel_spec s t own free lost key h
        have heq : grnPatDelete s key = some (s', b) := (if_neg hkey).trans hdel
        rw [hwal]
        simp only [op, call, heq]
        exact recoverLoop_delWal h (hrec hkey) hdel
    | deleteById id =>
      by_cases hid : id = 0
      · have hnone : opWal s (.call (.deleteById id)) = [] := if_pos hid
        have heq : grnPatDeleteById s id = some (s, false) := if_pos hid
        rw [hnone]
        simp only [op, call, heq]
        rfl
      · have hwal : opWal s (.call (.deleteById id)) = delWal s (_grnPatKey s id) := if_neg hid
        obtain ⟨s', b, -, -, -, hdel, -⟩ := @_grnPatDel_spec s t own free lost (_grnPatKey s id) h
        have heq : grnPatDeleteById s id = some (s', b) := (if_neg hid).trans hdel
        rw [hwal]
        simp only [op, call, heq]
        exact recoverLoop_delWal h (hrec hid) hdel
    | get key => rfl
  | defrag =>
    obtain ⟨settled, t', own', s', reduced, hforce, hdefrag, hsettled, hcompacted, -⟩ := grnPatDefrag_spec h
    have hwal : opWal s .defrag = turn2ForceWal s nDelinfos 0 ++ compactWal settled := by
      show defragWal s = _
      rw [defragWal, hforce]
    have hop : op s .defrag = compacted settled := by
      simp only [op, hdefrag, Option.map_some, Option.getD_some, hcompacted]
    obtain ⟨c', hturns⟩ := @recoverAll_turn2ForceWal s settled s.currDel s.currDel2 s.currDel3 0 nDelinfos hforce
    rw [hwal] at hlog
    rw [hwal, hop, List.append_assoc, recoverLoop_append (turn2ForceWal_atOnce s nDelinfos 0), file_eq, hturns,
      Option.bind_some]
    have hcompact := @recoverLoop_compactWal settled t' own' s.currDel c' s.currDel3 es' wal hsettled
      (log ++ turn2ForceWal s nDelinfos 0) (by rw [hlog]; simp only [List.append_assoc]) (by
        rcases hrec with ⟨settled', hforce', hmoves⟩ | hbegins
        · obtain rfl := Option.some.inj (hforce'.symm.trans hforce)
          exact .inl hmoves
        · right
          intro hbegins'
          rcases log with _ | ⟨e, log⟩
          · rcases hturn : turn2ForceWal s nDelinfos 0 with _ | ⟨e, es⟩
            · rw [hturn] at hbegins'
              exact hbegins'
            · have hatOnce := turn2ForceWal_atOnce s nDelinfos 0 e (by rw [hturn]; exact List.mem_cons_self)
              rw [hturn] at hbegins'
              cases e with
              | defragKey => exact hatOnce
              | _ => exact hbegins'
          · exact hbegins (by cases e <;> exact hbegins'))
    have hlength : log.length + 1 + (turn2ForceWal s nDelinfos 0).length =
        (log ++ turn2ForceWal s nDelinfos 0).length + 1 := by
      rw [List.length_append, Nat.add_right_comm]
    rw [hlength, hcompact, List.length_append, List.length_append, Nat.add_assoc log.length]

/-- The recovery from the file before the operations has everything of the file after them. -/
def Recovers (s : GrnPat) (ops : List Op) : Prop :=
  grnPatWalRecover s.file (opsWal s ops) = some (runOps s ops).file

/-- **A recorded run is recovered.** -/
theorem recovers_of_allRecorded (isKeyLarge : Bool) (cacheSize : ℕ) (ops₀ ops : List Op)
    (hrec : AllRecorded (runOps (grnPatCreate isKeyLarge cacheSize) ops₀) [] ops) :
    Recovers (runOps (grnPatCreate isKeyLarge cacheSize) ops₀) ops := by
  have hinv := (inv_grnPatCreate isKeyLarge cacheSize).runOps ops₀
  have hrun : ∀ (ops : List Op) (s : GrnPat) (log : List WalEntry),
      (∃ t own free lost, Inv s t own free lost) → AllRecorded s log ops →
      recoverLoop (log ++ opsWal s ops) (log.length + 1) 0 (opsWal s ops) s.file =
        some (runOps s ops).file := by
    intro ops
    induction ops with
    | nil => exact fun _ _ _ _ => rfl
    | cons o ops ih =>
      rintro s log ⟨t, own, free, lost, hinv⟩ ⟨ho, hrest⟩
      rw [opsWal, recoverLoop_opWal hinv ho (List.append_assoc _ _ _).symm]
      have hnext := ih (op s o) (log ++ opWal s o) (hinv.op o) hrest
      rw [List.length_append, List.append_assoc] at hnext
      exact hnext
  exact hrun ops _ [] hinv hrec

/-- Two keys are added, the first one is deleted, and the second one is moved. -/
def moveOps : List Op :=
  [.call (.add [97, 97, 97, 97, 97]), .call (.add [98, 98, 98, 98, 98]), .call (.delete [97, 97, 97, 97, 97]),
    .defrag]

theorem recovers_moveOps : Recovers (grnPatCreate false 0) moveOps := by
  refine recovers_of_allRecorded false 0 [] moveOps ⟨fun _ _ _ => .inr ?_, fun _ _ _ => .inr ?_, fun _ => ?_, .inr ?_, trivial⟩
  · decide +kernel
  · decide +kernel
  · exact ⟨by decide +kernel, by decide +kernel⟩
  · decide +kernel

/-- A key that is not there is deleted 129 times. -/
def missedOps : List Op := List.replicate 129 (.call (.delete [97]))

set_option maxRecDepth 8192 in
/-- The first slot of the ring was left by a deletion that found nothing. The cursor has passed it without
an entry. -/
theorem not_recovers_missedOps : ¬ Recovers (grnPatCreate false 0) missedOps := by
  intro h
  have hcursor : (runOps (grnPatCreate false 0) missedOps).currDel2 = 1 := by decide +kernel
  have hrecovered : (grnPatWalRecover (grnPatCreate false 0).file (opsWal (grnPatCreate false 0) missedOps)).map
      (·.currDel2) = some 0 := by decide +kernel
  rw [h, Option.map_some] at hrecovered
  exact absurd (hcursor.symm.trans (Option.some.inj hrecovered)) (by decide)

end Groonga.Pat
