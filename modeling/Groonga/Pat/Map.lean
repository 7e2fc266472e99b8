import Groonga.Pat.Add
import Groonga.Pat.Delete
import Mathlib

/-!
# The table as a finite map

The purpose of the table is a finite map from keys to record ids. A run is a sequence of
calls on an empty table; beside it runs the map, which learns the id of a new key from
the addition. Additions, deletions by key and lookups always agree with the map.

A deletion by id reads the key of the node and deletes that key. If the id is not live,
the key may meanwhile belong to another record, and then that record is deleted. So a run
agrees with the map as long as this does not happen.

The accounting of the ids does not depend on it: in every run each id is live, pending or
on one list of free nodes.
-/

namespace Groonga.Pat

open Lib.Patricia Lib.Patricia.Trie

/-! ## Calls and runs -/

inductive Call where
  | add (key : List UInt8)
  | delete (key : List UInt8)
  | deleteById (id : ℕ)
  | get (key : List UInt8)

/-- The table after a call, and the id that the call returns. A call that fails leaves
the table as it is and returns `GRN_ID_NIL`. -/
def call (s : GrnPat) : Call → GrnPat × ℕ
  | .add key =>
    match grnPatAdd s key with
    | some (s', id, _) => (s', id)
    | none => (s, 0)
  | .delete key =>
    match grnPatDelete s key with
    | some (s', _) => (s', 0)
    | none => (s, 0)
  | .deleteById id =>
    match grnPatDeleteById s id with
    | some (s', _) => (s', 0)
    | none => (s, 0)
  | .get key => (s, (grnPatGet s key).getD 0)

/-- The table after a sequence of calls. -/
def run (s : GrnPat) (calls : List Call) : GrnPat := calls.foldl (fun s c => (call s c).1) s

/-- The ids of the live keys. -/
abbrev IdMap := List UInt8 → Option ℕ

/-- What a call that returned `id` means for the map. -/
def IdMap.after (m : IdMap) : Call → ℕ → IdMap
  | .add key, id => if id = 0 ∨ (m key).isSome then m else Function.update m key (some id)
  | .delete key, _ => Function.update m key none
  | .deleteById id, _ => fun key => if m key = some id then none else m key
  | .get _, _ => m

/-- The table and the map after a sequence of calls. -/
def runWith (s : GrnPat) (m : IdMap) (calls : List Call) : GrnPat × IdMap :=
  calls.foldl (fun sm c => ((call sm.1 c).1, sm.2.after c (call sm.1 c).2)) (s, m)

/-- A deletion by id does not meet a key that another live record has. -/
def MeetsOwnKey (s : GrnPat) (m : IdMap) : Call → Prop
  | .deleteById id => ∀ id', m (_grnPatKey s id) = some id' → id' = id
  | _ => True

/-- Every call of the run meets its own key. -/
def AllMeetOwnKey : GrnPat → IdMap → List Call → Prop
  | _, _, [] => True
  | s, m, c :: calls => MeetsOwnKey s m c ∧
      AllMeetOwnKey (call s c).1 (m.after c (call s c).2) calls

/-- **The table is the finite map.** -/
structure IsMap (s : GrnPat) (m : IdMap) : Prop where
  get : ∀ key, grnPatGet s key = some ((m key).getD 0)
  id_ne_zero : ∀ key id, m key = some id → id ≠ 0
  key : ∀ key id, m key = some id → _grnPatKey s id = key
  injective : ∀ key key' id, m key = some id → m key' = some id → key = key'
  finite : {key | (m key).isSome}.Finite
  entries : s.nEntries = {key | (m key).isSome}.ncard
  add : ∀ key, key ≠ [] → key.length ≤ maxKeySize → HasRoom s key →
    ∃ s' id, grnPatAdd s key = some (s', id, (m key).isNone) ∧ ∀ id', m key = some id' → id = id'

/-! ## The live records -/

variable {s s' : GrnPat} {t : Trie ℕ} {own : ℕ → ℕ} {free : ℕ → List ℕ} {lost : Finset ℕ} {m : IdMap} {i j : ℕ}
  {key : List UInt8}

/-- `_grn_pat_get` finds no key that no leaf has. -/
theorem Rooted.grnPatGet_of_not_leaf (h : Rooted s.nodes s.words t own) (hno : ∀ j ∈ t.leaves, s.keyOf j ≠ key) :
    grnPatGet s key = some 0 := by
  have hlen : lastCheck ([] : List (Frame ℕ)) < (key.length * 16 : ℕ) :=
    Int.negSucc_lt_zero 0 |>.trans_le (Int.natCast_nonneg _)
  have hloop := getLoop_eq (k := []) h.linked h.wf hlen (enoughFuel_start _)
  have hplug := plug_descend (word key) [] t
  refine Eq.trans hloop (congrArg some ?_)
  cases hend : (descend (word key) [] t).2 with
  | nil => rfl
  | node i c child => rfl
  | leaf i =>
    refine if_neg (hno i ?_)
    rw [← plug_nil t, ← hplug, hend]
    exact mem_plug_leaves.mpr (.inl (Multiset.mem_singleton_self i))

namespace Inv

/-- Different live records have different keys. -/
theorem eq_of_keyOf_eq (h : Inv s t own free lost) (hi : i ∈ t.leaves) (hj : j ∈ t.leaves)
    (hkey : s.keyOf i = s.keyOf j) : i = j := by
  have h1 := descend_leaf (k := []) h.rooted.wf hi
  have h2 := descend_leaf (k := []) h.rooted.wf hj
  have hw : s.words i = s.words j := congrArg word hkey
  rw [hw, h2] at h1
  exact (Trie.leaf.inj h1).symm

theorem live_ne_zero (h : Inv s t own free lost) (hi : i ∈ t.leaves) : i ≠ 0 :=
  h.rooted.ne_zero (mem_ids.mpr (.inr hi))

/-- **`_grn_pat_get` finds the live records.** -/
theorem grnPatGet_of_live (h : Inv s t own free lost) (hi : i ∈ t.leaves) (hkey : s.keyOf i = key) :
    grnPatGet s key = some i := by
  have hlen : lastCheck ([] : List (Frame ℕ)) < (key.length * 16 : ℕ) :=
    Int.negSucc_lt_zero 0 |>.trans_le (Int.natCast_nonneg _)
  have hloop := getLoop_eq (k := []) h.rooted.linked h.rooted.wf hlen (enoughFuel_start _)
  have hleaf : (descend (word key) [] t).2 = .leaf i := by
    rw [← hkey]
    exact descend_leaf h.rooted.wf hi
  rw [hleaf, outputOf, if_pos hkey] at hloop
  exact hloop

theorem grnPatGet_of_not_live (h : Inv s t own free lost) (hno : ∀ j ∈ t.leaves, s.keyOf j ≠ key) :
    grnPatGet s key = some 0 :=
  h.rooted.grnPatGet_of_not_leaf hno

/-- `_grn_pat_key` gives the key of every id that is known. -/
theorem grnPatKey_eq (h : Inv s t own free lost) (hi : s.KnownId lost i) :
    _grnPatKey s i = s.keyOf i := by
  have h1 := hi.1
  have h2 := hi.2.1
  have hseg : ¬ (i = 0 ∨ s.currRec / nodesInSegment s.isKeyLarge <
      i / nodesInSegment s.isKeyLarge) := by
    rintro (h0 | hlt)
    · omega
    · exact absurd (Nat.div_le_div_right h2) (Nat.not_le.mpr hlt)
  have hvalid := h.keys.valid i hi
  rw [_grnPatKey, if_neg hseg]
  cases hkey : (s.nodes i).key with
  | immediate key => exact (nodeKey_immediate hkey).symm
  | stored offset length =>
    rw [hkey] at hvalid
    have := lt_of_not_embeddable hvalid.1
    have := hvalid.2.1
    exact if_neg (by omega)

end Inv

/-! ## The map -/

/-- The map has the live records. -/
def Represents (s : GrnPat) (m : IdMap) (lost : Finset ℕ) : Prop :=
  ∃ t own free, Inv s t own free lost ∧ ∀ key id, m key = some id ↔ id ∈ t.leaves ∧ s.keyOf id = key

theorem represents_grnPatCreate (isKeyLarge : Bool) (cacheSize : ℕ) :
    Represents (grnPatCreate isKeyLarge cacheSize) (fun _ => none) ∅ := by
  refine ⟨_, _, _, inv_grnPatCreate isKeyLarge cacheSize, fun key id => ?_⟩
  refine iff_of_false nofun ?_
  rintro ⟨hid, -⟩
  exact absurd hid (Multiset.notMem_zero id)

theorem Represents.isMap (h : Represents s m lost) : IsMap s m := by
  obtain ⟨t, own, free, hinv, hm⟩ := h
  have hnone : ∀ key, m key = none → ∀ j ∈ t.leaves, s.keyOf j ≠ key := by
    intro key hnone j hj hkey
    rw [(hm key j).mpr ⟨hj, hkey⟩] at hnone
    cases hnone
  -- the live keys are the keys of the leaves
  have hset : {key | (m key).isSome} = ↑(t.leaves.toFinset.image s.keyOf) := by
    ext key
    rw [Set.mem_ofPred_eq, Option.isSome_iff_exists, Finset.mem_coe, Finset.mem_image]
    simp only [hm, Multiset.mem_toFinset]
  have hcard : (t.leaves.toFinset.image s.keyOf).card = t.leaves.card := by
    rw [Finset.card_image_of_injOn, Multiset.toFinset_card_of_nodup hinv.rooted.leaves_nodup]
    intro i hi j hj hij
    rw [Finset.mem_coe, Multiset.mem_toFinset] at hi hj
    exact hinv.eq_of_keyOf_eq hi hj hij
  refine
    { get := fun key => ?_
      id_ne_zero := fun key id hid => hinv.live_ne_zero ((hm key id).mp hid).1
      key := fun key id hid => ?_
      injective := fun key key' id h h' => ?_
      finite := by rw [hset]; exact Finset.finite_toSet _
      entries := ?_
      add := fun key hne hlen hroom => ?_ }
  · cases hmk : m key with
    | none => exact hinv.grnPatGet_of_not_live (hnone key hmk)
    | some id =>
      obtain ⟨hlive, hkey⟩ := (hm key id).mp hmk
      exact hinv.grnPatGet_of_live hlive hkey
  · obtain ⟨hlive, hkey⟩ := (hm key id).mp hid
    rw [hinv.grnPatKey_eq (hinv.known (mem_ids.mpr (.inr hlive))), hkey]
  · rw [← ((hm key id).mp h).2, ((hm key' id).mp h').2]
  · rw [hset, Set.ncard_coe_finset, hcard, hinv.accounts.entries]
  · obtain ⟨⟨s', id, b⟩, hadd⟩ := Option.isSome_iff_exists.mp (grnPatAdd_isSome hinv hne hlen hroom)
    obtain ⟨t', own', free', -, hadded⟩ := grnPatAdd_spec hinv hadd
    cases hadded with
    | there hlive hkey =>
      have hmk := (hm key id).mpr ⟨hlive, hkey⟩
      refine ⟨s', id, by rw [hmk, hadd]; rfl, fun id' hid' => ?_⟩
      rw [hmk] at hid'
      exact Option.some.inj hid'
    | new hno =>
      have hmk : m key = none := by
        cases hmk : m key with
        | none => rfl
        | some id' =>
          obtain ⟨hlive, hkey⟩ := (hm key id').mp hmk
          exact absurd hkey (hno id' hlive)
      refine ⟨s', id, by rw [hmk, hadd]; rfl, fun id' hid' => ?_⟩
      rw [hmk] at hid'
      cases hid'

/-! ## Steps -/

/-- A deletion by key removes the key from the map. -/
theorem represents_delete (h : Inv s t own free lost)
    (hm : ∀ key id, m key = some id ↔ id ∈ t.leaves ∧ s.keyOf id = key) :
    ∃ s' b, _grnPatDel s key = some (s', b) ∧ Represents s' (Function.update m key none) lost := by
  obtain ⟨s', b, t', own', free', hdel, hinv, hdeleted, hkeyOf⟩ := @_grnPatDel_spec s t own free lost key h
  refine ⟨s', b, hdel, t', own', free', hinv, fun k id => ?_⟩
  rw [hkeyOf]
  cases hdeleted with
  | missing hno hleaves =>
    rw [hleaves]
    by_cases hk : k = key
    · rw [hk, Function.update_self]
      refine iff_of_false nofun ?_
      rintro ⟨hid, hkey⟩
      exact hno id hid hkey
    · rw [Function.update_of_ne hk]
      exact hm k id
  | gone i hkey hleaves =>
    have hi : i ∈ t.leaves := by
      rw [hleaves]
      exact Multiset.mem_cons_self ..
    have hnodup := h.rooted.leaves_nodup
    rw [hleaves, Multiset.nodup_cons] at hnodup
    by_cases hk : k = key
    · rw [hk, Function.update_self]
      refine iff_of_false nofun ?_
      rintro ⟨hid, hkid⟩
      have hid' : id ∈ t.leaves := by
        rw [hleaves]
        exact Multiset.mem_cons_of_mem hid
      exact hnodup.1 (h.eq_of_keyOf_eq hi hid' (hkey.trans hkid.symm) ▸ hid)
    · rw [Function.update_of_ne hk, hm k id, hleaves, Multiset.mem_cons]
      constructor
      · rintro ⟨rfl | hid, hkid⟩
        · exact absurd (hkid.symm.trans hkey) hk
        · exact ⟨hid, hkid⟩
      · exact fun hid => ⟨.inr hid.1, hid.2⟩

/-- **One call.** -/
theorem Represents.step (h : Represents s m lost) {c : Call} (hc : MeetsOwnKey s m c) :
    Represents (call s c).1 (m.after c (call s c).2) lost := by
  obtain ⟨t, own, free, hinv, hm⟩ := h
  cases c with
  | get key => exact ⟨t, own, free, hinv, hm⟩
  | add key =>
    cases hadd : grnPatAdd s key with
    | none =>
      simp only [call, hadd, IdMap.after, true_or, if_true]
      exact ⟨t, own, free, hinv, hm⟩
    | some r =>
      obtain ⟨s', id, b⟩ := r
      obtain ⟨t', own', free', hinv', hadded⟩ := grnPatAdd_spec hinv hadd
      simp only [call, hadd, IdMap.after]
      refine ⟨t', own', free', hinv', fun k id' => ?_⟩
      cases hadded with
      | there hlive hkey hleaves hkeep =>
        have hmk := (hm key id).mpr ⟨hlive, hkey⟩
        rw [if_pos (.inr (by rw [hmk]; rfl)), hm, hleaves]
        exact and_congr_right fun hid' => by rw [hkeep id' hid']
      | new hno hpending hlive hi hkey hleaves hkeep =>
        have hmk : ¬ (id = 0 ∨ (m key).isSome) := by
          rintro (h0 | hsome)
          · exact hi h0
          · obtain ⟨id', hid'⟩ := Option.isSome_iff_exists.mp hsome
            obtain ⟨hl, hk⟩ := (hm key id').mp hid'
            exact hno id' hl hk
        rw [if_neg hmk, hleaves, Multiset.mem_cons]
        by_cases hk : k = key
        · rw [hk, Function.update_self]
          constructor
          · intro hid
            obtain rfl := Option.some.inj hid
            exact ⟨.inl rfl, hkey⟩
          · rintro ⟨rfl | hid', hk'⟩
            · rfl
            · rw [hkeep id' hid'] at hk'
              exact absurd hk' (hno id' hid')
        · rw [Function.update_of_ne hk, hm]
          constructor
          · exact fun hid' => ⟨.inr hid'.1, by rw [hkeep id' hid'.1, hid'.2]⟩
          · rintro ⟨rfl | hid', hk'⟩
            · exact absurd (hk'.symm.trans hkey) hk
            · exact ⟨hid', by rw [← hkeep id' hid', hk']⟩
  | delete key =>
    by_cases hkey : key = []
    · -- no live key is empty
      have hmk : m key = none := by
        cases hmk : m key with
        | none => rfl
        | some id =>
          obtain ⟨hlive, hk⟩ := (hm key id).mp hmk
          exact absurd (hk.trans hkey) (hinv.keyOf_ne_nil (mem_ids.mpr (.inr hlive)))
      have hdel : grnPatDelete s key = some (s, false) := if_pos hkey
      simp only [call, hdel, IdMap.after]
      rw [← hmk, Function.update_eq_self]
      exact ⟨t, own, free, hinv, hm⟩
    · have hdel : grnPatDelete s key = _grnPatDel s key := if_neg hkey
      obtain ⟨s', b, hdel', hrep⟩ := @represents_delete s t own free lost m key hinv hm
      simp only [call, hdel, hdel', IdMap.after]
      exact hrep
  | deleteById id =>
    have hzero : ∀ k, m k ≠ some 0 := fun k hk => hinv.live_ne_zero ((hm k 0).mp hk).1 rfl
    by_cases hid : id = 0
    · subst hid
      have hdel : grnPatDeleteById s 0 = some (s, false) := if_pos rfl
      simp only [call, hdel, IdMap.after, hzero, if_false]
      exact ⟨t, own, free, hinv, hm⟩
    · have hdel : grnPatDeleteById s id = _grnPatDel s (_grnPatKey s id) := if_neg hid
      obtain ⟨s', b, hdel', hrep⟩ := @represents_delete s t own free lost m (_grnPatKey s id) hinv hm
      simp only [call, hdel, hdel']
      -- the key of the node is that of the live record, or of no live record
      have hafter : m.after (.deleteById id) 0 = Function.update m (_grnPatKey s id) none := by
        funext k
        simp only [IdMap.after]
        by_cases hk : k = _grnPatKey s id
        · rw [hk, Function.update_self]
          cases hmk : m (_grnPatKey s id) with
          | none => exact if_neg nofun
          | some id' => rw [hc id' hmk, if_pos rfl]
        · rw [Function.update_of_ne hk]
          refine if_neg fun hmk => hk ?_
          obtain ⟨hlive, hk'⟩ := (hm k id).mp hmk
          rw [hinv.grnPatKey_eq (hinv.known (mem_ids.mpr (.inr hlive))), hk']
      rw [hafter]
      exact hrep

/-- **A run.** -/
theorem Represents.run (h : Represents s m lost) {calls : List Call} (hcalls : AllMeetOwnKey s m calls) :
    Represents (runWith s m calls).1 (runWith s m calls).2 lost := by
  induction calls generalizing s m with
  | nil => exact h
  | cons c calls ih => exact ih (h.step hcalls.1) hcalls.2

/-- **The table refines the finite map** in every run in which no deletion by id meets a
key that another live record has. -/
theorem isMap_runWith (isKeyLarge : Bool) (cacheSize : ℕ) (calls : List Call)
    (hcalls : AllMeetOwnKey (grnPatCreate isKeyLarge cacheSize) (fun _ => none) calls) :
    IsMap (runWith (grnPatCreate isKeyLarge cacheSize) (fun _ => none) calls).1
      (runWith (grnPatCreate isKeyLarge cacheSize) (fun _ => none) calls).2 :=
  ((represents_grnPatCreate isKeyLarge cacheSize).run hcalls).isMap

theorem isMap_runWith_three : AllMeetOwnKey (grnPatCreate false 0) (fun _ => none)
      [.add [97], .add [98], .deleteById 1] ∧
    IsMap (runWith (grnPatCreate false 0) (fun _ => none) [.add [97], .add [98], .deleteById 1]).1
      (runWith (grnPatCreate false 0) (fun _ => none) [.add [97], .add [98], .deleteById 1]).2 := by
  have hcalls : AllMeetOwnKey (grnPatCreate false 0) (fun _ => none)
      [.add [97], .add [98], .deleteById 1] := by
    refine ⟨trivial, trivial, fun id' hid' => ?_, trivial⟩
    have hkey : (runWith (grnPatCreate false 0) (fun _ => none) [.add [97], .add [98]]).2
        (_grnPatKey (runWith (grnPatCreate false 0) (fun _ => none) [.add [97], .add [98]]).1 1) =
          some 1 := by decide
    exact Option.some.inj (hid'.symm.trans hkey)
  exact ⟨hcalls, isMap_runWith false 0 _ hcalls⟩

/-- A key is added, deleted, added again as the record 2, and deleted by its old id. -/
def staleCalls : List Call := [.add [97], .delete [97], .add [97], .deleteById 1]

/-- The deletion by the old id deletes the record 2. -/
theorem not_isMap_staleCalls :
    ¬ IsMap (runWith (grnPatCreate false 0) (fun _ => none) staleCalls).1
      (runWith (grnPatCreate false 0) (fun _ => none) staleCalls).2 := by
  intro h
  have hlive : (runWith (grnPatCreate false 0) (fun _ => none) staleCalls).2 [97] = some 2 := by
    decide
  have hget : grnPatGet (runWith (grnPatCreate false 0) (fun _ => none) staleCalls).1 [97] =
      some 0 := by decide
  have := h.get [97]
  rw [hlive, hget] at this
  cases this

/-! ## The accounting of the ids -/

/-- The id of a live key. -/
def LiveId (s : GrnPat) (i : ℕ) : Prop := i ≠ 0 ∧ ∃ key, grnPatGet s key = some i

/-- **Each id is in exactly one place**: live, pending in the ring, or on the list of free
nodes of its size. -/
structure Accounting (s : GrnPat) (free : ℕ → List ℕ) : Prop where
  total : ∀ i, 1 ≤ i ∧ i ≤ s.currRec ↔ LiveId s i ∨ Pending s.delinfos i ∨ ∃ n, i ∈ free n
  live_not_pending : ∀ i, LiveId s i → ¬ Pending s.delinfos i
  live_not_free : ∀ i, LiveId s i → ∀ n, i ∉ free n
  pending_not_free : ∀ i, Pending s.delinfos i → ∀ n, i ∉ free n
  one_list : ∀ m n i, i ∈ free m → i ∈ free n → m = n
  chain : ∀ n, Chain s.nodes (s.garbages n) (free n)
  acyclic : ∀ n, (free n).Nodup
  size : ∀ n, ∀ i ∈ free n, (s.nodes i).key.storageSize = n
  count : s.nEntries + s.nGarbages = s.currRec
  fresh : ∀ key s' id, grnPatAdd s key = some (s', id, true) →
    ¬ LiveId s id ∧ ¬ Pending s.delinfos id

theorem Inv.liveId_iff (h : Inv s t own free lost) : LiveId s i ↔ i ∈ t.leaves := by
  constructor
  · rintro ⟨hi, key, hget⟩
    by_contra hno
    by_cases hlive : ∃ j ∈ t.leaves, s.keyOf j = key
    · obtain ⟨j, hj, hkey⟩ := hlive
      rw [h.grnPatGet_of_live hj hkey] at hget
      exact hno (Option.some.inj hget ▸ hj)
    · push Not at hlive
      rw [h.grnPatGet_of_not_live hlive] at hget
      exact hi (Option.some.inj hget).symm
  · exact fun hi => ⟨h.live_ne_zero hi, _, h.grnPatGet_of_live hi rfl⟩

theorem Inv.accounting (h : Inv s t own free ∅) : Accounting s free where
  total := fun i => by simp [h.liveId_iff, h.accounts.total, GrnPat.KnownId]
  live_not_pending := fun i hi => h.accounts.live_not_pending i (h.liveId_iff.mp hi)
  live_not_free := fun i hi => h.accounts.live_not_free i (h.liveId_iff.mp hi)
  pending_not_free := h.accounts.pending_not_free
  one_list := h.accounts.free_disjoint
  chain := h.accounts.chain
  acyclic := h.accounts.free_nodup
  size := h.accounts.size
  count := h.accounts.count
  fresh := by
    intro key s' id hadd
    obtain ⟨t', own', free', -, hadded⟩ := grnPatAdd_spec h hadd
    cases hadded with
    | new hno hpending hlive => exact ⟨fun hid => hlive (h.liveId_iff.mp hid), hpending⟩

/-- Every call keeps the invariant, whatever id it is given. -/
theorem Inv.call (h : Inv s t own free lost) (c : Call) :
    ∃ t' own' free', Inv (call s c).1 t' own' free' lost := by
  have hdel : ∀ key, ∃ s' b t' own' free', _grnPatDel s key = some (s', b) ∧ Inv s' t' own' free' lost := by
    intro key
    obtain ⟨s', b, t', own', free', hdel, hinv, -, -⟩ := @_grnPatDel_spec s t own free lost key h
    exact ⟨s', b, t', own', free', hdel, hinv⟩
  cases c with
  | get key => exact ⟨t, own, free, h⟩
  | add key =>
    cases hadd : grnPatAdd s key with
    | none =>
      simp only [Pat.call, hadd]
      exact ⟨t, own, free, h⟩
    | some r =>
      obtain ⟨s', id, b⟩ := r
      obtain ⟨t', own', free', hinv, -⟩ := grnPatAdd_spec h hadd
      simp only [Pat.call, hadd]
      exact ⟨t', own', free', hinv⟩
  | delete key =>
    by_cases hkey : key = []
    · have heq : grnPatDelete s key = some (s, false) := if_pos hkey
      simp only [Pat.call, heq]
      exact ⟨t, own, free, h⟩
    · have heq : grnPatDelete s key = _grnPatDel s key := if_neg hkey
      obtain ⟨s', b, t', own', free', hdel, hinv⟩ := hdel key
      simp only [Pat.call, heq, hdel]
      exact ⟨t', own', free', hinv⟩
  | deleteById id =>
    by_cases hid : id = 0
    · have heq : grnPatDeleteById s id = some (s, false) := if_pos hid
      simp only [Pat.call, heq]
      exact ⟨t, own, free, h⟩
    · have heq : grnPatDeleteById s id = _grnPatDel s (_grnPatKey s id) := if_neg hid
      obtain ⟨s', b, t', own', free', hdel, hinv⟩ := hdel (_grnPatKey s id)
      simp only [Pat.call, heq, hdel]
      exact ⟨t', own', free', hinv⟩

theorem Inv.run (h : Inv s t own free lost) (calls : List Call) :
    ∃ t' own' free', Inv (run s calls) t' own' free' lost := by
  induction calls generalizing s t own free lost with
  | nil => exact ⟨t, own, free, h⟩
  | cons c calls ih =>
    obtain ⟨t', own', free', hinv⟩ := h.call c
    exact ih hinv

/-- **Every id is accounted for in every run.** -/
theorem accounting_run (isKeyLarge : Bool) (cacheSize : ℕ) (calls : List Call) :
    ∃ free, Accounting (run (grnPatCreate isKeyLarge cacheSize) calls) free := by
  obtain ⟨t, own, free, hinv⟩ := (inv_grnPatCreate isKeyLarge cacheSize).run calls
  exact ⟨free, hinv.accounting⟩

end Groonga.Pat
