import Groonga.Pat.Fuzzy
import Mathlib

/-!
# What fuzzy searches find

Without required bytes a search goes through the whole trie. With them it starts at the place of the
prefix. If one record is left there, then its node may be the branch of a place above, and the search
goes through that place instead: what it meets there does not begin with the prefix. A record without a
branch leads back to itself.

A record that takes the place of a deleted one later on has old links until then, and a search that starts at it
follows them.
-/

namespace Groonga.Pat

open Lib Lib.Patricia Lib.Patricia.Trie

variable {s : GrnPat} {t : Trie ℕ} {own : ℕ → ℕ} {free : ℕ → List ℕ} {lost : Finset ℕ}
  {d₀ data : FuzzySearchData} {key p : List UInt8} {done ids : List ℕ} {id l : ℕ}

/-! ## The start -/

/-- The way down reads the required bytes only. -/
theorem prefixLoop_take {n : ℕ} (hn0 : n ≠ 0) (hn : n < 2 ^ 27) (fuel r : ℕ) (c0 : ℤ) :
    prefixLoop s key (int32 (n * 16)) fuel r c0 = prefixLoop s (key.take n) (int32 (n * 16)) fuel r c0 := by
  obtain ⟨hlen, hlast⟩ := int32_eq hn
  have hlast := hlast hn0
  induction fuel generalizing r c0 with
  | zero => rfl
  | succ fuel ih =>
    rw [prefixLoop, prefixLoop]
    simp only [hlast]
    split_ifs with hr hgo
    · rfl
    · have hdirection : grnPatNextLocation r key (s.nodes r).check (int32 (n * 16)).toNat =
          grnPatNextLocation r (key.take n) (s.nodes r).check (int32 (n * 16)).toNat := by
        have hlt : (s.nodes r).check < n * 16 - 1 := Int.ofNat_lt.mp hgo.2
        have hbit : nthBit key (s.nodes r).check = nthBit (key.take n) (s.nodes r).check := by
          rw [nthBit, nthBit, List.getD_eq_getElem?_getD, List.getD_eq_getElem?_getD,
            List.getElem?_take_of_lt (by omega)]
        rw [grnPatNextLocation, grnPatNextLocation, direction, direction, hbit]
      rw [hdirection]
      exact ih _ _
    · rfl

/-- No deletion that is not carried out yet has left the place of the only key with a prefix for later. -/
def NoneAlone (s : GrnPat) (p : List UInt8) : Prop :=
  ∀ n, (s.delinfos n).stat = .phase1 → p <+: s.keyOf (s.delinfos n).ld →
    ∃ key id, LiveKey s key id ∧ id ≠ (s.delinfos n).ld ∧ p <+: key

/-- **What a search goes through**: records in the order of their keys, and all that it should find. -/
structure GoesThrough (s : GrnPat) (t : Trie ℕ) (d₀ : FuzzySearchData) (ids : List ℕ) : Prop where
  ordered : ids.Pairwise (KeyBefore s false)
  live : ∀ j ∈ ids, j ∈ t.leaves
  complete : ∀ j ∈ t.leaves, Matches d₀ (s.keyOf j) → j ∈ ids

/-- A tree that is linked to the place where a search starts. -/
theorem Inv.searchBelow {t' : Trie ℕ} (hinv : Inv s t own free lost) (hq : Query d₀) (h₀ : Searching s d₀ d₀ [])
    (hlast : d₀.lastKey = []) (htext : ∀ j ∈ t.leaves, IsText (s.keyOf j)) (hlink : Linked s.nodes (-1) id t')
    (hwf : WF s.words (-1) t') (hid : id ≠ 0) (hids : ∀ j ∈ t'.ids, j ∈ t.ids)
    (hleaves : ∀ j ∈ t'.leaves, j ∈ t.leaves) (hcard : t'.inner.card ≤ s.currRec)
    (hcomplete : ∀ j ∈ t.leaves, Matches d₀ (s.keyOf j) → j ∈ t'.leaves) :
    ∃ data ids, fuzzySearchRecursive s (s.currRec + 2) d₀ id (-1) = some data ∧ Searching s d₀ data ids ∧
      GoesThrough s t d₀ ids := by
  have hne : ∀ j ∈ t'.ids, s.keyOf j ≠ [] := fun j hj => hinv.keyOf_ne_nil (hids j hj)
  obtain ⟨data, hsearch, hsearching, -⟩ := h₀.recursive hq hlink hwf hid (show _ < s.currRec + 2 by omega) hne
    (fun j hj => htext j (hleaves j hj)) (fun h => absurd hlast h) fun j hj => by
      obtain ⟨c, rest, hkey⟩ := List.exists_cons_of_ne_nil (hne j (mem_ids.mpr (.inr hj)))
      rw [hlast, hkey]
      exact List.nil_lt_cons c rest
  rw [List.nil_append] at hsearching
  refine ⟨data, _, hsearch, hsearching, ?_, fun j hj => hleaves j (mem_inOrder.mp hj), fun j hj hmatch =>
    mem_inOrder.mpr (hcomplete j hj hmatch)⟩
  refine (hwf.pairwise_inOrder false).imp_of_mem fun ha hb hab => ?_
  exact (keyBefore_iff (hne _ (mem_ids.mpr (.inr (mem_inOrder.mp ha))))
    (hne _ (mem_ids.mpr (.inr (mem_inOrder.mp hb))))).mp hab

/-- A record without a branch leads back to itself. -/
theorem Inv.searchDisabled (hinv : Inv s t own free lost) (hq : Query d₀) (h₀ : Searching s d₀ d₀ [])
    (hlast : d₀.lastKey = []) (hcan : d₀.canTransition = true) (htext : ∀ j ∈ t.leaves, IsText (s.keyOf j))
    (hl : l ∈ t.leaves) (hloop : SelfLoop s.nodes l)
    (hcomplete : ∀ j ∈ t.leaves, Matches d₀ (s.keyOf j) → j = l) :
    ∃ data ids, fuzzySearchRecursive s (s.currRec + 2) d₀ l (-1) = some data ∧ Searching s d₀ data ids ∧
      GoesThrough s t d₀ ids := by
  have hl0 : l ≠ 0 := hinv.live_ne_zero hl
  have hrange := hinv.range (mem_ids.mpr (.inr hl))
  obtain ⟨fuel, hfuel⟩ : ∃ fuel, s.currRec = fuel + 1 := ⟨s.currRec - 1, by omega⟩
  have hpos : (-1 : ℤ) < (s.nodes l).check := by omega
  have hrecord : fuzzySearchRecursive s (fuel + 2) d₀ l (s.nodes l).check =
      some (fuzzySearchRecord d₀ l (s.keyOf l)) := by
    rw [fuzzySearchRecursive]
    exact if_neg (lt_irrefl _)
  obtain ⟨c, rest, hkey⟩ := List.exists_cons_of_ne_nil (hinv.keyOf_ne_nil (mem_ids.mpr (.inr hl)))
  obtain ⟨hsearching, -⟩ := h₀.record hq (htext l hl) (by
    rw [hlast, hkey]
    exact List.nil_lt_cons c rest)
  refine ⟨_, [l], ?_, hsearching, List.pairwise_singleton .., fun j hj => ?_, fun j hj hmatch => ?_⟩
  · rw [hfuel, fuzzySearchRecursive, if_pos hpos, if_neg (fun h => by rw [hcan] at h; exact Bool.noConfusion h.2)]
    rcases hloop with ⟨hleft, hright⟩ | ⟨hright, hleft⟩
    · simp only [hleft, hright, if_pos, if_neg hl0, Option.bind_some]
      exact hrecord
    · simp only [hleft, hright, if_pos, if_neg hl0, hrecord, Option.bind_some]
  · rw [List.mem_singleton.mp hj]
    exact hl
  · exact List.mem_singleton.mpr (hcomplete j hj hmatch)

theorem neg_one_le_lastCheck (k : List (Frame ℕ)) : -1 ≤ lastCheck k := by
  cases k with
  | nil => exact le_refl _
  | cons f k => exact (Int.negSucc_lt_zero 0).le.trans (Int.natCast_nonneg _)

/-- **A search with required bytes starts** at a node from which it goes through all that it should find. -/
theorem Inv.searchPrefixed (hinv : Inv s t own free lost) (hq : Query d₀) (h₀ : Searching s d₀ d₀ [])
    (hlast : d₀.lastKey = []) (hcan : d₀.canTransition = true) (htext : ∀ j ∈ t.leaves, IsText (s.keyOf j))
    (hpos : 0 < d₀.prefixMatchSize) (hsmall : d₀.key.length < 2 ^ 27)
    (halone : NoneAlone s (d₀.key.take d₀.prefixMatchSize)) :
    ∃ id, findPrefixedStart s d₀.key d₀.prefixMatchSize = some id ∧
      ((id = 0 ∧ ∀ j ∈ t.leaves, ¬ Matches d₀ (s.keyOf j)) ∨
        id ≠ 0 ∧ ∃ data ids, fuzzySearchRecursive s (s.currRec + 2) d₀ id (-1) = some data ∧
          Searching s d₀ data ids ∧ GoesThrough s t d₀ ids) := by
  have hle := hq.prefix_le
  have hlength : (d₀.key.take d₀.prefixMatchSize).length = d₀.prefixMatchSize := by
    rw [List.length_take, Nat.min_eq_left hle]
  have hp : d₀.key.take d₀.prefixMatchSize ≠ [] := fun hnil => by
    rw [hnil] at hlength
    exact hpos.ne hlength
  have htake := fun r c0 => @prefixLoop_take s d₀.key d₀.prefixMatchSize hpos.ne' (hle.trans_lt hsmall)
    (s.currRec + 1) r c0
  have hcases := hinv.prefixLoop_cases hp
  rw [hlength, ← htake] at hcases
  have htest : ∀ r, d₀.key.take d₀.prefixMatchSize <+: s.keyOf r ↔ ¬ (s.keyOf r).length < d₀.prefixMatchSize ∧
      (s.keyOf r).take d₀.prefixMatchSize = d₀.key.take d₀.prefixMatchSize := fun r => by
    have h := @prefix_iff_take (d₀.key.take d₀.prefixMatchSize) (s.keyOf r)
    rwa [hlength] at h
  rw [findPrefixedStart]
  rcases hcases with ⟨r, c0, hloop, hr, hno⟩ | ⟨k, t', hplace, hne, htop, hstart, -, -, hloop⟩
  · refine ⟨0, ?_, .inl ⟨rfl, fun j hj hmatch => hno j hj hmatch.1⟩⟩
    rw [hloop, Option.map_some]
    refine congrArg some ?_
    by_cases hr0 : r = 0
    · exact if_pos hr0
    · have hr := hr.resolve_left hr0
      rw [htest, not_and] at hr
      simp only [if_neg hr0]
      by_cases hshort : (s.keyOf r).length < d₀.prefixMatchSize
      · exact if_pos hshort
      · rw [if_neg hshort, if_neg (hr hshort)]
  · obtain ⟨hlong, hsame⟩ := (htest _).mp hstart
    refine ⟨topId t', ?_, .inr ⟨hne, ?_⟩⟩
    · rw [hloop, Option.map_some]
      simp only [if_neg hne, if_neg hlong, if_pos hsame]
    · have hwf := hplace.wf
      have hlinked := hplace.linked
      have hall : ∀ j ∈ t.leaves, Matches d₀ (s.keyOf j) → j ∈ t'.leaves := fun j hj hmatch =>
        hplace.all j hj hmatch.1
      cases t' with
      | nil => exact absurd rfl hne
      | node i c child =>
        obtain rfl : linkAt s.nodes (place k) = i := hlinked.1
        exact @Inv.searchBelow s t own free lost d₀ _ (.node _ c child) hinv hq h₀ hlast htext hlinked
          (hwf.mono (neg_one_le_lastCheck k)) hne hplace.ids_subset hplace.mem_leaves hplace.inner_le hall
      | leaf l =>
        have hl : l ∈ t.leaves := hplace.mem_leaves l (Multiset.mem_singleton_self l)
        have honly : ∀ j ∈ t.leaves, Matches d₀ (s.keyOf j) → j = l := fun j hj hmatch =>
          Multiset.mem_singleton.mp (hall j hj hmatch)
        by_cases hinner : l ∈ t.inner
        · -- the record is the branch of a place above
          obtain ⟨k', c, child, hplug⟩ := exists_plug_of_mem_inner hinner
          have hwf' := hinv.rooted.wf
          have hlinked' := hinv.rooted.linked
          have howned := hinv.rooted.owned
          have hcard := hinv.card_inner_le
          rw [← hplug] at hwf' hlinked' howned hcard
          have hlink := (linked_plug.mp hlinked').2
          obtain hat : linkAt s.nodes (place k') = l := hlink.1
          rw [hat] at hlink
          have hmem := (owned_plug.mp howned).1.1
          rw [hinv.rooted.own_self l hinner hl] at hmem
          rw [inner_plug, Multiset.card_add] at hcard
          have hbelow := (wf_plug.mp hwf').2.1
          refine @Inv.searchBelow s t own free lost d₀ l (.node l c child) hinv hq h₀ hlast htext hlink
            (hbelow.mono (neg_one_le_lastCheck k')) hne (fun j hj => ?_) (fun j hj => ?_)
            ((Nat.le_add_right ..).trans hcard) fun j hj hmatch => ?_
          · rw [← hplug]
            exact mem_ids_plug.mpr (.inl hj)
          · rw [← hplug, leaves_plug]
            exact Multiset.mem_add.mpr (.inl hj)
          · rw [honly j hj hmatch]
            exact hmem
        · by_cases howner : ∃ j ∈ t.inner, own j = l
          · -- it will take the place of a deleted record
            exfalso
            obtain ⟨j, hj, hjl⟩ := howner
            have hdead : j ∉ t.leaves := fun hlive => hinner (by
              rw [← hjl, hinv.rooted.own_self j hj hlive]
              exact hj)
            obtain ⟨n, hn, rfl⟩ := hinv.slots.dead j hj hdead
            have hld := (hinv.slots.phase1 n hn).2.2
            rw [hjl] at hld
            obtain ⟨_, id, hlive, hneq, hbegins⟩ := halone n hn (hld ▸ hstart)
            obtain ⟨hid, rfl⟩ := hinv.liveKey_iff.mp hlive
            exact hneq ((Multiset.mem_singleton.mp (hplace.all id hid hbegins)).trans hld)
          · refine hinv.searchDisabled hq h₀ hlast hcan htext hl
              (hinv.rooted.disabled l hl fun j hj hjl => howner ⟨j, hj, hjl⟩).selfLoop honly

/-! ## The whole search -/

theorem perm_pushAll (nodes : List (ℕ × ℕ)) : (pushAll nodes).Perm nodes := by
  induction nodes using List.reverseRecOn with
  | nil => exact .refl _
  | append_singleton nodes node ih =>
    rw [pushAll_append_singleton]
    exact (perm_fuzzyHeapPush _ _ _).trans ((ih.cons _).trans (List.perm_append_singleton _ _).symm)

/-- The records that a heap holds, as `grn_pat_fuzzy_search` adds them to its result. -/
def scored (maxDistance maxExpansions : ℕ) (heap : List (ℕ × ℕ)) : FuzzyRc × List (ℕ × ℕ) :=
  let nodes := if 0 < maxExpansions then heap.take maxExpansions else heap
  (if nodes = [] then .endOfData else .success, nodes.map fun node => (node.1, maxDistance - node.2 + 1))

theorem scored_nil (maxDistance maxExpansions : ℕ) : scored maxDistance maxExpansions [] = (.endOfData, []) := by
  rw [scored, List.take_nil, ite_self]
  rfl

theorem searching_initData {memory : ℕ → ℕ → ℕ} {transposition : Bool} {maxDistance maxExpansions prefixMatchSize : ℕ}
    (hsmall : (characters key).length + ((characters key).length + maxDistance) + 2 < 2 ^ 16) :
    Searching s (initData memory key transposition maxDistance maxExpansions prefixMatchSize)
      (initData memory key transposition maxDistance maxExpansions prefixMatchSize) [] where
  cached := {
    same := rfl
    text := ⟨[], rfl, List.not_mem_nil⟩
    rows := ⟨[], List.nil_suffix, (Nat.zero_min _).symm, rows_initDists memory (characters key) hsmall⟩
    stops := fun h => Bool.noConfusion h }
  heap := rfl

open scoped Classical in
/-- **A search pushes the records that match**, in the order of their keys, and gives what is then in the heap. -/
theorem Inv.grnPatFuzzySearch_eq {memory : ℕ → ℕ → ℕ} {transposition : Bool}
    {maxDistance maxExpansions prefixMatchSize : ℕ} (hinv : Inv s t own free lost)
    (htext : ∀ j ∈ t.leaves, IsText (s.keyOf j)) (hlen : key.length ≤ maxKeySize) (hpos : maxDistance ≠ 0)
    (hmax : maxDistance ≤ maxKeySize) (hbegins : prefixMatchSize ≤ key.length)
    (halone : 0 < prefixMatchSize → NoneAlone s (key.take prefixMatchSize)) :
    ∃ ids : List ℕ, ids.Pairwise (KeyBefore s false) ∧
      (∀ id, id ∈ ids ↔ id ∈ t.leaves ∧
        Matches (initData memory key transposition maxDistance maxExpansions prefixMatchSize) (s.keyOf id)) ∧
      grnPatFuzzySearch s memory key transposition maxDistance maxExpansions prefixMatchSize =
        some (scored maxDistance maxExpansions (pushAll (ids.map fun i => (i, keyDistance
          (initData memory key transposition maxDistance maxExpansions prefixMatchSize) (s.keyOf i))))) := by
  have hchars := length_characters_le key
  have hsmall : (characters key).length + ((characters key).length + maxDistance) + 2 < 2 ^ 16 := by
    rw [maxKeySize] at hlen hmax
    omega
  have h₀ := @searching_initData s key memory transposition maxDistance maxExpansions prefixMatchSize hsmall
  have hq : Query (initData memory key transposition maxDistance maxExpansions prefixMatchSize) :=
    ⟨rfl, hsmall, hbegins⟩
  rw [grnPatFuzzySearch, if_neg hpos, if_neg (by omega)]
  have hkey : (initData memory key transposition maxDistance maxExpansions prefixMatchSize).key = key := rfl
  have hsize : (initData memory key transposition maxDistance maxExpansions prefixMatchSize).prefixMatchSize =
    prefixMatchSize := rfl
  have hlast : (initData memory key transposition maxDistance maxExpansions prefixMatchSize).lastKey = [] := rfl
  have hcan : (initData memory key transposition maxDistance maxExpansions prefixMatchSize).canTransition = true := rfl
  generalize initData memory key transposition maxDistance maxExpansions prefixMatchSize = d₀ at *
  -- where the search starts
  have hstart : ∃ id, (if 0 < prefixMatchSize then findPrefixedStart s key prefixMatchSize else
      some (s.load .root)) = some id ∧ ((id = 0 ∧ ∀ j ∈ t.leaves, ¬ Matches d₀ (s.keyOf j)) ∨
        id ≠ 0 ∧ ∃ data ids, fuzzySearchRecursive s (s.currRec + 2) d₀ id (-1) = some data ∧
          Searching s d₀ data ids ∧ GoesThrough s t d₀ ids) := by
    by_cases hprefixed : 0 < prefixMatchSize
    · have hshort : key.length < 2 ^ 27 := hlen.trans_lt (by rw [maxKeySize]; norm_num)
      have halone := halone hprefixed
      rw [if_pos hprefixed]
      rw [← hsize] at hprefixed halone ⊢
      rw [← hkey] at hshort halone ⊢
      exact hinv.searchPrefixed hq h₀ hlast hcan htext hprefixed hshort halone
    · rw [if_neg hprefixed]
      refine ⟨_, rfl, ?_⟩
      have hlink := hinv.rooted.linked
      by_cases hzero : s.load .root = 0
      · rw [← load_eq, hzero] at hlink
        refine .inl ⟨hzero, fun j hj => ?_⟩
        rw [hlink.eq_nil] at hj
        exact absurd hj (Multiset.notMem_zero j)
      · exact .inr ⟨hzero, hinv.searchBelow hq h₀ hlast htext hlink hinv.rooted.wf hzero (fun j hj => hj)
          (fun j hj => hj) hinv.card_inner_le fun j hj _ => hj⟩
  obtain ⟨id, hid, ⟨rfl, hno⟩ | ⟨hne, data, ids, hsearch, hsearching, hthrough⟩⟩ := hstart
  · refine ⟨[], .nil, fun j => iff_of_false List.not_mem_nil fun h => hno j h.1 h.2, ?_⟩
    rw [hid, Option.bind_some, if_pos rfl]
    exact congrArg some (scored_nil _ _).symm
  · refine ⟨ids.filter fun i => decide (Matches d₀ (s.keyOf i)), hthrough.ordered.filter _, fun j => ?_, ?_⟩
    · rw [List.mem_filter, decide_eq_true_eq]
      exact ⟨fun h => ⟨hthrough.live j h.1, h.2⟩, fun h => ⟨hthrough.complete j h.1 h.2, h.2⟩⟩
    · rw [hid, Option.bind_some, if_neg hne, hsearch, Option.map_some, hsearching.heap]
      rfl

/-- **What brute force finds**: the records whose keys begin with the required bytes and are near enough, each once
and with its score. -/
def FindsFuzzily (s : GrnPat) (x : List Char) (transposition : Bool) (maxDistance prefixMatchSize : ℕ) : Prop :=
  ∀ memory : ℕ → ℕ → ℕ, ∃ rc nodes,
    grnPatFuzzySearch s memory (utf8 x) transposition maxDistance 0 prefixMatchSize = some (rc, nodes) ∧
      (nodes.map Prod.fst).Nodup ∧
      ∀ id score, (id, score) ∈ nodes ↔ ∃ y : List Char, LiveKey s (utf8 y) id ∧
        (utf8 x).take prefixMatchSize <+: utf8 y ∧ distance (transposes transposition) x y ≤ maxDistance ∧
          score = maxDistance - distance (transposes transposition) x y + 1

/-- The distance of a key from the query is that of their characters. -/
theorem keyDistance_initData {x y : List Char} (hx : '\x00' ∉ x) (hy : '\x00' ∉ y) (memory : ℕ → ℕ → ℕ)
    (transposition : Bool) (maxDistance maxExpansions prefixMatchSize : ℕ) :
    keyDistance (initData memory (utf8 x) transposition maxDistance maxExpansions prefixMatchSize) (utf8 y) =
      distance (transposes transposition) x y := by
  rw [keyDistance, initData]
  simp only
  rw [characters_of_text hx, characters_of_text hy, distance_map utf8EncodeChar_injective]
  rfl

/-- A record matches a query: its key begins with the required bytes and is near enough. -/
theorem matches_initData {x y : List Char} (hx : '\x00' ∉ x) (hy : '\x00' ∉ y) (memory : ℕ → ℕ → ℕ)
    (transposition : Bool) (maxDistance maxExpansions prefixMatchSize : ℕ) :
    Matches (initData memory (utf8 x) transposition maxDistance maxExpansions prefixMatchSize) (utf8 y) ↔
      (utf8 x).take prefixMatchSize <+: utf8 y ∧ distance (transposes transposition) x y ≤ maxDistance := by
  rw [Matches, keyDistance_initData hx hy]
  rfl

theorem Inv.findsFuzzily {x : List Char} {transposition : Bool} {maxDistance prefixMatchSize : ℕ}
    (hinv : Inv s t own free lost) (htext : ∀ key id, LiveKey s key id → IsText key) (hx : '\x00' ∉ x)
    (hlen : (utf8 x).length ≤ maxKeySize) (hpos : 1 ≤ maxDistance) (hmax : maxDistance ≤ maxKeySize)
    (hbegins : prefixMatchSize ≤ (utf8 x).length)
    (halone : 0 < prefixMatchSize → NoneAlone s ((utf8 x).take prefixMatchSize)) :
    FindsFuzzily s x transposition maxDistance prefixMatchSize := by
  intro memory
  have htext' : ∀ j ∈ t.leaves, IsText (s.keyOf j) := fun j hj => htext _ j (hinv.liveKey_iff.mpr ⟨hj, rfl⟩)
  obtain ⟨ids, hordered, hids, heq⟩ := @Inv.grnPatFuzzySearch_eq s t own free lost (utf8 x) memory transposition
    maxDistance 0 prefixMatchSize hinv htext' hlen (by omega) hmax hbegins halone
  have hnodup : ids.Nodup := by
    refine hordered.imp fun hab hsame => ?_
    subst hsame
    exact List.lt_irrefl _ hab
  have hperm := perm_pushAll (ids.map fun i => (i, keyDistance
    (initData memory (utf8 x) transposition maxDistance 0 prefixMatchSize) (s.keyOf i)))
  refine ⟨_, _, heq, ?_, fun id score => ?_⟩
  · rw [if_neg (Nat.lt_irrefl 0), List.map_map]
    refine (hperm.map Prod.fst).nodup_iff.mpr ?_
    rw [List.map_map]
    exact hnodup.map fun a b h => h
  · rw [if_neg (Nat.lt_irrefl 0), List.mem_map]
    constructor
    · rintro ⟨node, hnode, hpair⟩
      obtain ⟨i, hi, rfl⟩ := List.mem_map.mp (hperm.mem_iff.mp hnode)
      obtain ⟨rfl, rfl⟩ := Prod.mk.inj hpair
      obtain ⟨hlive, hmatch⟩ := (hids i).mp hi
      obtain ⟨y, hy, hy0⟩ := htext' i hlive
      rw [hy, matches_initData hx hy0] at hmatch
      refine ⟨y, hinv.liveKey_iff.mpr ⟨hlive, hy⟩, hmatch.1, hmatch.2, ?_⟩
      rw [hy, keyDistance_initData hx hy0]
    · rintro ⟨y, hlive, hrequired, hnear, rfl⟩
      obtain ⟨hid, hkey⟩ := hinv.liveKey_iff.mp hlive
      obtain ⟨y', hy', hy0⟩ := htext' id hid
      obtain rfl : y' = y := utf8_injective (hy'.symm.trans hkey)
      have hmatch : Matches (initData memory (utf8 x) transposition maxDistance 0 prefixMatchSize) (s.keyOf id) := by
        rw [hkey, matches_initData hx hy0]
        exact ⟨hrequired, hnear⟩
      refine ⟨(id, _), hperm.mem_iff.mpr (List.mem_map.mpr ⟨id, (hids id).mpr ⟨hid, hmatch⟩, rfl⟩), ?_⟩
      simp only [hkey, keyDistance_initData hx hy0]

/-- The keys of a reachable table are those of its ids. -/
theorem keyOf_of_liveKey {isKeyLarge : Bool} {cacheSize : ℕ} {ops : List Op}
    (h : LiveKey (runOps (grnPatCreate isKeyLarge cacheSize) ops) key id) :
    1 ≤ id ∧ id ≤ (runOps (grnPatCreate isKeyLarge cacheSize) ops).currRec ∧
      (runOps (grnPatCreate isKeyLarge cacheSize) ops).keyOf id = key := by
  obtain ⟨t, own, free, lost, hinv⟩ := (inv_grnPatCreate isKeyLarge cacheSize).runOps ops
  obtain ⟨hid, hkey⟩ := hinv.liveKey_iff.mp h
  obtain ⟨hle, hge⟩ := hinv.range (mem_ids.mpr (.inr hid))
  exact ⟨hle, hge, hkey⟩

/-- The trie holds two texts, and the place of the deleted record is left for later. -/
def deletedOps : List Op :=
  [.call (.add (utf8 ['z'])), .call (.add (utf8 ['あ'])), .call (.add (utf8 ['あ', 'い'])), .call (.delete (utf8 ['あ']))]

end Groonga.Pat
