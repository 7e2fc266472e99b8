import Groonga.Pat.KeyCursor
import Mathlib

/-!
# Keys with a prefix

`grn_pat_prefix_search` and a cursor with `GRN_CURSOR_PREFIX` go down by the bits of the
prefix, to the first node whose check is not inside the prefix. All keys below that node
agree in the bytes of the prefix, so the key of the node, even of a deleted one, tells
whether they begin with it.

Lengths in bits are 32-bit numbers here. A prefix of 2^27 bytes or more wraps around, but
then no key is long enough.
-/

namespace Groonga.Pat

open Lib.Patricia Lib.Patricia.Trie

/-! ## The searches -/

/-- A number as an `int32_t`. -/
def int32 (n : ℤ) : ℤ := Int.bmod n (2 ^ 32)

/-- The way down of `grn_pat_prefix_search` and `set_cursor_prefix`: the id that it stops
at, and the check of the node above it. -/
def prefixLoop (s : GrnPat) (key : List UInt8) (len : ℤ) : ℕ → ℕ → ℤ → Option (ℕ × ℤ)
  | 0, _, _ => none
  | fuel + 1, r, c0 =>
    if r = 0 then some (0, c0)
    else
      let c := (s.nodes r).check
      if c0 < c ∧ c < int32 (len - 1) then
        prefixLoop s key len fuel (s.load (grnPatNextLocation r key c len.toNat)) c
      else some (r, c0)

/-- `grn_hash_add` of an id to the result. -/
def hashAdd (h : List ℕ) (id : ℕ) : List ℕ := if id ∈ h then h else h ++ [id]

/-- `get_tc`. -/
def getTc (s : GrnPat) : ℕ → List ℕ → ℕ → Option (List ℕ)
  | 0, _, _ => none
  | fuel + 1, h, rn =>
    let turn (h : List ℕ) (d : Bool) : Option (List ℕ) :=
      let id := (s.nodes rn).lr d
      if id = 0 then some h
      else if (s.nodes rn).check < (s.nodes id).check then getTc s fuel h id
      else some (hashAdd h id)
    (turn h true).bind fun h => turn h false

/-- `GRN_SUCCESS` and `GRN_END_OF_DATA`. -/
inductive Rc where
  | success
  | endOfData
deriving DecidableEq, Repr

/-- `grn_pat_prefix_search`. -/
def grnPatPrefixSearch (s : GrnPat) (key : List UInt8) (h : List ℕ) : Option (Rc × List ℕ) :=
  let len := int32 (key.length * 16)
  if key = [] then some (.endOfData, h)
  else
    (prefixLoop s key len (s.currRec + 1) (s.load .root) (-1)).bind fun r =>
      if r.1 = 0 then some (.endOfData, h)
      else
        let k := s.keyOf r.1
        if k.length < key.length then some (.endOfData, h)
        else if k.take key.length = key then
          if int32 (len - 1) ≤ (s.nodes r.1).check then
            (getTc s (s.currRec + 1) h r.1).map (Rc.success, ·)
          else some (.success, hashAdd h r.1)
        else some (.endOfData, h)

/-- `set_cursor_prefix` with a length in bytes: the stack, the entry that is pushed last
first. -/
def setCursorPrefix (s : GrnPat) (key : List UInt8) (gt descending : Bool) :
    Option (List CursorEntry) :=
  let len := int32 (key.length * 16)
  (prefixLoop s key len (s.currRec + 1) (s.load .root) (-1)).bind fun r =>
    if r.1 = 0 then some []
    else
      let k := s.keyOf r.1
      if k.length < key.length then some []
      else if k.take key.length = key then
        let node := s.nodes r.1
        let ch := node.check
        if r.2 < ch then
          let left : List CursorEntry :=
            if int32 (len - 1) < ch ∨ gt = false then [⟨node.lr false, ch⟩] else []
          let right : CursorEntry := ⟨node.lr true, ch⟩
          some (if descending then right :: left else left ++ [right])
        else
          let checkMax := patCheckPack k.length 0 false
          some (if len < checkMax ∨ gt = false then [⟨r.1, ch⟩] else [])
      else some []

/-- The ids that a cursor returns that is opened with `GRN_CURSOR_PREFIX`, with `min` and
without `max`. -/
def prefixCursorIds (s : GrnPat) (min : List UInt8) (offset : ℕ) (limit : ℤ)
    (gt descending : Bool) : Option (List ℕ) :=
  (setCursorPrefix s min gt descending).bind fun ss => idsWith s ss offset limit descending

/-! ## Keys in order -/

variable {k f pre p key : List UInt8}

theorem testBit_first_of_lt {x y : UInt8} (hxy : x < y) :
    x.toNat.testBit (7 - bitDifferences x y 8 0) = false := by
  obtain ⟨i, hi, hbit⟩ := exists_testBit_ne (UInt8.ne_of_lt hxy)
  obtain ⟨hlt, hdiff, heq⟩ := @bitDifferences_spec x y 8 8 0 rfl ⟨i, hi, Nat.zero_le _, hbit⟩
    fun j hj => absurd hj (Nat.not_lt_zero j)
  generalize bitDifferences x y 8 0 = b at hlt hdiff heq
  by_contra hx
  have hx : x.toNat.testBit (7 - b) = true := by simpa using hx
  have hy : y.toNat.testBit (7 - b) = false := by simpa [hx] using hdiff.symm
  refine absurd (UInt8.lt_iff_toNat_lt.mp hxy) (Nat.not_lt.mpr (Nat.le_of_lt ?_))
  refine Nat.lt_of_testBit (7 - b) hy hx fun j hj => ?_
  rcases Nat.lt_or_ge j 8 with hj8 | hj8
  · have := heq (7 - j) (by omega)
    rw [show 7 - (7 - j) = j by omega] at this
    exact this.symm
  · have hpow : 2 ^ 8 ≤ 2 ^ j := Nat.pow_le_pow_right (by omega) hj8
    rw [Nat.testBit_lt_two_pow (x.toNat_lt.trans_le hpow),
      Nat.testBit_lt_two_pow (y.toNat_lt.trans_le hpow)]

/-- At the first difference of two keys the smaller one has the bit `false`. -/
theorem bit_keyDifference_of_lt (hpre : pre = [] → k ≠ []) (h : k < f) :
    (word (pre ++ k)).bit (keyDifference pre.length k f) = false := by
  induction k generalizing pre f with
  | nil =>
    have hlen : 0 < pre.length := by
      rcases pre with _ | ⟨x, pre⟩
      · exact absurd rfl (hpre rfl)
      · simp
    have hc : keyDifference pre.length [] f = pre.length * 16 - 1 := by
      simp only [keyDifference, patCheckPack, Bool.toNat_true]
      omega
    rw [hc, word_bit_odd (by omega), List.append_nil, decide_eq_false (by omega)]
  | cons x k ih =>
    rcases f with _ | ⟨y, f⟩
    · exact absurd h (List.not_lt_nil _)
    · rcases List.cons_lt_cons_iff.mp h with hxy | ⟨rfl, hkf⟩
      · have hb : bitDifferences x y 8 0 < 8 := by
          obtain ⟨i, hi, hbit⟩ := exists_testBit_ne (UInt8.ne_of_lt hxy)
          exact (@bitDifferences_spec x y 8 8 0 rfl ⟨i, hi, Nat.zero_le _, hbit⟩
            fun j hj => absurd hj (Nat.not_lt_zero j)).1
        have hc : keyDifference pre.length (x :: k) (y :: f) =
            pre.length * 16 + bitDifferences x y 8 0 * 2 := by
          rw [keyDifference, if_neg (UInt8.ne_of_lt hxy)]
          rfl
        rw [hc, word_bit_even (by omega), nthBit,
          show (pre.length * 16 + bitDifferences x y 8 0 * 2) / 16 = pre.length by omega,
          show (pre.length * 16 + bitDifferences x y 8 0 * 2) / 2 % 8 = bitDifferences x y 8 0 by
            omega,
          List.getD_append_right _ _ _ _ le_rfl, Nat.sub_self, List.getD_cons_zero]
        exact testBit_first_of_lt hxy
      · have := @ih f (pre ++ [x]) (by simp) hkf
        rw [List.append_assoc, List.length_append, List.length_singleton] at this
        rw [keyDifference, if_pos rfl]
        exact this

/-- **Words are ordered as their keys are.** -/
theorem word_lt_iff (hk : k ≠ []) (hf : f ≠ []) : (word k).Lt (word f) ↔ k < f := by
  have hlt : ∀ {k f : List UInt8}, k ≠ [] → f ≠ [] → k < f → (word k).Lt (word f) := by
    intro k f hk hf h
    have hdiff := differsAt_keyDifference hk hf (fun hkf => List.lt_irrefl k (hkf ▸ h))
    have hbit : (word k).bit (keyDifference 0 k f) = false :=
      @bit_keyDifference_of_lt k f [] (fun _ => hk) h
    refine ⟨_, hdiff.lt_left, hdiff.lt_right, hdiff.agree, hbit, ?_⟩
    simpa [hbit] using hdiff.ne.symm
  refine ⟨fun h => ?_, hlt hk hf⟩
  by_contra hkf
  by_cases hfk : f < k
  · exact (hlt hf hk hfk).asymm h
  · obtain rfl : k = f := List.le_antisymm (List.not_lt.mp hfk) (List.not_lt.mp hkf)
    exact h.asymm h

/-- The records are in the order of their keys, or in its converse. -/
def KeyBefore (s : GrnPat) (descending : Bool) (a b : ℕ) : Prop :=
  if descending then s.keyOf b < s.keyOf a else s.keyOf a < s.keyOf b

theorem keyBefore_iff {s : GrnPat} {descending : Bool} {a b : ℕ} (ha : s.keyOf a ≠ [])
    (hb : s.keyOf b ≠ []) :
    (s.words a).Before descending (s.words b) ↔ KeyBefore s descending a b := by
  cases descending
  · exact word_lt_iff ha hb
  · exact word_lt_iff hb ha

/-! ## The word of a prefix -/

/-- The bits of a prefix, without the one that tells whether the key goes on behind it. -/
def prefixWord (p : List UInt8) : Word := ⟨p.length * 16 - 1, (word p).bit⟩

/-- **A key begins with a prefix** if it is long enough and has its bits. -/
theorem prefix_iff (hp : p ≠ []) :
    p <+: key ↔ p.length ≤ key.length ∧
      (prefixWord p).AgreeBelow (p.length * 16 - 1) (word key) := by
  have hlen : 0 < p.length := List.length_pos_iff.mpr hp
  constructor
  · rintro ⟨r, rfl⟩
    refine ⟨by simp, ?_⟩
    have := @agreeBelow_append p [] r (p.length * 16 - 1) (by omega) (by simp; omega)
      (by simp; omega)
    rw [List.append_nil] at this
    exact this
  · rintro ⟨hle, hagree⟩
    rw [List.prefix_iff_eq_take]
    by_contra hne
    set q := key.take p.length with hq
    have hqlen : q.length = p.length := by rw [hq, List.length_take, Nat.min_eq_left hle]
    have hqne : q ≠ [] := List.ne_nil_of_length_pos (hqlen ▸ hlen)
    have hdiff := differsAt_keyDifference hp hqne hne
    generalize keyDifference 0 p q = c at hdiff
    have hc : c < p.length * 16 := hdiff.lt_left
    rcases Nat.mod_two_eq_zero_or_one c with heven | hodd
    · have hkey : (word key).bit c = (word q).bit c := by
        rw [word_bit_even heven, word_bit_even heven, ← List.take_append_drop p.length key, ← hq]
        simp only [nthBit, List.getD_append _ _ _ _ (show c / 16 < q.length by omega)]
      exact hdiff.ne ((hagree c (by omega)).trans hkey)
    · refine hdiff.ne ?_
      rw [word_bit_odd hodd, word_bit_odd hodd, hqlen]

/-- Of the keys with the prefix, the prefix itself has the bit `false` behind it. -/
theorem bit_prefix (hp : p ≠ []) (h : p <+: key) :
    (word key).bit (p.length * 16 - 1) = decide (key ≠ p) := by
  have hlen : 0 < p.length := List.length_pos_iff.mpr hp
  rw [word_bit_odd (by omega)]
  obtain ⟨r, rfl⟩ := h
  rcases r with _ | ⟨x, r⟩
  · rw [List.append_nil, decide_eq_false (by omega), decide_eq_false (by simp)]
  · rw [decide_eq_true (by simp; omega), decide_eq_true (by simp)]

/-! ## The way down -/

variable {s : GrnPat} {t : Trie ℕ} {own : ℕ → ℕ} {free : ℕ → List ℕ} {lost : Finset ℕ}
  {w : ℕ → Word} {k : List (Frame ℕ)}

/-- The id of the first node of a tree. -/
def topId : Trie ℕ → ℕ
  | .nil => 0
  | .leaf i => i
  | .node i _ _ => i

/-- Whatever the length is, the way down stops at a node of the tree, or at none. -/
theorem prefixLoop_mem {len lo : ℤ} {fuel r : ℕ} (hlink : Linked s.nodes lo r t)
    (hwf : WF w lo t) (hfuel : t.inner.card < fuel) :
    ∃ r' c0, prefixLoop s key len fuel r lo = some (r', c0) ∧ (r' = 0 ∨ r' ∈ t.ids) := by
  induction t generalizing fuel r lo with
  | nil =>
    obtain ⟨fuel, rfl⟩ := Nat.exists_eq_succ_of_ne_zero (Nat.ne_of_gt (Nat.zero_lt_of_lt hfuel))
    obtain rfl : r = 0 := hlink
    exact ⟨0, lo, rfl, .inl rfl⟩
  | leaf i =>
    obtain ⟨fuel, rfl⟩ := Nat.exists_eq_succ_of_ne_zero (Nat.ne_of_gt (Nat.zero_lt_of_lt hfuel))
    obtain ⟨rfl, hne, hcheck⟩ := hlink
    refine ⟨r, lo, ?_, .inr (mem_ids_leaf.mpr rfl)⟩
    rw [prefixLoop, if_neg hne]
    exact if_neg fun h => absurd h.1 (not_lt.mpr hcheck)
  | node i c child ih =>
    obtain ⟨fuel, rfl⟩ := Nat.exists_eq_succ_of_ne_zero (Nat.ne_of_gt (Nat.zero_lt_of_lt hfuel))
    obtain ⟨rfl, hne, hcheck, hchild⟩ := hlink
    obtain ⟨hlo, -, hside⟩ := hwf
    rw [prefixLoop, if_neg hne]
    simp only [hcheck]
    split_ifs with hgo
    · have hsmall := (card_inner_child r c child (direction key c len.toNat)).trans_le
        (Nat.lt_succ_iff.mp hfuel)
      obtain ⟨r', c0, hloop, hr'⟩ := ih _ (hchild _) (hside _).2 hsmall
      refine ⟨r', c0, hloop, hr'.imp_right fun hr' => ?_⟩
      exact mem_ids_node.mpr (.inr ⟨_, hr'⟩)
    · exact ⟨r, lo, rfl, .inr (mem_ids_node.mpr (.inl rfl))⟩

/-- **The way down** is that of the word of the prefix. -/
theorem prefixLoop_eq {fuel r : ℕ} {len : ℤ} (hlink : Linked s.nodes (lastCheck k) r t)
    (hwf : WF w (lastCheck k) t) (hfuel : t.inner.card < fuel) (hlen : len = (p.length * 16 : ℕ))
    (hlast : int32 (len - 1) = (p.length * 16 - 1 : ℕ)) :
    prefixLoop s p len fuel r (lastCheck k) =
      some (topId (descend (prefixWord p) k t).2, lastCheck (descend (prefixWord p) k t).1) := by
  induction t generalizing k fuel r with
  | nil =>
    obtain ⟨fuel, rfl⟩ := Nat.exists_eq_succ_of_ne_zero (Nat.ne_of_gt (Nat.zero_lt_of_lt hfuel))
    obtain rfl : r = 0 := hlink
    rfl
  | leaf i =>
    obtain ⟨fuel, rfl⟩ := Nat.exists_eq_succ_of_ne_zero (Nat.ne_of_gt (Nat.zero_lt_of_lt hfuel))
    obtain ⟨rfl, hne, hcheck⟩ := hlink
    rw [prefixLoop, if_neg hne]
    exact if_neg fun h => absurd h.1 (not_lt.mpr hcheck)
  | node i c child ih =>
    obtain ⟨fuel, rfl⟩ := Nat.exists_eq_succ_of_ne_zero (Nat.ne_of_gt (Nat.zero_lt_of_lt hfuel))
    obtain ⟨rfl, hne, hcheck, hchild⟩ := hlink
    obtain ⟨hlo, -, hside⟩ := hwf
    rw [prefixLoop, if_neg hne]
    simp only [hcheck, hlast]
    rcases Nat.lt_or_ge c (p.length * 16 - 1) with hc | hc
    · have hnext : s.load (grnPatNextLocation r p c len.toNat) =
          (s.nodes r).lr ((prefixWord p).bit c) := by
        rw [hlen, Int.toNat_natCast]
        rfl
      have hsmall := (card_inner_child r c child ((prefixWord p).bit c)).trans_le
        (Nat.lt_succ_iff.mp hfuel)
      rw [if_pos ⟨hlo, Int.ofNat_lt.mpr hc⟩, hnext, descend, if_pos (show c < (prefixWord p).len from hc)]
      exact @ih _ (⟨r, c, (prefixWord p).bit c, child (!(prefixWord p).bit c)⟩ :: k) _ _ (hchild _)
        (hside _).2 hsmall
    · rw [if_neg fun h => absurd (Int.ofNat_lt.mp h.2) (Nat.not_lt.mpr hc), descend,
        if_neg (show ¬ c < (prefixWord p).len from Nat.not_lt.mpr hc)]
      rfl

/-! ## All records of a tree -/

theorem mem_hashAdd {h : List ℕ} {id j : ℕ} : j ∈ hashAdd h id ↔ j ∈ h ∨ j = id := by
  unfold hashAdd
  split_ifs with hid
  · exact ⟨.inl, fun hj => hj.elim (fun hj => hj) fun hj => hj ▸ hid⟩
  · rw [List.mem_append, List.mem_singleton]

theorem nodup_hashAdd {h : List ℕ} {id : ℕ} (hh : h.Nodup) : (hashAdd h id).Nodup := by
  unfold hashAdd
  split_ifs with hid
  · exact hh
  · rw [← List.concat_eq_append]
    exact hh.concat hid

/-- **`get_tc` adds the records of a tree.** -/
theorem getTc_spec {c : ℕ} {child : Bool → Trie ℕ} {lo : ℤ} {fuel r i : ℕ} {h : List ℕ}
    (hlink : Linked s.nodes lo r (.node i c child)) (hwf : WF w lo (.node i c child))
    (hfuel : (Trie.node i c child).inner.card < fuel) :
    ∃ h', getTc s fuel h r = some h' ∧ (h.Nodup → h'.Nodup) ∧
      ∀ j, j ∈ h' ↔ j ∈ h ∨ j ∈ (Trie.node i c child).leaves := by
  induction fuel generalizing lo r i c child h with
  | zero => exact absurd hfuel (Nat.not_lt_zero _)
  | succ fuel ih =>
    obtain ⟨rfl, -, rfl, hchild⟩ := hlink
    obtain ⟨-, -, hside⟩ := hwf
    -- one child
    have hturn : ∀ (d : Bool) (h : List ℕ), ∃ h',
        (if (s.nodes r).lr d = 0 then some h
          else if (s.nodes r).check < (s.nodes ((s.nodes r).lr d)).check then
            getTc s fuel h ((s.nodes r).lr d)
          else some (hashAdd h ((s.nodes r).lr d))) = some h' ∧ (h.Nodup → h'.Nodup) ∧
        ∀ j, j ∈ h' ↔ j ∈ h ∨ j ∈ (child d).leaves := by
      intro d h
      have hlink := hchild d
      have hwf := (hside d).2
      have hsmall := (card_inner_child r (s.nodes r).check child d).trans_le
        (Nat.lt_succ_iff.mp hfuel)
      cases hd : child d with
      | nil =>
        rw [hd] at hlink
        exact ⟨h, if_pos hlink, fun hh => hh, fun j => by simp⟩
      | leaf l =>
        rw [hd] at hlink
        obtain ⟨rfl, hne, hcheck⟩ := hlink
        refine ⟨hashAdd h ((s.nodes r).lr d), ?_, nodup_hashAdd, fun j => ?_⟩
        · rw [if_neg hne, if_neg (Nat.not_lt.mpr (Int.ofNat_le.mp hcheck))]
        · rw [mem_hashAdd, leaves_leaf, Multiset.mem_singleton]
      | node l c' child' =>
        rw [hd] at hlink hwf hsmall
        obtain ⟨h', hget, hnodup, hmem⟩ := @ih c' child' _ _ l h hlink hwf hsmall
        obtain ⟨rfl, hne, hcheck, -⟩ := hlink
        have hgo : (s.nodes r).check < (s.nodes ((s.nodes r).lr d)).check := by
          rw [hcheck]
          exact Int.ofNat_lt.mp hwf.1
        exact ⟨h', by rw [if_neg hne, if_pos hgo, hget], hnodup, hmem⟩
    obtain ⟨h₁, hright, hnodup₁, hmem₁⟩ := hturn true h
    obtain ⟨h₂, hleft, hnodup₂, hmem₂⟩ := hturn false h₁
    refine ⟨h₂, ?_, fun hh => hnodup₂ (hnodup₁ hh), fun j => ?_⟩
    · simp only [getTc, hright, Option.bind_some, hleft]
    · rw [hmem₂, hmem₁, mem_leaves_node, Bool.exists_bool, or_assoc, or_comm (b := j ∈ _)]

/-! ## Live keys -/

/-- The key is live, under the id that a lookup returns for it. -/
def LiveKey (s : GrnPat) (key : List UInt8) (id : ℕ) : Prop := id ≠ 0 ∧ grnPatGet s key = some id

namespace Inv

theorem liveKey_iff (h : Inv s t own free lost) {id : ℕ} :
    LiveKey s key id ↔ id ∈ t.leaves ∧ s.keyOf id = key := by
  constructor
  · rintro ⟨hid, hget⟩
    by_cases hlive : ∃ j ∈ t.leaves, s.keyOf j = key
    · obtain ⟨j, hj, hkey⟩ := hlive
      rw [h.grnPatGet_of_live hj hkey] at hget
      obtain rfl := Option.some.inj hget
      exact ⟨hj, hkey⟩
    · push Not at hlive
      rw [h.grnPatGet_of_not_live hlive] at hget
      exact absurd (Option.some.inj hget).symm hid
  · rintro ⟨hid, hkey⟩
    exact ⟨h.live_ne_zero hid, h.grnPatGet_of_live hid hkey⟩

/-- There are not more nodes than ids. -/
theorem card_inner_le (h : Inv s t own free lost) : t.inner.card ≤ s.currRec := by
  have hsub : t.inner.toFinset ⊆ Finset.Icc 1 s.currRec := fun i hi =>
    Finset.mem_Icc.mpr (h.range (mem_ids.mpr (.inl (Multiset.mem_toFinset.mp hi))))
  have hcard := Finset.card_le_card hsub
  rwa [Multiset.toFinset_card_of_nodup h.rooted.inner_nodup, Nat.card_Icc,
    Nat.add_sub_cancel] at hcard

/-- A list of live records without repetitions is not longer than the ids. -/
theorem length_le_of_live (h : Inv s t own free lost) {ids : List ℕ} (hnodup : ids.Nodup)
    (hlive : ∀ i ∈ ids, i ∈ t.leaves) : ids.length ≤ s.currRec := by
  have hsub : ids.toFinset ⊆ Finset.Icc 1 s.currRec := fun i hi =>
    Finset.mem_Icc.mpr (h.range (mem_ids.mpr (.inr (hlive i (List.mem_toFinset.mp hi)))))
  have hcard := Finset.card_le_card hsub
  rwa [List.toFinset_card_of_nodup hnodup, Nat.card_Icc, Nat.add_sub_cancel] at hcard

/-- A key is not longer than a segment of the key area. -/
theorem length_keyOf_le (h : Inv s t own free lost) {j : ℕ} (hj : j ∈ t.ids) :
    (s.keyOf j).length ≤ keySegmentSize := by
  have hvalid := h.keys.valid j (h.known hj)
  rw [GrnPat.keyOf]
  cases hkey : (s.nodes j).key with
  | immediate key =>
    rw [hkey] at hvalid
    have hsize : key.length ≤ if s.isKeyLarge then 8 else 4 := of_decide_eq_true hvalid.2
    rw [nodeKey_immediate hkey]
    refine hsize.trans ?_
    split_ifs <;> simp [keySegmentSize]
  | stored offset length =>
    rw [hkey] at hvalid
    obtain ⟨-, -, hsegment⟩ := hvalid
    rw [nodeKey_stored hkey, bytesAt, List.length_map, List.length_range]
    by_contra hlong
    have hlt : offset / keySegmentSize < (offset + length - 1) / keySegmentSize := by
      have hnext : (offset + keySegmentSize) / keySegmentSize ≤
          (offset + length - 1) / keySegmentSize := Nat.div_le_div_right (by omega)
      rw [Nat.add_div_right _ (by simp [keySegmentSize])] at hnext
      exact hnext
    exact hlt.ne hsegment.symm

end Inv

/-! ## The records with a prefix -/

/-- Lengths of less than 2^27 bytes do not wrap around. -/
theorem int32_eq {n : ℕ} (hn : n < 2 ^ 27) :
    int32 ((n : ℤ) * 16) = (n * 16 : ℕ) ∧
      (n ≠ 0 → int32 (int32 ((n : ℤ) * 16) - 1) = (n * 16 - 1 : ℕ)) := by
  have hbmod : ∀ m : ℤ, 0 ≤ m → m < 2 ^ 31 → int32 m = m := by
    intro m h0 h1
    rw [int32, Int.bmod_eq_of_le (by omega) (by omega)]
  have hlen : int32 ((n : ℤ) * 16) = (n * 16 : ℕ) := by
    rw [hbmod _ (by omega) (by omega)]
    push_cast
    rfl
  refine ⟨hlen, fun h0 => ?_⟩
  rw [hlen, hbmod _ (by omega) (by omega)]
  omega

/-- **Where the way of a prefix ends**: below it are the live keys with the prefix, and the
key of its first node tells whether there are any. -/
structure PrefixPlace (s : GrnPat) (t : Trie ℕ) (p : List UInt8) (k : List (Frame ℕ)) (t' : Trie ℕ) :
    Prop where
  below : lastCheck k < (p.length * 16 - 1 : ℕ)
  linked : Linked s.nodes (lastCheck k) (linkAt s.nodes (place k)) t'
  wf : WF s.words (lastCheck k) t'
  ids_subset : ∀ j ∈ t'.ids, j ∈ t.ids
  mem_leaves : ∀ j ∈ t'.leaves, j ∈ t.leaves
  all : ∀ j ∈ t.leaves, p <+: s.keyOf j → j ∈ t'.leaves
  behind : ∀ i c child, t' = .node i c child → p.length * 16 - 1 ≤ c
  same : ∀ i ∈ t'.ids, ∀ j ∈ t'.ids, p <+: s.keyOf i → p <+: s.keyOf j
  inner_le : t'.inner.card ≤ s.currRec
  nonempty : ∀ i ∈ t'.ids, ∃ j, j ∈ t'.leaves

theorem Inv.prefixPlace (h : Inv s t own free lost) (hp : p ≠ []) :
    PrefixPlace s t p (descend (prefixWord p) [] t).1 (descend (prefixWord p) [] t).2 := by
  have hlen : 0 < p.length := List.length_pos_iff.mpr hp
  have hplug := plug_descend (prefixWord p) [] t
  have hfollows := @follows_descend ℕ (prefixWord p) [] t (fun f hf => by cases hf)
  have hmem : ∀ j ∈ (descend (prefixWord p) [] t).2.ids, j ∈ t.ids := fun j => mem_ids_of_descend
  have hleaves : ∀ j ∈ (descend (prefixWord p) [] t).2.leaves, j ∈ t.leaves := fun j =>
    mem_leaves_of_descend
  have hall : ∀ j ∈ t.leaves, p <+: s.keyOf j → j ∈ (descend (prefixWord p) [] t).2.leaves :=
    fun j hj hpj => mem_leaves_descend h.rooted.wf hj ((prefix_iff hp).mp hpj).2
  have hstop : ∀ i c child, (descend (prefixWord p) [] t).2 = .node i c child →
      p.length * 16 - 1 ≤ c := fun i c child hnode => by
    by_contra hc
    exact descend_ne_node (show c < (prefixWord p).len from Nat.not_le.mp hc)
      (Prod.ext rfl hnode)
  generalize descend (prefixWord p) [] t = r at hplug hfollows hmem hleaves hall hstop
  obtain ⟨k, t'⟩ := r
  have hwf := h.rooted.wf
  have hlinked := h.rooted.linked
  simp only [plug_nil] at hplug hfollows hmem hleaves hall hstop
  rw [← hplug] at hwf hlinked
  obtain ⟨hctx, hwf', -⟩ := wf_plug.mp hwf
  refine
    { below := ?_
      linked := (linked_plug.mp hlinked).2
      wf := hwf'
      ids_subset := hmem
      mem_leaves := hleaves
      all := hall
      behind := hstop
      same := ?_
      inner_le := ?_
      nonempty := ?_ }
  · cases k with
    | nil => exact (Int.negSucc_lt_zero 0).trans_le (Int.natCast_nonneg _)
    | cons f k => exact Int.ofNat_lt.mpr (hfollows f (List.mem_cons_self ..)).1
  · intro i hi j hj hpi
    cases t' with
    | nil => exact absurd hi not_mem_ids_nil
    | leaf l =>
      obtain rfl := mem_ids_leaf.mp hi
      obtain rfl := mem_ids_leaf.mp hj
      exact hpi
    | node l c child =>
      have hc := hstop l c child rfl
      obtain ⟨hlenj, hagreej⟩ := hwf'.2.1 j hj
      obtain ⟨-, hagreei⟩ := hwf'.2.1 i hi
      refine (prefix_iff hp).mpr ⟨?_, ?_⟩
      · have hlenj : c < (s.keyOf j).length * 16 := hlenj
        omega
      · exact ((prefix_iff hp).mp hpi).2.trans ((hagreei.trans hagreej.symm).mono hc)
  · have hcard := h.card_inner_le
    rw [← hplug, inner_plug, Multiset.card_add] at hcard
    exact (Nat.le_add_right ..).trans hcard
  · intro i hi
    rcases mem_ids.mp hi with hinner | hleaf
    · have howned := h.rooted.owned
      rw [← hplug] at howned
      exact ⟨_, (owned_plug.mp howned).1.mem_leaves hinner⟩
    · exact ⟨i, hleaf⟩

/-- The comparison of the source with the first bytes of a key. -/
theorem prefix_iff_take : p <+: key ↔ ¬ key.length < p.length ∧ key.take p.length = p := by
  rw [List.prefix_iff_eq_take]
  constructor
  · intro h
    refine ⟨fun hlt => ?_, h.symm⟩
    have hlen := congrArg List.length h
    rw [List.length_take] at hlen
    omega
  · exact fun h => h.2.symm

/-- A prefix of 2^27 bytes or more is longer than every key. -/
theorem Inv.not_prefix_of_long (h : Inv s t own free lost) (hp : 2 ^ 27 ≤ p.length) {j : ℕ}
    (hj : j ∈ t.ids) : (s.keyOf j).length < p.length :=
  (h.length_keyOf_le hj).trans_lt (lt_of_lt_of_le (by simp [keySegmentSize]) hp)

/-- **What the way of a prefix stops at**, for a prefix of any length: a node whose key does
not begin with the prefix, like those of all live keys, or the place of the prefix. -/
theorem Inv.prefixLoop_cases (h : Inv s t own free lost) (hp : p ≠ []) :
    (∃ r c0, prefixLoop s p (int32 (p.length * 16)) (s.currRec + 1) (s.load .root) (-1) =
        some (r, c0) ∧ (r = 0 ∨ ¬ p <+: s.keyOf r) ∧ ∀ j ∈ t.leaves, ¬ p <+: s.keyOf j) ∨
    ∃ k t', PrefixPlace s t p k t' ∧ topId t' ≠ 0 ∧ topId t' ∈ t'.ids ∧
      p <+: s.keyOf (topId t') ∧ int32 (p.length * 16) = (p.length * 16 : ℕ) ∧
      int32 (int32 (p.length * 16) - 1) = (p.length * 16 - 1 : ℕ) ∧
      prefixLoop s p (int32 (p.length * 16)) (s.currRec + 1) (s.load .root) (-1) =
        some (topId t', lastCheck k) := by
  have hfuel : t.inner.card < s.currRec + 1 := Nat.lt_succ_of_le h.card_inner_le
  rcases Nat.lt_or_ge p.length (2 ^ 27) with hshort | hlong
  · obtain ⟨hlen, hlast⟩ := int32_eq hshort
    have hlast := hlast fun h0 => hp (List.length_eq_zero_iff.mp h0)
    have hplace := h.prefixPlace hp
    have hloop := @prefixLoop_eq p s t s.words [] _ _ _ h.rooted.linked h.rooted.wf hfuel hlen hlast
    generalize descend (prefixWord p) [] t = r at hplace hloop
    obtain ⟨k, t'⟩ := r
    simp only at hplace hloop
    by_cases hstart : topId t' ∈ t'.ids ∧ p <+: s.keyOf (topId t')
    · exact .inr ⟨k, t', hplace, h.rooted.ne_zero (hplace.ids_subset _ hstart.1), hstart.1,
        hstart.2, hlen, hlast, hloop⟩
    · refine .inl ⟨_, _, hloop, ?_, fun j hj hpj => ?_⟩
      · cases t' with
        | nil => exact .inl rfl
        | leaf i => exact .inr fun hpi => hstart ⟨mem_ids_leaf.mpr rfl, hpi⟩
        | node i c child => exact .inr fun hpi => hstart ⟨mem_ids_node.mpr (.inl rfl), hpi⟩
      · have hj' : j ∈ t'.ids := mem_ids.mpr (.inr (hplace.all j hj hpj))
        have htop : topId t' ∈ t'.ids := by
          cases t' with
          | nil => exact absurd hj' not_mem_ids_nil
          | leaf i => exact mem_ids_leaf.mpr rfl
          | node i c child => exact mem_ids_node.mpr (.inl rfl)
        exact hstart ⟨htop, hplace.same j hj' _ htop hpj⟩
  · obtain ⟨r, c0, hloop, hr⟩ := @prefixLoop_mem p s t s.words (int32 (p.length * 16)) (-1) _ _
      h.rooted.linked h.rooted.wf hfuel
    have hno : ∀ j ∈ t.ids, ¬ p <+: s.keyOf j := fun j hj hpj =>
      absurd hpj.length_le (Nat.not_le.mpr (h.not_prefix_of_long hlong hj))
    exact .inl ⟨r, c0, hloop, hr.imp_right (hno r), fun j hj => hno j (mem_ids.mpr (.inr hj))⟩

/-- **`grn_pat_prefix_search`** adds the records with the prefix. -/
theorem Inv.grnPatPrefixSearch_spec (hinv : Inv s t own free lost) (hp : p ≠ []) (h : List ℕ) :
    ∃ rc h', grnPatPrefixSearch s p h = some (rc, h') ∧ (h.Nodup → h'.Nodup) ∧
      (∀ j, j ∈ h' ↔ j ∈ h ∨ j ∈ t.leaves ∧ p <+: s.keyOf j) ∧
      (rc = .endOfData ↔ ∀ j ∈ t.leaves, ¬ p <+: s.keyOf j) := by
  rw [grnPatPrefixSearch, if_neg hp]
  rcases hinv.prefixLoop_cases hp with ⟨r, c0, hloop, hr, hno⟩ |
    ⟨k, t', hplace, hne, htop, hstart, hlen, hlast, hloop⟩
  · refine ⟨.endOfData, h, ?_, fun hh => hh, fun j => ?_, iff_of_true rfl hno⟩
    · rw [hloop, Option.bind_some]
      by_cases hr0 : r = 0
      · exact if_pos hr0
      · have hr := hr.resolve_left hr0
        rw [prefix_iff_take, not_and] at hr
        simp only [if_neg hr0]
        by_cases hshort : (s.keyOf r).length < p.length
        · rw [if_pos hshort]
        · rw [if_neg hshort, if_neg (hr hshort)]
    · exact ⟨.inl, fun hj => hj.elim (fun hj => hj) fun hj => absurd hj.2 (hno j hj.1)⟩
  · obtain ⟨hshort, htake⟩ := prefix_iff_take.mp hstart
    have hmatch : ∀ j, j ∈ t'.leaves ↔ j ∈ t.leaves ∧ p <+: s.keyOf j := fun j =>
      ⟨fun hj => ⟨hplace.mem_leaves j hj, hplace.same _ htop j (mem_ids.mpr (.inr hj)) hstart⟩,
        fun hj => hplace.all j hj.1 hj.2⟩
    obtain ⟨i, hi⟩ := hplace.nonempty _ htop
    have hsome : ¬ ∀ j ∈ t.leaves, ¬ p <+: s.keyOf j := fun hno =>
      hno i (hplace.mem_leaves i hi) ((hmatch i).mp hi).2
    simp only [hloop, Option.bind_some, if_neg hne, if_neg hshort, if_pos htake, hlast]
    have hlinked := hplace.linked
    have hwf := hplace.wf
    cases t' with
    | nil => exact absurd rfl hne
    | leaf l =>
      obtain ⟨-, -, hcheck⟩ := hlinked
      have hleaf : ¬ ((p.length * 16 - 1 : ℕ) : ℤ) ≤ (s.nodes l).check :=
        not_le.mpr (hcheck.trans_lt hplace.below)
      refine ⟨.success, hashAdd h l, if_neg hleaf, nodup_hashAdd, fun j => ?_,
        iff_of_false Rc.noConfusion hsome⟩
      rw [mem_hashAdd, ← hmatch, leaves_leaf, Multiset.mem_singleton]
    | node l c child =>
      have hbehind := hplace.behind l c child rfl
      have hcheck : (s.nodes l).check = c := hlinked.2.2.1
      obtain ⟨h', hget, hnodup, hmem⟩ := @getTc_spec s s.words c child _ _ _ l h hlinked hwf
        (Nat.lt_succ_of_le hplace.inner_le)
      obtain rfl : linkAt s.nodes (place k) = l := hlinked.1
      refine ⟨.success, h', ?_, hnodup, fun j => by rw [hmem, hmatch],
        iff_of_false Rc.noConfusion hsome⟩
      rw [topId, if_pos (by rw [hcheck]; exact Int.ofNat_le.mpr hbehind), hget]
      rfl

/-! ## The cursor with a prefix -/

/-- The stack of a prefix cursor, and the trees on it. -/
structure PrefixStack (s : GrnPat) (t : Trie ℕ) (p : List UInt8) (gt descending : Bool)
    (ss : List CursorEntry) (ts : List (Trie ℕ)) : Prop where
  stacked : Stacked s.nodes s.words ss ts
  counts : linkCounts ts ≤ 2 * s.currRec + 2
  cards : ∀ t ∈ ts, t.inner.card ≤ s.currRec
  ordered : (inOrders descending ts).Pairwise fun i j => (s.words i).Before descending (s.words j)
  mem : ∀ j, j ∈ inOrders descending ts ↔
    j ∈ t.leaves ∧ p <+: s.keyOf j ∧ (gt = true → s.keyOf j ≠ p)

theorem prefixStack_nil {gt descending : Bool} (hno : ∀ j ∈ t.leaves, ¬ p <+: s.keyOf j) :
    PrefixStack s t p gt descending [] [] where
  stacked := .nil
  counts := Nat.zero_le _
  cards := by simp
  ordered := .nil
  mem := fun j => iff_of_false List.not_mem_nil fun h => hno j h.1 h.2.1

/-- The entries for both children of a node, or for the right one only. -/
theorem PrefixPlace.node_stack {i c : ℕ} {child : Bool → Trie ℕ} (h : PrefixPlace s t p k (.node i c child))
    (hp : p ≠ []) (hstart : p <+: s.keyOf i) (gt descending : Bool) :
    ∃ ts, PrefixStack s t p gt descending
      (if descending then ⟨(s.nodes i).lr true, c⟩ ::
          (if p.length * 16 - 1 < c ∨ gt = false then [⟨(s.nodes i).lr false, c⟩] else [])
        else (if p.length * 16 - 1 < c ∨ gt = false then [⟨(s.nodes i).lr false, c⟩] else []) ++
          [⟨(s.nodes i).lr true, c⟩]) ts := by
  have hlen : 0 < p.length := List.length_pos_iff.mpr hp
  have hbehind := h.behind i c child rfl
  obtain ⟨-, -, -, hchild⟩ := h.linked
  obtain ⟨-, hbelow, hside⟩ := h.wf
  have hcard := h.inner_le
  have hentry : ∀ d, CursorEntry.Holds s.nodes s.words ⟨(s.nodes i).lr d, c⟩ (child d) := fun d =>
    ⟨hchild d, (hside d).2⟩
  have hcards : ∀ d, (child d).inner.card ≤ s.currRec := fun d =>
    ((card_inner_child i c child d).trans_le hcard).le
  have hcounts : linkCount (child false) + linkCount (child true) ≤ 2 * s.currRec + 2 := by
    have := linkCount_node i c child false
    simp only [Bool.not_false] at this
    simp only [linkCount] at this ⊢
    omega
  have htop : i ∈ (Trie.node i c child).ids := mem_ids_node.mpr (.inl rfl)
  have hmatch : ∀ j, j ∈ (Trie.node i c child).leaves ↔ j ∈ t.leaves ∧ p <+: s.keyOf j := fun j =>
    ⟨fun hj => ⟨h.mem_leaves j hj, h.same i htop j (mem_ids.mpr (.inr hj)) hstart⟩,
      fun hj => h.all j hj.1 hj.2⟩
  have hordered := h.wf.pairwise_inOrder descending
  by_cases hall : p.length * 16 - 1 < c ∨ gt = false
  · -- no key is the prefix, or it is not excluded
    have hkeep : ∀ j ∈ (Trie.node i c child).leaves, gt = true → s.keyOf j ≠ p := by
      rintro j hj hgt rfl
      have hc := hall.resolve_right (by simp [hgt])
      have hlen' : c < (s.keyOf j).length * 16 := (hbelow j (mem_ids.mpr (.inr hj))).1
      omega
    refine ⟨[child descending, child !descending], ?_, ?_, ?_, ?_, fun j => ?_⟩
    · rw [if_pos hall]
      cases descending
      · exact .cons (hentry false) (.cons (hentry true) .nil)
      · exact .cons (hentry true) (.cons (hentry false) .nil)
    · have hsum : linkCounts [child descending, child !descending] =
          linkCount (child false) + linkCount (child true) := by
        cases descending <;> simp [linkCounts, Nat.add_comm]
      exact hsum.trans_le hcounts
    · intro t' ht'
      rcases List.mem_cons.mp ht' with rfl | ht'
      · exact hcards _
      · obtain rfl := List.mem_singleton.mp ht'
        exact hcards _
    · have hsame : inOrders descending [child descending, child !descending] =
          (Trie.node i c child).inOrder descending := by
        simp [inOrders, inOrder]
      rwa [hsame]
    · have hsame : inOrders descending [child descending, child !descending] =
          (Trie.node i c child).inOrder descending := by
        simp [inOrders, inOrder]
      rw [hsame, mem_inOrder]
      exact ⟨fun hj => ⟨((hmatch j).mp hj).1, ((hmatch j).mp hj).2, hkeep j hj⟩,
        fun hj => (hmatch j).mpr ⟨hj.1, hj.2.1⟩⟩
  · -- the left child is the prefix itself
    obtain ⟨hc, hgt⟩ := not_or.mp hall
    obtain rfl : c = p.length * 16 - 1 := Nat.le_antisymm (Nat.not_lt.mp hc) hbehind
    have hside' : ∀ d, ∀ j ∈ (child d).leaves, (s.keyOf j ≠ p ↔ d = true) := by
      intro d j hj
      have hids : j ∈ (child d).ids := mem_ids.mpr (.inr hj)
      have hpj := ((hmatch j).mp (mem_leaves_node.mpr ⟨d, hj⟩)).2
      have hbit : (s.words j).bit (p.length * 16 - 1) = d := (hside d).1 j hids
      have hbit' : (s.words j).bit (p.length * 16 - 1) = decide (s.keyOf j ≠ p) := bit_prefix hp hpj
      rw [hbit] at hbit'
      rw [hbit', decide_eq_true_iff]
    refine ⟨[child true], ?_, ?_, ?_, ?_, fun j => ?_⟩
    · rw [if_neg hall]
      cases descending
      · exact .cons (hentry true) .nil
      · exact .cons (hentry true) .nil
    · have hsum : linkCounts [child true] = linkCount (child true) := by simp [linkCounts]
      omega
    · intro t' ht'
      obtain rfl := List.mem_singleton.mp ht'
      exact hcards _
    · have hsame : inOrders descending [child true] = (child true).inOrder descending := by
        simp [inOrders]
      rw [hsame]
      exact (hside true).2.pairwise_inOrder descending
    · have hsame : inOrders descending [child true] = (child true).inOrder descending := by
        simp [inOrders]
      rw [hsame, mem_inOrder]
      constructor
      · intro hj
        obtain ⟨hlive, hpj⟩ := (hmatch j).mp (mem_leaves_node.mpr ⟨true, hj⟩)
        exact ⟨hlive, hpj, fun _ => (hside' true j hj).mpr rfl⟩
      · rintro ⟨hlive, hpj, hne⟩
        obtain ⟨d, hd⟩ := mem_leaves_node.mp ((hmatch j).mpr ⟨hlive, hpj⟩)
        obtain rfl := (hside' d j hd).mp (hne (by simpa using hgt))
        exact hd

/-- **`set_cursor_prefix`** leaves the records with the prefix on the stack. -/
theorem Inv.setCursorPrefix_spec (h : Inv s t own free lost) (hp : p ≠ []) (gt descending : Bool) :
    ∃ ss ts, setCursorPrefix s p gt descending = some ss ∧
      PrefixStack s t p gt descending ss ts := by
  rw [setCursorPrefix]
  rcases h.prefixLoop_cases hp with ⟨r, c0, hloop, hr, hno⟩ |
    ⟨k, t', hplace, hne, htop, hstart, hlen, hlast, hloop⟩
  · refine ⟨[], [], ?_, prefixStack_nil hno⟩
    rw [hloop, Option.bind_some]
    by_cases hr0 : r = 0
    · exact if_pos hr0
    · have hr := hr.resolve_left hr0
      rw [prefix_iff_take, not_and] at hr
      simp only [if_neg hr0]
      by_cases hshort : (s.keyOf r).length < p.length
      · rw [if_pos hshort]
      · rw [if_neg hshort, if_neg (hr hshort)]
  · obtain ⟨hshort, htake⟩ := prefix_iff_take.mp hstart
    simp only [hloop, Option.bind_some, if_neg hne, if_neg hshort, if_pos htake, hlast]
    cases t' with
    | nil => exact absurd rfl hne
    | leaf l =>
      obtain ⟨-, hl, hcheck⟩ := hplace.linked
      have hout : ¬ lastCheck k < (s.nodes l).check := not_lt.mpr hcheck
      have hbound : ((p.length * 16 : ℕ) : ℤ) < (patCheckPack (s.keyOf l).length 0 false : ℕ) ↔
          s.keyOf l ≠ p := by
        rw [patCheckPack_length]
        have hle := hstart.length_le
        rw [Int.ofNat_lt]
        constructor
        · rintro hlt rfl
          exact absurd hlt (lt_irrefl _)
        · intro hkey
          have hlt : p.length < (s.keyOf l).length :=
            lt_of_le_of_ne hle fun heq => hkey (hstart.eq_of_length heq).symm
          omega
      simp only [topId, if_neg hout, hlen, hbound]
      have hlive : l ∈ t.leaves := hplace.mem_leaves l (Multiset.mem_singleton_self l)
      have honly : ∀ j ∈ t.leaves, p <+: s.keyOf j → j = l := fun j hj hpj =>
        Multiset.mem_singleton.mp (hplace.all j hj hpj)
      refine ⟨_, if s.keyOf l ≠ p ∨ gt = false then [.leaf l] else [], rfl, ?_⟩
      split_ifs with hkeep
      · refine ⟨.cons ⟨⟨rfl, hl, le_rfl⟩, trivial⟩ .nil, ?_, by simp, ?_, fun j => ?_⟩
        · simp [linkCounts, linkCount]
        · exact List.pairwise_singleton ..
        · have hone : inOrders descending [Trie.leaf l] = [l] := by simp [inOrders, inOrder]
          rw [hone, List.mem_singleton]
          constructor
          · rintro rfl
            exact ⟨hlive, hstart, fun hgt => hkeep.resolve_right (by simp [hgt])⟩
          · exact fun hj => honly j hj.1 hj.2.1
      · obtain ⟨hkey, hgt⟩ := not_or.mp hkeep
        refine ⟨.nil, Nat.zero_le _, by simp, .nil, fun j => ?_⟩
        refine iff_of_false List.not_mem_nil fun hj => ?_
        obtain rfl := honly j hj.1 hj.2.1
        exact hj.2.2 (by simpa using hgt) (not_not.mp hkey)
    | node l c child =>
      have hin : lastCheck k < c := hplace.wf.1
      have hcheck : (s.nodes l).check = c := by
        obtain ⟨heq, -, hcheck, -⟩ := hplace.linked
        exact hcheck
      obtain ⟨ts, hts⟩ := hplace.node_stack hp hstart gt descending
      simp only [topId, hcheck, if_pos hin, Int.ofNat_lt]
      exact ⟨_, ts, rfl, hts⟩

/-! ## Prefix retrieval -/

/-- **Prefix retrieval**: the search adds the ids of the live keys with the prefix, each
once, and says whether there is one; the cursor returns the same ids in key order, without
the key that is the prefix if this is excluded. -/
structure RetrievesPrefix (s : GrnPat) (p : List UInt8) : Prop where
  search : ∀ h : List ℕ, ∃ rc h', grnPatPrefixSearch s p h = some (rc, h') ∧
    (h.Nodup → h'.Nodup) ∧ (∀ id, id ∈ h' ↔ id ∈ h ∨ ∃ key, LiveKey s key id ∧ p <+: key) ∧
    (rc = .endOfData ↔ ∀ key id, LiveKey s key id → ¬ p <+: key)
  cursor : ∀ gt descending : Bool, ∃ ids : List ℕ,
    (∀ id, id ∈ ids ↔ ∃ key, LiveKey s key id ∧ p <+: key ∧ (gt = true → key ≠ p)) ∧
    ids.Pairwise (KeyBefore s descending) ∧
    ∀ (offset : ℕ) (limit : ℤ),
      prefixCursorIds s p offset limit gt descending = some (limited limit (ids.drop offset))

theorem Inv.retrievesPrefix (h : Inv s t own free lost) (hp : p ≠ []) : RetrievesPrefix s p where
  search := by
    intro hs
    obtain ⟨rc, h', hsearch, hnodup, hmem, hrc⟩ := h.grnPatPrefixSearch_spec hp hs
    refine ⟨rc, h', hsearch, hnodup, fun id => ?_, hrc.trans ?_⟩
    · rw [hmem]
      simp [h.liveKey_iff]
    · constructor
      · intro hno key id hlive
        obtain ⟨hid, rfl⟩ := h.liveKey_iff.mp hlive
        exact hno id hid
      · exact fun hno j hj => hno _ j (h.liveKey_iff.mpr ⟨hj, rfl⟩)
  cursor := by
    intro gt descending
    obtain ⟨ss, ts, hset, hstack⟩ := h.setCursorPrefix_spec hp gt descending
    have hlive : ∀ j ∈ inOrders descending ts, j ∈ t.leaves := fun j hj =>
      ((hstack.mem j).mp hj).1
    have hne : ∀ j ∈ inOrders descending ts, s.keyOf j ≠ [] := fun j hj =>
      h.keyOf_ne_nil (mem_ids.mpr (.inr (hlive j hj)))
    have hordered : (inOrders descending ts).Pairwise (KeyBefore s descending) :=
      hstack.ordered.imp_of_mem fun ha hb hab => (keyBefore_iff (hne _ ha) (hne _ hb)).mp hab
    have hnodup : (inOrders descending ts).Nodup := by
      refine hordered.imp fun hab hsame => ?_
      subst hsame
      cases descending
      · exact List.lt_irrefl _ hab
      · exact List.lt_irrefl _ hab
    refine ⟨inOrders descending ts, fun id => ?_, hordered, fun offset limit => ?_⟩
    · rw [hstack.mem]
      simp [h.liveKey_iff]
    · rw [prefixCursorIds, hset, Option.bind_some]
      exact idsWith_eq hstack.stacked hstack.counts hstack.cards
        (h.length_le_of_live hnodup hlive) h.accounts.currRec_le offset limit

/-- **Prefix retrieval is right in every reachable table**, for every prefix that is not
empty. -/
theorem retrievesPrefix_runOps (isKeyLarge : Bool) (cacheSize : ℕ) (ops : List Op)
    (hp : p ≠ []) : RetrievesPrefix (runOps (grnPatCreate isKeyLarge cacheSize) ops) p := by
  obtain ⟨t, own, free, lost, hinv⟩ := (inv_grnPatCreate isKeyLarge cacheSize).runOps ops
  exact hinv.retrievesPrefix hp

theorem retrievesPrefix_runOps_two : ([97] : List UInt8) ≠ [] ∧
    RetrievesPrefix (runOps (grnPatCreate false 0) [.call (.add [97]), .call (.add [97, 98])])
      [97] :=
  ⟨by simp, retrievesPrefix_runOps false 0 _ (by simp)⟩

end Groonga.Pat
