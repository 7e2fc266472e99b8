import Groonga.Pat.FuzzySearch
import Mathlib

/-!
# The nearest matches

A bounded search takes the first records of the heap. The first `k` slots are a heap of their own: a push
that comes to them from below takes the place of the record in the slot it comes to, if it is nearer than that one,
and moves on above it. So the record that a push leaves out is that one or the new one, and the first slots keep the
nearest records as long as the one that is left out is a farthest one.
-/

namespace Groonga.Pat

open Lib Lib.Patricia Lib.Patricia.Trie

variable {nodes heap : List (ℕ × ℕ)} {node upper : ℕ × ℕ} {k n : ℕ}

/-! ## The way up -/

/-- The slot among the first `k` ones that the way up from a slot comes to. -/
def slotWithin (k n : ℕ) : ℕ := if n < k ∨ n = 0 then n else slotWithin k ((n - 1) / 2)
termination_by n
decreasing_by omega

theorem slotWithin_of_lt (h : n < k) : slotWithin k n = n := by
  rw [slotWithin, if_pos (.inl h)]

theorem slotWithin_of_le (hk : 0 < k) (h : k ≤ n) : slotWithin k n = slotWithin k ((n - 1) / 2) := by
  rw [slotWithin, if_neg (by omega)]

theorem slotWithin_lt (hk : 0 < k) (n : ℕ) : slotWithin k n < k := by
  induction n using Nat.strongRecOn with
  | ind n ih =>
    rcases Nat.lt_or_ge n k with hn | hn
    · rw [slotWithin_of_lt hn]
      exact hn
    · rw [slotWithin_of_le hk hn]
      exact ih _ (by omega)

/-- No record is farther than one behind it on the way up. -/
theorem le_of_slotWithin (hk : 0 < k) (h : ∀ i, 0 < i → i < n → Heap.Before Prod.snd heap ((i - 1) / 2) i)
    {m : ℕ} (hm : m < n) (hn : n ≤ heap.length) (hupper : heap[slotWithin k m]? = some upper)
    (hnode : heap[m]? = some node) : upper.2 ≤ node.2 := by
  induction m using Nat.strongRecOn generalizing node with
  | ind m ih =>
    rcases Nat.lt_or_ge m k with hmk | hmk
    · rw [slotWithin_of_lt hmk, hnode] at hupper
      rw [Option.some.inj hupper]
    · rw [slotWithin_of_le hk hmk] at hupper
      have hlt : (m - 1) / 2 < heap.length := by omega
      have hstep := h m (by omega) hm _ (List.getElem?_eq_getElem hlt) node hnode
      exact (ih _ (by omega) (by omega) hupper (List.getElem?_eq_getElem hlt)).trans hstep

/-- One step of the way up. -/
theorem fuzzyHeapUp_succ {above : ℕ × ℕ} (fuel : ℕ) (hn : n ≠ 0) (habove : nodes[(n - 1) / 2]? = some above)
    (hnode : nodes[n]? = some node) : fuzzyHeapUp (fuel + 1) nodes n =
      if above.2 ≤ node.2 then nodes else fuzzyHeapUp fuel ((nodes.set n above).set ((n - 1) / 2) node) ((n - 1) / 2) := by
  rw [fuzzyHeapUp, if_neg hn]
  simp only [habove, hnode]

/-- Within the first slots, going up changes their order only. -/
theorem take_fuzzyHeapUp_within (fuel : ℕ) (hn : n < k) :
    ((fuzzyHeapUp fuel nodes n).take k).Perm (nodes.take k) := by
  induction fuel generalizing nodes n with
  | zero => exact .refl _
  | succ fuel ih =>
    rw [fuzzyHeapUp]
    by_cases hn0 : n = 0
    · rw [if_pos hn0]
    · rw [if_neg hn0]
      simp only
      cases hupper : nodes[(n - 1) / 2]? with
      | none => exact .refl _
      | some upper =>
        cases hlower : nodes[n]? with
        | none => exact .refl _
        | some lower =>
          simp only
          by_cases hle : upper.2 ≤ lower.2
          · rw [if_pos hle]
          · rw [if_neg hle]
            refine (ih (by omega)).trans ?_
            rw [List.take_set, List.take_set]
            refine Heap.perm_move ?_ ?_
            · rw [List.getElem?_take_of_lt hn, hlower]
            · rw [List.getElem?_take_of_lt (by omega), hupper]

/-- **What a push does to the first slots**: the new record takes the place of the one that its way up comes to, if it
is nearer than that one. -/
theorem take_fuzzyHeapUp {fuel : ℕ} (hk : 0 < k) (hkn : k ≤ n) (hfuel : n ≤ fuel) (hnode : nodes[n]? = some node)
    (hupper : nodes[slotWithin k n]? = some upper)
    (h : ∀ i, 0 < i → i < n → Heap.Before Prod.snd nodes ((i - 1) / 2) i) :
    (node.2 < upper.2 → ((fuzzyHeapUp fuel nodes n).take k).Perm ((nodes.take k).set (slotWithin k n) node)) ∧
      (upper.2 ≤ node.2 → (fuzzyHeapUp fuel nodes n).take k = nodes.take k) := by
  induction fuel generalizing nodes n with
  | zero => omega
  | succ fuel ih =>
    obtain ⟨hlength, -⟩ := List.getElem?_eq_some_iff.mp hnode
    have hparent : (n - 1) / 2 < nodes.length := by omega
    have hslot := slotWithin_of_le hk hkn
    obtain ⟨above, hget⟩ : ∃ above, nodes[(n - 1) / 2]? = some above := ⟨_, List.getElem?_eq_getElem hparent⟩
    rw [fuzzyHeapUp_succ fuel (by omega) hget hnode]
    rw [hslot] at hupper ⊢
    have hle : upper.2 ≤ above.2 :=
      le_of_slotWithin hk h (show (n - 1) / 2 < n by omega) hlength.le hupper hget
    by_cases hstop : above.2 ≤ node.2
    · rw [if_pos hstop]
      exact ⟨fun hlt => absurd (hle.trans hstop) (Nat.not_le.mpr hlt), fun _ => rfl⟩
    · rw [if_neg hstop]
      rcases Nat.lt_or_ge ((n - 1) / 2) k with hwithin | hbehind
      · -- the new record comes to the first slots
        rw [slotWithin_of_lt hwithin] at hupper ⊢
        obtain rfl : above = upper := Option.some.inj (hget.symm.trans hupper)
        refine ⟨fun _ => ?_, fun hge => absurd hge hstop⟩
        have hperm := @take_fuzzyHeapUp_within ((nodes.set n above).set ((n - 1) / 2) node) k _ fuel hwithin
        rwa [List.take_set, List.take_set_of_le hkn] at hperm
      · -- it is still behind them
        have htake : ((nodes.set n above).set ((n - 1) / 2) node).take k = nodes.take k := by
          rw [List.take_set_of_le hbehind, List.take_set_of_le hkn]
        have hother : ∀ i < (n - 1) / 2, ((nodes.set n above).set ((n - 1) / 2) node)[i]? = nodes[i]? := fun i hi => by
          rw [List.getElem?_set_ne (by omega), List.getElem?_set_ne (by omega)]
        have hnode' : ((nodes.set n above).set ((n - 1) / 2) node)[(n - 1) / 2]? = some node :=
          List.getElem?_set_self (by rw [List.length_set]; exact hparent)
        have hlt := slotWithin_lt hk ((n - 1) / 2)
        have hrest := @ih ((nodes.set n above).set ((n - 1) / 2) node) ((n - 1) / 2) hbehind (by omega) hnode'
          (by rw [hother _ (by omega)]; exact hupper) fun i hi0 hi x hx y hy => by
            rw [hother _ (by omega)] at hx
            rw [hother _ hi] at hy
            exact h i hi0 (by omega) x hx y hy
        rwa [htake] at hrest

/-! ## The heap -/

theorem isHeap_fuzzyHeapUp {fuel : ℕ} (hfuel : n ≤ fuel) (hn : n < nodes.length) (h : Heap.Up Prod.snd nodes n) :
    Heap.IsHeap Prod.snd (fuzzyHeapUp fuel nodes n) := by
  induction fuel generalizing nodes n with
  | zero => exact h.isHeap fun h0 => by omega
  | succ fuel ih =>
    by_cases hn0 : n = 0
    · rw [fuzzyHeapUp, if_pos hn0]
      exact h.isHeap fun h0 => by omega
    · have hparent : (n - 1) / 2 < nodes.length := by omega
      have hupper := List.getElem?_eq_getElem hparent
      have hlower := List.getElem?_eq_getElem hn
      rw [fuzzyHeapUp_succ fuel hn0 hupper hlower]
      by_cases hle : nodes[(n - 1) / 2].2 ≤ nodes[n].2
      · rw [if_pos hle]
        refine h.isHeap fun _ x hx y hy => ?_
        obtain rfl := Option.some.inj (hupper.symm.trans hx)
        obtain rfl := Option.some.inj (hlower.symm.trans hy)
        exact hle
      · rw [if_neg hle]
        refine ih (by omega) (by rw [List.length_set, List.length_set]; exact hparent) ?_
        exact h.move (by omega) hlower hupper (Nat.le_of_not_le hle)

/-- **The heap stays a heap.** -/
theorem isHeap_fuzzyHeapPush (h : Heap.IsHeap Prod.snd heap) (id distance : ℕ) :
    Heap.IsHeap Prod.snd (fuzzyHeapPush heap id distance) := by
  refine isHeap_fuzzyHeapUp (Nat.le_refl _) (by simp) ⟨fun i hi0 hi x hx y hy => ?_, fun i hi0 hi hpos x hx y hy => ?_⟩
  · have hlt : i < heap.length := by
      obtain ⟨hlt, -⟩ := List.getElem?_eq_some_iff.mp hy
      rw [List.length_append, List.length_singleton] at hlt
      omega
    rw [Option.mem_def, List.getElem?_append_left (by omega)] at hx hy
    exact h i hi0 x hx y hy
  · obtain ⟨hlt, -⟩ := List.getElem?_eq_some_iff.mp hy
    rw [List.length_append, List.length_singleton] at hlt
    omega

theorem isHeap_pushAll (nodes : List (ℕ × ℕ)) : Heap.IsHeap Prod.snd (pushAll nodes) := by
  induction nodes using List.reverseRecOn with
  | nil => exact Heap.isHeap_nil
  | append_singleton nodes node ih =>
    rw [pushAll_append_singleton]
    exact isHeap_fuzzyHeapPush ih _ _

/-! ## The first slots -/

/-- No record behind the first `k` slots is nearer than one in them. -/
def NearestFirst (k : ℕ) (heap : List (ℕ × ℕ)) : Prop := ∀ a ∈ heap.take k, ∀ b ∈ heap.drop k, a.2 ≤ b.2

/-- **The push leaves out a farthest record**: none in the first slots is farther than both the new record and the
one in the slot that its way up comes to. -/
def LeavesOutFarthest (k : ℕ) (heap : List (ℕ × ℕ)) (node : ℕ × ℕ) : Prop :=
  ∀ upper ∈ heap[slotWithin k heap.length]?, ∀ kept ∈ heap.take k, kept.2 ≤ max upper.2 node.2

/-- In a single slot there is no other record. -/
theorem leavesOutFarthest_one (heap : List (ℕ × ℕ)) (node : ℕ × ℕ) : LeavesOutFarthest 1 heap node := by
  intro upper hupper kept hkept
  rw [Nat.lt_one_iff.mp (slotWithin_lt Nat.one_pos heap.length)] at hupper
  cases heap with
  | nil => exact absurd hkept List.not_mem_nil
  | cons first heap =>
    obtain rfl := Option.some.inj hupper
    rw [List.take_succ_cons, List.take_zero, List.mem_singleton] at hkept
    rw [hkept]
    exact Nat.le_max_left _ _

theorem perm_cons_set {α : Type*} {l : List α} {i : ℕ} {a b : α} (h : l[i]? = some b) :
    (b :: l.set i a).Perm (a :: l) := by
  obtain ⟨hi, hb⟩ := List.getElem?_eq_some_iff.mp h
  have hl : l = l.take i ++ b :: l.drop (i + 1) := by
    rw [← hb, List.cons_getElem_drop_succ, List.take_append_drop]
  have hset : l.set i a = l.take i ++ a :: l.drop (i + 1) := List.set_eq_take_append_cons_drop.trans (if_pos hi)
  rw [hset]
  nth_rewrite 3 [hl]
  exact (List.perm_middle.cons b).trans ((List.Perm.swap _ _ _).trans (List.perm_middle.symm.cons a))

/-- **The first slots keep the nearest records** if a push leaves out a farthest one. -/
theorem NearestFirst.push (hk : 0 < k) (hheap : Heap.IsHeap Prod.snd heap) (h : NearestFirst k heap)
    (hout : LeavesOutFarthest k heap node) : NearestFirst k (fuzzyHeapPush heap node.1 node.2) := by
  have hperm := perm_fuzzyHeapPush heap node.1 node.2
  rcases Nat.lt_or_ge heap.length k with hshort | hlong
  · -- nothing is behind the first slots
    intro a _ b hb
    rw [List.drop_eq_nil_of_le (by rw [hperm.length_eq, List.length_cons]; exact hshort)] at hb
    exact absurd hb List.not_mem_nil
  · have hslot := slotWithin_lt hk heap.length
    obtain ⟨upper, hupper⟩ : ∃ upper, heap[slotWithin k heap.length]? = some upper :=
      ⟨_, List.getElem?_eq_getElem (hslot.trans_le hlong)⟩
    have hfar := hout upper hupper
    have hin : upper ∈ heap.take k := by
      rw [← List.getElem?_take_of_lt hslot] at hupper
      exact List.mem_of_getElem? hupper
    have htake : (heap ++ [node]).take k = heap.take k := List.take_append_of_le_length hlong
    obtain ⟨hnear, hstay⟩ := @take_fuzzyHeapUp (heap ++ [node]) node upper k heap.length heap.length hk hlong
      (Nat.le_refl _) (List.getElem?_concat_length) (by rw [List.getElem?_append_left (by omega), hupper])
      fun i hi0 hi x hx y hy => by
        rw [Option.mem_def, List.getElem?_append_left (by omega)] at hx hy
        exact hheap i hi0 x hx y hy
    rw [htake] at hnear hstay
    have hsplit : ((fuzzyHeapPush heap node.1 node.2).take k ++ (fuzzyHeapPush heap node.1 node.2).drop k).Perm
        (node :: (heap.take k ++ heap.drop k)) := by
      rw [List.take_append_drop, List.take_append_drop]
      exact hperm
    rcases Nat.lt_or_ge node.2 upper.2 with hlt | hge
    · -- the record in the slot is left out
      have hfirst := hnear hlt
      have hset := @perm_cons_set _ (heap.take k) _ node upper (by rw [List.getElem?_take_of_lt hslot, hupper])
      have hrest : ((fuzzyHeapPush heap node.1 node.2).drop k).Perm (upper :: heap.drop k) := by
        refine (List.perm_append_left_iff ((heap.take k).set (slotWithin k heap.length) node)).mp ?_
        refine (hfirst.symm.append_right _).trans (hsplit.trans ?_)
        exact (hset.symm.append_right (heap.drop k)).trans List.perm_middle.symm
      intro a ha b hb
      have hkept : a = node ∨ a ∈ heap.take k := (List.mem_or_eq_of_mem_set (hfirst.mem_iff.mp ha)).symm
      rcases List.mem_cons.mp (hrest.mem_iff.mp hb) with rfl | hold
      · rcases hkept with rfl | hkept
        · exact hlt.le
        · exact (hfar a hkept).trans (Nat.max_le.mpr ⟨Nat.le_refl _, hlt.le⟩)
      · rcases hkept with rfl | hkept
        · exact hlt.le.trans (h upper hin b hold)
        · exact h a hkept b hold
    · -- the new record is left out
      have hfirst := hstay hge
      have hrest : ((fuzzyHeapPush heap node.1 node.2).drop k).Perm (node :: heap.drop k) := by
        refine (List.perm_append_left_iff (heap.take k)).mp ?_
        have hsplit' := hsplit.trans List.perm_middle.symm
        rwa [show (fuzzyHeapPush heap node.1 node.2).take k = heap.take k from hfirst] at hsplit'
      intro a ha b hb
      have hkept : a ∈ heap.take k := by
        rw [show (fuzzyHeapPush heap node.1 node.2).take k = heap.take k from hfirst] at ha
        exact ha
      rcases List.mem_cons.mp (hrest.mem_iff.mp hb) with rfl | hold
      · exact (hfar a hkept).trans (Nat.max_le.mpr ⟨hge, Nat.le_refl _⟩)
      · exact h a hkept b hold

/-- Every push leaves out a farthest record. -/
theorem nearestFirst_pushAll (hk : 0 < k) (h : ∀ before node after, nodes = before ++ node :: after →
    LeavesOutFarthest k (pushAll before) node) : NearestFirst k (pushAll nodes) := by
  induction nodes using List.reverseRecOn with
  | nil => exact fun a ha => absurd ha (by rw [pushAll, List.foldl_nil, List.take_nil]; exact List.not_mem_nil)
  | append_singleton nodes node ih =>
    rw [pushAll_append_singleton]
    refine (ih fun before other after heq => h before other (after ++ [node]) ?_).push hk (isHeap_pushAll nodes)
      (h nodes node [] rfl)
    rw [heq, List.append_assoc, List.cons_append]

/-! ## Bounded searches -/

/-- The records that match, in the order of their keys, with their distances. -/
structure MatchesInOrder (s : GrnPat) (x : List Char) (transposition : Bool) (maxDistance prefixMatchSize : ℕ)
    (matched : List (ℕ × ℕ)) : Prop where
  ordered : matched.Pairwise fun a b => KeyBefore s false a.1 b.1
  mem : ∀ id d, (id, d) ∈ matched ↔ ∃ y : List Char, LiveKey s (utf8 y) id ∧
    (utf8 x).take prefixMatchSize <+: utf8 y ∧ d = distance (transposes transposition) x y ∧ d ≤ maxDistance

/-- **The nearest matches are kept**: as many as asked for, if there are enough, and none that is left out is nearer. -/
def KeepsNearest (s : GrnPat) (x : List Char) (transposition : Bool) (maxDistance maxExpansions prefixMatchSize : ℕ) :
    Prop :=
  ∀ memory : ℕ → ℕ → ℕ, ∃ matched, MatchesInOrder s x transposition maxDistance prefixMatchSize matched ∧
    ∃ (rc : FuzzyRc) (kept : List (ℕ × ℕ)),
      grnPatFuzzySearch s memory (utf8 x) transposition maxDistance maxExpansions prefixMatchSize =
        some (rc, kept.map fun node => (node.1, maxDistance - node.2 + 1)) ∧
      kept.length = min maxExpansions matched.length ∧ (kept.map Prod.fst).Nodup ∧ (∀ node ∈ kept, node ∈ matched) ∧
      ∀ node ∈ kept, ∀ other ∈ matched, other ∉ kept → node.2 ≤ other.2

/-- **A bounded search keeps the nearest matches** if each push leaves out a farthest record. -/
theorem Inv.keepsNearest {s : GrnPat} {t : Trie ℕ} {own : ℕ → ℕ} {free : ℕ → List ℕ} {lost : Finset ℕ}
    {x : List Char} {transposition : Bool} {maxDistance maxExpansions prefixMatchSize : ℕ}
    (hinv : Inv s t own free lost) (htext : ∀ key id, LiveKey s key id → IsText key) (hx : '\x00' ∉ x)
    (hlen : (utf8 x).length ≤ maxKeySize) (hpos : 1 ≤ maxDistance) (hmax : maxDistance ≤ maxKeySize)
    (hbegins : prefixMatchSize ≤ (utf8 x).length)
    (halone : 0 < prefixMatchSize → NoneAlone s ((utf8 x).take prefixMatchSize)) (hk : 0 < maxExpansions)
    (hout : ∀ matched, MatchesInOrder s x transposition maxDistance prefixMatchSize matched →
      ∀ before node after, matched = before ++ node :: after →
        LeavesOutFarthest maxExpansions (pushAll before) node) :
    KeepsNearest s x transposition maxDistance maxExpansions prefixMatchSize := by
  intro memory
  have htext' : ∀ j ∈ t.leaves, IsText (s.keyOf j) := fun j hj => htext _ j (hinv.liveKey_iff.mpr ⟨hj, rfl⟩)
  obtain ⟨ids, hordered, hids, heq⟩ := @Inv.grnPatFuzzySearch_eq s t own free lost (utf8 x) memory transposition
    maxDistance maxExpansions prefixMatchSize hinv htext' hlen (by omega) hmax hbegins halone
  set matched := ids.map fun i => (i, keyDistance
    (initData memory (utf8 x) transposition maxDistance maxExpansions prefixMatchSize) (s.keyOf i)) with hmatched
  have horder : matched.Pairwise fun a b => KeyBefore s false a.1 b.1 := List.pairwise_map.mpr hordered
  have hnodup : (matched.map Prod.fst).Nodup := by
    refine (List.pairwise_map.mpr horder).imp fun hab hsame => ?_
    subst hsame
    exact List.lt_irrefl _ hab
  have hmem : MatchesInOrder s x transposition maxDistance prefixMatchSize matched := by
    refine ⟨horder, fun id d => ⟨fun h => ?_, ?_⟩⟩
    · obtain ⟨i, hi, hpair⟩ := List.mem_map.mp h
      obtain ⟨rfl, rfl⟩ := Prod.mk.inj hpair
      obtain ⟨hlive, hmatch⟩ := (hids i).mp hi
      obtain ⟨y, hy, hy0⟩ := htext' i hlive
      rw [hy, matches_initData hx hy0] at hmatch
      rw [hy, keyDistance_initData hx hy0]
      exact ⟨y, hinv.liveKey_iff.mpr ⟨hlive, hy⟩, hmatch.1, rfl, hmatch.2⟩
    · rintro ⟨y, hlive, hrequired, rfl, hnear⟩
      obtain ⟨hid, hkey⟩ := hinv.liveKey_iff.mp hlive
      obtain ⟨y', hy', hy0⟩ := htext' id hid
      obtain rfl : y' = y := utf8_injective (hy'.symm.trans hkey)
      refine List.mem_map.mpr ⟨id, (hids id).mpr ⟨hid, ?_⟩, ?_⟩
      · rw [hkey, matches_initData hx hy0]
        exact ⟨hrequired, hnear⟩
      · rw [hkey, keyDistance_initData hx hy0]
  have hperm := perm_pushAll matched
  have hfirst := nearestFirst_pushAll hk (hout matched hmem)
  obtain ⟨rc, hrc⟩ : ∃ rc, scored maxDistance maxExpansions (pushAll matched) =
      (rc, ((pushAll matched).take maxExpansions).map fun node => (node.1, maxDistance - node.2 + 1)) :=
    ⟨_, by rw [scored, if_pos hk]⟩
  refine ⟨matched, hmem, rc, (pushAll matched).take maxExpansions, ?_, ?_, ?_, fun node hnode => ?_,
    fun node hnode other hother hleft => ?_⟩
  · rw [heq, hrc]
  · rw [List.length_take, hperm.length_eq]
  · exact ((hperm.map Prod.fst).nodup_iff.mpr hnodup).sublist ((List.take_sublist _ _).map _)
  · exact hperm.mem_iff.mp (List.mem_of_mem_take hnode)
  · have hin : other ∈ pushAll matched := hperm.mem_iff.mpr hother
    rw [← List.take_append_drop maxExpansions (pushAll matched), List.mem_append] at hin
    exact hfirst node hnode other (hin.resolve_left hleft)

/-- Three keys whose distances from `d` are 3, 1 and 2, in the order of the keys. -/
def nearOps : List Op :=
  [.call (.add (utf8 ['a', 'a', 'a'])), .call (.add (utf8 ['c'])), .call (.add (utf8 ['c', 'c']))]

end Groonga.Pat
