import Groonga.Lib.Heap
import Groonga.Pat.EditDistance
import Groonga.Pat.Prefix
import Mathlib

/-!
# Fuzzy searches

`grn_pat_fuzzy_search` goes through the records of the trie in the order of their keys. For each key
it fills the rows behind the characters that the key has in common with the last one, and it passes over all
keys that begin with a key whose row has no cell that is near enough. The records that it finds are
in a heap.

The arguments are those that the flags leave: a distance that is a part of the length of the query, or a
prefix that is a number of characters, is computed before.
-/

namespace Groonga.Pat

open Lib Lib.Patricia Lib.Patricia.Trie

/-! ## The heap -/

/-- The loop of `fuzzy_heap_push`: the node at `n` goes up. -/
def fuzzyHeapUp : ℕ → List (ℕ × ℕ) → ℕ → List (ℕ × ℕ)
  | 0, nodes, _ => nodes
  | fuel + 1, nodes, n =>
    if n = 0 then nodes
    else
      let n2 := (n - 1) / 2
      match nodes[n2]?, nodes[n]? with
      | some upper, some lower =>
        if upper.2 ≤ lower.2 then nodes
        else fuzzyHeapUp fuel ((nodes.set n upper).set n2 lower) n2
      | _, _ => nodes

/-- `fuzzy_heap_push`. -/
def fuzzyHeapPush (nodes : List (ℕ × ℕ)) (id distance : ℕ) : List (ℕ × ℕ) :=
  fuzzyHeapUp nodes.length (nodes ++ [(id, distance)]) nodes.length

/-! ## The search -/

/-- The loop that finds where a key leaves the characters of the last key `p`: it gives the bytes before. -/
def commonOffset : ℕ → List UInt8 → List UInt8 → ℕ → ℕ
  | 0, _, _, offset => offset
  | fuel + 1, p, kp, offset =>
    let lp := grnStrCharlenUtf8 p
    if p = [] ∨ kp = [] ∨ lp = 0 then offset
    else if lp ≤ p.length ∧ lp ≤ kp.length ∧ p.take lp ≠ kp.take lp then offset
    else commonOffset fuel (p.drop lp) (kp.drop lp) (offset + lp)

/-- A key is compared with the query, behind the bytes that are done, and becomes the last key. -/
def readKey (data : FuzzySearchData) (id : ℕ) (k : List UInt8) (offset : ℕ) : FuzzySearchData :=
  let data :=
    if offset < k.length then
      let (data, distance) := calcEditDistance data k offset
      if distance ≤ data.maxDistance then { data with heap := fuzzyHeapPush data.heap id distance } else data
    else data
  { data with lastKey := k }

/-- The last key is a prefix of the key: `memcmp` of its bytes. -/
def startsWithLast (data : FuzzySearchData) (k : List UInt8) : Bool :=
  decide (data.lastKey.length ≤ k.length) && k.take data.lastKey.length == data.lastKey

/-- The part of `grn_pat_fuzzy_search_recursive` for a record. -/
def fuzzySearchRecord (data : FuzzySearchData) (id : ℕ) (k : List UInt8) : FuzzySearchData :=
  if 0 < data.prefixMatchSize ∧
      (k.length < data.prefixMatchSize ∨ k.take data.prefixMatchSize ≠ data.key.take data.prefixMatchSize) then data
  else if startsWithLast data k then
    if data.canTransition then readKey data id k data.lastKey.length else data
  else
    let offset := if 0 < data.lastKey.length then commonOffset data.lastKey.length data.lastKey k 0 else 0
    readKey { data with canTransition := true } id k offset

/-- `grn_pat_fuzzy_search_recursive`. -/
def fuzzySearchRecursive (s : GrnPat) : ℕ → FuzzySearchData → ℕ → ℤ → Option FuzzySearchData
  | 0, _, _, _ => none
  | fuel + 1, data, id, lastCheck =>
    let node := s.nodes id
    let k := s.keyOf id
    if lastCheck < node.check then
      if startsWithLast data k ∧ data.canTransition = false then some data
      else
        let turn (data : FuzzySearchData) (d : Bool) : Option FuzzySearchData :=
          if node.lr d = 0 then some data else fuzzySearchRecursive s fuel data (node.lr d) node.check
        (turn data false).bind fun data => turn data true
    else some (fuzzySearchRecord data id k)

/-- `grn_pat_fuzzy_search_find_prefixed_start_node_id`. -/
def findPrefixedStart (s : GrnPat) (key : List UInt8) (prefixMatchSize : ℕ) : Option ℕ :=
  (prefixLoop s key (int32 (prefixMatchSize * 16)) (s.currRec + 1) (s.load .root) (-1)).map fun r =>
    if r.1 = 0 then 0
    else if (s.keyOf r.1).length < prefixMatchSize then 0
    else if (s.keyOf r.1).take prefixMatchSize = key.take prefixMatchSize then r.1
    else 0

/-- The results of a search. -/
inductive FuzzyRc where
  | success
  | endOfData
  | invalidArgument
deriving DecidableEq, Repr

/-- `grn_pat_fuzzy_search`: the records that are added to the result, with their scores. -/
def grnPatFuzzySearch (s : GrnPat) (memory : ℕ → ℕ → ℕ) (key : List UInt8) (transposition : Bool)
    (maxDistance maxExpansions prefixMatchSize : ℕ) : Option (FuzzyRc × List (ℕ × ℕ)) :=
  if maxDistance = 0 then some (.endOfData, [])
  else if maxKeySize < key.length ∨ maxKeySize < maxDistance ∨ key.length < prefixMatchSize then
    some (.invalidArgument, [])
  else
    (if 0 < prefixMatchSize then findPrefixedStart s key prefixMatchSize else some (s.load .root)).bind fun id =>
      if id = 0 then some (.endOfData, [])
      else
        (fuzzySearchRecursive s (s.currRec + 2)
          (initData memory key transposition maxDistance maxExpansions prefixMatchSize) id (-1)).map fun data =>
            let nodes := if 0 < maxExpansions then data.heap.take maxExpansions else data.heap
            (if nodes = [] then .endOfData else .success,
              nodes.map fun node => (node.1, maxDistance - node.2 + 1))

/-! ## What the heap holds -/

variable {nodes : List (ℕ × ℕ)} {id distance : ℕ}

/-- Going up changes the order only. -/
theorem perm_fuzzyHeapUp (fuel : ℕ) (nodes : List (ℕ × ℕ)) (n : ℕ) : (fuzzyHeapUp fuel nodes n).Perm nodes := by
  induction fuel generalizing nodes n with
  | zero => exact .refl _
  | succ fuel ih =>
    rw [fuzzyHeapUp]
    by_cases hn : n = 0
    · rw [if_pos hn]
    · rw [if_neg hn]
      simp only
      cases hupper : nodes[(n - 1) / 2]? with
      | none => exact .refl _
      | some upper =>
        cases hlower : nodes[n]? with
        | none => exact .refl _
        | some lower =>
          simp only
          by_cases hle : upper.2 ≤ lower.2
          · rw [if_pos hle]
          · rw [if_neg hle]
            exact (ih _ _).trans (Heap.perm_move hlower hupper)

/-- **A push** adds its record. -/
theorem perm_fuzzyHeapPush (nodes : List (ℕ × ℕ)) (id distance : ℕ) :
    (fuzzyHeapPush nodes id distance).Perm ((id, distance) :: nodes) :=
  (perm_fuzzyHeapUp _ _ _).trans (List.perm_append_singleton _ _)

/-! ## Common characters -/

variable {last text A B : List Char}

/-- **The bytes of the common characters.** The last key is smaller than the key, and does not begin it. -/
theorem commonOffset_spec {fuel : ℕ} (hfuel : (utf8 last).length ≤ fuel) (hlast : '\x00' ∉ last)
    (hlt : utf8 last < utf8 text) (hnot : ¬ last <+: text) (offset : ℕ) :
    ∃ A B, A <+: last ∧ text = A ++ B ∧ B ≠ [] ∧
      commonOffset fuel (utf8 last) (utf8 text) offset = offset + (utf8 A).length := by
  induction fuel generalizing last text offset with
  | zero =>
    obtain rfl : last = [] := by
      cases last with
      | nil => rfl
      | cons c last =>
        have hpos := List.length_pos_iff.mpr (String.utf8EncodeChar_ne_nil (c := c))
        rw [utf8_cons, List.length_append] at hfuel
        omega
    exact absurd List.nil_prefix hnot
  | succ fuel ih =>
    cases last with
    | nil => exact absurd List.nil_prefix hnot
    | cons c last =>
      cases text with
      | nil => exact absurd hlt (List.not_lt_nil _)
      | cons d text =>
        rw [List.mem_cons, not_or] at hlast
        have hcharlen := charlen_utf8EncodeChar (Ne.symm hlast.1) (utf8 last)
        have hpos := List.length_pos_iff.mpr (String.utf8EncodeChar_ne_nil (c := c))
        have hgo : ¬ (utf8 (c :: last) = [] ∨ utf8 (d :: text) = [] ∨ grnStrCharlenUtf8 (utf8 (c :: last)) = 0) := by
          rw [utf8_cons, utf8_cons, hcharlen, List.append_eq_nil_iff, List.append_eq_nil_iff]
          rintro (h | h | h)
          · exact String.utf8EncodeChar_ne_nil h.1
          · exact String.utf8EncodeChar_ne_nil h.1
          · omega
        rw [commonOffset, if_neg hgo, utf8_cons, hcharlen, List.take_left, List.drop_left]
        by_cases hcd : c = d
        · -- the loop goes on behind the character
          subst hcd
          rw [utf8_cons, List.take_left, List.drop_left, if_neg fun h => h.2.2 rfl]
          rw [utf8_cons, utf8_cons, append_lt_append_iff] at hlt
          rw [utf8_cons, List.length_append] at hfuel
          obtain ⟨A, B, hA, rfl, hB, hoffset⟩ := ih (by omega) hlast.2 hlt
            (fun h => hnot ((List.prefix_cons_inj c).mpr h)) (offset + (String.utf8EncodeChar c).length)
          refine ⟨c :: A, B, (List.prefix_cons_inj c).mpr hA, rfl, hB, ?_⟩
          rw [hoffset, utf8_cons, List.length_append, Nat.add_assoc]
        · -- the characters are different, and the key has enough bytes
          have hle := length_le_of_utf8_lt hlt
          have hdiffer : String.utf8EncodeChar c ≠ (utf8 (d :: text)).take (String.utf8EncodeChar c).length := by
            intro heq
            have hbegins : utf8 [c] <+: utf8 (d :: text) := by
              rw [utf8_cons, show utf8 [] = [] from rfl, List.append_nil, heq]
              exact List.take_prefix _ _
            obtain ⟨rest, hrest⟩ := prefix_of_utf8_prefix hbegins
            exact hcd (List.cons.inj hrest).1
          have hstop : (String.utf8EncodeChar c).length ≤ (String.utf8EncodeChar c ++ utf8 last).length ∧
              (String.utf8EncodeChar c).length ≤ (utf8 (d :: text)).length ∧
                String.utf8EncodeChar c ≠ (utf8 (d :: text)).take (String.utf8EncodeChar c).length := by
            refine ⟨?_, ?_, hdiffer⟩
            · rw [List.length_append]
              exact Nat.le_add_right _ _
            · rw [utf8_cons, List.length_append]
              exact hle.trans (Nat.le_add_right _ _)
          rw [if_pos hstop]
          exact ⟨[], d :: text, List.nil_prefix, rfl, List.cons_ne_nil _ _, rfl⟩

/-! ## Records -/

variable {d₀ data : FuzzySearchData} {key k : List UInt8}

/-- A text in UTF-8 without a NUL. -/
def IsText (key : List UInt8) : Prop := ∃ text : List Char, key = utf8 text ∧ '\x00' ∉ text

/-- The distance of a key from the query. -/
noncomputable def keyDistance (data : FuzzySearchData) (k : List UInt8) : ℕ :=
  Lib.distance (transposes data.transposition) (characters data.key) (characters k)

/-- How many rows the table has behind the first one. -/
def FuzzySearchData.height (data : FuzzySearchData) : ℕ := (characters data.key).length + data.maxDistance

/-- A query that `grn_pat_fuzzy_search` accepts. -/
structure Query (data : FuzzySearchData) : Prop where
  length : data.xLength = (characters data.key).length
  small : (characters data.key).length + data.height + 2 < 2 ^ 16
  prefix_le : data.prefixMatchSize ≤ data.key.length

/-- **The table belongs to the last key**: it has its rows, and if the search may not go on behind it, then no
key that begins with it is near. -/
structure Cached (d₀ data : FuzzySearchData) : Prop where
  same : data = { d₀ with
    dists := data.dists, heap := data.heap, lastKey := data.lastKey, canTransition := data.canTransition }
  text : IsText data.lastKey
  rows : ∃ ys, ys <:+ (characters data.lastKey).reverse ∧
    ys.length = min (characters data.lastKey).length d₀.height ∧
    Rows (transposes d₀.transposition) (characters d₀.key) d₀.height data.dists ys
  stops : data.canTransition = false → data.lastKey ≠ [] ∧ ∀ Z,
    d₀.maxDistance < Lib.distance (transposes d₀.transposition) (characters d₀.key) (characters data.lastKey ++ Z)

theorem characters_of_text (h : '\x00' ∉ text) : characters (utf8 text) = text.map String.utf8EncodeChar := by
  rw [characters_utf8, beforeNul, List.takeWhile_eq_self_iff.mpr]
  intro c hc
  exact decide_eq_true fun heq => h (heq ▸ hc)

theorem readKey_eq {offset : ℕ} (data : FuzzySearchData) (id : ℕ) (hlt : offset < k.length) :
    readKey data id k offset = { (calcEditDistance data k offset).1 with
      heap := if (calcEditDistance data k offset).2 ≤ (calcEditDistance data k offset).1.maxDistance then
          fuzzyHeapPush (calcEditDistance data k offset).1.heap id (calcEditDistance data k offset).2
        else (calcEditDistance data k offset).1.heap
      lastKey := k } := by
  rw [readKey, if_pos hlt]
  simp only
  split_ifs <;> rfl

/-- What the calculation for a key gives, wherever it starts. -/
structure Measured (d₀ data : FuzzySearchData) (k : List UInt8) (r : FuzzySearchData × ℕ) : Prop where
  same : r.1 = { data with dists := r.1.dists, canTransition := r.1.canTransition }
  near : keyDistance d₀ k ≤ d₀.maxDistance → r.2 = keyDistance d₀ k
  far : d₀.maxDistance < keyDistance d₀ k → d₀.maxDistance < r.2
  rows : ∃ ys, ys <:+ (characters k).reverse ∧ ys.length = min (characters k).length d₀.height ∧
    Rows (transposes d₀.transposition) (characters d₀.key) d₀.height r.1.dists ys
  stops : r.1.canTransition = false → ∀ Z,
    d₀.maxDistance < Lib.distance (transposes d₀.transposition) (characters d₀.key) (characters k ++ Z)

/-- **A key is measured** behind the characters that it has in common with the last one. -/
theorem Cached.measured (hq : Query d₀) (h : Cached d₀ data) (hcan : data.canTransition = true)
    (hlast : data.lastKey = utf8 last) (hlastText : '\x00' ∉ last) (hA : A <+: last) (hB : B ≠ [])
    (htext : '\x00' ∉ A ++ B) :
    Measured d₀ data (utf8 (A ++ B)) (calcEditDistance data (utf8 (A ++ B)) (utf8 A).length) := by
  obtain ⟨hsame, -, ⟨ys, hys, hlength, hrows⟩, -⟩ := h
  obtain ⟨dists, heap, lastKey, canTransition, rfl⟩ : ∃ dists heap lastKey canTransition, data = { d₀ with
      dists := dists, heap := heap, lastKey := lastKey, canTransition := canTransition } := ⟨_, _, _, _, hsame⟩
  have hchars : characters (utf8 (A ++ B)) = A.map String.utf8EncodeChar ++ B.map String.utf8EncodeChar := by
    rw [characters_of_text htext, List.map_append]
  have hflatten : (utf8 A).length = (A.map String.utf8EncodeChar).flatten.length := by
    rw [utf8, List.flatMap_def]
  have hB' : B.map String.utf8EncodeChar ≠ [] := fun hnil => hB (List.map_eq_nil_iff.mp hnil)
  simp only at hlast hcan hys hlength hrows
  rw [hlast, characters_of_text hlastText] at hys hlength
  have hAmap : (A.map String.utf8EncodeChar).reverse <:+ (last.map String.utf8EncodeChar).reverse := by
    rw [List.reverse_suffix]
    exact hA.map _
  have hlong := length_le_distance (transposes d₀.transposition) (characters d₀.key) (characters (utf8 (A ++ B)))
  rw [hflatten]
  rcases Nat.lt_or_ge d₀.height (A.map String.utf8EncodeChar).length with hfar | hfits
  · -- the rows that are there are not enough
    have hcalc := calcEditDistance_far { d₀ with
      dists := dists, heap := heap, lastKey := lastKey, canTransition := canTransition } (utf8 (A ++ B)) _ _ hq.length
        hchars hB' hfar
    have hbeyond : d₀.height < (characters (utf8 (A ++ B))).length := by
      rw [hchars, List.length_append]
      omega
    have hAlast := hAmap.length_le
    rw [List.length_reverse, List.length_reverse] at hAlast
    rw [hcalc]
    refine ⟨rfl, fun hnear => ?_, fun _ => Nat.lt_succ_self _, ⟨ys, ?_, ?_, hrows⟩, fun _ Z => ?_⟩
    · rw [keyDistance, FuzzySearchData.height] at *
      omega
    · refine (List.suffix_of_suffix_length_le hys hAmap ?_).trans ?_
      · rw [List.length_reverse]
        omega
      · rw [hchars, List.reverse_append]
        exact List.suffix_append _ _
    · omega
    · have hmore := length_le_distance (transposes d₀.transposition) (characters d₀.key)
        (characters (utf8 (A ++ B)) ++ Z)
      rw [List.length_append] at hmore
      rw [FuzzySearchData.height] at hbeyond
      omega
  · have hAlast := hAmap.length_le
    rw [List.length_reverse, List.length_reverse] at hAlast
    have hAys : (A.map String.utf8EncodeChar).reverse <:+ ys := by
      refine List.suffix_of_suffix_length_le hAmap hys ?_
      rw [List.length_reverse]
      omega
    have hcalculated := calcEditDistance_spec { d₀ with
      dists := dists, heap := heap, lastKey := lastKey, canTransition := canTransition } (utf8 (A ++ B)) _ _ hq.length
        hcan hq.small hchars (hrows.suffix hAys) hfits
    rw [← hchars] at hcalculated
    refine ⟨hcalculated.same, fun hnear => hcalculated.near ?_, fun hfar => ?_, hcalculated.rows, fun hstop Z =>
      hcalculated.stops hstop ?_ Z⟩
    · rw [keyDistance] at hnear
      show _ ≤ (characters d₀.key).length + d₀.maxDistance
      omega
    · rcases Nat.lt_or_ge d₀.height (characters (utf8 (A ++ B))).length with hbeyond | hwithin
      · rw [hcalculated.far hbeyond]
        exact Nat.lt_succ_self _
      · rw [hcalculated.near hwithin]
        exact hfar
    · rw [hchars]
      exact List.append_ne_nil_of_right_ne_nil _ hB'

/-- **A key is read** behind the characters that it has in common with the last one. -/
theorem Cached.readKey (hq : Query d₀) (h : Cached d₀ data) (hcan : data.canTransition = true)
    (hlast : data.lastKey = utf8 last) (hlastText : '\x00' ∉ last) (hA : A <+: last) (hB : B ≠ [])
    (htext : '\x00' ∉ A ++ B) (id : ℕ) : Cached d₀ (readKey data id (utf8 (A ++ B)) (utf8 A).length) ∧
      (readKey data id (utf8 (A ++ B)) (utf8 A).length).lastKey = utf8 (A ++ B) ∧
      (readKey data id (utf8 (A ++ B)) (utf8 A).length).heap =
        if keyDistance d₀ (utf8 (A ++ B)) ≤ d₀.maxDistance then
          fuzzyHeapPush data.heap id (keyDistance d₀ (utf8 (A ++ B)))
        else data.heap := by
  have hmeasured := h.measured hq hcan hlast hlastText hA hB htext
  have hlt : (utf8 A).length < (utf8 (A ++ B)).length := by
    obtain ⟨c, B, rfl⟩ := List.exists_cons_of_ne_nil hB
    have hpos := List.length_pos_iff.mpr (String.utf8EncodeChar_ne_nil (c := c))
    rw [utf8_append, utf8_cons, List.length_append, List.length_append]
    omega
  have hdata := h.same
  rw [readKey_eq _ id hlt]
  generalize calcEditDistance data (utf8 (A ++ B)) (utf8 A).length = r at hmeasured
  obtain ⟨data', distance⟩ := r
  obtain ⟨hsame, hnear, hfar, hrows, hstops⟩ := hmeasured
  simp only at hsame hnear hfar hrows hstops ⊢
  have hheap : data'.heap = data.heap := (congrArg FuzzySearchData.heap hsame).trans rfl
  have hmax : data'.maxDistance = data.maxDistance := (congrArg FuzzySearchData.maxDistance hsame).trans rfl
  have hmax₀ : data.maxDistance = d₀.maxDistance := (congrArg FuzzySearchData.maxDistance hdata).trans rfl
  refine ⟨⟨?_, ⟨A ++ B, rfl, htext⟩, hrows, fun hstop => ⟨?_, hstops hstop⟩⟩, trivial, ?_⟩
  · rw [hsame, hdata]
  · intro hnil
    have hnil' : utf8 (A ++ B) = [] := hnil
    rw [hnil'] at hlt
    exact Nat.not_lt_zero _ hlt
  · rw [hheap, hmax, hmax₀]
    rcases Nat.lt_or_ge d₀.maxDistance (keyDistance d₀ (utf8 (A ++ B))) with hlt' | hge
    · rw [if_neg (Nat.not_le.mpr (hfar hlt')), if_neg (Nat.not_le.mpr hlt')]
    · rw [hnear hge]

/-- **A key is found** if it has the required prefix and is near. -/
def Matches (data : FuzzySearchData) (k : List UInt8) : Prop :=
  data.key.take data.prefixMatchSize <+: k ∧ keyDistance data k ≤ data.maxDistance

open scoped Classical in
/-- The records that are found, with their distances. -/
noncomputable def found (data : FuzzySearchData) (s : GrnPat) (ids : List ℕ) : List (ℕ × ℕ) :=
  (ids.filter fun i => decide (Matches data (s.keyOf i))).map fun i => (i, keyDistance data (s.keyOf i))

/-- Records are pushed one after the other. -/
def pushAll (nodes : List (ℕ × ℕ)) : List (ℕ × ℕ) :=
  nodes.foldl (fun heap node => fuzzyHeapPush heap node.1 node.2) []

/-- **A search in progress**, which is done with some records. -/
structure Searching (s : GrnPat) (d₀ data : FuzzySearchData) (done : List ℕ) : Prop where
  cached : Cached d₀ data
  heap : data.heap = pushAll (found d₀ s done)

variable {s : GrnPat} {done ids : List ℕ} {i j : ℕ}

theorem found_append (d₀ : FuzzySearchData) (s : GrnPat) (ids ids' : List ℕ) :
    found d₀ s (ids ++ ids') = found d₀ s ids ++ found d₀ s ids' := by
  rw [found, List.filter_append, List.map_append]
  rfl

open scoped Classical in
theorem found_of_not (h : ∀ i ∈ ids, ¬ Matches d₀ (s.keyOf i)) : found d₀ s ids = [] := by
  rw [found, List.filter_eq_nil_iff.mpr fun i hi => by rw [decide_eq_true_eq]; exact h i hi]
  rfl

open scoped Classical in
theorem found_singleton (h : Matches d₀ (s.keyOf i)) : found d₀ s [i] = [(i, keyDistance d₀ (s.keyOf i))] := by
  simp only [found, List.filter_cons, List.filter_nil, decide_eq_true h, if_true, List.map_cons, List.map_nil]

theorem pushAll_append_singleton (nodes : List (ℕ × ℕ)) (node : ℕ × ℕ) :
    pushAll (nodes ++ [node]) = fuzzyHeapPush (pushAll nodes) node.1 node.2 := by
  rw [pushAll, List.foldl_append]
  rfl

/-- Records that are not found change nothing. -/
theorem Searching.skip (h : Searching s d₀ data done) (hno : ∀ i ∈ ids, ¬ Matches d₀ (s.keyOf i)) :
    Searching s d₀ data (done ++ ids) := by
  refine ⟨h.cached, ?_⟩
  rw [found_append, found_of_not hno, List.append_nil]
  exact h.heap

theorem startsWithLast_iff : startsWithLast data k = true ↔ data.lastKey <+: k := by
  rw [prefix_iff_take, startsWithLast, Bool.and_eq_true, decide_eq_true_eq, beq_iff_eq, not_lt]

/-- Keys that begin with a last key behind which the search may not go on are not found. -/
theorem Cached.not_matches (h : Cached d₀ data) (hstop : data.canTransition = false) (hk : IsText k)
    (hbegins : data.lastKey <+: k) : ¬ Matches d₀ k := by
  rintro ⟨-, hnear⟩
  obtain ⟨last, hlast, hlastText⟩ := h.text
  obtain ⟨text, rfl, htext⟩ := hk
  rw [hlast] at hbegins
  obtain ⟨B, rfl⟩ := prefix_of_utf8_prefix hbegins
  have hfar := (h.stops hstop).2 (B.map String.utf8EncodeChar)
  rw [hlast, characters_of_text hlastText, ← List.map_append, ← characters_of_text htext] at hfar
  exact absurd hnear (Nat.not_le.mpr hfar)

/-- The test of the required bytes. -/
theorem required_iff (hq : Query d₀) : (0 < d₀.prefixMatchSize ∧ (k.length < d₀.prefixMatchSize ∨
    k.take d₀.prefixMatchSize ≠ d₀.key.take d₀.prefixMatchSize)) ↔ ¬ d₀.key.take d₀.prefixMatchSize <+: k := by
  have hlength : (d₀.key.take d₀.prefixMatchSize).length = d₀.prefixMatchSize := by
    rw [List.length_take, Nat.min_eq_left hq.prefix_le]
  rw [prefix_iff_take, hlength, not_and_or, not_not]
  constructor
  · exact fun h => h.2
  · refine fun h => ⟨Nat.pos_of_ne_zero fun hzero => ?_, h⟩
    rw [hzero] at h
    rcases h with h | h
    · exact Nat.not_lt_zero _ h
    · exact h rfl

/-- A key that is read joins the heap if it is near. -/
theorem Searching.readKey (hq : Query d₀) (h : Searching s d₀ data done) (hcan : data.canTransition = true)
    (hlast : data.lastKey = utf8 last) (hlastText : '\x00' ∉ last) (hA : A <+: last) (hB : B ≠ [])
    (htext : '\x00' ∉ A ++ B) (hkey : s.keyOf i = utf8 (A ++ B))
    (hrequired : d₀.key.take d₀.prefixMatchSize <+: utf8 (A ++ B)) :
    Searching s d₀ (readKey data i (utf8 (A ++ B)) (utf8 A).length) (done ++ [i]) ∧
      (Pat.readKey data i (utf8 (A ++ B)) (utf8 A).length).lastKey = utf8 (A ++ B) := by
  obtain ⟨hcached, hlastKey, hheap⟩ := h.cached.readKey hq hcan hlast hlastText hA hB htext i
  refine ⟨⟨hcached, ?_⟩, hlastKey⟩
  rw [hheap, found_append]
  split_ifs with hnear
  · have hmatch : Matches d₀ (s.keyOf i) := hkey ▸ ⟨hrequired, hnear⟩
    rw [found_singleton hmatch, pushAll_append_singleton, hkey, h.heap]
  · have hnone : found d₀ s [i] = [] := by
      refine found_of_not fun j hj hmatch => ?_
      obtain rfl := List.mem_singleton.mp hj
      rw [hkey] at hmatch
      exact hnear hmatch.2
    rw [hnone, List.append_nil]
    exact h.heap

/-- **A record** behind the last key. -/
theorem Searching.record (hq : Query d₀) (h : Searching s d₀ data done) (hk : IsText (s.keyOf i))
    (hlt : data.lastKey < s.keyOf i) : Searching s d₀ (fuzzySearchRecord data i (s.keyOf i)) (done ++ [i]) ∧
      ((fuzzySearchRecord data i (s.keyOf i)).lastKey = data.lastKey ∨
        (fuzzySearchRecord data i (s.keyOf i)).lastKey = s.keyOf i) := by
  have hsize : data.prefixMatchSize = d₀.prefixMatchSize := (congrArg FuzzySearchData.prefixMatchSize h.cached.same).trans rfl
  have hdataKey : data.key = d₀.key := (congrArg FuzzySearchData.key h.cached.same).trans rfl
  obtain ⟨last, hlast, hlastText⟩ := h.cached.text
  obtain ⟨text, htextKey, htext⟩ := hk
  have hsingle : ¬ Matches d₀ (s.keyOf i) → ∀ j ∈ [i], ¬ Matches d₀ (s.keyOf j) := fun hno j hj =>
    List.mem_singleton.mp hj ▸ hno
  have htest := @required_iff d₀ (s.keyOf i) hq
  rw [← hsize, ← hdataKey] at htest
  rw [fuzzySearchRecord]
  by_cases hrequired : d₀.key.take d₀.prefixMatchSize <+: s.keyOf i
  · rw [if_neg (mt htest.mp (not_not.mpr (hsize ▸ hdataKey ▸ hrequired)))]
    by_cases hstarts : data.lastKey <+: s.keyOf i
    · rw [if_pos (startsWithLast_iff.mpr hstarts)]
      cases hcan : data.canTransition with
      | false =>
        exact ⟨h.skip (hsingle (h.cached.not_matches hcan ⟨text, htextKey, htext⟩ hstarts)), .inl rfl⟩
      | true =>
        rw [hlast, htextKey] at hstarts hlt
        obtain ⟨B, rfl⟩ := prefix_of_utf8_prefix hstarts
        have hB : B ≠ [] := by
          rintro rfl
          rw [List.append_nil] at hlt
          exact List.lt_irrefl _ hlt
        rw [if_pos rfl, hlast, htextKey]
        rw [htextKey] at hrequired
        obtain ⟨hsearching, hlastKey⟩ := h.readKey hq hcan hlast hlastText List.prefix_rfl hB htext htextKey hrequired
        exact ⟨hsearching, .inr hlastKey⟩
    · rw [if_neg (mt startsWithLast_iff.mp hstarts)]
      have hpos : 0 < data.lastKey.length := List.length_pos_iff.mpr fun hnil => hstarts (hnil ▸ List.nil_prefix)
      simp only [if_pos hpos]
      rw [hlast, htextKey] at hstarts hlt
      have hnot : ¬ last <+: text := fun hbegins => by
        obtain ⟨B, rfl⟩ := hbegins
        exact hstarts (utf8_append last B ▸ List.prefix_append _ _)
      obtain ⟨A, B, hA, rfl, hB, hoffset⟩ := commonOffset_spec (Nat.le_refl _) hlastText hlt hnot 0
      have hgo : Searching s d₀ { data with canTransition := true } done :=
        ⟨⟨by rw [h.cached.same], h.cached.text, h.cached.rows, fun hfalse => by cases hfalse⟩, h.heap⟩
      rw [← hlast, Nat.zero_add] at hoffset
      rw [htextKey] at hrequired
      rw [htextKey, hoffset]
      obtain ⟨hsearching, hlastKey⟩ := hgo.readKey hq rfl hlast hlastText hA hB htext htextKey hrequired
      exact ⟨hsearching, .inr hlastKey⟩
  · rw [if_pos (htest.mpr (hsize ▸ hdataKey ▸ hrequired))]
    exact ⟨h.skip (hsingle fun hmatch => hrequired hmatch.1), .inl rfl⟩

/-! ## Trees -/

variable {t : Trie ℕ} {w : ℕ → Word} {lo : ℤ} {own : ℕ → ℕ} {free : ℕ → List ℕ} {lost : Finset ℕ}

/-- **A word is beside a tree**: it leaves all words of the tree at one position, above the tree. -/
def StandsBeside (w : ℕ → Word) (u : Word) (lo : ℤ) (t : Trie ℕ) : Prop :=
  ∃ c : ℕ, (c : ℤ) ≤ lo ∧ ∀ j ∈ t.ids, c < (w j).len ∧ u.AgreeBelow c (w j) ∧ u.bit c ≠ (w j).bit c

theorem StandsBeside.child {u : Word} {n c : ℕ} {child : Bool → Trie ℕ} (h : StandsBeside w u lo (.node n c child)) (hlo : lo < c)
    (d : Bool) : StandsBeside w u c (child d) := by
  obtain ⟨b, hb, hall⟩ := h
  exact ⟨b, (hb.trans_lt hlo).le, fun j hj => hall j (mem_ids_node.mpr (.inr ⟨d, hj⟩))⟩

/-- The words on the one side of a node are beside the tree on the other side, and before it. -/
theorem WF.beside {n c : ℕ} {child : Bool → Trie ℕ} (h : WF w lo (.node n c child)) (hi : i ∈ (child false).ids) :
    StandsBeside w (w i) c (child true) := by
  obtain ⟨-, hbelow, hside⟩ := h
  refine ⟨c, le_refl _, fun j hj => ?_⟩
  obtain ⟨-, hagree⟩ := hbelow i (mem_ids_node.mpr (.inr ⟨_, hi⟩))
  obtain ⟨hlen, hagree'⟩ := hbelow j (mem_ids_node.mpr (.inr ⟨_, hj⟩))
  refine ⟨hlen, hagree.trans hagree'.symm, ?_⟩
  rw [(hside false).1 i hi, (hside true).1 j hj]
  exact Bool.false_ne_true

theorem WF.lt {n c : ℕ} {child : Bool → Trie ℕ} (h : WF w lo (.node n c child)) (hi : i ∈ (child false).ids)
    (hj : j ∈ (child true).ids) : (w i).Lt (w j) := by
  obtain ⟨-, hbelow, hside⟩ := h
  obtain ⟨hlen, hagree⟩ := hbelow i (mem_ids_node.mpr (.inr ⟨_, hi⟩))
  obtain ⟨hlen', hagree'⟩ := hbelow j (mem_ids_node.mpr (.inr ⟨_, hj⟩))
  exact ⟨c, hlen, hlen', hagree.trans hagree'.symm, (hside false).1 i hi, (hside true).1 j hj⟩

/-- **A key beside a tree begins all its keys or none.** -/
theorem StandsBeside.prefix_all {last : List UInt8} (h : StandsBeside s.words (word last) lo t) (hlast : last ≠ [])
    (hi : i ∈ t.ids) (hbegins : last <+: s.keyOf i) (hj : j ∈ t.ids) : last <+: s.keyOf j := by
  obtain ⟨c, -, hall⟩ := h
  obtain ⟨-, hagreei⟩ := (prefix_iff hlast).mp hbegins
  obtain ⟨-, -, hne⟩ := hall i hi
  obtain ⟨hlen, hagree, -⟩ := hall j hj
  have hc : last.length * 16 - 1 ≤ c := by
    by_contra hlt
    exact hne (hagreei c (not_le.mp hlt))
  refine (prefix_iff hlast).mpr ⟨?_, fun b hb => hagree b (hb.trans_le hc)⟩
  have hlen' : c < (s.keyOf j).length * 16 := hlen
  omega

theorem Linked.eq_nil {nodes : ℕ → Node} (h : Linked nodes lo 0 t) : t = .nil := by
  cases t with
  | nil => rfl
  | leaf i => exact absurd h.1.symm h.2.1
  | node i c child => exact absurd h.1.symm h.2.1

/-- **The search of a tree.** The last key is before the keys of the tree, and beside them if it is not empty. -/
theorem Searching.recursive {fuel id : ℕ} (hq : Query d₀) (h : Searching s d₀ data done)
    (hlink : Linked s.nodes lo id t) (hwf : WF s.words lo t) (hid : id ≠ 0) (hfuel : t.inner.card < fuel)
    (hne : ∀ j ∈ t.ids, s.keyOf j ≠ []) (htext : ∀ j ∈ t.leaves, IsText (s.keyOf j))
    (hbeside : data.lastKey ≠ [] → StandsBeside s.words (word data.lastKey) lo t)
    (hlt : ∀ j ∈ t.leaves, data.lastKey < s.keyOf j) :
    ∃ data', fuzzySearchRecursive s fuel data id lo = some data' ∧
      Searching s d₀ data' (done ++ t.inOrder false) ∧
        (data'.lastKey = data.lastKey ∨ ∃ j ∈ t.leaves, data'.lastKey = s.keyOf j) := by
  induction t generalizing fuel id lo data done with
  | nil => exact absurd hlink hid
  | leaf i =>
    obtain ⟨fuel, rfl⟩ := Nat.exists_eq_succ_of_ne_zero (Nat.ne_of_gt (Nat.zero_lt_of_lt hfuel))
    obtain ⟨rfl, -, hcheck⟩ := hlink
    have hself : id ∈ (Trie.leaf id).leaves := Multiset.mem_singleton_self id
    obtain ⟨hsearching, hlastKey⟩ := h.record hq (htext id hself) (hlt id hself)
    refine ⟨_, ?_, hsearching, hlastKey.imp_right fun hlastKey => ⟨id, hself, hlastKey⟩⟩
    rw [fuzzySearchRecursive]
    exact if_neg (not_lt.mpr hcheck)
  | node i c child ih =>
    obtain ⟨fuel, rfl⟩ := Nat.exists_eq_succ_of_ne_zero (Nat.ne_of_gt (Nat.zero_lt_of_lt hfuel))
    obtain ⟨rfl, -, hcheck, hchild⟩ := hlink
    have hside := hwf.2.2
    have hlo := hwf.1
    rw [fuzzySearchRecursive]
    simp only [hcheck, if_pos hlo]
    by_cases hprune : startsWithLast data (s.keyOf id) = true ∧ data.canTransition = false
    · -- all keys of the tree begin with the last one
      have hlast := (h.cached.stops hprune.2).1
      have hall : ∀ j ∈ (Trie.node id c child).leaves, data.lastKey <+: s.keyOf j := fun j hj =>
        (hbeside hlast).prefix_all hlast (mem_ids_node.mpr (.inl rfl)) (startsWithLast_iff.mp hprune.1)
          (mem_ids.mpr (.inr hj))
      rw [if_pos hprune]
      exact ⟨data, rfl, h.skip fun j hj => h.cached.not_matches hprune.2 (htext j (mem_inOrder.mp hj))
        (hall j (mem_inOrder.mp hj)), .inl rfl⟩
    · rw [if_neg hprune]
      have hturn : ∀ (d : Bool) (data : FuzzySearchData) (done : List ℕ), Searching s d₀ data done →
          (data.lastKey ≠ [] → StandsBeside s.words (word data.lastKey) c (child d)) →
          (∀ j ∈ (child d).leaves, data.lastKey < s.keyOf j) →
          ∃ data', (if (s.nodes id).lr d = 0 then some data
              else fuzzySearchRecursive s fuel data ((s.nodes id).lr d) c) = some data' ∧
            Searching s d₀ data' (done ++ (child d).inOrder false) ∧
              (data'.lastKey = data.lastKey ∨ ∃ j ∈ (child d).leaves, data'.lastKey = s.keyOf j) := by
        intro d data done h hbeside hlt
        by_cases hzero : (s.nodes id).lr d = 0
        · have hlinkd := hchild d
          rw [hzero] at hlinkd
          rw [if_pos hzero, Linked.eq_nil hlinkd]
          exact ⟨data, rfl, by rw [inOrder, List.append_nil]; exact h, .inl rfl⟩
        · rw [if_neg hzero]
          have hsmall := (card_inner_child id c child d).trans_le (Nat.lt_succ_iff.mp hfuel)
          exact ih d h (hchild d) (hside d).2 hzero hsmall
            (fun j hj => hne j (mem_ids_node.mpr (.inr ⟨d, hj⟩)))
            (fun j hj => htext j (mem_leaves_node.mpr ⟨d, hj⟩)) hbeside hlt
      obtain ⟨data₁, hleft, hsearching₁, hlast₁⟩ := hturn false data done h
        (fun hlast => (hbeside hlast).child hlo false)
        fun j hj => hlt j (mem_leaves_node.mpr ⟨false, hj⟩)
      obtain ⟨data₂, hright, hsearching₂, hlast₂⟩ := hturn true data₁ (done ++ (child false).inOrder false)
        hsearching₁ (by
          intro hlast
          rcases hlast₁ with heq | ⟨j, hj, heq⟩
          · rw [heq] at hlast ⊢
            exact (hbeside hlast).child hlo true
          · rw [heq]
            exact WF.beside hwf (mem_ids.mpr (.inr hj))) (by
          intro l hl
          rcases hlast₁ with heq | ⟨j, hj, heq⟩
          · rw [heq]
            exact hlt l (mem_leaves_node.mpr ⟨true, hl⟩)
          · rw [heq]
            have hj' : j ∈ (child false).ids := mem_ids.mpr (.inr hj)
            have hl' : l ∈ (child true).ids := mem_ids.mpr (.inr hl)
            exact (word_lt_iff (hne j (mem_ids_node.mpr (.inr ⟨false, hj'⟩)))
              (hne l (mem_ids_node.mpr (.inr ⟨true, hl'⟩)))).mp (WF.lt hwf hj' hl'))
      refine ⟨data₂, ?_, ?_, ?_⟩
      · rw [hleft]
        exact hright
      · rw [inOrder, Bool.not_false, ← List.append_assoc]
        exact hsearching₂
      · rcases hlast₂ with heq₂ | ⟨j, hj, heq₂⟩
        · rw [heq₂]
          refine hlast₁.imp_right fun hkey => ?_
          obtain ⟨j, hj, heq⟩ := hkey
          exact ⟨j, mem_leaves_node.mpr ⟨false, hj⟩, heq⟩
        · exact .inr ⟨j, mem_leaves_node.mpr ⟨true, hj⟩, heq₂⟩

end Groonga.Pat
