import Groonga.Lib.BitCompare
import Groonga.Pat.Prefix
import Mathlib

/-!
# The bounds of a range

A cursor for a range goes down the tree by the bits of its bound. At each node the bits between
the check above and the check of the node are compared with the key of the node, whatever
record that is: all keys below agree in them. Trees that are wholly beyond the bound are left
on the stack, and the way ends at a record or at a node where the bound parts from all keys.

A check is a place between two bits when it is odd. Below a branch with an odd check, a branch
with the next odd check is reached without a comparison, so the bit between the two is never
looked at.
-/

namespace Groonga.Pat

open Lib Lib.Patricia Lib.Patricia.Trie

/-! ## The way down -/

/-- The comparison of a byte under a mask in `bitcmp`. -/
def maskcmp (s1 s2 : List UInt8) (i mask : ℕ) : Ordering :=
  compare ((s1.getD i 0).toNat &&& mask) ((s2.getD i 0).toNat &&& mask)

/-- `bitcmp`: the sign of its result. -/
def bitcmp (s1 s2 : List UInt8) (offset length : ℕ) : Ordering :=
  let bl := offset / 8
  let mask := 0xff >>> (offset % 8)
  if length + offset % 8 ≤ 8 then maskcmp s1 s2 bl (mask &&& 0xff <<< (8 - (length + offset % 8)))
  else
    let rest := length + offset % 8 - 8
    (maskcmp s1 s2 bl mask).then
      ((memcmp ((s1.drop (bl + 1)).take (rest / 8)) ((s2.drop (bl + 1)).take (rest / 8))).then
        (maskcmp s1 s2 (bl + 1 + rest / 8) (0xff <<< (8 - rest % 8))))

/-- The comparison at a node with the check `ch`, below the check `check`. -/
def compareAt (key k : List UInt8) (len check : ℤ) (ch : ℕ) : Ordering :=
  let c2 := if len < ch then len else ch
  let check := check + 2
  if check < c2 then
    bitcmp key k (check / 2).toNat (((c2 + 1) / 2).toNat - (check / 2).toNat)
  else .eq

/-- The loop that `set_cursor_ascend` and `set_cursor_descend` share. `onLeaf` tells whether
the key of a record is pushed. -/
def setCursorLoop (s : GrnPat) (key : List UInt8) (len : ℤ) (descending : Bool)
    (onLeaf : List UInt8 → Bool) :
    ℕ → ℕ → ℤ → List CursorEntry → Option (List CursorEntry)
  | 0, _, _, _ => none
  | fuel + 1, id, check, ss =>
    if id = 0 then some ss
    else
      let node := s.nodes id
      let ch := node.check
      if (ch : ℤ) ≤ check then
        some (if onLeaf (s.nodeKey node) then ⟨id, check.toNat⟩ :: ss else ss)
      else
        let first : CursorEntry := ⟨node.lr descending, ch⟩
        let second : CursorEntry := ⟨node.lr !descending, ch⟩
        let r := compareAt key (s.nodeKey node) len check ch
        if r ≠ .eq then some (if r = (if descending then .gt else .lt) then first :: second :: ss else ss)
        else if len ≤ ch then some (if descending then ss else first :: second :: ss)
        else
          let d := direction key ch len.toNat
          setCursorLoop s key len descending onLeaf fuel (node.lr d) ch
            (if d = descending then second :: ss else ss)

/-- The test of `set_cursor_ascend` for a record. -/
def ascendKeeps (key : List UInt8) (gt : Bool) (k : List UInt8) : Bool :=
  if k.length = key.length then if gt then decide (key < k) else !decide (k < key)
  else if k.length < key.length then decide (key.take k.length < k)
  else !decide (k.take key.length < key)

/-- The test of `set_cursor_descend` for a record. -/
def descendKeeps (key : List UInt8) (lt : Bool) (k : List UInt8) : Bool :=
  if k.length ≤ key.length then
    if lt ∧ k.length = key.length then decide (k < key) else !decide (key.take k.length < k)
  else decide (k.take key.length < key)

/-- `set_cursor_ascend`: the stack. -/
def setCursorAscend (s : GrnPat) (key : List UInt8) (gt : Bool) : Option (List CursorEntry) :=
  setCursorLoop s key (int32 (key.length * 16)) false (ascendKeeps key gt) (s.currRec + 1)
    (s.load .root) (-1) []

/-- `set_cursor_descend`: the stack. -/
def setCursorDescend (s : GrnPat) (key : List UInt8) (lt : Bool) : Option (List CursorEntry) :=
  setCursorLoop s key (int32 (key.length * 16)) true (descendKeeps key lt) (s.currRec + 1)
    (s.load .root) (-1) []

/-! ## Comparisons of keys -/

variable {key k a b : List UInt8}

/-- A comparison in the length of the shorter key. -/
theorem take_lt_iff (h : b.length ≤ a.length) : a.take b.length < b ↔ a < b := by
  induction b generalizing a with
  | nil => simp
  | cons y b ih =>
    rcases a with _ | ⟨x, a⟩
    · exact absurd h (Nat.not_succ_le_zero _)
    · rw [List.length_cons, List.take_succ_cons, List.cons_lt_cons_iff, List.cons_lt_cons_iff,
        ih (Nat.le_of_succ_le_succ h)]

theorem lt_take_iff (h : b.length < a.length) : ¬ a.take b.length < b ↔ b < a := by
  rw [take_lt_iff h.le, List.not_lt]
  refine ⟨fun hle => ?_, List.le_of_lt⟩
  rcases List.le_iff_lt_or_eq.mp hle with hlt | rfl
  · exact hlt
  · exact absurd h (Nat.lt_irrefl _)

/-- A key is on the side of a bound that a cursor goes through: after it, or before it, or the
bound itself unless it is excluded. -/
def PastBound (descending strict : Bool) (bound key : List UInt8) : Prop :=
  (if descending then key < bound else bound < key) ∨ strict = false ∧ key = bound

instance (descending strict : Bool) (bound key : List UInt8) :
    Decidable (PastBound descending strict bound key) :=
  inferInstanceAs (Decidable (_ ∨ _))

theorem not_lt_iff_or_eq : ¬ a < b ↔ b < a ∨ a = b := by
  rw [List.not_lt, List.le_iff_lt_or_eq, @eq_comm _ b]

theorem ascendKeeps_iff (gt : Bool) : ascendKeeps key gt k = true ↔ PastBound false gt key k := by
  unfold ascendKeeps PastBound
  rcases Nat.lt_trichotomy k.length key.length with hlt | heq | hgt
  · have hne : k ≠ key := fun h => hlt.ne (congrArg List.length h)
    rw [if_neg hlt.ne, if_pos hlt, decide_eq_true_iff, take_lt_iff hlt.le]
    simp [hne]
  · rw [if_pos heq]
    cases gt
    · have hkeep : (!decide (k < key)) = true ↔ key < k ∨ k = key := by
        rw [Bool.not_eq_true', decide_eq_false_iff_not, not_lt_iff_or_eq]
      simpa using hkeep
    · simp
  · have hne : k ≠ key := fun h => hgt.ne (congrArg List.length h).symm
    rw [if_neg hgt.ne', if_neg hgt.not_gt]
    simp [lt_take_iff hgt, hne]

theorem descendKeeps_iff (lt : Bool) : descendKeeps key lt k = true ↔ PastBound true lt key k := by
  unfold descendKeeps PastBound
  rcases Nat.lt_trichotomy k.length key.length with hlt | heq | hgt
  · have hne : k ≠ key := fun h => hlt.ne (congrArg List.length h)
    rw [if_pos hlt.le, if_neg fun h => hlt.ne h.2]
    simp [lt_take_iff hlt, hne]
  · rw [if_pos heq.le, heq, List.take_length]
    cases lt
    · have hkeep : (!decide (key < k)) = true ↔ k < key ∨ k = key := by
        rw [Bool.not_eq_true', decide_eq_false_iff_not, not_lt_iff_or_eq, @eq_comm _ key]
      simpa using hkeep
    · simp
  · have hne : k ≠ key := fun h => hgt.ne (congrArg List.length h).symm
    rw [if_neg hgt.not_ge, decide_eq_true_iff, take_lt_iff hgt.le]
    simp [hne]

/-- A key that the word of the bound comes before, or after. -/
theorem pastBound_iff_of_before {descending strict d : Bool} (hb : b ≠ []) (hk : k ≠ [])
    (h : (word b).Before d (word k)) : PastBound descending strict b k ↔ d = descending := by
  have hlt : if d then k < b else b < k := by
    cases d
    · exact (word_lt_iff hb hk).mp h
    · exact (word_lt_iff hk hb).mp h
  unfold PastBound
  cases d <;> cases descending
  · exact iff_of_true (.inl hlt) rfl
  · refine iff_of_false (fun h => ?_) Bool.false_ne_true
    rcases h with hkb | ⟨-, rfl⟩
    · exact List.lt_asymm hlt hkb
    · exact List.lt_irrefl k hlt
  · refine iff_of_false (fun h => ?_) Bool.false_ne_true.symm
    rcases h with hkb | ⟨-, rfl⟩
    · exact List.lt_asymm hlt hkb
    · exact List.lt_irrefl k hlt
  · exact iff_of_true (.inl hlt) rfl

/-! ## Comparisons of bits -/

/-- **`bitcmp` compares the bits of a range.** -/
theorem verdict_bitcmp {s1 s2 : List UInt8} {offset length : ℕ} (h1 : offset + length ≤ 8 * s1.length)
    (h2 : offset + length ≤ 8 * s2.length) :
    Verdict (bitAt s1) (bitAt s2) offset (offset + length) (bitcmp s1 s2 offset length) := by
  have hinside : ∀ o < 8, ∀ e ≤ 8, ∀ p < 8,
      (0xff >>> o &&& 0xff <<< (8 - e)).testBit (7 - p) = decide (o ≤ p ∧ p < e) := by decide +kernel
  have hfirst : ∀ o < 8, ∀ p < 8, (0xff >>> o).testBit (7 - p) = decide (o ≤ p ∧ p < 8) := by decide
  have hlast : ∀ e < 8, ∀ p < 8,
      (0xff <<< (8 - e)).testBit (7 - p) = decide (0 ≤ p ∧ p < e) := by decide
  have ho : offset % 8 < 8 := Nat.mod_lt _ (by omega)
  rw [bitcmp]
  split_ifs with hone
  · -- the range is inside one byte
    have hbyte := verdict_byte s1 s2 (offset / 8) (hinside _ ho _ hone) hone
    rwa [show 8 * (offset / 8) + offset % 8 = offset by omega,
      show 8 * (offset / 8) + (length + offset % 8) = offset + length by omega] at hbyte
  · generalize hrest : length + offset % 8 - 8 = rest
    have hhead := verdict_byte s1 s2 (offset / 8) (hfirst _ ho) le_rfl
    have hmid : Verdict (bitAt s1) (bitAt s2) (8 * (offset / 8 + 1) + 0)
        (8 * (offset / 8 + 1) + 8 * (rest / 8))
        (memcmp ((s1.drop (offset / 8 + 1)).take (rest / 8))
          ((s2.drop (offset / 8 + 1)).take (rest / 8))) := by
      have hbytes := @verdict_memcmp (rest / 8) (s1.drop (offset / 8 + 1)) (s2.drop (offset / 8 + 1))
        (by rw [List.length_drop]; omega) (by rw [List.length_drop]; omega)
      exact Verdict.shift (hbytes.congr (fun p _ _ => (bitAt_drop s1 _ p).symm)
        fun p _ _ => (bitAt_drop s2 _ p).symm)
    have htail := verdict_byte s1 s2 (offset / 8 + 1 + rest / 8)
      (hlast _ (Nat.mod_lt rest (by omega))) (by omega)
    rw [show 8 * (offset / 8) + offset % 8 = offset by omega,
      show 8 * (offset / 8) + 8 = 8 * (offset / 8 + 1) + 0 by omega] at hhead
    rw [show 8 * (offset / 8 + 1 + rest / 8) + 0 = 8 * (offset / 8 + 1) + 8 * (rest / 8) by omega,
      show 8 * (offset / 8 + 1 + rest / 8) + rest % 8 = offset + length by omega] at htail
    exact hhead.then (hmid.then htail (by omega) (by omega)) (by omega) (by omega)

theorem word_bit_two_mul (p : ℕ) : (word k).bit (2 * p) = bitAt k p := by
  rw [word_bit_even (by omega), nthBit, bitAt, show 2 * p / 16 = p / 8 by omega,
    show 2 * p / 2 % 8 = p % 8 by omega]

/-! ## At a node -/

variable {s : GrnPat} {t : Trie ℕ} {own : ℕ → ℕ} {free : ℕ → List ℕ} {lost : Finset ℕ}

/-- The branches of the tree, each with the check above it. -/
inductive Branch (s : GrnPat) : ℤ → ℕ → Prop
  | root : s.load .root ≠ 0 → Branch s (-1) (s.load .root)
  | child {c : ℤ} {id : ℕ} (d : Bool) : Branch s c id → c < (s.nodes id).check →
      (s.nodes id).lr d ≠ 0 → Branch s (s.nodes id).check ((s.nodes id).lr d)

/-- **No bit that decides is skipped**: a branch right below one with the previous odd check
does not part from the bound at the bit between the two. -/
def SkipsNothing (s : GrnPat) (b : List UInt8) : Prop :=
  ∀ c id, Branch s c id → c % 2 = 1 → ((s.nodes id).check : ℤ) = c + 2 →
    ¬ DiffersAt b (s.keyOf id) (c + 1).toNat

/-- What the comparison at a node says about a key below it. -/
def Parts (b k : List UInt8) (c : ℕ) : Ordering → Prop
  | .lt => (word b).Before false (word k)
  | .gt => (word b).Before true (word k)
  | .eq => if b.length * 16 ≤ c then (word b).Before false (word k) else (word b).AgreeBelow c (word k)

/-- Odd positions inside both words say nothing. -/
theorem bit_odd_eq {p c : ℕ} (hodd : p % 2 = 1) (hb : p + 1 < b.length * 16) (hp : p < c)
    (hc : c < k.length * 16) : (word b).bit p = (word k).bit p := by
  rw [word_bit_odd hodd, word_bit_odd hodd, decide_eq_true hb, decide_eq_true (by omega)]

/-- **The comparison at a node** with the key `f` holds for all keys below. -/
theorem parts_compareAt {f : List UInt8} {lo : ℤ} {c : ℕ} (hlo : -1 ≤ lo)
    (hlen : lo < b.length * 16) (hb : b ≠ []) (hloc : lo < c) (hf : c < f.length * 16)
    (hc : c < k.length * 16) (hbelow : (word k).AgreeBelow c (word f))
    (hagree : ∀ p : ℕ, (p : ℤ) ≤ lo → (word b).bit p = (word k).bit p)
    (hskip : lo % 2 = 1 → (c : ℤ) = lo + 2 → ¬ DiffersAt b f (lo + 1).toNat) :
    Parts b k c (compareAt b f (b.length * 16 : ℕ) lo c) := by
  have hblen : 0 < b.length := List.length_pos_iff.mpr hb
  obtain ⟨m, hm, hmc, hmb⟩ : ∃ m : ℕ, (if ((b.length * 16 : ℕ) : ℤ) < c then ((b.length * 16 : ℕ) : ℤ)
      else (c : ℤ)) = m ∧ m ≤ c ∧ m ≤ b.length * 16 := by
    split_ifs with hlt
    · exact ⟨b.length * 16, rfl, by omega, le_rfl⟩
    · exact ⟨c, rfl, le_rfl, by omega⟩
  have hbits : ∀ p, 2 * p < c → bitAt k p = bitAt f p := fun p hp => by
    rw [← word_bit_two_mul, ← word_bit_two_mul]
    exact hbelow _ hp
  have hmin : m = c ∨ m = b.length * 16 := by
    split_ifs at hm <;> omega
  -- what the bits before a position say about all positions before it
  have hbefore : ∀ q ≤ m, (∀ p, 2 * p < q → lo < 2 * p → bitAt b p = bitAt k p) →
      ∀ p, p < q → p + 1 < b.length * 16 → (word b).bit p = (word k).bit p := by
    intro q hq hsame p hp hpb
    rcases le_or_gt (p : ℤ) lo with hplo | hplo
    · exact hagree p hplo
    · rcases Nat.mod_two_eq_zero_or_one p with heven | hodd
      · obtain ⟨p', rfl⟩ := Nat.dvd_of_mod_eq_zero heven
        rw [word_bit_two_mul, word_bit_two_mul]
        exact hsame p' hp (by omega)
      · exact bit_odd_eq hodd hpb (by omega) hc
  -- when all bits agree
  have hall : (∀ p, 2 * p < m → lo < 2 * p → bitAt b p = bitAt k p) → Parts b k c .eq := by
    intro hsame
    rw [Parts]
    split_ifs with hend
    · -- the bound ends before the check: the key goes on behind it
      refine Word.before_of_bit (show b.length * 16 - 1 < b.length * 16 by omega)
        (show b.length * 16 - 1 < k.length * 16 by omega) (fun p hp => ?_) ?_ ?_
      · exact hbefore m le_rfl hsame p (by omega) (by omega)
      · rw [word_bit_odd (by omega), decide_eq_false (by omega)]
      · rw [word_bit_odd (by omega), decide_eq_true (by omega)]
        rfl
    · intro p hp
      exact hbefore m le_rfl hsame p (by omega) (by omega)
  rw [compareAt]
  simp only [hm]
  split_ifs with hgo
  · have hrange := @verdict_bitcmp b f ((lo + 2) / 2).toNat
      ((((m : ℤ) + 1) / 2).toNat - ((lo + 2) / 2).toNat) (by omega) (by omega)
    rw [show ((lo + 2) / 2).toNat + ((((m : ℤ) + 1) / 2).toNat - ((lo + 2) / 2).toNat) =
      (((m : ℤ) + 1) / 2).toNat by omega] at hrange
    generalize bitcmp b f ((lo + 2) / 2).toNat
      ((((m : ℤ) + 1) / 2).toNat - ((lo + 2) / 2).toNat) = r at hrange
    replace hrange := hrange.congr (fun _ _ _ => rfl) fun p _ hp => hbits p (by omega)
    -- a first different bit
    have hfirst : ∀ q, ((lo + 2) / 2).toNat ≤ q → q < (((m : ℤ) + 1) / 2).toNat →
        (∀ p, ((lo + 2) / 2).toNat ≤ p → p < q → bitAt b p = bitAt k p) →
        ∀ d, bitAt b q = d → bitAt k q = !d → (word b).Before d (word k) := by
      intro q hq hqm hsame d hbq hkq
      refine Word.before_of_bit (show 2 * q < b.length * 16 by omega)
        (show 2 * q < k.length * 16 by omega) (fun p hp => ?_) ?_ ?_
      · exact hbefore (2 * q) (by omega) (fun p hp hlop => hsame p (by omega) (by omega)) p hp (by omega)
      · rw [word_bit_two_mul, hbq]
      · rw [word_bit_two_mul, hkq]
    cases r with
    | eq => exact hall fun p hp hlop => hrange p (by omega) (by omega)
    | lt =>
      obtain ⟨q, hq, hqm, hsame, hbq, hkq⟩ := hrange
      exact hfirst q hq hqm hsame false hbq hkq
    | gt =>
      obtain ⟨q, hq, hqm, hsame, hbq, hkq⟩ := hrange
      exact hfirst q hq hqm hsame true hbq hkq
  · -- at most one position is left, and no comparison is made
    refine hall fun p hp hlop => ?_
    have hodd : lo % 2 = 1 := by omega
    have hnext : (c : ℤ) = lo + 2 := by omega
    have hpos : (lo + 1).toNat = 2 * p := by omega
    by_contra hne
    refine hskip hodd hnext (hpos ▸ ⟨?_, ?_, fun q hq => ?_, ?_⟩)
    · exact show 2 * p < b.length * 16 by omega
    · exact show 2 * p < f.length * 16 by omega
    · exact (hagree q (by omega)).trans (hbelow q (by omega))
    · rwa [word_bit_two_mul, word_bit_two_mul, ← hbits p (by omega)]

/-! ## The stack -/

/-- The trees that a cursor leaves on its stack: of a tree, the records that `keep` holds for,
in their order. -/
structure Remains (s : GrnPat) (descending : Bool) (t : Trie ℕ) (keep : ℕ → Bool)
    (ss : List CursorEntry) (ts : List (Trie ℕ)) : Prop where
  stacked : Stacked s.nodes s.words ss ts
  counts : linkCounts ts ≤ linkCount t
  order : inOrders descending ts = (t.inOrder descending).filter keep

namespace Remains

variable {descending : Bool} {keep : ℕ → Bool} {ss : List CursorEntry} {ts : List (Trie ℕ)}

theorem none (h : ∀ j ∈ t.leaves, keep j = false) : Remains s descending t keep [] [] where
  stacked := .nil
  counts := Nat.zero_le _
  order := by
    refine (List.filter_eq_nil_iff.mpr fun j hj => ?_).symm
    rw [h j (mem_inOrder.mp hj)]
    exact Bool.false_ne_true

theorem one {c id : ℕ} (hlink : Linked s.nodes c id t) (hwf : WF s.words c t)
    (h : ∀ j ∈ t.leaves, keep j = true) : Remains s descending t keep [⟨id, c⟩] [t] where
  stacked := .cons ⟨hlink, hwf⟩ .nil
  counts := le_of_eq (by simp [linkCounts])
  order := by
    rw [List.filter_eq_self.mpr fun j hj => h j (mem_inOrder.mp hj)]
    simp [inOrders]

/-- The children of a node, the first one on top of the stack. -/
theorem node {i c : ℕ} {child : Bool → Trie ℕ} {ss' : List CursorEntry} {ts' : List (Trie ℕ)}
    (h : Remains s descending (child descending) keep ss ts)
    (h' : Remains s descending (child !descending) keep ss' ts') :
    Remains s descending (.node i c child) keep (ss ++ ss') (ts ++ ts') where
  stacked := List.rel_append h.stacked h'.stacked
  counts := by
    rw [linkCounts_append, linkCount_node i c child descending]
    exact (Nat.add_le_add h.counts h'.counts).trans (Nat.le_succ _)
  order := by
    rw [inOrder, List.filter_append, ← h.order, ← h'.order]
    simp [inOrders]

end Remains

/-- **The way down** leaves the records on the side of the bound on the stack. -/
theorem setCursorLoop_spec {descending strict : Bool} {onLeaf : List UInt8 → Bool} {fuel id : ℕ}
    {lo : ℤ} (hlink : Linked s.nodes lo id t) (hwf : WF s.words lo t)
    (hkeys : ∀ j ∈ t.ids, s.keyOf j ≠ []) (hfuel : t.inner.card < fuel) (hb : b ≠ [])
    (hskip : SkipsNothing s b)
    (honLeaf : ∀ k, onLeaf k = true ↔ PastBound descending strict b k) (hlo : -1 ≤ lo)
    (hlen : lo < b.length * 16) (hbranch : id ≠ 0 → Branch s lo id)
    (hagree : ∀ j ∈ t.ids, ∀ p : ℕ, (p : ℤ) ≤ lo → (word b).bit p = (s.words j).bit p)
    (ss : List CursorEntry) :
    ∃ es ts, setCursorLoop s b (b.length * 16 : ℕ) descending onLeaf fuel id lo ss = some (es ++ ss) ∧
      Remains s descending t (fun j => decide (PastBound descending strict b (s.keyOf j))) es ts := by
  induction t generalizing fuel id lo ss with
  | nil =>
    obtain ⟨fuel, rfl⟩ := Nat.exists_eq_succ_of_ne_zero (Nat.ne_of_gt (Nat.zero_lt_of_lt hfuel))
    obtain rfl : id = 0 := hlink
    exact ⟨[], [], rfl, .none fun j hj => absurd hj (Multiset.notMem_zero j)⟩
  | leaf i =>
    obtain ⟨fuel, rfl⟩ := Nat.exists_eq_succ_of_ne_zero (Nat.ne_of_gt (Nat.zero_lt_of_lt hfuel))
    obtain ⟨rfl, hne, hcheck⟩ := hlink
    rw [setCursorLoop, if_neg hne]
    simp only [if_pos hcheck]
    have hnat : ((lo.toNat : ℕ) : ℤ) = lo := Int.toNat_of_nonneg ((Int.natCast_nonneg _).trans hcheck)
    by_cases hkeep : PastBound descending strict b (s.keyOf id)
    · refine ⟨[⟨id, lo.toNat⟩], [.leaf id], ?_, ?_⟩
      · rw [if_pos ((honLeaf (s.nodeKey (s.nodes id))).mpr hkeep)]
        rfl
      · refine .one ⟨rfl, hne, by rwa [hnat]⟩ trivial fun j hj => ?_
        obtain rfl := Multiset.mem_singleton.mp hj
        exact decide_eq_true hkeep
    · refine ⟨[], [], ?_, .none fun j hj => ?_⟩
      · rw [if_neg fun h => hkeep ((honLeaf (s.nodeKey (s.nodes id))).mp h)]
        rfl
      · obtain rfl := Multiset.mem_singleton.mp hj
        exact decide_eq_false hkeep
  | node i c child ih =>
    obtain ⟨fuel, rfl⟩ := Nat.exists_eq_succ_of_ne_zero (Nat.ne_of_gt (Nat.zero_lt_of_lt hfuel))
    obtain ⟨rfl, hne, rfl, hchild⟩ := hlink
    obtain ⟨hloc, hbelow, hside⟩ := hwf
    have hbranch := hbranch hne
    have htop : id ∈ (Trie.node id (s.nodes id).check child).ids := mem_ids_node.mpr (.inl rfl)
    have hparts : ∀ j ∈ (Trie.node id (s.nodes id).check child).ids,
        Parts b (s.keyOf j) (s.nodes id).check
          (compareAt b (s.nodeKey (s.nodes id)) (b.length * 16 : ℕ) lo (s.nodes id).check) :=
      fun j hj => parts_compareAt hlo hlen hb hloc (hbelow id htop).1 (hbelow j hj).1 (hbelow j hj).2
        (hagree j hj) fun hodd hnext => hskip lo id hbranch hodd hnext
    have hsub : ∀ d, ∀ j ∈ (child d).leaves, j ∈ (Trie.node id (s.nodes id).check child).ids :=
      fun d j hj => mem_ids_node.mpr (.inr ⟨d, mem_ids.mpr (.inr hj)⟩)
    -- all records below the node are on one side of the bound
    have houter : ∀ d, (∀ j ∈ (Trie.node id (s.nodes id).check child).ids,
        (word b).Before d (word (s.keyOf j))) → ∃ ts, Remains s descending
          (.node id (s.nodes id).check child)
          (fun j => decide (PastBound descending strict b (s.keyOf j)))
          (if d = descending then [⟨(s.nodes id).lr descending, (s.nodes id).check⟩,
            ⟨(s.nodes id).lr !descending, (s.nodes id).check⟩] else []) ts := by
      intro d hbefore
      have hpast : ∀ j ∈ (Trie.node id (s.nodes id).check child).ids,
          (PastBound descending strict b (s.keyOf j) ↔ d = descending) := fun j hj =>
        pastBound_iff_of_before hb (hkeys j hj) (hbefore j hj)
      split_ifs with hd
      · refine ⟨[child descending] ++ [child !descending], .node (.one (hchild _) (hside _).2 ?_)
          (.one (hchild _) (hside _).2 ?_)⟩
        · exact fun j hj => decide_eq_true ((hpast j (hsub _ j hj)).mpr hd)
        · exact fun j hj => decide_eq_true ((hpast j (hsub _ j hj)).mpr hd)
      · refine ⟨[], .none fun j hj => ?_⟩
        exact decide_eq_false fun h => hd ((hpast j (mem_ids.mpr (.inr hj))).mp h)
    have hstop : ¬ ((s.nodes id).check : ℤ) ≤ lo := not_le.mpr hloc
    rw [setCursorLoop, if_neg hne]
    simp only [if_neg hstop]
    generalize compareAt b (s.nodeKey (s.nodes id)) (b.length * 16 : ℕ) lo (s.nodes id).check = r
      at hparts
    cases r with
    | lt =>
      obtain ⟨ts, hts⟩ := houter false hparts
      refine ⟨_, ts, ?_, hts⟩
      cases descending <;> rfl
    | gt =>
      obtain ⟨ts, hts⟩ := houter true hparts
      refine ⟨_, ts, ?_, hts⟩
      cases descending <;> rfl
    | eq =>
      simp only [ne_eq, not_true, if_false, Int.ofNat_le]
      by_cases hend : b.length * 16 ≤ (s.nodes id).check
      · -- the bound ends here, and all keys below go on behind it
        obtain ⟨ts, hts⟩ := houter false fun j hj => by
          have := hparts j hj
          rwa [Parts, if_pos hend] at this
        refine ⟨_, ts, ?_, hts⟩
        rw [if_pos hend]
        cases descending <;> rfl
      · have hin : (s.nodes id).check < b.length * 16 := Nat.not_le.mp hend
        have hagree' : ∀ j ∈ (Trie.node id (s.nodes id).check child).ids,
            (word b).AgreeBelow (s.nodes id).check (s.words j) := fun j hj => by
          have := hparts j hj
          rwa [Parts, if_neg hend] at this
        rw [if_neg hend, Int.toNat_natCast]
        generalize hdir : direction b (s.nodes id).check (b.length * 16) = d
        have hbit : (word b).bit (s.nodes id).check = d := hdir
        have hsmall := (card_inner_child id (s.nodes id).check child d).trans_le
          (Nat.lt_succ_iff.mp hfuel)
        obtain ⟨es, ts, hloop, hremains⟩ := @ih d fuel ((s.nodes id).lr d) (s.nodes id).check (hchild d)
          (hside d).2 (fun j hj => hkeys j (mem_ids_node.mpr (.inr ⟨d, hj⟩))) hsmall
          (by omega) (Int.ofNat_lt.mpr hin) (fun hne' => .child d hbranch hloc hne')
          (fun j hj p hp => by
            rcases Nat.lt_or_eq_of_le (Int.ofNat_le.mp hp) with hp | rfl
            · exact hagree' j (mem_ids_node.mpr (.inr ⟨d, hj⟩)) p hp
            · rw [hbit]
              exact ((hside d).1 j hj).symm)
          (if d = descending then ⟨(s.nodes id).lr !descending, (s.nodes id).check⟩ :: ss else ss)
        -- the other side
        have hother : ∀ j ∈ (child !d).leaves,
            (PastBound descending strict b (s.keyOf j) ↔ d = descending) := fun j hj => by
          have hj' := hsub _ j hj
          refine pastBound_iff_of_before hb (hkeys j hj') ?_
          exact Word.before_of_bit hin (hbelow j hj').1 (hagree' j hj') hbit
            ((hside _).1 j (mem_ids.mpr (.inr hj)))
        rw [hloop]
        by_cases hd : d = descending
        · subst hd
          refine ⟨es ++ [⟨(s.nodes id).lr !d, (s.nodes id).check⟩], ts ++ [child !d], ?_,
            hremains.node (.one (hchild _) (hside _).2 fun j hj => decide_eq_true ((hother j hj).mpr rfl))⟩
          rw [if_pos rfl, List.append_assoc]
          rfl
        · obtain rfl : d = !descending := Bool.eq_not.mpr hd
          rw [Bool.not_not] at hother
          refine ⟨[] ++ es, [] ++ ts, by rw [if_neg hd]; rfl, Remains.node (.none fun j hj => ?_) hremains⟩
          exact decide_eq_false fun h => hd ((hother j hj).mp h)

end Groonga.Pat
