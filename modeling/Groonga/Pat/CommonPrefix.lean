import Groonga.Pat.Prefix
import Mathlib

/-!
# Keys that are prefixes of a string

`grn_pat_lcp_search` and a cursor with `GRN_CURSOR_PREFIX` and `max` go down by the bits of a
string. A key that is a prefix of the string and ends before it is the left child of a
terminated node on the way, so both look at the left child of every terminated node.

A terminated node may have no left child. Then both look at the node 0 in its place, which
is not a record: its key is one byte at the start of the key area, and there is none while
the area has no segment. So the search stops there, forgets the key that it has found, or
goes on, by chance, and the cursor stops or goes on.
-/

namespace Groonga.Pat

open Lib.Patricia Lib.Patricia.Trie

/-! ## The searches -/

/-- `pat_node_get_key`, `none` for `NULL`: the key area has no segment. -/
def patNodeGetKey (s : GrnPat) (keyArea : Bool) (id : ℕ) : Option (List UInt8) :=
  match (s.nodes id).key with
  | .immediate key => some key
  | .stored _ _ => if keyArea then some (s.keyOf id) else none

/-- `memcmp` of a string with a key, as long as the key. -/
def beginsWith (str key : List UInt8) : Bool := str.take key.length == key

/-- The loop of `grn_pat_lcp_search`: `r2` is the key that is found so far. -/
def lcpLoop (s : GrnPat) (keyArea : Bool) (str : List UInt8) (len : ℤ) :
    ℕ → ℕ → ℤ → ℕ → Option ℕ
  | 0, _, _, _ => none
  | fuel + 1, r, c0, r2 =>
    if r = 0 then some r2
    else
      let c := (s.nodes r).check
      if (c : ℤ) ≤ c0 then
        match patNodeGetKey s keyArea r with
        | none => some r2
        | some p => if p.length ≤ str.length ∧ beginsWith str p then some r else some r2
      else if len ≤ c then some r2
      else
        let next := s.load (grnPatNextLocation r str c len.toNat)
        if c % 2 = 1 then
          let r0 := (s.nodes r).lr false
          match patNodeGetKey s keyArea r0 with
          | none => some r2
          | some p =>
            lcpLoop s keyArea str len fuel next c
              (if p.length ≤ str.length ∧ beginsWith str p then r0 else r2)
        else lcpLoop s keyArea str len fuel next c r2

/-- `grn_pat_lcp_search` of a table with variable size keys. -/
def grnPatLcpSearch (s : GrnPat) (keyArea : Bool) (str : List UInt8) : Option ℕ :=
  lcpLoop s keyArea str (int32 (str.length * 16)) (s.currRec + 1) (s.load .root) (-1) 0

/-- The loop of `set_cursor_common_prefix` over the links. The error for a key that is
`NULL` is not looked at. -/
def commonPrefixLoop (s : GrnPat) (keyArea : Bool) (minSize : ℕ) (str : List UInt8) (len : ℤ) :
    ℕ → ℕ → ℤ → List CursorEntry → Option (List CursorEntry)
  | 0, _, _, _ => none
  | fuel + 1, id, check, ss =>
    if id = 0 then some ss
    else
      let ch := (s.nodes id).check
      if (ch : ℤ) ≤ check then
        match patNodeGetKey s keyArea id with
        | none => some ss
        | some k =>
          if minSize ≤ k.length ∧ k.length ≤ str.length ∧ beginsWith str k then
            some (⟨id, check.toNat⟩ :: ss)
          else some ss
      else if len ≤ ch then some ss
      else if ch % 2 = 1 then
        let id0 := (s.nodes id).lr false
        match patNodeGetKey s keyArea id0 with
        | none => some ss
        | some k =>
          if beginsWith str k then
            commonPrefixLoop s keyArea minSize str len fuel ((s.nodes id).lr true) ch
              (if minSize ≤ k.length then ⟨id0, ch⟩ :: ss else ss)
          else some ss
      else commonPrefixLoop s keyArea minSize str len fuel ((s.nodes id).lr (nthBit str ch)) ch ss

/-- `set_cursor_common_prefix`. -/
def setCursorCommonPrefix (s : GrnPat) (keyArea : Bool) (minSize : ℕ) (str : List UInt8) :
    Option (List CursorEntry) :=
  commonPrefixLoop s keyArea minSize str (int32 (str.length * 16)) (s.currRec + 1)
    (s.load .root) (-1) []

/-- The ids that a cursor returns that is opened with `GRN_CURSOR_PREFIX` and `max`. -/
def commonPrefixCursorIds (s : GrnPat) (keyArea : Bool) (minSize : ℕ) (str : List UInt8)
    (offset : ℕ) (limit : ℤ) (descending : Bool) : Option (List ℕ) :=
  (setCursorCommonPrefix s keyArea minSize str).bind fun ss => idsWith s ss offset limit descending

/-! ## The way of a string -/

/-- The sides that `grn_pat_lcp_search` takes. -/
def lcpTurn (str : List UInt8) (len : ℤ) (check : ℕ) : Bool := direction str check len.toNat

/-- The sides that `set_cursor_common_prefix` takes. -/
def commonPrefixTurn (str : List UInt8) (check : ℕ) : Bool :=
  if check % 2 = 1 then true else nthBit str check

/-- **On the way**: from the link `r` of a node with the check `c0`, a search that takes the
sides of `turn` comes to the link `r'` of a node with the check `c0'`. -/
inductive OnWay (s : GrnPat) (turn : ℕ → Bool) (len : ℤ) : ℕ → ℤ → ℕ → ℤ → Prop
  | here (r : ℕ) (c0 : ℤ) : OnWay s turn len r c0 r c0
  | down {r : ℕ} {c0 : ℤ} {r' : ℕ} {c0' : ℤ} (hr : r ≠ 0) (hc0 : c0 < (s.nodes r).check)
      (hlen : (s.nodes r).check < len)
      (h : OnWay s turn len ((s.nodes r).lr (turn (s.nodes r).check)) (s.nodes r).check r' c0') :
      OnWay s turn len r c0 r' c0'

/-- **A gap**: a terminated node on the way, with the check `c`, without a left child. -/
def Gap (s : GrnPat) (turn : ℕ → Bool) (len : ℤ) (c : ℕ) : Prop :=
  ∃ r c0, OnWay s turn len (s.load .root) (-1) r c0 ∧ r ≠ 0 ∧ c0 < (s.nodes r).check ∧
    (s.nodes r).check < len ∧ (s.nodes r).check = c ∧ c % 2 = 1 ∧ (s.nodes r).lr false = 0

/-- The way ends at the record `j`. -/
def EndsAt (s : GrnPat) (turn : ℕ → Bool) (len : ℤ) (j : ℕ) : Prop :=
  ∃ c0, OnWay s turn len (s.load .root) (-1) j c0 ∧ j ≠ 0 ∧ ((s.nodes j).check : ℤ) ≤ c0

/-! ## What stands beside the way -/

variable {s : GrnPat} {keyArea : Bool} {str : List UInt8} {t : Trie ℕ} {w : ℕ → Word} {v : Word}

/-- A left child of a terminated node on the way, 0 for a missing one, or the record at the
end of the way, with the check of the node above it. -/
structure WayItem where
  check : ℕ
  id : ℕ

/-- What stands beside the way of a word, from the top to the end. -/
def beside (v : Word) : ℤ → Trie ℕ → List WayItem
  | _, .nil => []
  | lo, .leaf i => [⟨lo.toNat, i⟩]
  | _, .node _ c child =>
    if c < v.len then
      (if c % 2 = 1 then [⟨c, topId (child false)⟩] else []) ++ beside v c (child (v.bit c))
    else []

/-- What `grn_pat_lcp_search` makes of what stands beside the way. -/
def lcpRun (s : GrnPat) (keyArea : Bool) (str : List UInt8) : List WayItem → ℕ → ℕ
  | [], r2 => r2
  | e :: es, r2 =>
    match patNodeGetKey s keyArea e.id with
    | none => r2
    | some p => lcpRun s keyArea str es (if p <+: str then e.id else r2)

/-- What `set_cursor_common_prefix` makes of it: the entries that it pushes. -/
def pushed (s : GrnPat) (keyArea : Bool) (minSize : ℕ) (str : List UInt8) :
    List WayItem → List CursorEntry
  | [] => []
  | e :: es =>
    match patNodeGetKey s keyArea e.id with
    | none => []
    | some p =>
      if p <+: str then
        (if minSize ≤ p.length then [⟨e.id, e.check⟩] else []) ++ pushed s keyArea minSize str es
      else []

theorem beginsWith_iff {key : List UInt8} : beginsWith str key = true ↔ key <+: str := by
  rw [beginsWith, beq_iff_eq, List.prefix_iff_eq_take]
  exact eq_comm

theorem beginsWith_iff' {key : List UInt8} :
    (key.length ≤ str.length ∧ beginsWith str key = true) ↔ key <+: str := by
  rw [beginsWith_iff]
  exact ⟨And.right, fun h => ⟨h.length_le, h⟩⟩

theorem topId_eq_link {lo : ℤ} {r : ℕ} (h : Linked s.nodes lo r t) : topId t = r := by
  cases t with
  | nil => exact h.symm
  | leaf i => exact h.1.symm
  | node i c child => exact h.1.symm

/-- `grn_pat_lcp_search` only depends on what stands beside its way. -/
theorem lcpLoop_eq {len : ℤ} {fuel r r2 : ℕ} {lo : ℤ} (hlink : Linked s.nodes lo r t)
    (hwf : WF w lo t) (hfuel : t.inner.card < fuel) :
    lcpLoop s keyArea str len fuel r lo r2 =
      some (lcpRun s keyArea str (beside ⟨len.toNat, lcpTurn str len⟩ lo t) r2) := by
  induction t generalizing fuel r lo r2 with
  | nil =>
    obtain ⟨fuel, rfl⟩ := Nat.exists_eq_succ_of_ne_zero (Nat.ne_of_gt (Nat.zero_lt_of_lt hfuel))
    obtain rfl : r = 0 := hlink
    rfl
  | leaf i =>
    obtain ⟨fuel, rfl⟩ := Nat.exists_eq_succ_of_ne_zero (Nat.ne_of_gt (Nat.zero_lt_of_lt hfuel))
    obtain ⟨rfl, hne, hcheck⟩ := hlink
    simp only [lcpLoop, if_neg hne, if_pos hcheck, beside, lcpRun, beginsWith_iff']
    cases patNodeGetKey s keyArea r with
    | none => rfl
    | some p =>
      by_cases hp : p <+: str
      · simp [hp]
      · simp [hp]
  | node i c child ih =>
    obtain ⟨fuel, rfl⟩ := Nat.exists_eq_succ_of_ne_zero (Nat.ne_of_gt (Nat.zero_lt_of_lt hfuel))
    obtain ⟨rfl, hne, rfl, hchild⟩ := hlink
    obtain ⟨hlo, -, hside⟩ := hwf
    set c := (s.nodes r).check with hc
    simp only [lcpLoop, if_neg hne, ← hc, if_neg (not_le.mpr hlo), beside, beginsWith_iff']
    by_cases hlen : len ≤ c
    · have hstop : ¬ c < len.toNat := by omega
      rw [if_pos hlen, if_neg hstop]
      rfl
    · have hgo : c < len.toNat := by omega
      have hsmall : (child (lcpTurn str len c)).inner.card < fuel :=
        (card_inner_child r c child _).trans_le (Nat.lt_succ_iff.mp hfuel)
      have hnext := fun r2 => @ih (lcpTurn str len c) fuel _ r2 _ (hchild _) (hside _).2 hsmall
      rw [if_neg hlen, if_pos hgo]
      by_cases hodd : c % 2 = 1
      · rw [if_pos hodd, if_pos hodd, List.singleton_append, lcpRun]
        have htop : topId (child false) = (s.nodes r).lr false := topId_eq_link (hchild false)
        simp only [htop]
        cases patNodeGetKey s keyArea ((s.nodes r).lr false) with
        | none => rfl
        | some p => exact hnext _
      · rw [if_neg hodd, if_neg hodd, List.nil_append]
        exact hnext _

/-- `set_cursor_common_prefix` only depends on what stands beside its way. -/
theorem commonPrefixLoop_eq {len : ℤ} {minSize fuel r : ℕ} {lo : ℤ} {ss : List CursorEntry}
    (hlink : Linked s.nodes lo r t) (hwf : WF w lo t) (hfuel : t.inner.card < fuel) :
    commonPrefixLoop s keyArea minSize str len fuel r lo ss =
      some ((pushed s keyArea minSize str
        (beside ⟨len.toNat, commonPrefixTurn str⟩ lo t)).reverse ++ ss) := by
  induction t generalizing fuel r lo ss with
  | nil =>
    obtain ⟨fuel, rfl⟩ := Nat.exists_eq_succ_of_ne_zero (Nat.ne_of_gt (Nat.zero_lt_of_lt hfuel))
    obtain rfl : r = 0 := hlink
    rfl
  | leaf i =>
    obtain ⟨fuel, rfl⟩ := Nat.exists_eq_succ_of_ne_zero (Nat.ne_of_gt (Nat.zero_lt_of_lt hfuel))
    obtain ⟨rfl, hne, hcheck⟩ := hlink
    simp only [commonPrefixLoop, if_neg hne, if_pos hcheck, beside, pushed, beginsWith_iff']
    cases patNodeGetKey s keyArea r with
    | none => rfl
    | some p =>
      by_cases hp : p <+: str
      · by_cases hmin : minSize ≤ p.length
        · simp [hp, hmin]
        · simp [hmin]
      · simp [hp]
  | node i c child ih =>
    obtain ⟨fuel, rfl⟩ := Nat.exists_eq_succ_of_ne_zero (Nat.ne_of_gt (Nat.zero_lt_of_lt hfuel))
    obtain ⟨rfl, hne, rfl, hchild⟩ := hlink
    obtain ⟨hlo, -, hside⟩ := hwf
    set c := (s.nodes r).check with hc
    simp only [commonPrefixLoop, if_neg hne, ← hc, if_neg (not_le.mpr hlo), beside, beginsWith_iff]
    by_cases hlen : len ≤ c
    · have hstop : ¬ c < len.toNat := by omega
      rw [if_pos hlen, if_neg hstop]
      rfl
    · have hgo : c < len.toNat := by omega
      have hsmall : (child (commonPrefixTurn str c)).inner.card < fuel :=
        (card_inner_child r c child _).trans_le (Nat.lt_succ_iff.mp hfuel)
      have hnext := fun ss => @ih (commonPrefixTurn str c) fuel _ _ ss (hchild _) (hside _).2 hsmall
      rw [if_neg hlen, if_pos hgo]
      by_cases hodd : c % 2 = 1
      · have hturn : commonPrefixTurn str c = true := if_pos hodd
        rw [hturn] at hnext ⊢
        rw [if_pos hodd, if_pos hodd, List.singleton_append, pushed]
        have htop : topId (child false) = (s.nodes r).lr false := topId_eq_link (hchild false)
        simp only [htop]
        cases patNodeGetKey s keyArea ((s.nodes r).lr false) with
        | none => rfl
        | some p =>
          by_cases hp : p <+: str
          · by_cases hmin : minSize ≤ p.length
            · simp only [hp, hmin, if_true, hnext, List.singleton_append, List.reverse_cons,
                List.append_assoc]
            · simp only [hp, hmin, if_true, if_false, hnext, List.nil_append]
          · simp only [hp, if_false, List.reverse_nil, List.nil_append]
      · have hturn : commonPrefixTurn str c = nthBit str c := if_neg hodd
        rw [hturn] at hnext ⊢
        rw [if_neg hodd, if_neg hodd, List.nil_append]
        exact hnext _

/-! ## Records beside the way -/

/-- The word goes the way of a string: by its bits, and to the right where the string goes
on. -/
structure Reads (v : Word) (str : List UInt8) : Prop where
  len_le : v.len ≤ str.length * 16
  dvd : v.len % 16 = 0
  even : ∀ c < v.len, c % 2 = 0 → v.bit c = nthBit str c
  odd : ∀ c, c + 1 < v.len → c % 2 = 1 → v.bit c = true

/-- How the things beside a way stand to each other: a record is followed by longer keys that
begin with its key and by gaps behind it, a gap by keys that are longer. -/
def Follows (s : GrnPat) (a b : WayItem) : Prop :=
  (a.id ≠ 0 → b.id ≠ 0 → s.keyOf a.id <+: s.keyOf b.id) ∧
  (a.id = 0 → b.id ≠ 0 → a.check < (s.keyOf b.id).length * 16) ∧
  (a.id ≠ 0 → b.id = 0 → (s.keyOf a.id).length * 16 ≤ b.check)

/-- Below the left side of a terminated node there is at most one record, and its key ends
there. -/
theorem left_of_terminated {i c : ℕ} {child : Bool → Trie ℕ} {lo : ℤ}
    (hwf : WF s.words lo (.node i c child)) (hodd : c % 2 = 1) :
    child false = .nil ∨ ∃ l, child false = .leaf l ∧ (s.keyOf l).length * 16 = c + 1 := by
  obtain ⟨-, hbelow, hside⟩ := hwf
  have hends : ∀ j ∈ (child false).ids, (s.keyOf j).length * 16 = c + 1 := by
    intro j hj
    have hlen : c < (s.keyOf j).length * 16 := (hbelow j (mem_ids_node.mpr (.inr ⟨_, hj⟩))).1
    have hbit : (s.words j).bit c = false := (hside false).1 j hj
    rw [GrnPat.words, word_bit_odd hodd, decide_eq_false_iff_not] at hbit
    omega
  cases hleft : child false with
  | nil => exact .inl rfl
  | leaf l => exact .inr ⟨l, rfl, hends l (by rw [hleft]; exact mem_ids_leaf.mpr rfl)⟩
  | node l c' child' =>
    have hwf' := (hside false).2
    rw [hleft] at hwf'
    have hl : l ∈ (child false).ids := by
      rw [hleft]
      exact mem_ids_node.mpr (.inl rfl)
    have hlo : c < c' := Int.ofNat_lt.mp hwf'.1
    have hlen : c' < (s.keyOf l).length * 16 := (hwf'.2.1 l (mem_ids_node.mpr (.inl rfl))).1
    have := hends l hl
    omega

/-- On the right side of a terminated node keys go on. -/
theorem right_of_terminated {i c : ℕ} {child : Bool → Trie ℕ} {lo : ℤ}
    (hwf : WF s.words lo (.node i c child)) (hodd : c % 2 = 1) {j : ℕ} (hj : j ∈ (child true).ids) :
    c + 1 < (s.keyOf j).length * 16 := by
  have hbit : (s.words j).bit c = true := (hwf.2.2 true).1 j hj
  rwa [GrnPat.words, word_bit_odd hodd, decide_eq_true_iff] at hbit

/-- What stands beside a way is a gap or a record of the tree. -/
theorem mem_leaves_of_beside {lo : ℤ} (hwf : WF s.words lo t) {e : WayItem}
    (he : e ∈ beside v lo t) (hne : e.id ≠ 0) : e.id ∈ t.leaves := by
  induction t generalizing lo with
  | nil => cases he
  | leaf i =>
    obtain rfl := List.mem_singleton.mp he
    exact Multiset.mem_singleton_self i
  | node i c child ih =>
    rw [beside] at he
    split_ifs at he with hc hodd
    · rcases List.mem_append.mp he with he | he
      · obtain rfl := List.mem_singleton.mp he
        rcases left_of_terminated hwf hodd with hnil | ⟨l, hleaf, -⟩
        · exact absurd (by rw [hnil]; rfl) hne
        · refine mem_leaves_node.mpr ⟨false, ?_⟩
          rw [hleaf]
          exact Multiset.mem_singleton_self l
      · exact mem_leaves_node.mpr ⟨_, ih _ (hwf.2.2 _).2 he⟩
    · rw [List.nil_append] at he
      exact mem_leaves_node.mpr ⟨_, ih _ (hwf.2.2 _).2 he⟩
    · cases he

/-- A gap beside a way below a check is behind that check. -/
theorem lt_check_of_gap {lo : ℤ} (hwf : WF s.words lo t) (hne : ∀ j ∈ t.ids, j ≠ 0) {e : WayItem}
    (he : e ∈ beside v lo t) (hzero : e.id = 0) : lo < e.check := by
  induction t generalizing lo with
  | nil => cases he
  | leaf i =>
    obtain rfl := List.mem_singleton.mp he
    exact absurd hzero (hne i (mem_ids_leaf.mpr rfl))
  | node i c child ih =>
    rw [beside] at he
    have hrec : e ∈ beside v c (child (v.bit c)) → lo < e.check := fun he =>
      hwf.1.trans (ih _ (hwf.2.2 _).2 (fun j hj => hne j (mem_ids_node.mpr (.inr ⟨_, hj⟩))) he)
    split_ifs at he with hc hodd
    · rcases List.mem_append.mp he with he | he
      · obtain rfl := List.mem_singleton.mp he
        exact hwf.1
      · exact hrec he
    · exact hrec he
    · cases he

/-- **The order beside the way.** -/
theorem pairwise_beside {lo : ℤ} (hwf : WF s.words lo t) (hne : ∀ j ∈ t.ids, j ≠ 0) :
    (beside v lo t).Pairwise (Follows s) := by
  induction t generalizing lo with
  | nil => exact .nil
  | leaf i => exact List.pairwise_singleton ..
  | node i c child ih =>
    have hne' : ∀ j ∈ (child (v.bit c)).ids, j ≠ 0 := fun j hj =>
      hne j (mem_ids_node.mpr (.inr ⟨_, hj⟩))
    have hrec := ih (v.bit c) (hwf.2.2 (v.bit c)).2 hne'
    rw [beside]
    split_ifs with hc hodd
    · refine List.pairwise_append.mpr ⟨List.pairwise_singleton .., hrec, fun a ha b hb => ?_⟩
      obtain rfl := List.mem_singleton.mp ha
      -- a key below the node is at least as long as the left one
      have hlong : b.id ≠ 0 → c < (s.keyOf b.id).length * 16 ∧ b.id ∈ (Trie.node i c child).ids := by
        intro hb0
        have hb := mem_leaves_of_beside (hwf.2.2 _).2 hb hb0
        have hmem : b.id ∈ (Trie.node i c child).ids :=
          mem_ids_node.mpr (.inr ⟨_, mem_ids.mpr (.inr hb)⟩)
        exact ⟨(hwf.2.1 _ hmem).1, hmem⟩
      rcases left_of_terminated hwf hodd with hnil | ⟨l, hleaf, hends⟩
      · have hzero : topId (child false) = 0 := by rw [hnil]; rfl
        exact ⟨fun h => absurd hzero h, fun _ hb0 => (hlong hb0).1, fun h => absurd hzero h⟩
      · have htop : topId (child false) = l := by rw [hleaf]; rfl
        refine ⟨fun _ hb0 => ?_, fun _ hb0 => (hlong hb0).1, fun _ hzero => ?_⟩
        · rw [htop]
          obtain ⟨hlt, hmem⟩ := hlong hb0
          have hlids : l ∈ (Trie.node i c child).ids := by
            refine mem_ids_node.mpr (.inr ⟨false, ?_⟩)
            rw [hleaf]
            exact mem_ids_leaf.mpr rfl
          have hlne : s.keyOf l ≠ [] := fun hnil => by simp [hnil] at hends
          have hagree : (s.words l).AgreeBelow c (s.words b.id) :=
            (hwf.2.1 l hlids).2.trans (hwf.2.1 _ hmem).2.symm
          refine (prefix_iff hlne).mpr ⟨by omega, fun q hq => hagree q (by omega)⟩
        · have hlt : c < b.check :=
            Int.ofNat_lt.mp (lt_check_of_gap (hwf.2.2 _).2 hne' hb hzero)
          rw [htop, hends]
          exact hlt
    · exact hrec
    · exact .nil

/-- **The keys that are prefixes** of the string, as far as the way goes, stand beside it. -/
theorem mem_beside_of_prefix {lo : ℤ} (hwf : WF s.words lo t) (hv : Reads v str) {j : ℕ}
    (hj : j ∈ t.leaves) (hstart : s.keyOf j <+: str) (hlen : (s.keyOf j).length * 16 ≤ v.len) :
    ∃ e ∈ beside v lo t, e.id = j := by
  induction t generalizing lo with
  | nil => exact absurd hj (Multiset.notMem_zero j)
  | leaf i =>
    obtain rfl := Multiset.mem_singleton.mp hj
    exact ⟨_, List.mem_singleton_self _, rfl⟩
  | node i c child ih =>
    obtain ⟨d, hd⟩ := mem_leaves_node.mp hj
    have hids : j ∈ (child d).ids := mem_ids.mpr (.inr hd)
    have hclen : c < (s.keyOf j).length * 16 := (hwf.2.1 j (mem_ids_node.mpr (.inr ⟨d, hids⟩))).1
    have hbit : (s.words j).bit c = d := (hwf.2.2 d).1 j hids
    have hc : c < v.len := hclen.trans_le hlen
    rw [beside, if_pos hc]
    -- the way takes the side of the key
    have hdown : v.bit c = d → ∃ e ∈ (if c % 2 = 1 then [⟨c, topId (child false)⟩] else []) ++
        beside v c (child (v.bit c)), e.id = j := by
      intro hturn
      obtain ⟨e, he, hej⟩ := ih d (hwf.2.2 d).2 hd
      rw [hturn]
      exact ⟨e, List.mem_append_right _ he, hej⟩
    rcases Nat.mod_two_eq_zero_or_one c with heven | hodd
    · refine hdown ?_
      rw [hv.even c hc heven, ← hbit, GrnPat.words, word_bit_even heven]
      obtain ⟨r, rfl⟩ := hstart
      simp only [nthBit, List.getD_append _ _ _ _ (show c / 16 < (s.keyOf j).length by omega)]
    · rw [GrnPat.words, word_bit_odd hodd] at hbit
      cases d with
      | true =>
        rw [decide_eq_true_iff] at hbit
        exact hdown (hv.odd c (hbit.trans_le hlen) hodd)
      | false =>
        rcases left_of_terminated hwf hodd with hnil | ⟨l, hleaf, -⟩
        · rw [hnil] at hd
          exact absurd hd (Multiset.notMem_zero j)
        · rw [hleaf] at hd
          obtain rfl := Multiset.mem_singleton.mp hd
          rw [if_pos hodd]
          refine ⟨_, List.mem_append_left _ (List.mem_singleton_self _), ?_⟩
          rw [hleaf]
          rfl

/-- What stands beside a way comes to it: a gap is one in the nodes, a record whose key is
not inside the way is at its end. -/
theorem beside_iff_onWay {len lo : ℤ} {r : ℕ} (hlink : Linked s.nodes lo r t)
    (hwf : WF s.words lo t) (hv : v.len = len.toNat) :
    (∀ c, (⟨c, 0⟩ : WayItem) ∈ beside v lo t ↔
      ∃ r' c0, OnWay s v.bit len r lo r' c0 ∧ r' ≠ 0 ∧ c0 < (s.nodes r').check ∧
        (s.nodes r').check < len ∧ (s.nodes r').check = c ∧ c % 2 = 1 ∧ (s.nodes r').lr false = 0) ∧
    (∀ j, (∃ c0, OnWay s v.bit len r lo j c0 ∧ j ≠ 0 ∧ ((s.nodes j).check : ℤ) ≤ c0) →
      ∃ e ∈ beside v lo t, e.id = j) ∧
    (∀ e ∈ beside v lo t, e.id ≠ 0 → (s.keyOf e.id).length * 16 ≤ v.len ∨
      ∃ c0, OnWay s v.bit len r lo e.id c0 ∧ e.id ≠ 0 ∧ ((s.nodes e.id).check : ℤ) ≤ c0) := by
  induction t generalizing r lo with
  | nil =>
    obtain rfl : r = 0 := hlink
    have hstay : ∀ {r' c0}, OnWay s v.bit len 0 lo r' c0 → r' = 0 := by
      intro r' c0 h
      cases h with
      | here => rfl
      | down hr => exact absurd rfl hr
    refine ⟨fun c => iff_of_false List.not_mem_nil ?_, ?_, fun e he => absurd he List.not_mem_nil⟩
    · rintro ⟨r', c0, h, hne, -⟩
      exact hne (hstay h)
    · rintro j ⟨c0, h, hne, -⟩
      exact absurd (hstay h) hne
  | leaf i =>
    obtain ⟨rfl, hne, hcheck⟩ := hlink
    have hstay : ∀ {r' c0}, OnWay s v.bit len r lo r' c0 → r' = r ∧ c0 = lo := by
      intro r' c0 h
      cases h with
      | here => exact ⟨rfl, rfl⟩
      | down hr hc0 => exact absurd hc0 (not_lt.mpr hcheck)
    refine ⟨fun c => iff_of_false ?_ ?_, ?_, fun e he _ => ?_⟩
    · intro he
      exact hne (congrArg WayItem.id (List.mem_singleton.mp he)).symm
    · rintro ⟨r', c0, h, -, hc0, -⟩
      obtain ⟨rfl, rfl⟩ := hstay h
      exact absurd hc0 (not_lt.mpr hcheck)
    · rintro j ⟨c0, h, -, -⟩
      obtain ⟨rfl, -⟩ := hstay h
      exact ⟨_, List.mem_singleton_self _, rfl⟩
    · obtain rfl := List.mem_singleton.mp he
      exact .inr ⟨lo, .here _ _, hne, hcheck⟩
  | node i c child ih =>
    obtain ⟨rfl, hne, rfl, hchild⟩ := hlink
    set c := (s.nodes r).check with hc
    obtain ⟨hgap, hend, hrecord⟩ := ih (v.bit c) (hchild (v.bit c)) (hwf.2.2 (v.bit c)).2
    have hlo := hwf.1
    -- the node itself, or the way goes on from its child
    have hway : ∀ {r' c0}, OnWay s v.bit len r lo r' c0 ↔ (r' = r ∧ c0 = lo) ∨
        ((c : ℤ) < len ∧ OnWay s v.bit len ((s.nodes r).lr (v.bit c)) c r' c0) := by
      intro r' c0
      constructor
      · intro h
        cases h with
        | here => exact .inl ⟨rfl, rfl⟩
        | down _ _ hlen h => exact .inr ⟨hlen, h⟩
      · rintro (⟨rfl, rfl⟩ | ⟨hlen, h⟩)
        · exact .here _ _
        · exact .down hne hlo hlen h
    have htop : topId (child false) = (s.nodes r).lr false := topId_eq_link (hchild false)
    have hstop : ((c : ℤ) < len) ↔ c < v.len := by omega
    rw [beside]
    by_cases hcv : c < v.len
    · rw [if_pos hcv]
      have hlen := hstop.mpr hcv
      refine ⟨fun c' => ?_, ?_, fun e he hid => ?_⟩
      · rw [List.mem_append, hgap c']
        constructor
        · rintro (he | ⟨r', c0, h, hrest⟩)
          · by_cases hodd : c % 2 = 1
            · rw [if_pos hodd] at he
              have heq := List.mem_singleton.mp he
              have hc' : c' = c := congrArg WayItem.check heq
              have hleft : (0 : ℕ) = topId (child false) := congrArg WayItem.id heq
              exact ⟨r, lo, .here _ _, hne, hlo, hlen, hc'.symm, hc' ▸ hodd, by rw [← htop, ← hleft]⟩
            · rw [if_neg hodd] at he
              cases he
          · exact ⟨r', c0, hway.mpr (.inr ⟨hlen, h⟩), hrest⟩
        · rintro ⟨r', c0, h, hrest⟩
          rcases hway.mp h with ⟨rfl, rfl⟩ | ⟨-, h⟩
          · obtain ⟨-, -, -, rfl, hodd, hleft⟩ := hrest
            refine .inl ?_
            rw [if_pos hodd, htop, hleft]
            exact List.mem_singleton_self _
          · exact .inr ⟨r', c0, h, hrest⟩
      · rintro j ⟨c0, h, hj, hcheck⟩
        rcases hway.mp h with ⟨rfl, rfl⟩ | ⟨-, h⟩
        · exact absurd hcheck (not_le.mpr hlo)
        · obtain ⟨e, he, hej⟩ := hend j ⟨c0, h, hj, hcheck⟩
          exact ⟨e, List.mem_append_right _ he, hej⟩
      · rcases List.mem_append.mp he with he | he
        · by_cases hodd : c % 2 = 1
          · rw [if_pos hodd] at he
            obtain rfl := List.mem_singleton.mp he
            rcases left_of_terminated hwf hodd with hnil | ⟨l, hleaf, hends⟩
            · exact absurd (by rw [hnil]; rfl) hid
            · have hl : topId (child false) = l := by rw [hleaf]; rfl
              rw [hl, hends]
              exact .inl hcv
          · rw [if_neg hodd] at he
            cases he
        · refine (hrecord e he hid).imp_right ?_
          rintro ⟨c0, h, hrest⟩
          exact ⟨c0, hway.mpr (.inr ⟨hlen, h⟩), hrest⟩
    · rw [if_neg hcv]
      have hlen : ¬ (c : ℤ) < len := fun h => hcv (hstop.mp h)
      refine ⟨fun c' => iff_of_false List.not_mem_nil ?_, ?_, fun e he => absurd he List.not_mem_nil⟩
      · rintro ⟨r', c0, h, -, -, hlt, -⟩
        rcases hway.mp h with ⟨rfl, rfl⟩ | ⟨hlt, -⟩
        · exact hlen hlt
        · exact hlen hlt
      · rintro j ⟨c0, h, -, hcheck⟩
        rcases hway.mp h with ⟨rfl, rfl⟩ | ⟨hlt, -⟩
        · exact absurd hcheck (not_le.mpr hlo)
        · exact absurd hlt hlen

/-! ## What the search makes of it -/

variable {es : List WayItem} {j : ℕ}

/-- The keys of the records beside a way are readable. -/
def Readable (s : GrnPat) (keyArea : Bool) (es : List WayItem) : Prop :=
  ∀ e ∈ es, e.id ≠ 0 → patNodeGetKey s keyArea e.id = some (s.keyOf e.id)

/-- The key of the node 0 is readable, and the string begins with it. -/
def NodeZeroMatches (s : GrnPat) (keyArea : Bool) (str : List UInt8) : Prop :=
  ∃ b, patNodeGetKey s keyArea 0 = some b ∧ b <+: str

theorem Readable.tail {e : WayItem} (h : Readable s keyArea (e :: es)) : Readable s keyArea es :=
  fun a ha => h a (List.mem_cons_of_mem _ ha)

/-- The search returns nothing, or a record beside the way that is a prefix. -/
theorem lcpRun_mem (h : Readable s keyArea es) (r2 : ℕ) :
    lcpRun s keyArea str es r2 = r2 ∨ lcpRun s keyArea str es r2 = 0 ∨
      ∃ e ∈ es, e.id ≠ 0 ∧ s.keyOf e.id <+: str ∧ lcpRun s keyArea str es r2 = e.id := by
  induction es generalizing r2 with
  | nil => exact .inl rfl
  | cons a es ih =>
    have hlift : (∃ e ∈ es, e.id ≠ 0 ∧ s.keyOf e.id <+: str ∧
        lcpRun s keyArea str (a :: es) r2 = e.id) → ∃ e ∈ a :: es, e.id ≠ 0 ∧
          s.keyOf e.id <+: str ∧ lcpRun s keyArea str (a :: es) r2 = e.id :=
      fun ⟨e, he, hrest⟩ => ⟨e, List.mem_cons_of_mem _ he, hrest⟩
    cases hkey : patNodeGetKey s keyArea a.id with
    | none => exact .inl (by simp only [lcpRun, hkey])
    | some p =>
      have hrun : lcpRun s keyArea str (a :: es) r2 =
          lcpRun s keyArea str es (if p <+: str then a.id else r2) := by
        simp only [lcpRun, hkey]
      rcases ih h.tail (if p <+: str then a.id else r2) with hr | hr | hr
      · by_cases hp : p <+: str
        · rw [if_pos hp] at hr hrun
          by_cases ha : a.id = 0
          · exact .inr (.inl (hrun.trans (hr.trans ha)))
          · have hpa : p = s.keyOf a.id :=
              Option.some.inj (hkey.symm.trans (h a (List.mem_cons_self ..) ha))
            exact .inr (.inr ⟨a, List.mem_cons_self .., ha, hpa ▸ hp, hrun.trans hr⟩)
        · rw [if_neg hp] at hr hrun
          exact .inl (hrun.trans hr)
      · exact .inr (.inl (hrun.trans hr))
      · refine .inr (.inr (hlift ?_))
        obtain ⟨e, he, h1, h2, h3⟩ := hr
        exact ⟨e, he, h1, h2, hrun.trans h3⟩

/-- Without a prefix and a gap that is taken for one, the search keeps what it has. -/
theorem lcpRun_keep (h : Readable s keyArea es)
    (hno : ∀ e ∈ es, e.id ≠ 0 → ¬ s.keyOf e.id <+: str)
    (hzero : NodeZeroMatches s keyArea str → ∀ e ∈ es, e.id ≠ 0) (r2 : ℕ) :
    lcpRun s keyArea str es r2 = r2 := by
  induction es with
  | nil => rfl
  | cons a es ih =>
    cases hkey : patNodeGetKey s keyArea a.id with
    | none => simp only [lcpRun, hkey]
    | some p =>
      have hp : ¬ p <+: str := by
        intro hp
        by_cases ha : a.id = 0
        · exact hzero ⟨p, ha ▸ hkey, hp⟩ a (List.mem_cons_self ..) ha
        · have hpa : p = s.keyOf a.id :=
            Option.some.inj (hkey.symm.trans (h a (List.mem_cons_self ..) ha))
          exact hno a (List.mem_cons_self ..) ha (hpa ▸ hp)
      simp only [lcpRun, hkey, if_neg hp]
      exact ih h.tail (fun e he => hno e (List.mem_cons_of_mem _ he))
        fun hm e he => hzero hm e (List.mem_cons_of_mem _ he)

/-- **The search returns the longest prefix** beside the way, unless it stops at a gap before
it, or takes a gap behind it for a key. -/
theorem lcpRun_found (h : Readable s keyArea es) (horder : es.Pairwise (Follows s))
    (hj : j ≠ 0) (hin : ∃ e ∈ es, e.id = j) (hstart : s.keyOf j <+: str)
    (hmax : ∀ e ∈ es, e.id ≠ 0 → s.keyOf e.id <+: str →
      (s.keyOf e.id).length ≤ (s.keyOf j).length)
    (hinj : ∀ e ∈ es, e.id ≠ 0 → s.keyOf e.id = s.keyOf j → e.id = j)
    (hstop : patNodeGetKey s keyArea 0 = none → ∀ e ∈ es, e.id = 0 →
      (s.keyOf j).length * 16 ≤ e.check)
    (hreset : NodeZeroMatches s keyArea str → ∀ e ∈ es, e.id = 0 →
      e.check < (s.keyOf j).length * 16) (r2 : ℕ) :
    lcpRun s keyArea str es r2 = j := by
  induction es generalizing r2 with
  | nil =>
    obtain ⟨e, he, -⟩ := hin
    cases he
  | cons a es ih =>
    obtain ⟨hfollows, horder⟩ := List.pairwise_cons.mp horder
    by_cases hlater : ∃ e ∈ es, e.id = j
    · -- the record is further down
      have hkey : ∃ p, patNodeGetKey s keyArea a.id = some p := by
        by_cases ha : a.id = 0
        · rw [ha]
          cases hnone : patNodeGetKey s keyArea 0 with
          | some p => exact ⟨p, rfl⟩
          | none =>
            obtain ⟨e, he, rfl⟩ := hlater
            have := hstop hnone a (List.mem_cons_self ..) ha
            have := (hfollows e he).2.1 ha hj
            omega
        · exact ⟨_, h a (List.mem_cons_self ..) ha⟩
      obtain ⟨p, hkey⟩ := hkey
      simp only [lcpRun, hkey]
      exact ih h.tail horder hlater (fun e he => hmax e (List.mem_cons_of_mem _ he))
        (fun e he => hinj e (List.mem_cons_of_mem _ he))
        (fun hn e he => hstop hn e (List.mem_cons_of_mem _ he))
        (fun hm e he => hreset hm e (List.mem_cons_of_mem _ he)) _
    · -- it is found here and kept
      have ha : a.id = j := by
        obtain ⟨e, he, hej⟩ := hin
        rcases List.mem_cons.mp he with rfl | he
        · exact hej
        · exact absurd ⟨e, he, hej⟩ hlater
      subst ha
      simp only [lcpRun, h a (List.mem_cons_self ..) hj, if_pos hstart]
      refine lcpRun_keep h.tail (fun e he hne hpe => hlater ⟨e, he, ?_⟩) (fun hm e he hzero => ?_) _
      · have hle := hmax e (List.mem_cons_of_mem _ he) hne hpe
        have hpre := (hfollows e he).1 hj hne
        refine hinj e (List.mem_cons_of_mem _ he) hne ?_
        exact (hpre.eq_of_length (Nat.le_antisymm hpre.length_le hle)).symm
      · have := hreset hm e (List.mem_cons_of_mem _ he) hzero
        have := (hfollows e he).2.2 hj hzero
        omega

/-- Where the search stops at gaps, it does not return a key behind one. -/
theorem lcpRun_stopped (h : Readable s keyArea es) (horder : es.Pairwise (Follows s)) (hj : j ≠ 0)
    (hnone : patNodeGetKey s keyArea 0 = none) {g : WayItem} (hg : g ∈ es) (hzero : g.id = 0)
    (hbehind : g.check < (s.keyOf j).length * 16) {r2 : ℕ} (hr2 : r2 ≠ j) :
    lcpRun s keyArea str es r2 ≠ j := by
  induction es generalizing r2 with
  | nil => cases hg
  | cons a es ih =>
    obtain ⟨hfollows, horder⟩ := List.pairwise_cons.mp horder
    by_cases ha : a.id = 0
    · simp only [lcpRun, ha, hnone]
      exact hr2
    · have hg' : g ∈ es := (List.mem_cons.mp hg).resolve_left fun heq => ha (heq ▸ hzero)
      have haj : a.id ≠ j := by
        rintro rfl
        have := (hfollows g hg').2.2 ha hzero
        omega
      simp only [lcpRun, h a (List.mem_cons_self ..) ha]
      refine ih h.tail horder hg' ?_
      split_ifs
      · exact haj
      · exact hr2

/-- Where the search takes gaps for a key, it forgets a key before one. -/
theorem lcpRun_reset (h : Readable s keyArea es) (horder : es.Pairwise (Follows s)) (hj : j ≠ 0)
    (hmatch : NodeZeroMatches s keyArea str) {g : WayItem} (hg : g ∈ es) (hzero : g.id = 0)
    (hbefore : (s.keyOf j).length * 16 ≤ g.check) (r2 : ℕ) :
    lcpRun s keyArea str es r2 ≠ j := by
  induction es generalizing r2 with
  | nil => cases hg
  | cons a es ih =>
    obtain ⟨hfollows, horder⟩ := List.pairwise_cons.mp horder
    rcases List.mem_cons.mp hg with rfl | hg'
    · obtain ⟨b, hb, hbstr⟩ := hmatch
      simp only [lcpRun, hzero, hb, if_pos hbstr]
      rcases @lcpRun_mem s keyArea str es h.tail 0 with hr | hr | ⟨e, he, hne, -, hr⟩
      · exact fun heq => hj (heq.symm.trans hr)
      · exact fun heq => hj (heq.symm.trans hr)
      · rintro heq
        obtain rfl : e.id = j := hr.symm.trans heq
        have := (hfollows e he).2.1 hzero hne
        omega
    · cases hkey : patNodeGetKey s keyArea a.id with
      | some p =>
        simp only [lcpRun, hkey]
        exact ih h.tail horder hg' _
      | none =>
        by_cases ha : a.id = 0
        · obtain ⟨b, hb, -⟩ := hmatch
          rw [ha, hb] at hkey
          cases hkey
        · rw [h a (List.mem_cons_self ..) ha] at hkey
          cases hkey

/-! ## What the cursor makes of it -/

/-- What the cursor pushes for a record is a prefix that is long enough, and not behind a gap
unless the cursor passes gaps. -/
theorem of_mem_pushed {minSize : ℕ} (h : Readable s keyArea es) (horder : es.Pairwise (Follows s))
    {x : CursorEntry} (hx : x ∈ pushed s keyArea minSize str es) (hne : x.id ≠ 0) :
    (∃ e ∈ es, e.id = x.id ∧ e.check = x.check) ∧ s.keyOf x.id <+: str ∧
      minSize ≤ (s.keyOf x.id).length ∧
      (¬ NodeZeroMatches s keyArea str → ∀ g ∈ es, g.id = 0 →
        (s.keyOf x.id).length * 16 ≤ g.check) := by
  induction es with
  | nil => cases hx
  | cons a es ih =>
    obtain ⟨hfollows, horder⟩ := List.pairwise_cons.mp horder
    rw [pushed] at hx
    cases hkey : patNodeGetKey s keyArea a.id with
    | none =>
      simp only [hkey] at hx
      cases hx
    | some p =>
      simp only [hkey] at hx
      by_cases hp : p <+: str
      · rw [if_pos hp] at hx
        rcases List.mem_append.mp hx with hx | hx
        · by_cases hmin : minSize ≤ p.length
          · rw [if_pos hmin] at hx
            obtain rfl := List.mem_singleton.mp hx
            have hpa : p = s.keyOf a.id :=
              Option.some.inj (hkey.symm.trans (h a (List.mem_cons_self ..) hne))
            subst hpa
            refine ⟨⟨a, List.mem_cons_self .., rfl, rfl⟩, hp, hmin, fun _ g hg hzero => ?_⟩
            rcases List.mem_cons.mp hg with rfl | hg
            · exact absurd hzero hne
            · exact (hfollows g hg).2.2 hne hzero
          · rw [if_neg hmin] at hx
            cases hx
        · obtain ⟨⟨e, he, hrest⟩, hpre, hmin, hgap⟩ := ih h.tail horder hx
          refine ⟨⟨e, List.mem_cons_of_mem _ he, hrest⟩, hpre, hmin, fun hm g hg hzero => ?_⟩
          rcases List.mem_cons.mp hg with rfl | hg
          · exact absurd ⟨p, hzero ▸ hkey, hp⟩ hm
          · exact hgap hm g hg hzero
      · rw [if_neg hp] at hx
        cases hx

/-- The cursor pushes the prefixes that it comes to. -/
theorem mem_pushed {minSize : ℕ} (h : Readable s keyArea es) (horder : es.Pairwise (Follows s))
    (hj : j ≠ 0) (hin : ∃ e ∈ es, e.id = j) (hstart : s.keyOf j <+: str)
    (hmin : minSize ≤ (s.keyOf j).length)
    (hgap : ¬ NodeZeroMatches s keyArea str → ∀ g ∈ es, g.id = 0 →
      (s.keyOf j).length * 16 ≤ g.check) :
    ∃ x ∈ pushed s keyArea minSize str es, x.id = j := by
  induction es with
  | nil =>
    obtain ⟨e, he, -⟩ := hin
    cases he
  | cons a es ih =>
    obtain ⟨hfollows, horder⟩ := List.pairwise_cons.mp horder
    by_cases ha : a.id = j
    · subst ha
      rw [pushed]
      simp only [h a (List.mem_cons_self ..) hj, if_pos hstart, if_pos hmin]
      exact ⟨_, List.mem_append_left _ (List.mem_singleton_self _), rfl⟩
    · have hlater : ∃ e ∈ es, e.id = j := by
        obtain ⟨e, he, hej⟩ := hin
        rcases List.mem_cons.mp he with rfl | he
        · exact absurd hej ha
        · exact ⟨e, he, hej⟩
      obtain ⟨x, hx, hxj⟩ := ih h.tail horder hlater
        fun hm g hg => hgap hm g (List.mem_cons_of_mem _ hg)
      -- the cursor goes on
      have hgo : ∃ p, patNodeGetKey s keyArea a.id = some p ∧ p <+: str := by
        obtain ⟨e, he, rfl⟩ := hlater
        by_cases hzero : a.id = 0
        · by_cases hm : NodeZeroMatches s keyArea str
          · rw [hzero]
            exact hm
          · have := hgap hm a (List.mem_cons_self ..) hzero
            have := (hfollows e he).2.1 hzero hj
            omega
        · exact ⟨_, h a (List.mem_cons_self ..) hzero, ((hfollows e he).1 hzero hj).trans hstart⟩
      obtain ⟨p, hkey, hp⟩ := hgo
      rw [pushed]
      simp only [hkey, if_pos hp]
      exact ⟨x, List.mem_append_right _ hx, hxj⟩

/-- The cursor pushes in the order of the way. -/
theorem pushed_sublist (minSize : ℕ) (es : List WayItem) :
    (pushed s keyArea minSize str es).Sublist (es.map fun e => ⟨e.id, e.check⟩) := by
  induction es with
  | nil => exact .slnil
  | cons a es ih =>
    rw [pushed, List.map_cons]
    cases patNodeGetKey s keyArea a.id with
    | none => exact List.nil_sublist _
    | some p =>
      simp only
      split_ifs
      · exact ih.cons_cons _
      · exact ih.cons _
      · exact List.nil_sublist _

/-- On the way of the cursor every record is longer than those before it. -/
theorem pairwise_length_beside {lo : ℤ} (hwf : WF s.words lo t)
    (hv : ∀ c < v.len, c % 2 = 1 → v.bit c = true) :
    (beside v lo t).Pairwise fun a b => a.id ≠ 0 → b.id ≠ 0 →
      (s.keyOf a.id).length < (s.keyOf b.id).length := by
  induction t generalizing lo with
  | nil => exact .nil
  | leaf i => exact List.pairwise_singleton ..
  | node i c child ih =>
    have hrec := ih (v.bit c) (hwf.2.2 (v.bit c)).2
    rw [beside]
    split_ifs with hc hodd
    · refine List.pairwise_append.mpr ⟨List.pairwise_singleton .., hrec, fun a ha b hb h1 h2 => ?_⟩
      obtain rfl := List.mem_singleton.mp ha
      rw [hv c hc hodd] at hb
      have hlong := right_of_terminated hwf hodd
        (mem_ids.mpr (.inr (mem_leaves_of_beside (hwf.2.2 true).2 hb h2)))
      rcases left_of_terminated hwf hodd with hnil | ⟨l, hleaf, hends⟩
      · exact absurd (by rw [hnil]; rfl) h1
      · have htop : topId (child false) = l := by rw [hleaf]; rfl
        simp only [htop]
        omega
    · exact hrec
    · exact .nil

/-- What stands beside a way can be pushed with its check. -/
theorem check_le_of_beside {lo : ℤ} {r : ℕ} (hlo : 0 ≤ lo ∨ ∃ i c child, t = .node i c child)
    (hlink : Linked s.nodes lo r t) (hwf : WF s.words lo t) {e : WayItem} (he : e ∈ beside v lo t) (hne : e.id ≠ 0) :
    (s.nodes e.id).check ≤ e.check := by
  induction t generalizing lo r with
  | nil => cases he
  | leaf i =>
    obtain rfl := List.mem_singleton.mp he
    rcases hlo with hlo | ⟨_, _, _, hnode⟩
    · have := hlink.2.2
      simp only
      omega
    · cases hnode
  | node i c child ih =>
    obtain ⟨rfl, -, rfl, hchild⟩ := hlink
    rw [beside] at he
    have hrec : e ∈ beside v (s.nodes r).check (child (v.bit (s.nodes r).check)) →
        (s.nodes e.id).check ≤ e.check := fun he =>
      ih _ (.inl (Int.natCast_nonneg _)) (hchild _) (hwf.2.2 _).2 he
    split_ifs at he with hc hodd
    · rcases List.mem_append.mp he with he | he
      · obtain rfl := List.mem_singleton.mp he
        have hleft := hchild false
        rcases left_of_terminated hwf hodd with hnil | ⟨l, hleaf, -⟩
        · exact absurd (by rw [hnil]; rfl) hne
        · have htop : topId (child false) = l := by rw [hleaf]; rfl
          rw [hleaf] at hleft
          simp only [htop]
          exact Int.ofNat_le.mp hleft.2.2
      · exact hrec he
    · exact hrec he
    · cases he

theorem length_beside_le (lo : ℤ) (t : Trie ℕ) : (beside v lo t).length ≤ t.inner.card + 1 := by
  induction t generalizing lo with
  | nil => exact Nat.zero_le _
  | leaf i => exact le_rfl
  | node i c child ih =>
    rw [beside]
    have hrec := ih (v.bit c) c
    have hsmall := card_inner_child i c child (v.bit c)
    split_ifs
    · rw [List.length_append, List.length_singleton]
      omega
    · rw [List.nil_append]
      omega
    · exact Nat.zero_le _

/-! ## Lookups of prefixes -/

/-- A live key that is a prefix of the string. -/
def LivePrefix (s : GrnPat) (str key : List UInt8) (id : ℕ) : Prop :=
  LiveKey s key id ∧ key <+: str

/-- **`grn_pat_lcp_search` is right**: it returns the id of the longest live prefix, or
`GRN_ID_NIL` if there is none. -/
def FindsLongest (s : GrnPat) (keyArea : Bool) (str : List UInt8) : Prop :=
  ∃ r, grnPatLcpSearch s keyArea str = some r ∧
    (r = 0 ∧ (∀ key id, ¬ LivePrefix s str key id) ∨
      ∃ key, LivePrefix s str key r ∧
        ∀ key' id, LivePrefix s str key' id → key'.length ≤ key.length)

/-- **The common prefix cursor is right**: it returns the live prefixes that are long enough,
the longest first. -/
def YieldsPrefixes (s : GrnPat) (keyArea : Bool) (str : List UInt8) : Prop :=
  ∀ minSize : ℕ, ∃ ids : List ℕ,
    (∀ id, id ∈ ids ↔ ∃ key, LivePrefix s str key id ∧ minSize ≤ key.length) ∧
    (ids.Pairwise fun a b => (s.keyOf b).length < (s.keyOf a).length) ∧
    ∀ (offset : ℕ) (limit : ℤ) (descending : Bool),
      commonPrefixCursorIds s keyArea minSize str offset limit descending =
        some (limited limit (ids.drop offset))

/-- The way comes to every key of at most this length, or ends at the key. -/
def Reached (s : GrnPat) (turn : ℕ → Bool) (len : ℤ) (key : List UInt8) (id : ℕ) : Prop :=
  key.length * 16 ≤ len.toNat ∨ EndsAt s turn len id

/-- **When the search is right**: it reaches the longest live prefix, no gap is before it if
the search stops at gaps, and none is behind it if the search takes gaps for a key. -/
def LongestInSight (s : GrnPat) (keyArea : Bool) (str : List UInt8) : Prop :=
  let len := int32 (str.length * 16)
  let turn := lcpTurn str len
  ∀ key id, LivePrefix s str key id →
    (∀ key' id', LivePrefix s str key' id' → key'.length ≤ key.length) →
    Reached s turn len key id ∧
    (patNodeGetKey s keyArea 0 = none → ∀ c, Gap s turn len c → key.length * 16 ≤ c) ∧
    (NodeZeroMatches s keyArea str → ∀ c, Gap s turn len c → c < key.length * 16)

/-- **When the cursor is right**: it reaches every live prefix, and no gap is before one
unless the cursor takes gaps for a key. -/
def AllInSight (s : GrnPat) (keyArea : Bool) (str : List UInt8) : Prop :=
  let len := int32 (str.length * 16)
  let turn := commonPrefixTurn str
  ∀ key id, LivePrefix s str key id →
    Reached s turn len key id ∧
    (¬ NodeZeroMatches s keyArea str → ∀ c, Gap s turn len c → key.length * 16 ≤ c)

/-- A wrapped length is not too large, and a whole number of bytes. -/
theorem toNat_int32 (n : ℕ) :
    (int32 (n * 16)).toNat ≤ n * 16 ∧ (int32 (n * 16)).toNat % 16 = 0 := by
  rw [int32, Int.bmod_def]
  split_ifs <;> omega

theorem reads_lcpTurn {len : ℤ} (hle : len.toNat ≤ str.length * 16) (hdvd : len.toNat % 16 = 0) :
    Reads ⟨len.toNat, lcpTurn str len⟩ str where
  len_le := hle
  dvd := hdvd
  even := fun c _ heven => by
    simp only [lcpTurn, direction, if_neg (show ¬ c % 2 = 1 by omega)]
  odd := fun c hc hodd => by
    simp only [lcpTurn, direction, if_pos hodd]
    exact decide_eq_true hc

theorem reads_commonPrefixTurn {len : ℤ} (hle : len.toNat ≤ str.length * 16)
    (hdvd : len.toNat % 16 = 0) : Reads ⟨len.toNat, commonPrefixTurn str⟩ str where
  len_le := hle
  dvd := hdvd
  even := fun c _ heven => if_neg (show ¬ c % 2 = 1 by omega)
  odd := fun c _ hodd => if_pos hodd

variable {own : ℕ → ℕ} {free : ℕ → List ℕ} {lost : Finset ℕ}

/-- A longest one of the live prefixes. -/
theorem exists_longest (h : ∃ key id, LivePrefix s str key id) :
    ∃ key id, LivePrefix s str key id ∧
      ∀ key' id', LivePrefix s str key' id' → key'.length ≤ key.length := by
  classical
  set p : ℕ → Prop := fun n => ∃ key id, LivePrefix s str key id ∧ key.length = n
  obtain ⟨key, id, hlive⟩ := h
  obtain ⟨key₀, id₀, hlive₀, hlen₀⟩ : p (Nat.findGreatest p str.length) :=
    Nat.findGreatest_spec hlive.2.length_le ⟨key, id, hlive, rfl⟩
  refine ⟨key₀, id₀, hlive₀, fun key' id' hlive' => ?_⟩
  rw [hlen₀]
  exact Nat.le_findGreatest hlive'.2.length_le ⟨key', id', hlive', rfl⟩

/-- What is beside the way of a string in a table. -/
structure Sights (s : GrnPat) (t : Trie ℕ) (keyArea : Bool) (str : List UInt8) (turn : ℕ → Bool)
    (len : ℤ) (es : List WayItem) : Prop where
  readable : Readable s keyArea es
  order : es.Pairwise (Follows s)
  live : ∀ e ∈ es, e.id ≠ 0 → e.id ∈ t.leaves
  gap : ∀ c, (∃ e ∈ es, e.id = 0 ∧ e.check = c) ↔ Gap s turn len c
  record : ∀ id, id ≠ 0 → id ∈ t.leaves → s.keyOf id <+: str →
    ((∃ e ∈ es, e.id = id) ↔ Reached s turn len (s.keyOf id) id)

theorem Inv.sights (h : Inv s t own free lost)
    (hread : ∀ id ∈ t.leaves, patNodeGetKey s keyArea id = some (s.keyOf id)) {turn : ℕ → Bool}
    {len : ℤ} (hv : Reads ⟨len.toNat, turn⟩ str) :
    Sights s t keyArea str turn len (beside ⟨len.toNat, turn⟩ (-1) t) := by
  obtain ⟨hgap, hend, hrecord⟩ := @beside_iff_onWay s t ⟨len.toNat, turn⟩ len (-1) _
    h.rooted.linked h.rooted.wf rfl
  have hlive := fun e he hne => @mem_leaves_of_beside s t ⟨len.toNat, turn⟩ (-1) h.rooted.wf e he hne
  refine
    { readable := fun e he hne => hread _ (hlive e he hne)
      order := pairwise_beside h.rooted.wf fun j hj => h.rooted.ne_zero hj
      live := hlive
      gap := fun c => ?_
      record := fun id hid hleaf hstart => ⟨?_, ?_⟩ }
  · refine Iff.trans ?_ (hgap c)
    constructor
    · rintro ⟨⟨c', id⟩, he, rfl, rfl⟩
      exact he
    · exact fun he => ⟨_, he, rfl, rfl⟩
  · rintro ⟨e, he, rfl⟩
    exact hrecord e he hid
  · rintro (hle | hends)
    · exact mem_beside_of_prefix h.rooted.wf hv hleaf hstart hle
    · exact hend id hends

/-- **When `grn_pat_lcp_search` is right.** -/
theorem Inv.findsLongest_iff (h : Inv s t own free lost)
    (hread : ∀ id ∈ t.leaves, patNodeGetKey s keyArea id = some (s.keyOf id)) :
    FindsLongest s keyArea str ↔ LongestInSight s keyArea str := by
  obtain ⟨hle, hdvd⟩ := toNat_int32 str.length
  rw [FindsLongest, LongestInSight, grnPatLcpSearch]
  generalize int32 (str.length * 16) = len at hle hdvd ⊢
  have hsights := h.sights hread (reads_lcpTurn hle hdvd)
  have hrun := @lcpLoop_eq s keyArea str t s.words len (s.currRec + 1) _ 0 _ h.rooted.linked
    h.rooted.wf (Nat.lt_succ_of_le h.card_inner_le)
  generalize beside ⟨len.toNat, lcpTurn str len⟩ (-1) t = es at hsights hrun
  rw [← load_eq] at hrun
  have hlive : ∀ {key id}, LivePrefix s str key id ↔ id ∈ t.leaves ∧ s.keyOf id = key ∧
      key <+: str := fun {key id} => by rw [LivePrefix, h.liveKey_iff, and_assoc]
  rw [hrun]
  constructor
  · rintro ⟨r, hr, hright⟩
    obtain rfl := Option.some.inj hr
    intro key id hkey hmax
    obtain ⟨hid, rfl, hstart⟩ := hlive.mp hkey
    have hid0 := h.live_ne_zero hid
    -- the search has returned this record
    have hfound : lcpRun s keyArea str es 0 = id := by
      rcases hright with ⟨-, hno⟩ | ⟨key', hkey', hmax'⟩
      · exact absurd hkey (hno _ _)
      · obtain ⟨hr, rfl, hstart'⟩ := hlive.mp hkey'
        have hle := hmax' _ _ hkey
        have hge := hmax _ _ hkey'
        refine h.eq_of_keyOf_eq hr hid ?_
        exact (List.prefix_of_prefix_length_le hstart' hstart hge).eq_of_length
          (Nat.le_antisymm hge hle)
    refine ⟨?_, fun hnone c hc => ?_, fun hmatch c hc => ?_⟩
    · refine (hsights.record id hid0 hid hstart).mp ?_
      rcases @lcpRun_mem s keyArea str es hsights.readable 0 with hr | hr | ⟨e, he, -, -, hr⟩
      · exact absurd (hfound.symm.trans hr) hid0
      · exact absurd (hfound.symm.trans hr) hid0
      · exact ⟨e, he, hr.symm.trans hfound⟩
    · obtain ⟨e, he, hzero, rfl⟩ := (hsights.gap c).mpr hc
      by_contra hbehind
      exact lcpRun_stopped hsights.readable hsights.order hid0 hnone he hzero
        (Nat.not_le.mp hbehind) (Ne.symm hid0) hfound
    · obtain ⟨e, he, hzero, rfl⟩ := (hsights.gap c).mpr hc
      by_contra hbefore
      exact lcpRun_reset hsights.readable hsights.order hid0 hmatch he hzero
        (Nat.not_lt.mp hbefore) 0 hfound
  · intro hsight
    refine ⟨_, rfl, ?_⟩
    by_cases hsome : ∃ key id, LivePrefix s str key id
    · obtain ⟨key, id, hkey, hmax⟩ := exists_longest hsome
      obtain ⟨hreached, hstop, hreset⟩ := hsight key id hkey hmax
      obtain ⟨hid, rfl, hstart⟩ := hlive.mp hkey
      have hid0 := h.live_ne_zero hid
      have hfound := @lcpRun_found s keyArea str es id hsights.readable hsights.order hid0
        ((hsights.record id hid0 hid hstart).mpr hreached) hstart
        (fun e he hne hpe => hmax _ _ (hlive.mpr ⟨hsights.live e he hne, rfl, hpe⟩))
        (fun e he hne hsame => h.eq_of_keyOf_eq (hsights.live e he hne) hid hsame)
        (fun hnone e he hzero => hstop hnone _ ((hsights.gap _).mp ⟨e, he, hzero, rfl⟩))
        (fun hmatch e he hzero => hreset hmatch _ ((hsights.gap _).mp ⟨e, he, hzero, rfl⟩)) 0
      rw [hfound]
      exact .inr ⟨_, hkey, hmax⟩
    · push Not at hsome
      refine .inl ⟨?_, hsome⟩
      rcases @lcpRun_mem s keyArea str es hsights.readable 0 with hr | hr | ⟨e, he, hne, hpe, -⟩
      · exact hr
      · exact hr
      · exact absurd (hlive.mpr ⟨hsights.live e he hne, rfl, hpe⟩) (hsome _ _)

/-- The tree behind an entry that `set_cursor_common_prefix` pushes. -/
def entryTree (x : CursorEntry) : Trie ℕ := if x.id = 0 then .nil else .leaf x.id

theorem inOrders_entryTree (descending : Bool) (xs : List CursorEntry) :
    inOrders descending (xs.map entryTree) = (xs.filter fun x => x.id ≠ 0).map CursorEntry.id := by
  induction xs with
  | nil => rfl
  | cons x xs ih =>
    have hcons : inOrders descending ((x :: xs).map entryTree) =
        (entryTree x).inOrder descending ++ inOrders descending (xs.map entryTree) := rfl
    rw [hcons, ih, entryTree]
    by_cases hx : x.id = 0
    · simp [hx, inOrder]
    · simp [hx, inOrder]

theorem inner_entryTree (x : CursorEntry) : (entryTree x).inner.card = 0 := by
  unfold entryTree
  split_ifs <;> rfl

theorem linkCounts_entryTree (xs : List CursorEntry) : linkCounts (xs.map entryTree) = xs.length := by
  induction xs with
  | nil => rfl
  | cons x xs ih =>
    have hcons : linkCounts ((x :: xs).map entryTree) =
        linkCount (entryTree x) + linkCounts (xs.map entryTree) := rfl
    rw [hcons, ih, linkCount, inner_entryTree, List.length_cons]
    omega

/-- **What the common prefix cursor returns**: the records that are pushed, from the last one
to the first. -/
theorem Inv.commonPrefixCursorIds_eq (h : Inv s t own free lost)
    (hread : ∀ id ∈ t.leaves, patNodeGetKey s keyArea id = some (s.keyOf id)) (minSize : ℕ) :
    ∃ ids : List ℕ,
      (∀ id, id ∈ ids ↔ id ∈ t.leaves ∧ s.keyOf id <+: str ∧ minSize ≤ (s.keyOf id).length ∧
        Reached s (commonPrefixTurn str) (int32 (str.length * 16)) (s.keyOf id) id ∧
        (¬ NodeZeroMatches s keyArea str → ∀ c,
          Gap s (commonPrefixTurn str) (int32 (str.length * 16)) c →
            (s.keyOf id).length * 16 ≤ c)) ∧
      (ids.Pairwise fun a b => (s.keyOf b).length < (s.keyOf a).length) ∧
      ∀ (offset : ℕ) (limit : ℤ) (descending : Bool),
        commonPrefixCursorIds s keyArea minSize str offset limit descending =
          some (limited limit (ids.drop offset)) := by
  obtain ⟨hle, hdvd⟩ := toNat_int32 str.length
  simp only [commonPrefixCursorIds, setCursorCommonPrefix]
  generalize int32 (str.length * 16) = len at hle hdvd ⊢
  have hsights := h.sights hread (reads_commonPrefixTurn hle hdvd)
  have hset := @commonPrefixLoop_eq s keyArea str t s.words len minSize (s.currRec + 1) _ _ []
    h.rooted.linked h.rooted.wf (Nat.lt_succ_of_le h.card_inner_le)
  have hlengths := @pairwise_length_beside s t ⟨len.toNat, commonPrefixTurn str⟩ (-1) h.rooted.wf
    (fun c _ hodd => if_pos hodd)
  have hlength := @length_beside_le ⟨len.toNat, commonPrefixTurn str⟩ (-1) t
  have hcheck : ∀ e ∈ beside ⟨len.toNat, commonPrefixTurn str⟩ (-1) t,
      e.id ≠ 0 → (s.nodes e.id).check ≤ e.check := by
    intro e he hne
    cases t with
    | nil => cases he
    | leaf i =>
      have := h.rooted.linked.2.2
      omega
    | node i c child =>
      exact check_le_of_beside (.inr ⟨i, c, child, rfl⟩) h.rooted.linked h.rooted.wf he hne
  generalize beside ⟨len.toNat, commonPrefixTurn str⟩ (-1) t = es
    at hsights hset hlengths hlength hcheck
  rw [← load_eq] at hset
  rw [List.append_nil] at hset
  set xs := pushed s keyArea minSize str es with hxs
  have hsub : xs.Sublist (es.map fun e => ⟨e.id, e.check⟩) := pushed_sublist minSize es
  -- the entries hold their records
  have hholds : ∀ x ∈ xs, x.Holds s.nodes s.words (entryTree x) := by
    intro x hx
    unfold entryTree
    split_ifs with hzero
    · exact ⟨hzero, trivial⟩
    · obtain ⟨⟨e, he, hid, hch⟩, -⟩ := of_mem_pushed hsights.readable hsights.order hx hzero
      refine ⟨⟨rfl, hzero, Int.ofNat_le.mpr ?_⟩, trivial⟩
      rw [← hid, ← hch]
      exact hcheck e he (hid ▸ hzero)
  have hstack : Stacked s.nodes s.words xs.reverse (xs.reverse.map entryTree) := by
    rw [Stacked, List.forall₂_map_right_iff, List.forall₂_same]
    exact fun x hx => hholds x (List.mem_reverse.mp hx)
  have hxslen : xs.length ≤ s.currRec + 1 := by
    have := hsub.length_le
    rw [List.length_map] at this
    exact this.trans (hlength.trans (Nat.add_le_add_right h.card_inner_le 1))
  have hpair : (xs.filter fun x => x.id ≠ 0).Pairwise fun a b =>
      (s.keyOf a.id).length < (s.keyOf b.id).length := by
    have hall : xs.Pairwise fun a b => a.id ≠ 0 → b.id ≠ 0 →
        (s.keyOf a.id).length < (s.keyOf b.id).length :=
      (List.pairwise_map.mpr hlengths).sublist hsub
    refine (hall.filter _).imp_of_mem fun ha hb hab => ?_
    exact hab (of_decide_eq_true (List.mem_filter.mp ha).2)
      (of_decide_eq_true (List.mem_filter.mp hb).2)
  set ids := ((xs.reverse).filter fun x => x.id ≠ 0).map CursorEntry.id with hids
  have hpairIds : ids.Pairwise fun a b => (s.keyOf b).length < (s.keyOf a).length := by
    rw [hids, List.filter_reverse, List.map_reverse, List.pairwise_reverse, List.pairwise_map]
    exact hpair
  have hmem : ∀ id, id ∈ ids ↔ id ∈ t.leaves ∧ s.keyOf id <+: str ∧
      minSize ≤ (s.keyOf id).length ∧ Reached s (commonPrefixTurn str) len (s.keyOf id) id ∧
      (¬ NodeZeroMatches s keyArea str → ∀ c, Gap s (commonPrefixTurn str) len c →
        (s.keyOf id).length * 16 ≤ c) := by
    intro id
    rw [hids, List.mem_map]
    constructor
    · rintro ⟨x, hx, rfl⟩
      obtain ⟨hx, hne⟩ := List.mem_filter.mp hx
      have hne : x.id ≠ 0 := of_decide_eq_true hne
      obtain ⟨⟨e, he, hid, -⟩, hstart, hmin, hgap⟩ :=
        of_mem_pushed hsights.readable hsights.order (List.mem_reverse.mp hx) hne
      have hleaf : x.id ∈ t.leaves := hid ▸ hsights.live e he (hid ▸ hne)
      refine ⟨hleaf, hstart, hmin, (hsights.record _ hne hleaf hstart).mp ⟨e, he, hid⟩,
        fun hm c hc => ?_⟩
      obtain ⟨g, hg, hzero, rfl⟩ := (hsights.gap c).mpr hc
      exact hgap hm g hg hzero
    · rintro ⟨hleaf, hstart, hmin, hreached, hgap⟩
      have hne := h.live_ne_zero hleaf
      obtain ⟨x, hx, hxid⟩ := @mem_pushed s keyArea str es id minSize hsights.readable
        hsights.order hne ((hsights.record _ hne hleaf hstart).mpr hreached) hstart hmin
        (fun hm g hg hzero => hgap hm _ ((hsights.gap _).mp ⟨g, hg, hzero, rfl⟩))
      refine ⟨x, List.mem_filter.mpr ⟨List.mem_reverse.mpr hx, ?_⟩, hxid⟩
      exact decide_eq_true (hxid ▸ hne)
  have hnodup : ids.Nodup := hpairIds.imp fun hab heq => by
    subst heq
    exact absurd hab (lt_irrefl _)
  refine ⟨ids, hmem, hpairIds, fun offset limit descending => ?_⟩
  have horder : inOrders descending (xs.reverse.map entryTree) = ids := inOrders_entryTree _ _
  rw [hset, Option.bind_some, ← horder]
  refine idsWith_eq hstack ?_ ?_ ?_ h.accounts.currRec_le offset limit
  · rw [linkCounts_entryTree, List.length_reverse]
    omega
  · intro t' ht'
    obtain ⟨x, -, rfl⟩ := List.mem_map.mp ht'
    rw [inner_entryTree]
    exact Nat.zero_le _
  · rw [horder]
    exact h.length_le_of_live hnodup fun i hi => ((hmem i).mp hi).1

/-- **When the common prefix cursor is right.** -/
theorem Inv.yieldsPrefixes_iff (h : Inv s t own free lost)
    (hread : ∀ id ∈ t.leaves, patNodeGetKey s keyArea id = some (s.keyOf id)) :
    YieldsPrefixes s keyArea str ↔ AllInSight s keyArea str := by
  have hlive : ∀ {key id}, LivePrefix s str key id ↔ id ∈ t.leaves ∧ s.keyOf id = key ∧
      key <+: str := fun {key id} => by rw [LivePrefix, h.liveKey_iff, and_assoc]
  constructor
  · intro hyields key id hkey
    obtain ⟨ids, hmem, -, hids⟩ := hyields 0
    obtain ⟨ids', hmem', -, hids'⟩ := @Inv.commonPrefixCursorIds_eq s keyArea str t own free lost h hread 0
    have hsame : ids = ids' := by
      have heq := (hids 0 (-1) false).symm.trans (hids' 0 (-1) false)
      simpa [limited] using heq
    subst hsame
    obtain ⟨hid, rfl, hstart⟩ := hlive.mp hkey
    obtain ⟨-, -, -, hreached, hgap⟩ :=
      (hmem' id).mp ((hmem id).mpr ⟨_, hkey, Nat.zero_le _⟩)
    exact ⟨hreached, hgap⟩
  · intro hsight minSize
    obtain ⟨ids, hmem, hpair, hids⟩ :=
      @Inv.commonPrefixCursorIds_eq s keyArea str t own free lost h hread minSize
    refine ⟨ids, fun id => (hmem id).trans ?_, hpair, hids⟩
    constructor
    · rintro ⟨hid, hstart, hmin, -⟩
      exact ⟨_, hlive.mpr ⟨hid, rfl, hstart⟩, hmin⟩
    · rintro ⟨key, hkey, hmin⟩
      obtain ⟨hreached, hgap⟩ := hsight key id hkey
      obtain ⟨hid, rfl, hstart⟩ := hlive.mp hkey
      exact ⟨hid, hstart, hmin, hreached, hgap⟩

/-! ## Runs -/

/-- Whether the key area has a segment after a run: the first key that is stored in the area
gets one, and it stays. -/
def hasKeyArea (s : GrnPat) : List Op → Bool
  | [] => false
  | o :: ops => decide (0 < (op s o).currKey) || hasKeyArea (op s o) ops

theorem hasKeyArea_of_currKey (hs : s.currKey = 0) {ops : List Op}
    (h : 0 < (runOps s ops).currKey) : hasKeyArea s ops = true := by
  induction ops generalizing s with
  | nil => exact absurd hs (Nat.ne_of_gt h)
  | cons o ops ih =>
    rw [hasKeyArea, Bool.or_eq_true, decide_eq_true_iff]
    rcases Nat.eq_zero_or_pos (op s o).currKey with hzero | hpos
    · exact .inr (ih hzero h)
    · exact .inl hpos

/-- The key of a live record is readable. -/
theorem Inv.patNodeGetKey_eq (h : Inv s t own free lost)
    (harea : 0 < s.currKey → keyArea = true) {id : ℕ} (hid : id ∈ t.leaves) :
    patNodeGetKey s keyArea id = some (s.keyOf id) := by
  have hvalid := h.keys.valid id (h.known (mem_ids.mpr (.inr hid)))
  rw [patNodeGetKey]
  cases hkey : (s.nodes id).key with
  | immediate key => exact congrArg some (nodeKey_immediate hkey).symm
  | stored offset length =>
    rw [hkey] at hvalid
    have := lt_of_not_embeddable hvalid.1
    exact if_pos (harea (by have := hvalid.2.1; omega))

/-- **Lookups of prefixes are right.** An empty `max` is no `max`, so the cursor is only asked
for strings that are not empty. -/
structure FindsPrefixes (s : GrnPat) (keyArea : Bool) (str : List UInt8) : Prop where
  longest : FindsLongest s keyArea str
  cursor : str ≠ [] → YieldsPrefixes s keyArea str

/-- **Lookups of prefixes are right if and only if every live prefix that they have to find is
in sight**: the way of the string comes to it, and no gap makes them miss it. -/
theorem findsPrefixes_iff (isKeyLarge : Bool) (cacheSize : ℕ) (ops : List Op) (str : List UInt8) :
    FindsPrefixes (runOps (grnPatCreate isKeyLarge cacheSize) ops)
        (hasKeyArea (grnPatCreate isKeyLarge cacheSize) ops) str ↔
      LongestInSight (runOps (grnPatCreate isKeyLarge cacheSize) ops)
          (hasKeyArea (grnPatCreate isKeyLarge cacheSize) ops) str ∧
        AllInSight (runOps (grnPatCreate isKeyLarge cacheSize) ops)
          (hasKeyArea (grnPatCreate isKeyLarge cacheSize) ops) str := by
  obtain ⟨t, own, free, lost, hinv⟩ := (inv_grnPatCreate isKeyLarge cacheSize).runOps ops
  have harea := @hasKeyArea_of_currKey (grnPatCreate isKeyLarge cacheSize) rfl ops
  have hread := fun id => @Inv.patNodeGetKey_eq _ _ t own free lost hinv harea id
  have hlongest := @Inv.findsLongest_iff _ _ str t own free lost hinv hread
  have hall := @Inv.yieldsPrefixes_iff _ _ str t own free lost hinv hread
  constructor
  · rintro ⟨hfinds, hyields⟩
    refine ⟨hlongest.mp hfinds, ?_⟩
    by_cases hstr : str = []
    · -- no live key is empty
      rintro key id ⟨hlive, hstart⟩
      obtain ⟨hid, hkey⟩ := hinv.liveKey_iff.mp hlive
      rw [hstr, List.prefix_nil] at hstart
      exact absurd (hkey.trans hstart) (hinv.keyOf_ne_nil (mem_ids.mpr (.inr hid)))
    · exact hall.mp (hyields hstr)
  · rintro ⟨hsight, hsights⟩
    exact ⟨hlongest.mpr hsight, fun _ => hall.mpr hsights⟩

/-- The key `ab` is added and then `a`, the key `ab` is deleted, and `ac` is added: the node of
`ac` has a terminated check and no left child. -/
def gapOps : List Op :=
  [.call (.add [97, 98]), .call (.add [97]), .call (.delete [97, 98]), .call (.add [97, 99])]

/-- The longest live prefix of `ac` is `ac`, and the search returns `a`. -/
theorem not_findsPrefixes_gapOps :
    ¬ FindsPrefixes (runOps (grnPatCreate false 0) gapOps)
      (hasKeyArea (grnPatCreate false 0) gapOps) [97, 99] := by
  intro h
  obtain ⟨r, hr, hright⟩ := h.longest
  have hsearch : grnPatLcpSearch (runOps (grnPatCreate false 0) gapOps)
      (hasKeyArea (grnPatCreate false 0) gapOps) [97, 99] = some 2 := by decide +kernel
  have hget : grnPatGet (runOps (grnPatCreate false 0) gapOps) [97, 99] = some 3 := by
    decide +kernel
  obtain rfl := Option.some.inj (hsearch.symm.trans hr)
  rcases hright with ⟨hzero, -⟩ | ⟨key, ⟨⟨-, hkey⟩, hstart⟩, hmax⟩
  · cases hzero
  · have hlen := hmax [97, 99] 3 ⟨⟨by simp, hget⟩, List.prefix_rfl⟩
    rw [hstart.eq_of_length (Nat.le_antisymm hstart.length_le hlen), hget] at hkey
    cases hkey

end Groonga.Pat
