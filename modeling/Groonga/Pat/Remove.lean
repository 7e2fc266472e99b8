import Groonga.Pat.Fields
import Groonga.Pat.Surgery

/-!
# Removing a leaf with the branch above it

The other side of the branch takes its place. An output node there must stay one, so its
check may be reset to 0; at the root it has to become a branch instead.
-/

namespace Groonga.Pat

open Lib.Patricia Lib.Patricia.Trie

variable {s : GrnPat} {own : ℕ → ℕ} {k : List (Frame ℕ)} {t t' : Trie ℕ} {f : Frame ℕ} {x o : ℕ}

/-- The tree `t'` is `t` without the leaf `x` and the branch `P`. -/
structure Removes (t t' : Trie ℕ) (own own' : ℕ → ℕ) (x P : ℕ) : Prop where
  leaves : t.leaves = x ::ₘ t'.leaves
  inner : ∀ j, j ∉ t'.leaves → (j ∈ t'.inner ↔ j ∈ t.inner ∧ j ≠ P)
  own : ∀ j ∈ t'.inner, j ∉ t'.leaves → own' j = passOn own x P j

theorem removes_splice (h : (plug (f :: k) (.leaf x)).inner.Nodup) :
    Removes (plug (f :: k) (.leaf x)) (plug k f.sib) own (passOn own x f.id) x f.id := by
  have hinner : (plug (f :: k) (.leaf x)).inner = f.id ::ₘ (plug k f.sib).inner := by
    rw [inner_plug, inner_plug, innerBeside, inner_leaf, zero_add]
  rw [hinner, Multiset.nodup_cons] at h
  refine ⟨?_, fun j _ => ?_, fun _ _ _ => rfl⟩
  · rw [leaves_plug, leaves_plug, leavesBeside, leaves_leaf, Multiset.singleton_add]
  · rw [hinner, Multiset.mem_cons]
    constructor
    · intro hj
      exact ⟨.inr hj, fun hjf => h.1 (hjf ▸ hj)⟩
    · rintro ⟨rfl | hj, hjf⟩
      · exact absurd rfl hjf
      · exact hj

/-! ## The first node -/

section BecomeFirst

variable {j : ℕ} {d : Bool}

theorem becomeFirst_check : ((becomeFirst s o).nodes j).check = (s.nodes j).check := by
  rw [becomeFirst, store_check, store_check]

theorem becomeFirst_key : ((becomeFirst s o).nodes j).key = (s.nodes j).key := by
  rw [becomeFirst, store_key, store_key]

theorem becomeFirst_deleting : ((becomeFirst s o).nodes j).deleting = (s.nodes j).deleting := by
  rw [becomeFirst, store_deleting, store_deleting]

theorem becomeFirst_lr_of_ne (hj : j ≠ o) : ((becomeFirst s o).nodes j).lr d = (s.nodes j).lr d := by
  rw [becomeFirst, store_lr_of_ne fun h => hj (congrArg Loc.node h).symm,
    store_lr_of_ne fun h => hj (congrArg Loc.node h).symm]

/-- The self-loop is where the first bit of the key leads to. -/
theorem becomeFirst_lr_self : ((becomeFirst s o).nodes o).lr ((s.words o).bit 0) = o ∧
    ((becomeFirst s o).nodes o).lr (!(s.words o).bit 0) = 0 := by
  have hbit : (s.words o).bit 0 = nthBit (s.keyOf o) 0 := word_bit_even rfl
  rw [hbit, becomeFirst]
  constructor
  · rw [store_lr_of_ne fun h => Bool.not_ne_self _ (congrArg Loc.direction h)]
    exact @store_lr_self _ ⟨o, nthBit (s.keyOf o) 0⟩ _
  · exact @store_lr_self _ ⟨o, !nthBit (s.keyOf o) 0⟩ _

end BecomeFirst

/-! ## The other side -/

/-- The check of an output may have been reset, and nothing else has changed. -/
structure MayReset (s s' : GrnPat) (o : ℕ) : Prop where
  lr : ∀ j, (s'.nodes j).lr = (s.nodes j).lr
  check_ne : ∀ j, j ≠ o → (s'.nodes j).check = (s.nodes j).check
  check : (s'.nodes o).check = (s.nodes o).check ∨ (s'.nodes o).check = 0
  keyOf : s'.keyOf = s.keyOf

/-- The first half of `keepOtherside`. -/
def resetCheck (s : GrnPat) (o check0 check : ℕ) : GrnPat :=
  if check0 < (s.nodes o).check ∧ (s.nodes o).check ≤ check then s.setCheck o 0 else s

theorem mayReset (s : GrnPat) (o check0 check : ℕ) : MayReset s (resetCheck s o check0 check) o := by
  unfold resetCheck
  split_ifs
  · refine ⟨fun j => setCheck_lr, fun j hj => setCheck_check_of_ne hj, .inr setCheck_check_self, ?_⟩
    exact funext fun j => keyOf_congr setCheck_key rfl
  · exact ⟨fun _ => rfl, fun _ _ => rfl, .inl rfl, rfl⟩

theorem keepOtherside_eq {p0 : Loc} {check0 check : ℕ} (ho : o ≠ 0) :
    keepOtherside s o p0 check0 check =
      if p0 = .root ∧ ((resetCheck s o check0 check).nodes o).check = 0 then
        becomeFirst (resetCheck s o check0 check) o else resetCheck s o check0 check :=
  if_neg ho

/-- The branch is gone, and the check of an output on the other side is one of an output
at its place. -/
theorem rooted_splice {s₁ : GrnPat} (h : Rooted s.nodes s.words (plug (f :: k) (.leaf x)) own)
    (howned : ∃ j ∈ (plug (f :: k) (.leaf x)).inner, own j = x)
    (ho : o = (s.nodes f.id).lr (!f.dir)) (hreset : MayReset s s₁ o)
    (hout : f.sib = .leaf o → ((s₁.nodes o).check : ℤ) ≤ lastCheck k)
    (honly : (s₁.nodes o).check ≠ (s.nodes o).check →
      f.sib = .leaf o ∧ lastCheck k < (s.nodes o).check) :
    Rooted (s₁.store (place k) o).nodes s.words (plug k f.sib) (passOn own x f.id) := by
  obtain ⟨⟨-, -, -, hsib, haround⟩, -⟩ := linked_plug.mp h.linked
  obtain ⟨⟨-, -, -, -, -, hsibfits, hctx⟩, -, -⟩ := wf_plug.mp h.wf
  refine h.splice howned (fun j hj => ?_) (fun j hj => ?_) (fun j d hp => ?_) ?_ fun o' hs => ?_
  · rw [store_check]
    by_cases hjo : j = o
    · subst hjo
      by_contra hne
      obtain ⟨hs, hlt⟩ := honly hne
      -- a branch of the output itself would be above it, with a smaller check
      rw [mem_plug_inner, hs, inner_leaf] at hj
      have hin := hj.resolve_left (Multiset.notMem_zero j)
      have hfits := hsibfits j (by rw [hs]; exact mem_ids_leaf.mpr rfl)
      obtain ⟨g, hg, rfl⟩ := hctx.frame_of_mem hfits hin
      rw [haround.check hg] at hlt
      exact absurd (hctx.check_le_lastCheck hg) (not_le.mpr hlt)
    · exact hreset.check_ne j hjo
  · rw [store_check]
    by_cases hjo : j = o
    · rw [hjo]
      exact hreset.check
    · exact .inl (hreset.check_ne j hjo)
  · rw [store_lr_of_ne hp, hreset.lr]
  · rw [← ho]
    exact store_lr_self
  · rw [hs, ← ho] at hsib
    obtain ⟨rfl, -⟩ := hsib
    rw [store_check]
    exact hout hs

theorem mayReset_refl : MayReset s s o := ⟨fun _ => rfl, fun _ _ => rfl, .inl rfl, rfl⟩

/-- Below the root. -/
theorem rooted_remove_below {g : Frame ℕ} (h : Rooted s.nodes s.words (plug (f :: g :: k) (.leaf x)) own)
    (howned : ∃ j ∈ (plug (f :: g :: k) (.leaf x)).inner, own j = x)
    (ho : o = (s.nodes f.id).lr (!f.dir)) :
    Rooted ((keepOtherside s o (place (g :: k)) g.check f.check).store (place (g :: k)) o).nodes
      s.words (plug (g :: k) f.sib) (passOn own x f.id) := by
  obtain ⟨⟨-, -, -, hsib, hgaround⟩, -⟩ := linked_plug.mp h.linked
  obtain ⟨⟨-, -, -, hsibwf, -⟩, -, -⟩ := wf_plug.mp h.wf
  rw [← ho] at hsib
  have hlast : lastCheck (g :: k) = g.check := rfl
  have hroot : place (g :: k) ≠ .root := fun hp => hgaround.1 (congrArg Loc.node hp)
  by_cases ho0 : o = 0
  · -- nothing is on the other side
    have hkeep : keepOtherside s o (place (g :: k)) g.check f.check = s := if_pos ho0
    rw [hkeep]
    refine rooted_splice h howned ho mayReset_refl (fun hs => ?_) fun hne => absurd rfl hne
    rw [hs] at hsib
    exact absurd ho0 hsib.2.1
  · rw [keepOtherside_eq ho0, if_neg fun hp => hroot hp.1]
    refine rooted_splice h howned ho (mayReset ..) (fun hs => ?_) fun hne => ?_
    · rw [hs] at hsib
      obtain ⟨-, -, hle⟩ := hsib
      unfold resetCheck
      split_ifs with hif
      · rw [setCheck_check_self, hlast]
        exact Int.natCast_nonneg _
      · rw [hlast]
        omega
    · unfold resetCheck at hne
      split_ifs at hne with hif
      · refine ⟨?_, by rw [hlast]; exact Int.ofNat_lt.mpr hif.1⟩
        cases hs : f.sib with
        | nil =>
          rw [hs] at hsib
          exact absurd hsib ho0
        | leaf o' =>
          rw [hs] at hsib
          rw [hsib.1]
        | node i c child =>
          -- a branch is behind the removed one
          rw [hs] at hsib hsibwf
          obtain ⟨rfl, -, hcheck, -⟩ := hsib
          have := hsibwf.1
          omega
      · exact absurd rfl hne

/-- An output without a branch can be the first node: its self-loop is where its check
leads to. -/
theorem Disabled.first {nodes : ℕ → Node} {v : Word} (h : Disabled nodes v o) (ho : o ≠ 0)
    (hcheck : (nodes o).check ≠ 0) : (nodes o).lr (v.bit (nodes o).check) = o ∧
      (nodes o).lr (!v.bit (nodes o).check) = 0 := by
  have hself := h.direction.resolve_left hcheck
  refine ⟨hself, ?_⟩
  rcases h.selfLoop with ⟨h0, -⟩ | ⟨h0, -⟩ <;> revert hself <;> cases v.bit (nodes o).check <;>
    intro hself
  · exact absurd (hself.symm.trans h0) ho
  · exact h0
  · exact h0
  · exact absurd (hself.symm.trans h0) ho

/-- At the root, with only an output on the other side. -/
theorem rooted_remove_first {check0 : ℕ} (h : Rooted s.nodes s.words (plug [f] (.leaf x)) own)
    (howned : ∃ j ∈ (plug [f] (.leaf x)).inner, own j = x) (hs : f.sib = .leaf o) :
    ∃ t' own', Rooted ((keepOtherside s o .root check0 f.check).store .root o).nodes s.words t' own' ∧
      Removes (plug [f] (.leaf x)) t' own own' x f.id := by
  have hinner : (plug [f] (.leaf x)).inner = {f.id} := by
    rw [inner_plug, innerBeside, hs]
    rfl
  have hleaves : (plug [f] (.leaf x)).leaves = x ::ₘ {o} := by
    rw [leaves_plug, leavesBeside, hs]
    rfl
  have hmem : o ∈ (plug [f] (.leaf x)).leaves := by
    rw [hleaves]
    exact Multiset.mem_cons_of_mem (Multiset.mem_singleton_self o)
  have hids : o ∈ (plug [f] (.leaf x)).ids := mem_ids.mpr (.inr hmem)
  have ho0 := h.ne_zero hids
  have hne : x ≠ o := by
    have hnodup := h.leaves_nodup
    rw [hleaves, Multiset.nodup_cons, Multiset.mem_singleton] at hnodup
    exact hnodup.1
  -- the removed leaf owns the only branch
  have hfree : ∀ j ∈ (plug [f] (.leaf x)).inner, own j ≠ o := by
    obtain ⟨i, hi, hix⟩ := howned
    intro j hj
    rw [hinner, Multiset.mem_singleton] at hi hj
    rw [hj, ← hi, hix]
    exact hne
  have hdisabled := h.disabled o hmem hfree
  obtain ⟨hlr, -, hcheck, hkeyOf⟩ := mayReset s o check0 f.check
  have hwords : (resetCheck s o check0 f.check).words = s.words := by
    funext j
    rw [GrnPat.words, GrnPat.words, hkeyOf]
  have hroot : ∀ s₁ : GrnPat, ∀ d, ((s₁.store .root o).nodes o).lr d = (s₁.nodes o).lr d :=
    fun s₁ d => store_lr_of_ne fun hp => ho0 (congrArg Loc.node hp).symm
  obtain ⟨c, hlen, hc, hself, hnext⟩ : ∃ c, c < (s.words o).len ∧
      (((keepOtherside s o .root check0 f.check).store .root o).nodes o).check = c ∧
      (((keepOtherside s o .root check0 f.check).store .root o).nodes o).lr ((s.words o).bit c) = o ∧
      (((keepOtherside s o .root check0 f.check).store .root o).nodes o).lr
        (!(s.words o).bit c) = 0 := by
    rw [keepOtherside_eq ho0]
    split_ifs with hzero
    · have hfirst := @becomeFirst_lr_self (resetCheck s o check0 f.check) o
      rw [hwords] at hfirst
      refine ⟨0, Nat.zero_lt_of_lt hdisabled.check_lt, ?_, ?_, ?_⟩
      · rw [store_check, becomeFirst_check, hzero.2]
      · rw [hroot, hfirst.1]
      · rw [hroot, hfirst.2]
    · have hzero : ((resetCheck s o check0 f.check).nodes o).check ≠ 0 := fun hz => hzero ⟨rfl, hz⟩
      have hcheck := hcheck.resolve_right hzero
      rw [hcheck] at hzero
      obtain ⟨h1, h2⟩ := hdisabled.first ho0 hzero
      refine ⟨(s.nodes o).check, hdisabled.check_lt, ?_, ?_, ?_⟩
      · rw [store_check, hcheck]
      · rw [hroot, hlr, h1]
      · rw [hroot, hlr, h2]
  refine ⟨_, _, h.spliceFirst hs hlen store_lr_self hc hself hnext, ?_, fun j hj => ?_,
    fun j hj hj' => ?_⟩
  · rw [hleaves, leaves_plug]
    rfl
  · rw [leaves_plug, leavesBeside, leaves_leaf] at hj
    rw [hinner, inner_plug, innerBeside]
    simp only [leaves_nil, leavesBeside, add_zero, Multiset.mem_singleton] at hj
    simp [innerBeside, hj]
  · rw [leaves_plug, leavesBeside, leaves_leaf] at hj'
    rw [inner_plug, innerBeside] at hj
    simp only [leaves_nil, leavesBeside, add_zero, Multiset.mem_singleton] at hj'
    simp only [inner_leaf, inner_nil, innerBeside, add_zero, zero_add, Multiset.mem_cons,
      Multiset.notMem_zero, or_false] at hj
    exact absurd hj hj'

/-- **Removing a leaf with the branch above it**, as `grn_pat_del_internal` does. -/
theorem rooted_remove {check0 : ℕ} (h : Rooted s.nodes s.words (plug (f :: k) (.leaf x)) own)
    (howned : ∃ j ∈ (plug (f :: k) (.leaf x)).inner, own j = x)
    (ho : o = (s.nodes f.id).lr (!f.dir)) (hcheck0 : ∀ g l, k = g :: l → check0 = g.check) :
    ∃ t' own', Rooted ((keepOtherside s o (place k) check0 f.check).store (place k) o).nodes s.words
      t' own' ∧ Removes (plug (f :: k) (.leaf x)) t' own own' x f.id := by
  rcases k with _ | ⟨g, k⟩
  · obtain ⟨⟨-, -, -, hsib, -⟩, -⟩ := linked_plug.mp h.linked
    obtain ⟨⟨-, -, -, hsibwf, -⟩, -, -⟩ := wf_plug.mp h.wf
    rw [← ho] at hsib
    have hsame : f.sib = .nil ∨ (∃ i c child, f.sib = .node i c child) →
        keepOtherside s o .root check0 f.check = s ∧ f.sib ≠ .leaf o := by
      rintro (hs | ⟨i, c, child, hs⟩)
      · rw [hs] at hsib ⊢
        exact ⟨if_pos hsib, nofun⟩
      · rw [hs] at hsib hsibwf ⊢
        obtain ⟨rfl, hi0, hcheck, -⟩ := hsib
        have hlo := hsibwf.1
        have hreset : resetCheck s o check0 f.check = s := if_neg fun hif => by omega
        refine ⟨?_, nofun⟩
        rw [keepOtherside_eq hi0, hreset, if_neg fun hif => by omega]
    have hplace : place ([] : List (Frame ℕ)) = .root := rfl
    cases hs : f.sib with
    | leaf o' =>
      rw [hs] at hsib
      obtain ⟨rfl, -⟩ := hsib
      exact rooted_remove_first h howned hs
    | nil =>
      obtain ⟨hkeep, hleaf⟩ := hsame (.inl hs)
      rw [hplace, hkeep]
      exact ⟨_, _, rooted_splice h howned ho mayReset_refl (fun hs' => absurd hs' hleaf)
        fun hne => absurd rfl hne, removes_splice h.inner_nodup⟩
    | node i c child =>
      obtain ⟨hkeep, hleaf⟩ := hsame (.inr ⟨i, c, child, hs⟩)
      rw [hplace, hkeep]
      exact ⟨_, _, rooted_splice h howned ho mayReset_refl (fun hs' => absurd hs' hleaf)
        fun hne => absurd rfl hne, removes_splice h.inner_nodup⟩
  · rw [hcheck0 g k rfl]
    exact ⟨_, _, rooted_remove_below h howned ho, removes_splice h.inner_nodup⟩

end Groonga.Pat
