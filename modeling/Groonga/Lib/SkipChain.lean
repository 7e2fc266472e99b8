import Groonga.Lib.Chain
import Mathlib

/-!
# Chains with jumps

The cells of a chain carry keys that grow along it. Besides the link to the next cell each cell
has a second link, which may go further ahead. A cell that leaves the chain is only marked: it
keeps its links, and the jumps of other cells to it stay.

Whoever follows a jump checks the cell it leads to: that it is not marked, and that its key is
still before the one that is sought. What such a walk cannot pass over is said here for every
mixture of the two kinds of links, as it does not matter when a jump is taken.
-/

namespace Groonga.Lib

/-! ## Where a chain is linked -/

/-- The link behind the cells `pre`: what the last of them leads to, or the start. -/
def linkAt (next : ℕ → ℕ) (start : ℕ) (pre : List ℕ) : ℕ :=
  (pre.getLast?.map next).getD start

section Links

variable {next next' : ℕ → ℕ} {start start' x : ℕ} {y : ℕ} {pre xs ys suf : List ℕ}

@[simp] theorem linkAt_nil : linkAt next start [] = start := rfl

@[simp] theorem linkAt_append_singleton : linkAt next start (pre ++ [x]) = next x := by
  simp [linkAt]

theorem linkAt_cons : linkAt next start (x :: xs) = linkAt next (next x) xs := by
  cases xs using List.reverseRecOn with
  | nil => rfl
  | append_singleton ys y =>
    have hcons : x :: (ys ++ [y]) = (x :: ys) ++ [y] := rfl
    rw [hcons, linkAt_append_singleton, linkAt_append_singleton]

/-- The cells behind the first ones are a chain of their own. -/
theorem Chain.drop (h : Chain next start (pre ++ suf)) : Chain next (linkAt next start pre) suf := by
  induction pre generalizing start with
  | nil => exact h
  | cons y pre ih =>
    obtain ⟨rfl, -, hrest⟩ := h
    rw [linkAt_cons]
    exact ih hrest

/-- The end of a chain is exchanged by the link behind the cells that stay. -/
theorem Chain.graft (h : Chain next start (pre ++ xs)) (hstart : pre ≠ [] → start' = start)
    (hsame : ∀ y ∈ pre, y ∉ pre.getLast? → next' y = next y) (hnodup : pre.Nodup)
    (hend : Chain next' (linkAt next' start' pre) ys) : Chain next' start' (pre ++ ys) := by
  induction pre generalizing start start' with
  | nil => exact hend
  | cons y pre ih =>
    obtain ⟨heq, hne, hrest⟩ := h
    refine ⟨(hstart (by simp)).trans heq, hne, ?_⟩
    rw [linkAt_cons] at hend
    refine ih hrest (fun hpre => ?_) (fun z hz hlast => ?_) hnodup.of_cons hend
    · refine hsame y List.mem_cons_self fun hlast => ?_
      rw [List.getLast?_cons_of_ne_nil hpre] at hlast
      exact (List.nodup_cons.1 hnodup).1 (List.mem_of_getLast? hlast)
    · refine hsame z (List.mem_cons_of_mem _ hz) fun hlast' => hlast ?_
      rwa [List.getLast?_cons_of_ne_nil (List.ne_nil_of_mem hz)] at hlast'

theorem Chain.ne_zero (h : Chain next start xs) (hx : x ∈ xs) : x ≠ 0 := by
  induction xs generalizing start with
  | nil => exact absurd hx (by simp)
  | cons y xs ih =>
    obtain ⟨-, hne, hrest⟩ := h
    rcases List.mem_cons.1 hx with rfl | hx
    · exact hne
    · exact ih hrest hx

/-- A chain that does not start at 0 has a first cell. -/
theorem Chain.start_eq (h : Chain next start xs) : start = xs.head?.getD 0 := by
  cases xs with
  | nil => exact h
  | cons x xs => exact h.1

/-- The cell behind `pre ++ [x]` is what `x` leads to. -/
theorem Chain.step_eq (h : Chain next start (pre ++ x :: suf)) : next x = suf.head?.getD 0 := by
  have := (h.drop).2.2
  exact this.start_eq

end Links

/-! ## Cells with jumps -/

/-- What the cells hold; a `gone` cell has left the chain. -/
structure Cells (K : Type*) where
  key : ℕ → K
  step : ℕ → ℕ
  jump : ℕ → ℕ
  gone : ℕ → Prop

variable {K : Type*} [LinearOrder K]

/-- From `start` the cells `xs` follow one another with growing keys. They are the cells in use
that are not gone, and the links of every cell lead to larger keys. -/
structure SkipChain (c : Cells K) (used : Set ℕ) (start : ℕ) (xs : List ℕ) : Prop where
  chain : Chain c.step start xs
  sorted : xs.Pairwise fun x y => c.key x < c.key y
  live : ∀ x, x ∈ xs ↔ x ∈ used ∧ ¬ c.gone x
  step_ahead : ∀ x ∈ used, c.step x = 0 ∨ (c.step x ∈ used ∧ c.key x < c.key (c.step x))
  jump_ahead : ∀ x ∈ used, ¬ c.gone x →
    c.jump x = 0 ∨ (c.jump x ∈ used ∧ c.key x < c.key (c.jump x))

namespace SkipChain

variable {c c' : Cells K} {used : Set ℕ} {start start' x y : ℕ} {xs pre dead post : List ℕ} {k : K}

theorem nil (c : Cells K) : SkipChain c ∅ 0 [] where
  chain := rfl
  sorted := List.Pairwise.nil
  live := by simp
  step_ahead := by simp
  jump_ahead := by simp

theorem mem_used (h : SkipChain c used start xs) (hx : x ∈ xs) : x ∈ used := ((h.live x).1 hx).1

theorem not_gone (h : SkipChain c used start xs) (hx : x ∈ xs) : ¬ c.gone x := ((h.live x).1 hx).2

theorem nodup (h : SkipChain c used start xs) : xs.Nodup :=
  h.sorted.imp fun hlt heq => by rw [heq] at hlt; exact lt_irrefl _ hlt

/-- **A chain depends on the cells in use.** -/
theorem congr (h : SkipChain c used start xs) (hkey : ∀ x ∈ used, c'.key x = c.key x)
    (hstep : ∀ x ∈ used, c'.step x = c.step x) (hjump : ∀ x ∈ used, c'.jump x = c.jump x)
    (hgone : ∀ x ∈ used, c'.gone x ↔ c.gone x) : SkipChain c' used start xs where
  chain := h.chain.congr fun x hx => hstep x (h.mem_used hx)
  sorted := h.sorted.imp_of_mem fun hx hy hlt => by
    rwa [hkey _ (h.mem_used hx), hkey _ (h.mem_used hy)]
  live x := by
    rw [h.live x]
    exact and_congr_right fun hx => not_congr (hgone x hx).symm
  step_ahead x hx := by
    rw [hstep x hx, hkey x hx]
    refine (h.step_ahead x hx).imp_right fun ⟨hused, hlt⟩ => ⟨hused, ?_⟩
    rwa [hkey _ hused]
  jump_ahead x hx hlive := by
    rw [hjump x hx, hkey x hx]
    refine (h.jump_ahead x hx (mt (hgone x hx).2 hlive)).imp_right fun ⟨hused, hlt⟩ => ⟨hused, ?_⟩
    rwa [hkey _ hused]

/-- A jump is set to a cell further ahead. -/
theorem setJump (h : SkipChain c used start xs) (hx : x ∈ used) (hy : y ∈ used)
    (hlt : c.key x < c.key y) (hkey : c'.key = c.key) (hstep : c'.step = c.step)
    (hgone : ∀ z, c'.gone z ↔ c.gone z) (hjump : ∀ z, c'.jump z = if z = x then y else c.jump z) :
    SkipChain c' used start xs where
  chain := by rw [hstep]; exact h.chain
  sorted := by rw [hkey]; exact h.sorted
  live z := by rw [h.live z, hgone z]
  step_ahead := by rw [hstep, hkey]; exact h.step_ahead
  jump_ahead z hz hlive := by
    rw [hkey, hjump z]
    split_ifs with heq
    · subst heq
      exact .inr ⟨hy, hlt⟩
    · exact h.jump_ahead z hz (mt (hgone z).2 hlive)

/-- A key is in the chain once. -/
theorem key_inj (h : SkipChain c used start xs) (hx : x ∈ xs) (hy : y ∈ xs)
    (heq : c.key x = c.key y) : x = y := by
  obtain ⟨pre, post, rfl⟩ := List.append_of_mem hx
  have hsorted := List.pairwise_append.1 h.sorted
  rcases List.mem_append.1 hy with hy | hy
  · exact absurd (hsorted.2.2 y hy x List.mem_cons_self) heq.le.not_gt
  · rcases List.mem_cons.1 hy with rfl | hy
    · rfl
    · exact absurd ((List.pairwise_cons.1 hsorted.2.1).1 y hy) heq.ge.not_gt

/-- A cell of the chain leads to the next one. -/
theorem step_mem (h : SkipChain c used start xs) (hx : x ∈ xs) (h0 : c.step x ≠ 0) :
    c.step x ∈ xs := by
  obtain ⟨pre, post, rfl⟩ := List.append_of_mem hx
  rw [h.chain.step_eq] at h0 ⊢
  cases post with
  | nil => exact absurd rfl h0
  | cons z post => simp

/-- No key of the chain is between a cell and the next one. -/
theorem step_le (h : SkipChain c used start xs) (hx : x ∈ xs) (hy : y ∈ xs)
    (hlt : c.key x < c.key y) : c.step x ≠ 0 ∧ c.key (c.step x) ≤ c.key y := by
  obtain ⟨pre, post, rfl⟩ := List.append_of_mem hx
  have hsorted := List.pairwise_append.1 h.sorted
  have hpost : y ∈ post := by
    rcases List.mem_append.1 hy with hy | hy
    · exact absurd (hsorted.2.2 y hy x List.mem_cons_self) (lt_asymm hlt)
    · rcases List.mem_cons.1 hy with rfl | hy
      · exact absurd hlt (lt_irrefl _)
      · exact hy
  rw [h.chain.step_eq]
  cases post with
  | nil => exact absurd hpost (by simp)
  | cons z post =>
    have hz : z ≠ 0 := h.chain.ne_zero (by simp)
    refine ⟨hz, ?_⟩
    have hrest := (List.pairwise_cons.1 hsorted.2.1).2
    rcases List.mem_cons.1 hpost with rfl | hpost
    · exact le_rfl
    · exact ((List.pairwise_cons.1 hrest).1 y hpost).le

/-- **A cell is put into the chain**, in place of the cells `dead`, which are marked. -/
theorem splice (h : SkipChain c used start (pre ++ dead ++ post)) (hx : x ∉ used) (hx0 : x ≠ 0)
    (hpre : ∀ y ∈ pre, c.key y < k) (hpost : ∀ y ∈ post, k < c.key y)
    (hkey : ∀ y ∈ used, c'.key y = c.key y) (hkeyx : c'.key x = k)
    (hstart : pre ≠ [] → start' = start) (hlink : linkAt c'.step start' pre = x)
    (hstep : ∀ y ∈ used, y ∉ pre.getLast? → c'.step y = c.step y)
    (hstepx : c'.step x = post.head?.getD 0)
    (hjump : ∀ y ∈ used, y ∉ dead → c'.jump y = c.jump y)
    (hjumpx : c'.jump x = 0 ∨ (c'.jump x ∈ used ∧ k < c.key (c'.jump x)))
    (hgone : ∀ y ∈ used, c'.gone y ↔ c.gone y ∨ y ∈ dead) (hgonex : ¬ c'.gone x) :
    SkipChain c' (insert x used) start' (pre ++ x :: post) := by
  have hmem : ∀ y, y ∈ pre ∨ y ∈ dead ∨ y ∈ post → y ∈ used := fun y hy =>
    h.mem_used (by simpa [or_assoc] using hy)
  have hsorted := h.sorted
  have hnodup : (pre ++ dead ++ post).Nodup := h.nodup
  have hrest : Chain c.step (linkAt c.step start (pre ++ dead)) post := h.chain.drop
  have hlast : ∀ y, y ∈ pre.getLast? → y ∈ pre := fun y hy => List.mem_of_getLast? hy
  have hnotpre : ∀ y ∈ post, y ∉ pre := fun y hy hy' =>
    lt_asymm (hpre y hy') (hpost y hy)
  rw [List.append_assoc, List.pairwise_append] at hsorted
  obtain ⟨hsortedPre, hsortedRest, hcross⟩ := hsorted
  rw [List.pairwise_append] at hsortedRest
  refine ⟨?_, ?_, fun y => ?_, ?_, ?_⟩
  · -- the chain: the cells of `pre` stay linked, the new cell leads to `post`
    have hpostChain : Chain c'.step (post.head?.getD 0) post := by
      rw [← hrest.start_eq]
      exact hrest.congr fun y hy =>
        hstep y (hmem y (.inr (.inr hy))) fun hl => hnotpre y hy (hlast y hl)
    have hchain : Chain c.step start (pre ++ (dead ++ post)) := by
      rw [← List.append_assoc]; exact h.chain
    refine hchain.graft hstart (fun y hy hl => hstep y (hmem y (.inl hy)) hl)
      (List.nodup_append.1 (List.nodup_append.1 hnodup).1).1 ?_
    rw [hlink]
    refine ⟨rfl, hx0, ?_⟩
    rw [hstepx]
    exact hpostChain
  · rw [List.pairwise_append]
    refine ⟨?_, List.pairwise_cons.2 ⟨fun y hy => ?_, ?_⟩, fun y hy z hz => ?_⟩
    · refine hsortedPre.imp_of_mem fun hy hz hlt => ?_
      rwa [hkey _ (hmem _ (.inl hy)), hkey _ (hmem _ (.inl hz))]
    · rw [hkeyx, hkey y (hmem y (.inr (.inr hy)))]
      exact hpost y hy
    · refine hsortedRest.2.1.imp_of_mem fun hy hz hlt => ?_
      rwa [hkey _ (hmem _ (.inr (.inr hy))), hkey _ (hmem _ (.inr (.inr hz)))]
    · rw [hkey y (hmem y (.inl hy))]
      rcases List.mem_cons.1 hz with rfl | hz
      · rw [hkeyx]
        exact hpre y hy
      · rw [hkey z (hmem z (.inr (.inr hz)))]
        exact hcross y hy z (List.mem_append_right _ hz)
  · have hlive := h.live y
    simp only [List.mem_append, List.mem_cons, Set.mem_insert_iff] at hlive ⊢
    by_cases hyx : y = x
    · subst hyx
      simp [hgonex]
    · by_cases hy : y ∈ used
      · have hdead : y ∈ dead → ¬ (y ∈ pre ∨ y ∈ post) := by
          intro hd hpp
          have hdisj := List.nodup_append.1 hnodup
          rcases hpp with hp | hp
          · exact (List.nodup_append.1 hdisj.1).2.2 y hp y hd rfl
          · exact hdisj.2.2 y (List.mem_append_right _ hd) y hp rfl
        rw [hgone y hy]
        simp only [hyx, hy, false_or, true_and, or_assoc] at hlive ⊢
        tauto
      · simp only [hyx, hy, false_or, false_and, iff_false, or_assoc] at hlive ⊢
        tauto
  · intro y hy
    rcases hy with rfl | hy
    · rw [hstepx, hkeyx]
      cases post with
      | nil => exact .inl rfl
      | cons z post =>
        have hz : z ∈ used := hmem z (.inr (.inr List.mem_cons_self))
        refine .inr ⟨Set.mem_insert_of_mem _ hz, ?_⟩
        rw [List.head?_cons, Option.getD_some, hkey z hz]
        exact hpost z List.mem_cons_self
    · by_cases hl : y ∈ pre.getLast?
      · have hy' : c'.step y = x := by
          rw [← hlink, linkAt, Option.mem_def.1 hl]; rfl
        rw [hy', hkeyx, hkey y hy]
        exact .inr ⟨Set.mem_insert _ _, hpre y (hlast y hl)⟩
      · rw [hstep y hy hl, hkey y hy]
        refine (h.step_ahead y hy).imp_right fun ⟨hused, hlt⟩ =>
          ⟨Set.mem_insert_of_mem _ hused, ?_⟩
        rwa [hkey _ hused]
  · intro y hy hlive
    rcases hy with rfl | hy
    · refine hjumpx.imp_right fun ⟨hused, hlt⟩ => ⟨Set.mem_insert_of_mem _ hused, ?_⟩
      rwa [hkeyx, hkey _ hused]
    · have hnot := mt (hgone y hy).2 hlive
      push Not at hnot
      rw [hjump y hy hnot.2, hkey y hy]
      refine (h.jump_ahead y hy hnot.1).imp_right fun ⟨hused, hlt⟩ =>
        ⟨Set.mem_insert_of_mem _ hused, ?_⟩
      rwa [hkey _ hused]

/-! ## Cells that are gone -/

/-- Over cells that are gone, each leading to the next, a walk ends at 0 or in the chain. -/
inductive Back (c : Cells K) (xs : List ℕ) : ℕ → Prop where
  | zero : Back c xs 0
  | live {x : ℕ} : x ∈ xs → Back c xs x
  | gone {x : ℕ} : c.gone x → Back c xs (c.step x) → Back c xs x

/-- **The links of the cells that are gone lead back into the chain.** -/
theorem back (h : SkipChain c used start xs) (hfin : used.Finite) (hx : x ∈ used) :
    Back c xs x := by
  -- the keys grow along the links, and there are finitely many cells
  induction hn : (hfin.toFinset.filter fun y => c.key x < c.key y).card using
    Nat.strongRecOn generalizing x with
  | ind n ih =>
    subst hn
    by_cases hg : c.gone x
    · refine .gone hg ?_
      rcases h.step_ahead x hx with h0 | ⟨hused, hlt⟩
      · rw [h0]
        exact .zero
      · refine ih _ (Finset.card_lt_card ?_) hused rfl
        rw [Finset.ssubset_iff_of_subset]
        · refine ⟨c.step x, ?_, ?_⟩
          · simpa [hfin.mem_toFinset] using ⟨hused, hlt⟩
          · simp
        · intro y hy
          simp only [Finset.mem_filter] at hy ⊢
          exact ⟨hy.1, hlt.trans hy.2⟩
    · exact .live ((h.live x).2 ⟨hx, hg⟩)

/-! ## Searching -/

/-- From here nothing of the chain with a key from `k` on is passed over. -/
def At (c : Cells K) (xs : List ℕ) (k : K) (q : ℕ) : Prop :=
  ∃ pre suf, xs = pre ++ suf ∧ (∀ x ∈ pre, c.key x < k) ∧ Chain c.step q suf

/-- Ways on from a cell with a smaller key: its next cell, or over its jump to a cell that is not
gone and still has a smaller key. -/
inductive Move (c : Cells K) (k : K) : ℕ → ℕ → Prop where
  | step {q : ℕ} : q ≠ 0 → c.key q < k → Move c k q (c.step q)
  | jump {q : ℕ} : q ≠ 0 → c.key q < k → c.jump q ≠ 0 → ¬ c.gone (c.jump q) →
      c.key (c.jump q) < k → Move c k q (c.jump q)

theorem at_start (h : SkipChain c used start xs) : At c xs k start :=
  ⟨[], xs, rfl, by simp, h.chain⟩

/-- A cell of the chain that is jumped to is behind the one that jumps. -/
theorem suffix_of_jump (h : SkipChain c used start (pre ++ x :: post)) (hy : y ∈ used)
    (hlive : ¬ c.gone y) (hlt : c.key x < c.key y) :
    ∃ mid suf, post = mid ++ y :: suf := by
  have hmem : y ∈ pre ++ x :: post := (h.live y).2 ⟨hy, hlive⟩
  have hsorted := List.pairwise_append.1 h.sorted
  rcases List.mem_append.1 hmem with hp | hp
  · exact absurd (hsorted.2.2 y hp x List.mem_cons_self) (lt_asymm hlt)
  · rcases List.mem_cons.1 hp with rfl | hp
    · exact absurd hlt (lt_irrefl _)
    · exact List.append_of_mem hp

/-- The cells in front of one with a smaller key have smaller keys. -/
theorem key_lt_of_prefix (h : SkipChain c used start (pre ++ x :: post)) (hk : c.key x < k) :
    ∀ y ∈ pre ++ [x], c.key y < k := by
  intro y hy
  have hsorted := List.pairwise_append.1 h.sorted
  rcases List.mem_append.1 hy with hy | hy
  · exact (hsorted.2.2 y hy x List.mem_cons_self).trans hk
  · rwa [List.mem_singleton.1 hy]

/-- **A move passes over smaller keys only**, and over at least one cell. -/
theorem Move.ahead {q q' : ℕ} {suf : List ℕ} (hm : Move c k q q')
    (h : SkipChain c used start (pre ++ suf)) (hsuf : Chain c.step q suf) :
    ∃ mid suf', suf = mid ++ suf' ∧ mid ≠ [] ∧ (∀ x ∈ mid, c.key x < k) ∧
      Chain c.step q' suf' := by
  cases hm with
  | step hq hlt =>
    obtain ⟨post, rfl, hrest⟩ := hsuf.pop hq
    exact ⟨[q], post, rfl, by simp, by simpa using hlt, hrest⟩
  | jump hq hlt hj0 hlive hjk =>
    obtain ⟨post, rfl, -⟩ := hsuf.pop hq
    have hqused : q ∈ used := h.mem_used (by simp)
    rcases h.jump_ahead q hqused (h.not_gone (by simp)) with h0 | ⟨hused, hahead⟩
    · exact absurd h0 hj0
    · obtain ⟨mid, suf, rfl⟩ := h.suffix_of_jump hused hlive hahead
      have hall : SkipChain c used start ((pre ++ q :: mid) ++ c.jump q :: suf) := by
        simpa using h
      refine ⟨q :: mid, c.jump q :: suf, by simp, by simp, fun y hy => ?_, ?_⟩
      · exact hall.key_lt_of_prefix hjk y (by
          simp only [List.mem_append, List.mem_cons] at hy ⊢
          tauto)
      · have hdrop := hall.chain.drop
        rwa [hdrop.1] at hdrop

theorem At.move {q q' : ℕ} (hat : At c xs k q) (h : SkipChain c used start xs)
    (hm : Move c k q q') : At c xs k q' := by
  obtain ⟨pre, suf, rfl, hpre, hsuf⟩ := hat
  obtain ⟨mid, suf', rfl, -, hmid, hsuf'⟩ := hm.ahead h hsuf
  refine ⟨pre ++ mid, suf', by simp, fun x hx => ?_, hsuf'⟩
  rcases List.mem_append.1 hx with hx | hx
  · exact hpre x hx
  · exact hmid x hx

/-- **However the two kinds of links are mixed, nothing is missed.** -/
theorem At.moves {q q' : ℕ} (hat : At c xs k q) (h : SkipChain c used start xs)
    (hm : Relation.ReflTransGen (Move c k) q q') : At c xs k q' := by
  induction hm with
  | refl => exact hat
  | tail _ hstep ih => exact ih.move h hstep

end SkipChain

end Groonga.Lib
