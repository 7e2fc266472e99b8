import Groonga.Pat.Record

/-!
# Deletion

A deletion takes a slot of the ring, follows the key to its output, and removes the
output: with the branch above it, or alone if it has a disabled self-loop. It keeps the
invariant, and the record of the key is the only one that is no longer live.
-/

namespace Groonga.Pat

open Lib.Patricia Lib.Patricia.Trie

variable {s s' : GrnPat} {t t' : Trie ℕ} {own own' : ℕ → ℕ} {free : ℕ → List ℕ} {lost : Finset ℕ}
  {k : List (Frame ℕ)} {f : Frame ℕ} {x P slot n : ℕ} {key : List UInt8}

/-! ## The parts of the invariant -/

/-- The new slot is used. -/
theorem Ring.use (h : Ring s) (hnew : NewSlot s slot)
    (hring : s'.currDel = s.currDel ∧ s'.currDel2 = s.currDel2 ∧ s'.currDel3 = s.currDel3)
    (hafter : SlotsAfter s.delinfos s'.delinfos t own slot x P) : Ring s' := by
  obtain ⟨h1, h2, h3⟩ := hring
  have hused : ∀ n, (s'.delinfos n).stat ≠ .empty → n = slot ∨ (s.delinfos n).stat ≠ .empty := by
    intro n hn
    by_cases hns : n = slot
    · exact .inl hns
    · exact .inr ((hafter.used_iff hns).mp hn)
  have hphase1 : ∀ n, (s'.delinfos n).stat = .phase1 → n = slot ∨ (s.delinfos n).stat = .phase1 := by
    intro n hn
    exact ((hafter.phase1_iff hnew.empty).mp hn).imp And.left And.left
  refine
    { del_lt := by rw [h1]; exact h.del_lt
      del2_lt := by rw [h2]; exact h.del2_lt
      del3_lt := by rw [h3]; exact h.del3_lt
      half := by rw [h1, h2]; exact h.half
      order := by rw [h1, h2, h3]; exact h.order
      lt := fun n hn => ?_
      used := fun n hn => ?_
      phase1 := fun n hn => ?_ }
  · rcases hused n hn with rfl | hn
    · exact hnew.lt
    · exact h.lt n hn
  · rw [h1, h3]
    rcases hused n hn with rfl | hn
    · exact hnew.used
    · exact h.used n hn
  · rw [h1, h2]
    rcases hphase1 n hn with rfl | hn
    · exact hnew.phase1
    · exact h.phase1 n hn

/-- The deleted record is pending. -/
theorem Accounts.remove (h : Accounts s t free lost) (hsame : SameKeys s s')
    (hleaves : t.leaves = x ::ₘ t'.leaves) (hnodup : t.leaves.Nodup)
    (hpending : ∀ i, Pending s'.delinfos i ↔ Pending s.delinfos i ∨ i = x)
    (hlr : ∀ n, ∀ i ∈ free n, (s'.nodes i).lr false = (s.nodes i).lr false)
    (hgarbages : s'.garbages = s.garbages) (hentries : s'.nEntries = s.nEntries - 1)
    (hcount : s'.nGarbages = s.nGarbages + 1) : Accounts s' t' free lost := by
  have hcard := h.entries
  rw [hleaves, Multiset.card_cons] at hcard
  rw [hleaves, Multiset.nodup_cons] at hnodup
  have hx : x ∈ t.leaves := by
    rw [hleaves]
    exact Multiset.mem_cons_self ..
  have hlive : ∀ i ∈ t'.leaves, i ∈ t.leaves := fun i hi => by
    rw [hleaves]
    exact Multiset.mem_cons_of_mem hi
  refine
    { total := fun i => ?_
      lost_le := fun i hi => by rw [hsame.currRec]; exact h.lost_le i hi
      currRec_le := by rw [hsame.currRec]; exact h.currRec_le
      live_not_pending := fun i hi hp => ?_
      live_not_free := fun i hi => h.live_not_free i (hlive i hi)
      pending_not_free := fun i hi n hin => ?_
      free_nodup := h.free_nodup
      free_disjoint := h.free_disjoint
      chain := fun n => ?_
      size := fun n i hi => ?_
      entries := ?_
      count := ?_ }
  · rw [hsame.knownId_iff, ← h.total, hpending, hleaves, Multiset.mem_cons]
    tauto
  · rcases (hpending i).mp hp with hp | rfl
    · exact h.live_not_pending i (hlive i hi) hp
    · exact hnodup.1 hi
  · rcases (hpending i).mp hi with hi | rfl
    · exact h.pending_not_free i hi n hin
    · exact h.live_not_free i hx n hin
  · rw [hgarbages]
    exact (h.chain n).congr (hlr n)
  · rw [hsame.key]
    exact h.size n i hi
  · rw [hentries, hcard, Nat.add_sub_cancel]
  · have := h.count
    rw [hentries, hcount, hsame.currRec]
    omega

/-- The record is not in the cache once the place of its key is cleared. -/
theorem CacheOk.remove (h : CacheOk s t) (hleaves : t.leaves = x ::ₘ t'.leaves)
    (hkey : s.keyOf x = key)
    (hcleared : s.cacheSize ≠ 0 → s.cache (grnPatCacheComputeId s.cacheSize key) = 0)
    (hsame : SameKeys s s') : CacheOk s' t' := by
  intro hsize a ha
  rw [hsame.cacheSize] at hsize ⊢
  rw [hsame.cache] at ha ⊢
  rw [hsame.keyOf_eq]
  obtain ⟨hl, hid⟩ := h hsize a ha
  refine ⟨?_, hid⟩
  rw [hleaves, Multiset.mem_cons] at hl
  refine hl.resolve_left fun hx => ha ?_
  rw [hx, hkey] at hid
  rw [← hid]
  exact hcleared hsize

/-- **The invariant without a record.** -/
theorem Inv.remove (h : Inv s t own free lost) (hnew : NewSlot s slot) (hkey : s.keyOf x = key)
    (hcleared : s.cacheSize ≠ 0 → s.cache (grnPatCacheComputeId s.cacheSize key) = 0)
    (hrem : Removes t t' own own' x P) (hrooted : Rooted s'.nodes s.words t' own')
    (hafter : SlotsAfter s.delinfos s'.delinfos t own slot x P) (hP : BranchOf t own x P)
    (hdel : ∀ j ∈ t'.ids, (s'.nodes j).deleting = true ↔
      j = P ∨ j = x ∨ (s.nodes j).deleting = true)
    (hlr : ∀ n, ∀ i ∈ free n, (s'.nodes i).lr false = (s.nodes i).lr false)
    (hsame : SameKeys s s')
    (hring : s'.currDel = s.currDel ∧ s'.currDel2 = s.currDel2 ∧ s'.currDel3 = s.currDel3)
    (hgarbages : s'.garbages = s.garbages) (hentries : s'.nEntries = s.nEntries - 1)
    (hcount : s'.nGarbages = s.nGarbages + 1) : Inv s' t' own' free lost := by
  have hx : x ∈ t.leaves := by
    rw [hrem.leaves]
    exact Multiset.mem_cons_self ..
  have hpending := h.accounts.live_not_pending x hx
  exact
    { rooted := by rw [hsame.words_eq]; exact hrooted
      ring := h.ring.use hnew hring hafter
      slots := h.slots.remove h.rooted hrem hafter hnew.empty hpending hP hdel
      keys := h.keys.congr hsame
      accounts := h.accounts.remove hsame hrem.leaves h.rooted.leaves_nodup
        (fun i => hafter.pending_iff hnew.empty i) hlr hgarbages hentries hcount
      cache := h.cache.remove hrem.leaves hkey hcleared hsame }

/-! ## What the branches of `grn_pat_del_internal` keep -/

/-- The other side only changes its check, and its links if it becomes the first node. -/
theorem keepOtherside_eq_nodes {o check0 check : ℕ} {p0 : Loc} :
    ∃ nodes', keepOtherside s o p0 check0 check = { s with nodes := nodes' } ∧
      ∀ j, (nodes' j).key = (s.nodes j).key ∧ (nodes' j).deleting = (s.nodes j).deleting ∧
        (j ≠ o → (nodes' j).lr = (s.nodes j).lr) := by
  by_cases ho : o = 0
  · exact ⟨s.nodes, if_pos ho, fun j => ⟨rfl, rfl, fun _ => rfl⟩⟩
  · have hreset : ∃ nodes', resetCheck s o check0 check = { s with nodes := nodes' } ∧
        ∀ j, (nodes' j).key = (s.nodes j).key ∧ (nodes' j).deleting = (s.nodes j).deleting ∧
          (nodes' j).lr = (s.nodes j).lr := by
      unfold resetCheck
      split_ifs
      · exact ⟨(s.setCheck o 0).nodes, rfl, fun j => ⟨setCheck_key, setCheck_deleting, setCheck_lr⟩⟩
      · exact ⟨s.nodes, rfl, fun j => ⟨rfl, rfl, rfl⟩⟩
    obtain ⟨nodes', heq, hnodes⟩ := hreset
    rw [keepOtherside_eq ho, heq]
    split_ifs
    · refine ⟨(becomeFirst { s with nodes := nodes' } o).nodes, rfl, fun j => ⟨?_, ?_, fun hj => ?_⟩⟩
      · rw [becomeFirst_key, (hnodes j).1]
      · rw [becomeFirst_deleting, (hnodes j).2.1]
      · funext d
        rw [becomeFirst_lr_of_ne hj, (hnodes j).2.2]
    · exact ⟨nodes', rfl, fun j => ⟨(hnodes j).1, (hnodes j).2.1, fun _ => (hnodes j).2.2⟩⟩

/-- The slots if no other branch is owned by the record. -/
theorem slotsAfter_alone {l : ℕ} (hslots : Slots s.nodes s.delinfos t own) (hx : x ∈ t.leaves)
    (honly : ∀ i ∈ t.inner, own i = x → i = x) :
    SlotsAfter s.delinfos (Function.update s.delinfos slot ⟨x, l, .phase2⟩) t own slot x x where
  d_ne := fun m hm => by rw [Function.update_of_ne hm]
  d_slot := by rw [Function.update_self]
  stat_ne := fun m hm => by
    rw [Function.update_of_ne hm, if_neg]
    rintro ⟨hstat, rfl⟩
    exact (hslots.phase1 m hstat).2.1 hx
  stat_slot := by rw [Function.update_self, if_neg fun h => h.2 rfl]
  ld := fun m hm => by
    by_cases hms : m = slot
    · rw [hms, Function.update_self] at hm
      cases hm
    · rw [Function.update_of_ne hms] at hm ⊢
      obtain ⟨h1, h2, h3⟩ := hslots.phase1 m hm
      rw [passOn_of_ne fun hmx => h2 (honly _ h1 hmx ▸ hx), h3]

/-- A leaf has one place. -/
theorem Rooted.place_unique {nodes : ℕ → Node} {w : ℕ → Word} {k' : List (Frame ℕ)}
    (h : Rooted nodes w (plug k (.leaf x)) own) (heq : plug k' (.leaf x) = plug k (.leaf x)) :
    k' = k := by
  have hfollows : ∀ l, plug l (.leaf x) = plug k (.leaf x) → ∀ g ∈ l, g.Follows (w x) := by
    intro l hl g hg
    have hwf := h.wf
    rw [← hl] at hwf
    have hfits := (wf_plug.mp hwf).2.2 x (mem_ids_leaf.mpr rfl) g hg
    exact ⟨hfits.lt, hfits.bit⟩
  have h1 := @descend_plug ℕ (w x) k' [] (.leaf x) (hfollows k' heq)
  have h2 := @descend_plug ℕ (w x) k [] (.leaf x) (hfollows k rfl)
  rw [heq, h2, List.append_nil, List.append_nil] at h1
  exact (Prod.mk.inj h1).1.symm

/-- An output whose node has a self-loop, and which is not at its own branch, owns
nothing: the self-loop is disabled. -/
theorem Rooted.unowned_of_selfLoop {nodes : ℕ → Node} {w : ℕ → Word}
    (h : Rooted nodes w (plug (f :: k) (.leaf x)) own) (hne : x ≠ f.id) (hloop : SelfLoop nodes x) :
    ∀ j ∈ (plug (f :: k) (.leaf x)).inner, own j ≠ x := by
  rintro j hj rfl
  by_cases hlive : j ∈ (plug (f :: k) (.leaf (own j))).leaves
  · -- a branch with a link to itself has its own output as a child
    have hself := h.own_self j hj hlive
    rw [hself] at h hj hne hloop
    obtain ⟨k', c, child, hplug⟩ := exists_plug_of_mem_inner hj
    have hlink := h.linked
    rw [← hplug, linked_plug] at hlink
    obtain ⟨-, -, hj0, -, hchild⟩ := hlink
    obtain ⟨d, hd⟩ : ∃ d, (nodes j).lr d = j := by
      rcases hloop with ⟨-, hl⟩ | ⟨-, hl⟩
      · exact ⟨true, hl⟩
      · exact ⟨false, hl⟩
    have hleaf : child d = .leaf j := by
      have hc := hchild d
      rw [hd] at hc
      cases hcd : child d with
      | nil =>
        rw [hcd] at hc
        exact absurd hc hj0
      | leaf i =>
        rw [hcd] at hc
        rw [hc.1]
      | node i c' child' =>
        rw [hcd] at hc
        have hnodup := h.inner_nodup
        rw [← hplug, inner_plug, Trie.inner, Multiset.cons_add, Multiset.nodup_cons] at hnodup
        refine absurd (Multiset.mem_add.mpr (.inl ?_)) hnodup.1
        have hin : j ∈ (child d).inner := by
          rw [hcd, hc.1]
          exact Multiset.mem_cons_self ..
        rw [Multiset.mem_add]
        cases d
        · exact .inl hin
        · exact .inr hin
    rw [← fill_child j c child d, hleaf, ← plug_cons] at hplug
    exact hne (congrArg Frame.id (List.cons.inj (h.place_unique hplug)).1)
  · exact h.enabled j hj hlive hloop

/-! ## The branches of `grn_pat_del_internal` -/

/-- The counters after a deletion. -/
def counted (s : GrnPat) : GrnPat := { s with nGarbages := s.nGarbages + 1, nEntries := s.nEntries - 1 }

/-- What stands on the other side of a branch is a node of the tree or nothing. -/
theorem Rooted.otherside_mem {nodes : ℕ → Node} {w : ℕ → Word} {o : ℕ}
    (h : Rooted nodes w (plug (f :: k) (.leaf x)) own) (ho : o = (nodes f.id).lr (!f.dir)) :
    o = 0 ∨ o ∈ (plug (f :: k) (.leaf x)).ids := by
  obtain ⟨⟨-, -, -, hsib, -⟩, -⟩ := linked_plug.mp h.linked
  rw [← ho] at hsib
  have hmem : ∀ {i}, i ∈ f.sib.ids → i ∈ (plug (f :: k) (.leaf x)).ids := by
    intro i hi
    refine mem_ids_plug.mpr (.inr ?_)
    rcases mem_ids.mp hi with hi | hi
    · exact .inl (mem_innerBeside_cons.mpr (.inr (.inl hi)))
    · exact .inr (mem_leavesBeside_cons.mpr (.inl hi))
  cases hs : f.sib with
  | nil =>
    rw [hs] at hsib
    exact .inl hsib
  | leaf i =>
    rw [hs] at hsib
    refine .inr (hmem ?_)
    rw [hs, hsib.1]
    exact mem_ids_leaf.mpr rfl
  | node i c child =>
    rw [hs] at hsib
    refine .inr (hmem ?_)
    rw [hs, hsib.1]
    exact mem_ids_node.mpr (.inl rfl)

/-- The links of free nodes are not changed at a place of the tree. -/
theorem Inv.free_lr (h : Inv s t own free lost) {o : ℕ} (ho : o = 0 ∨ o ∈ t.ids) {i m : ℕ}
    (hi : i ∈ free m) : i ≠ 0 ∧ i ≠ o ∧ i ∉ t.ids := by
  have hids := h.not_mem_ids_of_free hi
  have hi0 : i ≠ 0 := Nat.one_le_iff_ne_zero.mp ((h.accounts.total i).mp (.inr (.inr ⟨m, hi⟩))).1
  refine ⟨hi0, ?_, hids⟩
  rintro rfl
  exact ho.elim hi0 hids

/-- The record is deleted with a branch, and the other side takes its place. -/
theorem inv_keepOtherside {s₁ : GrnPat} {o check0 : ℕ} (h : Inv s (plug (f :: k) (.leaf x)) own free lost)
    (hnew : NewSlot s slot) (hkey : s.keyOf x = key)
    (hcleared : s.cacheSize ≠ 0 → s.cache (grnPatCacheComputeId s.cacheSize key) = 0)
    (ho : o = (s.nodes f.id).lr (!f.dir)) (hcheck0 : ∀ g l, k = g :: l → check0 = g.check)
    (howned : ∃ j ∈ (plug (f :: k) (.leaf x)).inner, own j = x)
    (hP : BranchOf (plug (f :: k) (.leaf x)) own x f.id)
    (hafter : SlotsAfter s.delinfos s₁.delinfos (plug (f :: k) (.leaf x)) own slot x f.id)
    (hs₁ : ∃ nodes' delinfos', s₁ = { s with nodes := nodes', delinfos := delinfos' } ∧
      ∀ j, (nodes' j).key = (s.nodes j).key ∧ (nodes' j).check = (s.nodes j).check ∧
        (nodes' j).lr = (s.nodes j).lr)
    (hdel : ∀ t' own', Removes (plug (f :: k) (.leaf x)) t' own own' x f.id →
      ∀ j ∈ t'.ids, (s₁.nodes j).deleting = true ↔
        j = f.id ∨ j = x ∨ (s.nodes j).deleting = true) :
    ∃ t' own', Inv (counted ((keepOtherside s₁ o (place k) check0 f.check).store (place k) o)) t'
      own' free lost ∧ (plug (f :: k) (.leaf x)).leaves = x ::ₘ t'.leaves ∧
      SameKeys s (counted ((keepOtherside s₁ o (place k) check0 f.check).store (place k) o)) := by
  obtain ⟨nodes₁, delinfos₁, rfl, hnodes⟩ := hs₁
  have hsame₁ : SameKeys s { s with nodes := nodes₁, delinfos := delinfos₁ } :=
    ⟨rfl, rfl, rfl, rfl, rfl, rfl, fun j => (hnodes j).1⟩
  have hrooted₁ : Rooted nodes₁ s.words (plug (f :: k) (.leaf x)) own :=
    h.rooted.congr (congrFun (hnodes 0).2.2 true) (fun j _ => (hnodes j).2.1)
      fun j _ => (hnodes j).2.2
  rw [← hsame₁.words_eq] at hrooted₁
  have ho₁ : o = (nodes₁ f.id).lr (!f.dir) := by rw [(hnodes f.id).2.2, ho]
  obtain ⟨t', own', hrooted', hrem⟩ := rooted_remove
    (s := { s with nodes := nodes₁, delinfos := delinfos₁ }) hrooted₁ howned ho₁ hcheck0
  rw [hsame₁.words_eq] at hrooted'
  obtain ⟨nodes₂, hkeep, hnodes₂⟩ := @keepOtherside_eq_nodes
    { s with nodes := nodes₁, delinfos := delinfos₁ } o check0 f.check (place k)
  rw [hkeep] at hrooted' ⊢
  have hsame : SameKeys s (counted (GrnPat.store
      { s with nodes := nodes₂, delinfos := delinfos₁ } (place k) o)) := by
    refine ⟨rfl, rfl, rfl, rfl, rfl, rfl, fun j => ?_⟩
    exact store_key.trans ((hnodes₂ j).1.trans (hnodes j).1)
  refine ⟨t', own', ?_, hrem.leaves, hsame⟩
  refine h.remove hnew hkey hcleared hrem hrooted' hafter hP (fun j hj => ?_) (fun m i hi => ?_)
    hsame ⟨rfl, rfl, rfl⟩ rfl rfl rfl
  · rw [← hdel t' own' hrem j hj, ← (hnodes₂ j).2.1]
    exact iff_of_eq (congrArg (· = true) store_deleting)
  · obtain ⟨hi0, hio, hids⟩ := h.free_lr (h.rooted.otherside_mem ho) hi
    have hplace : place k ≠ ⟨i, false⟩ := place_ne hi0 fun hin =>
      hids (mem_ids_plug.mpr (.inr (.inl (mem_innerBeside_cons.mpr (.inr (.inr hin))))))
    refine (store_lr_of_ne hplace).trans ?_
    exact (congrFun ((hnodes₂ i).2.2 hio) false).trans (congrFun (hnodes i).2.2 false)

/-- The last transition is a self-loop: the record is deleted with its own branch. -/
theorem inv_selfLoop {o check0 l : ℕ} (h : Inv s (plug (f :: k) (.leaf f.id)) own free lost)
    (hnew : NewSlot s slot) (hkey : s.keyOf f.id = key)
    (hcleared : s.cacheSize ≠ 0 → s.cache (grnPatCacheComputeId s.cacheSize key) = 0)
    (ho : o = (s.nodes f.id).lr (!f.dir)) (hcheck0 : ∀ g l, k = g :: l → check0 = g.check) :
    ∃ t' own', Inv (counted ((keepOtherside (s.setDelinfo slot ⟨f.id, l, .phase2⟩) o (place k) check0
      f.check).store (place k) o)) t' own' free lost ∧
      (plug (f :: k) (.leaf f.id)).leaves = f.id ::ₘ t'.leaves ∧
      SameKeys s (counted ((keepOtherside (s.setDelinfo slot ⟨f.id, l, .phase2⟩) o (place k) check0
        f.check).store (place k) o)) := by
  have hin : f.id ∈ (plug (f :: k) (.leaf f.id)).inner :=
    mem_plug_inner.mpr (.inr (Multiset.mem_cons_self ..))
  have hlive : f.id ∈ (plug (f :: k) (.leaf f.id)).leaves :=
    mem_plug_leaves.mpr (.inl (Multiset.mem_singleton_self _))
  have hself := h.rooted.own_self _ hin hlive
  have honly : ∀ i ∈ (plug (f :: k) (.leaf f.id)).inner, own i = f.id → i = f.id :=
    fun i hi hix => h.rooted.own_inj i hi _ hin (hix.trans hself.symm)
  refine inv_keepOtherside h hnew hkey hcleared ho hcheck0 ⟨_, hin, hself⟩ (.inl ⟨rfl, honly⟩)
    (slotsAfter_alone h.slots hlive honly) ⟨_, _, rfl, fun j => ⟨rfl, rfl, rfl⟩⟩
    fun t' own' hrem j hj => ?_
  -- neither the record nor its branch is left
  have hne : j ≠ f.id := by
    rintro rfl
    have hnodup := h.rooted.leaves_nodup
    rw [hrem.leaves, Multiset.nodup_cons] at hnodup
    have hin' := (mem_ids.mp hj).resolve_right hnodup.1
    exact ((hrem.inner _ hnodup.1).mp hin').2 rfl
  simp only [hne, false_or]
  exact Iff.rfl

/-- The output has only a disabled self-loop: it is deleted alone. -/
theorem inv_disabled {l : ℕ} (h : Inv s (plug (f :: k) (.leaf x)) own free lost) (hnew : NewSlot s slot)
    (hkey : s.keyOf x = key)
    (hcleared : s.cacheSize ≠ 0 → s.cache (grnPatCacheComputeId s.cacheSize key) = 0)
    (hne : x ≠ f.id) (hloop : SelfLoop s.nodes x) :
    ∃ t' own', Inv (counted ((s.setDelinfo slot ⟨x, l, .phase2⟩).store (place (f :: k)) 0)) t' own'
      free lost ∧ (plug (f :: k) (.leaf x)).leaves = x ::ₘ t'.leaves ∧
      SameKeys s (counted ((s.setDelinfo slot ⟨x, l, .phase2⟩).store (place (f :: k)) 0)) := by
  have hlive : x ∈ (plug (f :: k) (.leaf x)).leaves :=
    mem_plug_leaves.mpr (.inl (Multiset.mem_singleton_self _))
  have hfree := h.rooted.unowned_of_selfLoop hne hloop
  have hnot := h.rooted.not_inner_of_unowned hlive hfree
  have honly : ∀ i ∈ (plug (f :: k) (.leaf x)).inner, own i = x → i = x :=
    fun i hi hix => absurd hix (hfree i hi)
  have hinner : (plug (f :: k) .nil).inner = (plug (f :: k) (.leaf x)).inner := by
    rw [inner_plug, inner_plug]
    rfl
  have hrooted : Rooted ((s.setDelinfo slot ⟨x, l, .phase2⟩).store (place (f :: k)) 0).nodes s.words
      (plug (f :: k) .nil) own :=
    h.rooted.pruneLeaf hfree (fun j => store_check) (fun j d hp => store_lr_of_ne hp) store_lr_self
  have hrem : Removes (plug (f :: k) (.leaf x)) (plug (f :: k) .nil) own own x x := by
    refine ⟨?_, fun j _ => ?_, fun j hj _ => ?_⟩
    · rw [leaves_plug, leaves_plug, leaves_leaf, leaves_nil, zero_add, Multiset.singleton_add]
    · rw [hinner]
      exact ⟨fun hj => ⟨hj, fun hjx => hnot (hjx ▸ hj)⟩, And.left⟩
    · rw [passOn_of_ne (hfree j (hinner ▸ hj))]
  have hsame : SameKeys s
      (counted ((s.setDelinfo slot ⟨x, l, .phase2⟩).store (place (f :: k)) 0)) :=
    ⟨rfl, rfl, rfl, rfl, rfl, rfl, fun j => store_key⟩
  refine ⟨_, own, h.remove hnew hkey hcleared hrem hrooted (slotsAfter_alone h.slots hlive honly)
    (.inl ⟨rfl, honly⟩) (fun j hj => ?_) (fun m i hi => ?_) hsame ⟨rfl, rfl, rfl⟩ rfl rfl rfl,
    hrem.leaves, hsame⟩
  · have hjx : j ≠ x := by
      rintro rfl
      have hnodup := h.rooted.leaves_nodup
      rw [hrem.leaves, Multiset.nodup_cons] at hnodup
      exact hnot (hinner ▸ (mem_ids.mp hj).resolve_right hnodup.1)
    simp only [hjx, false_or]
    exact iff_of_eq (congrArg (· = true) store_deleting)
  · obtain ⟨hi0, -, hids⟩ := h.free_lr (.inl rfl) hi
    refine store_lr_of_ne (place_ne hi0 fun hin => hids ?_)
    exact mem_ids_plug.mpr (.inr (.inl hin))

/-- The flags after a deletion is recorded. -/
theorem recordDeletion_deleting_iff (h : Inv s t own free lost) (hx : x ∈ t.leaves) (hP : P ∈ t.inner)
    (hxP : P ≠ x) (howned : ∃ j ∈ t.inner, own j = x) (hrem : Removes t t' own own' x P) {j : ℕ}
    (hj : j ∈ t'.ids) : ((recordDeletion s slot x P).nodes j).deleting = true ↔
      j = P ∨ j = x ∨ (s.nodes j).deleting = true := by
  have hnodup := h.rooted.leaves_nodup
  rw [hrem.leaves, Multiset.nodup_cons] at hnodup
  rw [recordDeletion_deleting hxP]
  by_cases hjP : j = P
  · subst hjP
    -- the removed branch is in the tree as a leaf only, so it is not deleted
    have hnone : slotOf s j = none := by
      rcases slotOf_branch h.rooted h.ring h.slots hP with ⟨b, -, -, -, hdead⟩ | ⟨hnone, -⟩
      · have hl : j ∉ t'.leaves := fun hl => hdead (by
          rw [hrem.leaves]
          exact Multiset.mem_cons_of_mem hl)
        exact absurd rfl ((hrem.inner j hl).mp ((mem_ids.mp hj).resolve_right hl)).2
      · exact hnone
    exact iff_of_true (.inl ⟨rfl, hnone⟩) (.inl rfl)
  · by_cases hjx : j = x
    · subst hjx
      -- the record is in the tree as a branch only
      have hnone : slotOf s j = none := by
        rcases slotOf_output h.rooted h.ring h.slots hx howned with ⟨a, -, -, -, hin⟩ | ⟨hnone, -⟩
        · have hj' := (mem_ids.mp hj).resolve_right hnodup.1
          exact absurd ((hrem.inner j hnodup.1).mp hj').1 hin
        · exact hnone
      exact iff_of_true (.inr (.inl ⟨rfl, hnone⟩)) (.inr (.inl rfl))
    · simp only [hjP, hjx, false_and, false_or, ne_eq, not_false_eq_true, true_and]

/-- The record is deleted with the branch of another one. -/
theorem inv_recordDeletion {o check0 : ℕ} (h : Inv s (plug (f :: k) (.leaf x)) own free lost)
    (hnew : NewSlot s slot) (hkey : s.keyOf x = key)
    (hcleared : s.cacheSize ≠ 0 → s.cache (grnPatCacheComputeId s.cacheSize key) = 0)
    (ho : o = (s.nodes f.id).lr (!f.dir)) (hcheck0 : ∀ g l, k = g :: l → check0 = g.check)
    (hne : x ≠ f.id) (hloop : ¬ SelfLoop s.nodes x) :
    ∃ t' own', Inv (counted ((keepOtherside (recordDeletion s slot x f.id) o (place k) check0
      f.check).store (place k) o)) t' own' free lost ∧
      (plug (f :: k) (.leaf x)).leaves = x ::ₘ t'.leaves ∧
      SameKeys s (counted ((keepOtherside (recordDeletion s slot x f.id) o (place k) check0
        f.check).store (place k) o)) := by
  have hin : f.id ∈ (plug (f :: k) (.leaf x)).inner :=
    mem_plug_inner.mpr (.inr (Multiset.mem_cons_self ..))
  have hlive : x ∈ (plug (f :: k) (.leaf x)).leaves :=
    mem_plug_leaves.mpr (.inl (Multiset.mem_singleton_self _))
  have howned : ∃ j ∈ (plug (f :: k) (.leaf x)).inner, own j = x := by
    by_contra hno
    push Not at hno
    exact hloop (h.rooted.disabled x hlive hno).selfLoop
  refine inv_keepOtherside h hnew hkey hcleared ho hcheck0 howned
    (.inr ⟨Ne.symm hne, hin, howned⟩) ?_ ?_ fun t' own' hrem j hj => ?_
  · exact slotsAfter_recordDeletion h.rooted h.ring h.slots hlive hin (Ne.symm hne) howned
      hnew.empty
  · refine ⟨_, _, recordDeletion_eq, fun j => ⟨?_, ?_, ?_⟩⟩
    · rw [setDeleting_key, setDeleting_key]
    · rw [setDeleting_check, setDeleting_check]
    · rw [setDeleting_lr, setDeleting_lr]
  · exact recordDeletion_deleting_iff h hlive hin (Ne.symm hne) howned hrem hj

/-- If the other side is the output of the removed branch itself, the link to it is there
already; only its check is reset. -/
theorem keepOtherside_previous {check0 : ℕ} (h : Rooted s.nodes s.words (plug (f :: k) (.leaf x)) own)
    (howned : ∃ j ∈ (plug (f :: k) (.leaf x)).inner, own j = x) (hne : x ≠ f.id)
    (ho : f.id = (s.nodes f.id).lr (!f.dir)) (hcheck0 : ∀ g l, k = g :: l → check0 = g.check) :
    place k ≠ .root ∧ (keepOtherside s f.id (place k) check0 f.check).store (place k) f.id =
      s.setCheck f.id 0 := by
  obtain ⟨⟨hid0, hcheck, hlink, hsib, haround⟩, -⟩ := linked_plug.mp h.linked
  obtain ⟨⟨hlo, -⟩, -, -⟩ := wf_plug.mp h.wf
  have hin : f.id ∈ (plug (f :: k) (.leaf x)).inner :=
    mem_plug_inner.mpr (.inr (Multiset.mem_cons_self ..))
  -- the other side is the output of the branch
  have hs : f.sib = .leaf f.id := by
    rw [← ho] at hsib
    cases hs : f.sib with
    | nil =>
      rw [hs] at hsib
      exact absurd hsib hid0
    | leaf i =>
      rw [hs] at hsib
      rw [hsib.1]
    | node i c child =>
      rw [hs] at hsib
      have hnodup := h.inner_nodup
      rw [inner_plug, inner_leaf, zero_add, innerBeside, Multiset.nodup_cons, Multiset.mem_add,
        not_or] at hnodup
      refine absurd ?_ hnodup.1.1
      rw [hs, hsib.1]
      exact Multiset.mem_cons_self ..
  rcases k with _ | ⟨g, k⟩
  · -- at the root the record would own nothing
    obtain ⟨j, hj, hjx⟩ := howned
    have hlive : f.id ∈ (plug [f] (.leaf x)).leaves := by
      refine mem_plug_leaves.mpr (.inr (mem_leavesBeside_cons.mpr (.inl ?_)))
      rw [hs]
      exact Multiset.mem_singleton_self _
    rw [inner_plug, innerBeside, hs] at hj
    obtain rfl : j = f.id := by simpa [innerBeside] using hj
    exact absurd (hjx.symm.trans (h.own_self _ hin hlive)) hne
  · have hroot : place (g :: k) ≠ .root := fun hp => haround.1 (congrArg Loc.node hp)
    have hlt : check0 < (s.nodes f.id).check ∧ (s.nodes f.id).check ≤ f.check := by
      rw [hcheck0 g k rfl, hcheck]
      exact ⟨Int.ofNat_lt.mp hlo, le_rfl⟩
    have hreset : resetCheck s f.id check0 f.check = s.setCheck f.id 0 := if_pos hlt
    refine ⟨hroot, ?_⟩
    rw [keepOtherside_eq hid0, hreset, if_neg fun hp => hroot hp.1]
    refine store_of_load ?_
    rw [GrnPat.load, setCheck_lr]
    exact hlink

/-- The check of the node above the branch, as a `uint16_t`. -/
def checkAbove (k : List (Frame ℕ)) : ℕ :=
  if lastCheck k < 0 then 65535 else (lastCheck k).toNat

theorem checkAbove_cons {g : Frame ℕ} {l : List (Frame ℕ)} (hk : k = g :: l) :
    checkAbove k = g.check := by
  subst hk
  have hlast : lastCheck (g :: l) = g.check := rfl
  rw [checkAbove, hlast, if_neg (not_lt.mpr (Int.natCast_nonneg _)), Int.toNat_natCast]

/-- The three cases of `grn_pat_del_internal`. -/
theorem grnPatDelInternal_eq {o : ℕ} : grnPatDelInternal s slot x o (delStateAt (f :: k)) =
    counted (
      if x = f.id then
        (keepOtherside (s.setDelinfo slot ⟨x, (s.delinfos slot).ld, .phase2⟩) o (place k)
          (checkAbove k) f.check).store (place k) o
      else if SelfLoop s.nodes x then
        (s.setDelinfo slot ⟨x, (s.delinfos slot).ld, .phase2⟩).store (place (f :: k)) 0
      else if f.id = o then
        if place k = .root then becomeFirst ((recordDeletion s slot x f.id).setCheck o 0) o
        else (recordDeletion s slot x f.id).setCheck o 0
      else
        (keepOtherside (recordDeletion s slot x f.id) o (place k) (checkAbove k) f.check).store
          (place k) o) := rfl

/-- **`grn_pat_del_internal`** keeps the invariant, and deletes the record. -/
theorem grnPatDelInternal_spec {o : ℕ} (h : Inv s (plug (f :: k) (.leaf x)) own free lost)
    (hnew : NewSlot s slot) (hkey : s.keyOf x = key)
    (hcleared : s.cacheSize ≠ 0 → s.cache (grnPatCacheComputeId s.cacheSize key) = 0)
    (ho : o = (s.nodes f.id).lr (!f.dir)) :
    ∃ t' own', Inv (grnPatDelInternal s slot x o (delStateAt (f :: k))) t' own' free lost ∧
      (plug (f :: k) (.leaf x)).leaves = x ::ₘ t'.leaves ∧
      SameKeys s (grnPatDelInternal s slot x o (delStateAt (f :: k))) := by
  have hcheck0 : ∀ g l, k = g :: l → checkAbove k = g.check := fun g l hk => checkAbove_cons hk
  rw [grnPatDelInternal_eq]
  by_cases hne : x = f.id
  · rw [if_pos hne]
    subst hne
    exact inv_selfLoop h hnew hkey hcleared ho hcheck0
  · rw [if_neg hne]
    by_cases hloop : SelfLoop s.nodes x
    · rw [if_pos hloop]
      exact inv_disabled h hnew hkey hcleared hne hloop
    · rw [if_neg hloop]
      by_cases hfo : f.id = o
      · -- only the check of the other side has to be reset
        have hlive : x ∈ (plug (f :: k) (.leaf x)).leaves :=
          mem_plug_leaves.mpr (.inl (Multiset.mem_singleton_self _))
        have howned : ∃ j ∈ (plug (f :: k) (.leaf x)).inner, own j = x := by
          by_contra hno
          push Not at hno
          exact hloop (h.rooted.disabled x hlive hno).selfLoop
        have hsame : SameKeys s (recordDeletion s slot x f.id) := by
          rw [recordDeletion_eq]
          exact ⟨rfl, rfl, rfl, rfl, rfl, rfl, fun j => by rw [setDeleting_key, setDeleting_key]⟩
        have hlr : ∀ j, ((recordDeletion s slot x f.id).nodes j).lr = (s.nodes j).lr := by
          intro j
          rw [recordDeletion_eq]
          simp only [setDeleting_lr]
        have hrooted : Rooted (recordDeletion s slot x f.id).nodes
            (recordDeletion s slot x f.id).words (plug (f :: k) (.leaf x)) own := by
          rw [hsame.words_eq]
          refine h.rooted.congr (congrFun (hlr 0) true) (fun j _ => ?_) fun j _ => hlr j
          rw [recordDeletion_eq]
          simp only [setDeleting_check]
        obtain ⟨hroot, hkeep⟩ := keepOtherside_previous hrooted howned hne
          (by rw [hlr, ← ho, hfo]) hcheck0
        rw [if_pos hfo, if_neg hroot, ← hfo, ← hkeep]
        exact inv_recordDeletion h hnew hkey hcleared (hfo.trans ho) hcheck0 hne hloop
      · rw [if_neg hfo]
        exact inv_recordDeletion h hnew hkey hcleared ho hcheck0 hne hloop

/-! ## The operation -/

/-- What a deletion does to the live records. -/
inductive Deleted (s : GrnPat) (t : Trie ℕ) (key : List UInt8) (t' : Trie ℕ) : Bool → Prop
  | missing (hno : ∀ j ∈ t.leaves, s.keyOf j ≠ key) (hleaves : t'.leaves = t.leaves) :
      Deleted s t key t' false
  | gone (i : ℕ) (hkey : s.keyOf i = key) (hleaves : t.leaves = i ::ₘ t'.leaves) :
      Deleted s t key t' true

/-- The links of a branch to a leaf and to its other side are different. -/
theorem Rooted.lr_ne {nodes : ℕ → Node} {w : ℕ → Word}
    (h : Rooted nodes w (plug (f :: k) (.leaf x)) own) :
    (nodes f.id).lr (!f.dir) ≠ x := by
  obtain ⟨⟨-, -, -, hsib, -⟩, hx, hx0, -⟩ := linked_plug.mp h.linked
  obtain ⟨⟨-, -, hside, -⟩, -, hfits⟩ := wf_plug.mp h.wf
  have hbit := (hfits x (mem_ids_leaf.mpr rfl) f (List.mem_cons_self ..)).bit
  have hmem : x ∉ f.sib.ids := by
    intro hmem
    rw [(hside x hmem).2.2] at hbit
    exact Bool.not_ne_self _ hbit
  intro heq
  rw [heq] at hsib
  cases hs : f.sib with
  | nil =>
    rw [hs] at hsib
    exact hx0 hsib
  | leaf i =>
    rw [hs] at hsib hmem
    exact hmem (mem_ids_leaf.mpr hsib.1)
  | node i c child =>
    rw [hs] at hsib hmem
    exact hmem (mem_ids_node.mpr (.inl hsib.1))

/-- What `_grn_pat_del` does after its search. -/
def delAt (s : GrnPat) (key : List UInt8) (slot : ℕ) : Option DelState → Option (GrnPat × Bool)
  | none => some (s, false)
  | some st =>
    let id := s.load st.p
    let previous := s.nodes st.nodePrevious
    if previous.lr false = previous.lr true then none
    else
      let otherside := if previous.lr true = id then previous.lr false else previous.lr true
      some (grnPatDelInternal (s.setCache key 0) slot id otherside st, true)

theorem setCache_cleared : (s.setCache key 0).cacheSize ≠ 0 →
    (s.setCache key 0).cache (grnPatCacheComputeId (s.setCache key 0).cacheSize key) = 0 := by
  unfold GrnPat.setCache
  split_ifs with hsize
  · exact fun h => absurd hsize h
  · exact fun _ => Function.update_self ..

theorem NewSlot.setCache {i : ℕ} (h : NewSlot s slot) : NewSlot (s.setCache key i) slot := by
  obtain ⟨cache, heq⟩ := @setCache_eq s key i
  rw [heq]
  exact ⟨h.empty, h.lt, h.used, h.phase1⟩

/-- The record that the search has found is deleted. -/
theorem delAt_found (h : Inv s (plug (f :: k) (.leaf x)) own free lost) (hnew : NewSlot s slot)
    (hkey : s.keyOf x = key) :
    ∃ s' t' own', delAt s key slot (some (delStateAt (f :: k))) = some (s', true) ∧
      Inv s' t' own' free lost ∧ (plug (f :: k) (.leaf x)).leaves = x ::ₘ t'.leaves ∧
      s'.keyOf = s.keyOf := by
  subst hkey
  have hload : s.load (delStateAt (f :: k)).p = x := h.rooted.lr_dir
  have hprev : (delStateAt (f :: k)).nodePrevious = f.id := rfl
  have hdir : (s.nodes f.id).lr f.dir = x := hload
  have hne := h.rooted.lr_ne
  have hside : (if (s.nodes f.id).lr true = x then (s.nodes f.id).lr false
      else (s.nodes f.id).lr true) = (s.nodes f.id).lr (!f.dir) := by
    revert hdir hne
    cases f.dir
    · exact fun _ hne => if_neg hne
    · exact fun hdir _ => if_pos hdir
  have hdiff : ¬ (s.nodes f.id).lr false = (s.nodes f.id).lr true := by
    revert hdir hne
    cases f.dir
    · exact fun hdir hne heq => hne (heq.symm.trans hdir)
    · exact fun hdir hne heq => hne (heq.trans hdir)
  obtain ⟨t', own', hinv, hleaves, hsame⟩ := grnPatDelInternal_spec (h.setCache (.inl rfl))
    hnew.setCache (by rw [setCache_keyOf]) setCache_cleared rfl
  refine ⟨_, t', own', ?_, hinv, hleaves, by rw [hsame.keyOf_eq, setCache_keyOf]⟩
  simp only [delAt, hload, hprev]
  rw [if_neg hdiff, hside, setCache_nodes]

theorem _grnPatDel_eq {s₁ : GrnPat} (h : delinfoNew s = some (s₁, slot)) : _grnPatDel s key =
    (delLoop s₁ key (key.length * 16) (key.length * 16 + 2) (delStateAt [])).bind
      (delAt s₁ key slot) := by
  unfold _grnPatDel
  rw [h, patCheckPack_length]
  simp only [Option.bind_eq_bind, Option.bind_some]
  refine Option.bind_congr fun r _ => ?_
  cases r with
  | none => rfl
  | some st => rfl

/-- **Deletion never fails and keeps the invariant.** -/
theorem _grnPatDel_spec (h : Inv s t own free lost) :
    ∃ s' b t' own' free', _grnPatDel s key = some (s', b) ∧ Inv s' t' own' free' lost ∧
      Deleted s t key t' b ∧ s'.keyOf = s.keyOf := by
  obtain ⟨s₁, t₁, own₁, free₁, hdelinfo, hinv, hleaves, hsame, hnew⟩ := delinfoNew_spec h
  have hlen : lastCheck ([] : List (Frame ℕ)) < (key.length * 16 : ℕ) :=
    Int.negSucc_lt_zero 0 |>.trans_le (Int.natCast_nonneg _)
  have hloop := delLoop_eq (k := []) hinv.rooted.linked hinv.rooted.wf hlen (enoughFuel_start _)
  have hplug := plug_descend (word key) [] t₁
  have hleaf : ∀ i ∈ t₁.leaves, s₁.keyOf i = key → (descend (word key) [] t₁).2 = .leaf i := by
    rintro i hi rfl
    exact descend_leaf hinv.rooted.wf hi
  rw [_grnPatDel_eq hdelinfo, hloop, Option.bind_some]
  generalize descend (word key) [] t₁ = r at hplug hleaf
  obtain ⟨k, t₂⟩ := r
  rw [plug_nil] at hplug
  simp only at hplug hleaf
  have hmissing : delFoundAt s₁ key (k, t₂) = none → (∀ i ∈ t₁.leaves, s₁.keyOf i ≠ key) →
      ∃ s' b t' own' free', delAt s₁ key s.currDel (delFoundAt s₁ key (k, t₂)) = some (s', b) ∧
        Inv s' t' own' free' lost ∧ Deleted s t key t' b ∧ s'.keyOf = s.keyOf := by
    intro hnone hno
    rw [hnone]
    refine ⟨s₁, false, t₁, own₁, free₁, rfl, hinv, .missing (fun j hj => ?_) hleaves,
      hsame.keyOf_eq⟩
    rw [← hsame.keyOf_eq]
    exact hno j (by rwa [hleaves])
  cases t₂ with
  | nil => exact hmissing rfl fun i hi hik => (by cases hleaf i hi hik)
  | node i c child => exact hmissing rfl fun i hi hik => (by cases hleaf i hi hik)
  | leaf x =>
    by_cases hx : s₁.keyOf x = key
    · subst hplug
      rw [delFoundAt, if_pos hx]
      rcases k with _ | ⟨f, k⟩
      · -- the first node is a branch
        obtain ⟨-, -, hlo⟩ := hinv.rooted.linked
        exact absurd hlo (not_le.mpr (Int.negSucc_lt_zero 0 |>.trans_le (Int.natCast_nonneg _)))
      · obtain ⟨s', t', own', hdel, hinv', hleaves', hkeyOf⟩ := delAt_found hinv hnew hx
        refine ⟨s', true, t', own', free₁, hdel, hinv', .gone x ?_ ?_,
          hkeyOf.trans hsame.keyOf_eq⟩
        · rw [← hsame.keyOf_eq]
          exact hx
        · rw [← hleaves, hleaves']
    · refine hmissing (if_neg hx) fun i hi hik => hx ?_
      obtain rfl := Trie.leaf.inj (hleaf i hi hik)
      exact hik

end Groonga.Pat
