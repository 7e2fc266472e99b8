import Groonga.Pat.Pending
import Groonga.Pat.Remove

/-!
# Recording a deletion

A deleted record whose branch is elsewhere gets a slot in phase 1: its branch stays in
the tree until the owner takes it over. If the record was itself to take over the branch
of a deleted one, or if the branch that is removed belongs to a deleted one, the slots of
those are changed as well.
-/

namespace Groonga.Pat

open Lib.Patricia Lib.Patricia.Trie

variable {s s' : GrnPat} {t t' : Trie ℕ} {own own' : ℕ → ℕ} {x P slot n : ℕ}

/-! ## Searching the ring -/

/-- The slot is one of a pending deletion that concerns the node. -/
def Concerns (s : GrnPat) (id n : ℕ) : Prop :=
  (s.delinfos n).stat = .phase1 ∧ ((s.delinfos n).ld = id ∨ (s.delinfos n).d = id)

theorem searchLoop_eq {id : ℕ} (hcd : s.currDel < 256) (hn : Concerns s id n) (hlt : n < 256)
    (huniq : ∀ m, Concerns s id m → m = n) : ∀ fuel i, i < 256 → (n + 256 - i) % 256 < fuel →
      (n + 256 - i) % 256 < (s.currDel + 256 - i) % 256 → searchLoop s id fuel i = some n := by
  intro fuel
  induction fuel with
  | zero => exact fun i _ h => absurd h (Nat.not_lt_zero _)
  | succ fuel ih =>
    intro i hi hfuel hahead
    have hne : i ≠ s.currDel := by
      rintro rfl
      simp at hahead
    rw [searchLoop, if_neg hne]
    simp only
    split_ifs with hif
    · rw [huniq i hif]
    · have hin : i ≠ n := by
        rintro rfl
        exact hif hn
      refine ih _ (Nat.mod_lt _ (by decide)) ?_ ?_
      · simp only [nDelinfos]
        omega
      · simp only [nDelinfos]
        omega

/-- **`delinfo_search` finds the slot** if there is only one. -/
theorem delinfoSearch_eq {id : ℕ} (h : Ring s) (hn : Concerns s id n)
    (huniq : ∀ m, Concerns s id m → m = n) : delinfoSearch s id = some n := by
  have hlt := h.lt n (by rw [hn.1]; exact Stat.noConfusion)
  have h2 : s.currDel2 % nDelinfos = s.currDel2 := Nat.mod_eq_of_lt h.del2_lt
  rw [delinfoSearch, h2]
  exact searchLoop_eq h.del_lt hn hlt huniq _ _ h.del2_lt (Nat.mod_lt _ (by decide)) (h.phase1 n hn.1)

/-- The slot that `grn_pat_del_internal` looks for. -/
def slotOf (s : GrnPat) (id : ℕ) : Option ℕ :=
  if (s.nodes id).deleting then delinfoSearch s id else none

/-- A live record that owns a branch: the branch of a deleted record, or its own. -/
theorem slotOf_output (hrooted : Rooted s.nodes s.words t own) (hring : Ring s)
    (hslots : Slots s.nodes s.delinfos t own) (hx : x ∈ t.leaves)
    (howned : ∃ j ∈ t.inner, own j = x) :
    (∃ a, slotOf s x = some a ∧ (s.delinfos a).stat = .phase1 ∧ (s.delinfos a).ld = x ∧
      x ∉ t.inner) ∨ (slotOf s x = none ∧ x ∈ t.inner) := by
  obtain ⟨j, hj, hjx⟩ := howned
  have hld : ∀ m, Concerns s x m → (s.delinfos m).ld = x ∧ (s.delinfos m).d = j := by
    rintro m ⟨hm, hmx⟩
    obtain ⟨h1, h2, h3⟩ := hslots.phase1 m hm
    have hld : (s.delinfos m).ld = x := hmx.resolve_right fun hd => h2 (hd ▸ hx)
    exact ⟨hld, hrooted.own_inj _ h1 j hj (by rw [h3, hld, hjx])⟩
  have hids : x ∈ t.ids := mem_ids.mpr (.inr hx)
  by_cases hlive : j ∈ t.leaves
  · right
    obtain rfl : j = x := (hrooted.own_self j hj hlive).symm.trans hjx
    refine ⟨if_neg fun hdel => ?_, hj⟩
    obtain ⟨m, hm, hmx⟩ := (hslots.deleting j hids).mp hdel
    exact (hslots.phase1 m hm).2.1 ((hld m ⟨hm, hmx⟩).2 ▸ hx)
  · left
    obtain ⟨a, ha, haj⟩ := hslots.dead j hj hlive
    have hax : (s.delinfos a).ld = x := by rw [← (hslots.phase1 a ha).2.2, haj, hjx]
    have hdel : (s.nodes x).deleting = true := (hslots.deleting x hids).mpr ⟨a, ha, .inl hax⟩
    refine ⟨a, ?_, ha, hax, fun hin => hlive ?_⟩
    · rw [slotOf, if_pos hdel]
      refine delinfoSearch_eq hring ⟨ha, .inl hax⟩ fun m hm => ?_
      refine hslots.d_inj m a ?_ ?_ ((hld m hm).2.trans haj.symm)
      · rw [hm.1]
        exact Stat.noConfusion
      · rw [ha]
        exact Stat.noConfusion
    · rw [hrooted.own_inj j hj x hin (hjx.trans (hrooted.own_self x hin hx).symm)]
      exact hx

/-- A branch: that of a deleted record, or of a live one. -/
theorem slotOf_branch (hrooted : Rooted s.nodes s.words t own) (hring : Ring s)
    (hslots : Slots s.nodes s.delinfos t own) (hP : P ∈ t.inner) :
    (∃ b, slotOf s P = some b ∧ (s.delinfos b).stat = .phase1 ∧ (s.delinfos b).d = P ∧
      P ∉ t.leaves) ∨ (slotOf s P = none ∧ P ∈ t.leaves) := by
  -- a node that is to take over a branch has none
  have hd : ∀ m, Concerns s P m → (s.delinfos m).d = P := by
    rintro m ⟨hm, hmP⟩
    obtain ⟨h1, h2, h3⟩ := hslots.phase1 m hm
    refine hmP.resolve_left fun hld => hrooted.own_not_inner h1 h2 ?_
    rw [h3, hld]
    exact hP
  have hids : P ∈ t.ids := mem_ids.mpr (.inl hP)
  by_cases hlive : P ∈ t.leaves
  · right
    refine ⟨if_neg fun hdel => ?_, hlive⟩
    obtain ⟨m, hm, hmP⟩ := (hslots.deleting P hids).mp hdel
    exact (hslots.phase1 m hm).2.1 (hd m ⟨hm, hmP⟩ ▸ hlive)
  · left
    obtain ⟨b, hb, hbP⟩ := hslots.dead P hP hlive
    have hdel : (s.nodes P).deleting = true := (hslots.deleting P hids).mpr ⟨b, hb, .inr hbP⟩
    refine ⟨b, ?_, hb, hbP, hlive⟩
    rw [slotOf, if_pos hdel]
    refine delinfoSearch_eq hring ⟨hb, .inr hbP⟩ fun m hm => ?_
    refine hslots.d_inj m b ?_ ?_ ((hd m hm).trans hbP.symm)
    · rw [hm.1]
      exact Stat.noConfusion
    · rw [hb]
      exact Stat.noConfusion

/-! ## The slots after a deletion -/

/-- A branch whose record is deleted. -/
def Dead (t : Trie ℕ) (j : ℕ) : Prop := j ∈ t.inner ∧ j ∉ t.leaves

/-- The nodes that the slots of phase 1 concern: deleted branches and their owners. -/
theorem concerns_iff {delinfos : ℕ → Delinfo} {j : ℕ}
    (hphase1 : ∀ n, (delinfos n).stat = .phase1 → (delinfos n).d ∈ t.inner ∧
      (delinfos n).d ∉ t.leaves ∧ own (delinfos n).d = (delinfos n).ld)
    (hdead : ∀ j ∈ t.inner, j ∉ t.leaves → ∃ n, (delinfos n).stat = .phase1 ∧ (delinfos n).d = j) :
    (∃ n, (delinfos n).stat = .phase1 ∧ ((delinfos n).ld = j ∨ (delinfos n).d = j)) ↔
      Dead t j ∨ ∃ i, Dead t i ∧ own i = j := by
  constructor
  · rintro ⟨n, hn, hld | hd⟩
    · obtain ⟨h1, h2, h3⟩ := hphase1 n hn
      exact .inr ⟨_, ⟨h1, h2⟩, h3.trans hld⟩
    · obtain ⟨h1, h2, -⟩ := hphase1 n hn
      exact .inl (hd ▸ ⟨h1, h2⟩)
  · rintro (⟨h1, h2⟩ | ⟨i, ⟨h1, h2⟩, h3⟩)
    · obtain ⟨n, hn, hd⟩ := hdead j h1 h2
      exact ⟨n, hn, .inr hd⟩
    · obtain ⟨n, hn, hd⟩ := hdead i h1 h2
      exact ⟨n, hn, .inl (by rw [← (hphase1 n hn).2.2, hd, h3])⟩

/-- The slots after the record `x` is deleted and the branch `P` is removed. -/
structure SlotsAfter (delinfos delinfos' : ℕ → Delinfo) (t : Trie ℕ) (own : ℕ → ℕ)
    (slot x P : ℕ) : Prop where
  d_ne : ∀ m, m ≠ slot → (delinfos' m).d = (delinfos m).d
  d_slot : (delinfos' slot).d = x
  stat_ne : ∀ m, m ≠ slot → (delinfos' m).stat =
    if (delinfos m).stat = .phase1 ∧ (delinfos m).d = P then .phase2 else (delinfos m).stat
  stat_slot : (delinfos' slot).stat = if x ∈ t.inner ∧ x ≠ P then .phase1 else .phase2
  ld : ∀ m, (delinfos' m).stat = .phase1 → (delinfos' m).ld = passOn own x P (delinfos' m).d

namespace SlotsAfter

variable {delinfos delinfos' : ℕ → Delinfo}

/-- A slot in phase 1 is the new one, or an old one of another branch. -/
theorem phase1_iff (h : SlotsAfter delinfos delinfos' t own slot x P) {m : ℕ}
    (hslot : (delinfos slot).stat = .empty) : (delinfos' m).stat = .phase1 ↔
      (m = slot ∧ x ∈ t.inner ∧ x ≠ P) ∨ ((delinfos m).stat = .phase1 ∧ (delinfos m).d ≠ P) := by
  by_cases hm : m = slot
  · subst hm
    rw [h.stat_slot, hslot]
    split_ifs with hif
    · exact iff_of_true rfl (.inl ⟨rfl, hif⟩)
    · refine iff_of_false id ?_
      rintro (⟨-, hin⟩ | ⟨hstat, -⟩)
      · exact hif hin
      · cases hstat
  · rw [h.stat_ne m hm]
    split_ifs with hif
    · refine iff_of_false id ?_
      rintro (⟨rfl, -⟩ | ⟨-, hne⟩)
      · exact hm rfl
      · exact hne hif.2
    · constructor
      · exact fun hstat => .inr ⟨hstat, fun hd => hif ⟨hstat, hd⟩⟩
      · rintro (⟨rfl, -⟩ | ⟨hstat, -⟩)
        · exact absurd rfl hm
        · exact hstat

theorem used_iff (h : SlotsAfter delinfos delinfos' t own slot x P) {m : ℕ} (hm : m ≠ slot) :
    (delinfos' m).stat ≠ .empty ↔ (delinfos m).stat ≠ .empty := by
  rw [h.stat_ne m hm]
  split_ifs with hif
  · rw [hif.1]
    exact iff_of_true Stat.noConfusion Stat.noConfusion
  · rfl

theorem slot_used (h : SlotsAfter delinfos delinfos' t own slot x P) :
    (delinfos' slot).stat ≠ .empty := by
  rw [h.stat_slot]
  split_ifs <;> exact Stat.noConfusion

/-- The deleted record is pending, and all others that were. -/
theorem pending_iff (h : SlotsAfter delinfos delinfos' t own slot x P)
    (hslot : (delinfos slot).stat = .empty) (i : ℕ) :
    Pending delinfos' i ↔ Pending delinfos i ∨ i = x := by
  constructor
  · rintro ⟨m, hm, rfl⟩
    by_cases hms : m = slot
    · right
      rw [hms, h.d_slot]
    · left
      exact ⟨m, (h.used_iff hms).mp hm, (h.d_ne m hms).symm⟩
  · rintro (⟨m, hm, rfl⟩ | rfl)
    · have hms : m ≠ slot := by
        rintro rfl
        exact hm hslot
      exact ⟨m, (h.used_iff hms).mpr hm, h.d_ne m hms⟩
    · exact ⟨slot, h.slot_used, h.d_slot⟩

end SlotsAfter

/-- How the removed branch and the deleted record belong together: it is the branch of
the record itself, or another one, and then the record owns a branch. -/
def BranchOf (t : Trie ℕ) (own : ℕ → ℕ) (x P : ℕ) : Prop :=
  (P = x ∧ ∀ i ∈ t.inner, own i = x → i = x) ∨
    (P ≠ x ∧ P ∈ t.inner ∧ ∃ j ∈ t.inner, own j = x)

section Remove

variable {nodes nodes' : ℕ → Node} {w : ℕ → Word}

theorem dead_remove_iff (h : Rooted nodes w t own) (hrem : Removes t t' own own' x P) {j : ℕ} :
    Dead t' j ↔ (Dead t j ∨ j = x ∧ x ∈ t.inner) ∧ j ≠ P := by
  have hnodup := h.leaves_nodup
  rw [hrem.leaves, Multiset.nodup_cons] at hnodup
  unfold Dead
  rw [hrem.leaves, Multiset.mem_cons, not_or]
  by_cases hj : j ∈ t'.leaves
  · have hjx : j ≠ x := fun hjx => hnodup.1 (hjx ▸ hj)
    simp only [hj, hjx, not_true_eq_false, and_false, false_and, or_false]
  · rw [hrem.inner j hj]
    by_cases hjx : j = x
    · subst hjx
      simp only [hj, not_false_eq_true, and_true, not_true_eq_false, and_false, true_and, false_or]
    · simp only [hj, hjx, not_false_eq_true, and_true, false_and, or_false]

/-- A deleted branch that the record owned goes to the owner of the removed branch. -/
theorem exists_dead_of_owner (h : Rooted nodes w t own) (hrem : Removes t t' own own' x P)
    (hP : P ≠ x) (howned : ∃ j ∈ t.inner, own j = x) (hne : own P ≠ x) :
    ∃ i, Dead t' i ∧ own' i = own P := by
  obtain ⟨j, hj, hjx⟩ := howned
  have hnodup := h.leaves_nodup
  rw [hrem.leaves, Multiset.nodup_cons] at hnodup
  have hlive : j ∉ t'.leaves := by
    intro hjl
    have hjl' : j ∈ t.leaves := by
      rw [hrem.leaves]
      exact Multiset.mem_cons_of_mem hjl
    rw [h.own_self j hj hjl'] at hjx
    exact hnodup.1 (hjx ▸ hjl)
  have hjP : j ≠ P := by
    rintro rfl
    exact hne hjx
  have hin : j ∈ t'.inner := (hrem.inner j hlive).mpr ⟨hj, hjP⟩
  exact ⟨j, ⟨hin, hlive⟩, by rw [hrem.own j hin hlive, passOn_of_eq hjx]⟩

/-- The nodes that the slots concern after a deletion. -/
theorem deleting_remove_iff (h : Rooted nodes w t own) (hrem : Removes t t' own own' x P)
    (hP : BranchOf t own x P) {j : ℕ} (hj : j ∈ t'.ids) :
    (Dead t' j ∨ ∃ i, Dead t' i ∧ own' i = j) ↔
      j = P ∨ j = x ∨ (Dead t j ∨ ∃ i, Dead t i ∧ own i = j) := by
  have hdead := fun j => @dead_remove_iff t t' own own' x P nodes w h hrem j
  have hown : ∀ i, Dead t' i → own' i = passOn own x P i := fun i hi => hrem.own i hi.1 hi.2
  have hnodup := h.leaves_nodup
  rw [hrem.leaves, Multiset.nodup_cons] at hnodup
  have hx : x ∈ t.leaves := by
    rw [hrem.leaves]
    exact Multiset.mem_cons_self ..
  by_cases hjx : j = x
  · -- the record is left as a branch only
    subst hjx
    have hin := (mem_ids.mp hj).resolve_right hnodup.1
    exact iff_of_true (.inl ⟨hin, hnodup.1⟩) (.inr (.inl rfl))
  by_cases hjP : j = P
  · -- the removed branch is left as a leaf only
    subst hjP
    have hleaf : j ∈ t'.leaves := by
      by_contra hleaf
      have hin := (mem_ids.mp hj).resolve_right hleaf
      exact ((hrem.inner j hleaf).mp hin).2 rfl
    have hlive : j ∈ t.leaves := by
      rw [hrem.leaves]
      exact Multiset.mem_cons_of_mem hleaf
    obtain ⟨-, hin, howned⟩ := hP.resolve_left fun hP => hjx hP.1
    have hself := h.own_self j hin hlive
    obtain ⟨i, hi, hij⟩ := exists_dead_of_owner h hrem hjx howned (by rwa [hself])
    exact iff_of_true (.inr ⟨i, hi, hij.trans hself⟩) (.inl rfl)
  · have hdj : Dead t' j ↔ Dead t j := by
      rw [hdead]
      simp only [hjx, hjP, false_and, or_false, ne_eq, not_false_eq_true, and_true]
    simp only [hjP, hjx, false_or]
    rw [hdj]
    refine or_congr_right ⟨?_, ?_⟩
    · rintro ⟨i, hi, hij⟩
      obtain ⟨hi', hiP⟩ := (hdead i).mp hi
      rw [hown i hi] at hij
      by_cases hix : own i = x
      · -- what the record owned is owned by the owner of the removed branch
        rw [passOn_of_eq hix] at hij
        rcases hP with ⟨rfl, honly⟩ | ⟨-, hin, -⟩
        · have hini : i ∈ t.inner := by
            rcases hi' with hi' | ⟨rfl, hi'⟩
            · exact hi'.1
            · exact hi'
          exact absurd (honly i hini hix) hiP
        · refine ⟨P, ⟨hin, fun hlive => hjP ?_⟩, hij⟩
          rw [← hij, h.own_self P hin hlive]
      · rw [passOn_of_ne hix] at hij
        rcases hi' with hi' | ⟨rfl, hin⟩
        · exact ⟨i, hi', hij⟩
        · exact absurd (h.own_self i hin hx) hix
    · rintro ⟨i, hi, hij⟩
      have hix : own i ≠ x := by rwa [hij]
      by_cases hiP : i = P
      · subst hiP
        rcases hP with ⟨rfl, -⟩ | ⟨hne, -, howned⟩
        · exact absurd hx hi.2
        · obtain ⟨i', hi', hij'⟩ := exists_dead_of_owner h hrem hne howned hix
          exact ⟨i', hi', hij'.trans hij⟩
      · have hi' : Dead t' i := (hdead i).mpr ⟨.inl hi, hiP⟩
        exact ⟨i, hi', by rw [hown i hi', passOn_of_ne hix, hij]⟩

/-- **The pending deletions after a deletion.** -/
theorem Slots.remove {delinfos delinfos' : ℕ → Delinfo} (hslots : Slots nodes delinfos t own)
    (h : Rooted nodes w t own) (hrem : Removes t t' own own' x P)
    (hafter : SlotsAfter delinfos delinfos' t own slot x P)
    (hslot : (delinfos slot).stat = .empty) (hpending : ¬ Pending delinfos x)
    (hP : BranchOf t own x P)
    (hdel : ∀ j ∈ t'.ids, (nodes' j).deleting = true ↔
      j = P ∨ j = x ∨ (nodes j).deleting = true) : Slots nodes' delinfos' t' own' := by
  have hdead := fun j => @dead_remove_iff t t' own own' x P nodes w h hrem j
  have hstat := fun m => @SlotsAfter.phase1_iff t own x P slot delinfos delinfos' hafter m hslot
  have hx : x ∈ t.leaves := by
    rw [hrem.leaves]
    exact Multiset.mem_cons_self ..
  have hne : ∀ m, (delinfos m).stat ≠ .empty → m ≠ slot := by
    rintro m hm rfl
    exact hm hslot
  have hne1 : ∀ m, (delinfos m).stat = .phase1 → m ≠ slot := fun m hm =>
    hne m (by rw [hm]; exact Stat.noConfusion)
  have hphase1 : ∀ m, (delinfos' m).stat = .phase1 → Dead t' (delinfos' m).d := by
    intro m hm
    rcases (hstat m).mp hm with ⟨rfl, hin, hxP⟩ | ⟨hm', hmP⟩
    · rw [hafter.d_slot, hdead]
      exact ⟨.inr ⟨rfl, hin⟩, hxP⟩
    · rw [hafter.d_ne m (hne1 m hm'), hdead]
      obtain ⟨h1, h2, -⟩ := hslots.phase1 m hm'
      exact ⟨.inl ⟨h1, h2⟩, hmP⟩
  have hphase1' : ∀ m, (delinfos' m).stat = .phase1 → (delinfos' m).d ∈ t'.inner ∧
      (delinfos' m).d ∉ t'.leaves ∧ own' (delinfos' m).d = (delinfos' m).ld := by
    intro m hm
    obtain ⟨h1, h2⟩ := hphase1 m hm
    exact ⟨h1, h2, by rw [hafter.ld m hm, hrem.own _ h1 h2]⟩
  have hdead' : ∀ j ∈ t'.inner, j ∉ t'.leaves →
      ∃ m, (delinfos' m).stat = .phase1 ∧ (delinfos' m).d = j := by
    intro j hj hjl
    obtain ⟨hd | ⟨rfl, hin⟩, hjP⟩ := (hdead j).mp ⟨hj, hjl⟩
    · obtain ⟨m, hm, hmj⟩ := hslots.dead j hd.1 hd.2
      exact ⟨m, (hstat m).mpr (.inr ⟨hm, hmj ▸ hjP⟩), (hafter.d_ne m (hne1 m hm)).trans hmj⟩
    · exact ⟨slot, (hstat slot).mpr (.inl ⟨rfl, hin, hjP⟩), hafter.d_slot⟩
  have hids : ∀ j ∈ t'.ids, j ∈ t.ids := by
    intro j hj
    by_cases hjl : j ∈ t'.leaves
    · refine mem_ids.mpr (.inr ?_)
      rw [hrem.leaves]
      exact Multiset.mem_cons_of_mem hjl
    · exact mem_ids.mpr (.inl ((hrem.inner j hjl).mp ((mem_ids.mp hj).resolve_right hjl)).1)
  refine ⟨hphase1', hdead', fun m hm hin => ?_, fun a b ha hb hab => ?_, fun j hj => ?_⟩
  · -- a slot in phase 2 is of a node that is not in the tree
    by_cases hms : m = slot
    · rw [hms, hafter.d_slot] at hin
      have hxl : x ∉ t'.leaves := by
        have hnodup := h.leaves_nodup
        rw [hrem.leaves, Multiset.nodup_cons] at hnodup
        exact hnodup.1
      have hx' := (hrem.inner x hxl).mp ((mem_ids.mp hin).resolve_right hxl)
      rw [hms, hafter.stat_slot, if_pos hx'] at hm
      cases hm
    · rw [hafter.d_ne m hms] at hin
      rw [hafter.stat_ne m hms] at hm
      split_ifs at hm with hif
      · obtain ⟨-, hl, -⟩ := hslots.phase1 m hif.1
        have hl' : (delinfos m).d ∉ t'.leaves := fun hl' => hl (by
          rw [hrem.leaves]
          exact Multiset.mem_cons_of_mem hl')
        exact ((hrem.inner _ hl').mp ((mem_ids.mp hin).resolve_right hl')).2 hif.2
      · exact hslots.phase2 m hm (hids _ hin)
  · have hdm : ∀ m, (delinfos' m).stat ≠ .empty → m ≠ slot → (delinfos' m).d ≠ x := by
      intro m hm hms hmx
      rw [hafter.d_ne m hms] at hmx
      exact hpending ⟨m, (hafter.used_iff hms).mp hm, hmx⟩
    by_cases has : a = slot <;> by_cases hbs : b = slot
    · exact has.trans hbs.symm
    · rw [has, hafter.d_slot] at hab
      exact absurd hab.symm (hdm b hb hbs)
    · rw [hbs, hafter.d_slot] at hab
      exact absurd hab (hdm a ha has)
    · rw [hafter.d_ne a has, hafter.d_ne b hbs] at hab
      exact hslots.d_inj a b ((hafter.used_iff has).mp ha) ((hafter.used_iff hbs).mp hb) hab
  · rw [hdel j hj, concerns_iff hphase1' hdead', deleting_remove_iff h hrem hP hj,
      hslots.deleting j (hids j hj), concerns_iff hslots.phase1 hslots.dead]

end Remove

/-! ## What is recorded -/

/-- The slots as `recordDeletion` changes them, for the slots that it has found. -/
structure Recorded (delinfos delinfos' : ℕ → Delinfo) (slot x y : ℕ) (ldi ddi : Option ℕ) :
    Prop where
  d_ne : ∀ m, m ≠ slot → (delinfos' m).d = (delinfos m).d
  stat_ne : ∀ m, m ≠ slot → (delinfos' m).stat =
    if ddi = some m then .phase2 else (delinfos m).stat
  ld_ne : ∀ m, m ≠ slot → ddi ≠ some m → (delinfos' m).ld =
    if ldi = some m then y else (delinfos m).ld
  d_slot : (delinfos' slot).d = x
  stat_slot : (delinfos' slot).stat = if ldi = none then .phase1 else .phase2
  ld_slot : ldi = none → (delinfos' slot).ld = y

/-- One more slot on top of the others. -/
theorem Recorded.of_update {delinfos delinfos' : ℕ → Delinfo} {y : ℕ} {ldi ddi : Option ℕ}
    {di : Delinfo}
    (hd : ∀ m, (delinfos' m).d = (delinfos m).d)
    (hstat : ∀ m, (delinfos' m).stat = if ddi = some m then .phase2 else (delinfos m).stat)
    (hld : ∀ m, ddi ≠ some m → (delinfos' m).ld = if ldi = some m then y else (delinfos m).ld)
    (hdi : di.d = x) (hdi' : di.stat = if ldi = none then .phase1 else .phase2)
    (hdi'' : ldi = none → di.ld = y) :
    Recorded delinfos (Function.update delinfos' slot di) slot x y ldi ddi where
  d_ne := fun m hm => by rw [Function.update_of_ne hm, hd]
  stat_ne := fun m hm => by rw [Function.update_of_ne hm, hstat]
  ld_ne := fun m hm hne => by rw [Function.update_of_ne hm, hld m hne]
  d_slot := by rw [Function.update_self, hdi]
  stat_slot := by rw [Function.update_self, hdi']
  ld_slot := fun hnone => by rw [Function.update_self, hdi'' hnone]

/-- The new owner of what the record owned. -/
theorem recorded_recordDeletion {y : ℕ} (hlive : slotOf s P = none → y = P)
    (hdead : ∀ b, slotOf s P = some b → y = (s.delinfos b).ld) :
    Recorded s.delinfos (recordDeletion s slot x P).delinfos slot x y (slotOf s x) (slotOf s P) := by
  have hldi : (if (s.nodes x).deleting then delinfoSearch s x else none) = slotOf s x := rfl
  have hddi : (if (s.nodes P).deleting then delinfoSearch s P else none) = slotOf s P := rfl
  unfold recordDeletion
  simp only [hldi, hddi]
  cases hl : slotOf s x with
  | none =>
    cases hd : slotOf s P with
    | none =>
      refine Recorded.of_update (fun _ => rfl) (fun m => (if_neg (Option.some_ne_none _).symm).symm)
        (fun m _ => (if_neg (Option.some_ne_none _).symm).symm) rfl rfl fun _ => (hlive hd).symm
    | some b =>
      refine Recorded.of_update (fun m => ?_) (fun m => ?_) (fun m hne => ?_) rfl rfl
        fun _ => (hdead b hd).symm
      · by_cases hm : m = b
        · rw [hm, setDelinfo_self]
          rfl
        · rw [setDelinfo_of_ne hm]
          rfl
      · by_cases hm : m = b
        · rw [hm, setDelinfo_self, if_pos rfl]
        · rw [setDelinfo_of_ne hm, if_neg fun h => hm (Option.some.inj h).symm]
          rfl
      · have hm : m ≠ b := fun hm => hne (by rw [hm])
        rw [setDelinfo_of_ne hm, if_neg (Option.some_ne_none _).symm]
        rfl
  | some a =>
    cases hd : slotOf s P with
    | none =>
      refine Recorded.of_update (fun m => ?_) (fun m => ?_) (fun m hne => ?_) rfl rfl
          fun h => absurd h (Option.some_ne_none _)
      · by_cases hm : m = a
        · rw [hm, setDelinfo_self]
          rfl
        · rw [setDelinfo_of_ne hm]
          rfl
      · rw [if_neg (Option.some_ne_none _).symm]
        by_cases hm : m = a
        · rw [hm, setDelinfo_self]
          rfl
        · rw [setDelinfo_of_ne hm]
          rfl
      · by_cases hm : m = a
        · rw [hm, setDelinfo_self, if_pos rfl, hlive hd]
        · rw [setDelinfo_of_ne hm, if_neg fun h => hm (Option.some.inj h).symm]
          rfl
    | some b =>
      by_cases hab : b = a
      · simp only [if_pos hab]
        refine Recorded.of_update (fun m => ?_) (fun m => ?_) (fun m hne => ?_) rfl rfl
          fun h => absurd h (Option.some_ne_none _)
        · by_cases hm : m = b
          · rw [hm, setDelinfo_self]
            rfl
          · rw [setDelinfo_of_ne hm]
            rfl
        · by_cases hm : m = b
          · rw [hm, setDelinfo_self, if_pos rfl]
          · rw [setDelinfo_of_ne hm, if_neg fun h => hm (Option.some.inj h).symm]
            rfl
        · have hm : m ≠ b := fun hm => hne (by rw [hm])
          rw [setDelinfo_of_ne hm, if_neg fun h => hm ((Option.some.inj h).symm.trans hab.symm)]
          rfl
      · simp only [if_neg hab]
        refine Recorded.of_update (fun m => ?_) (fun m => ?_) (fun m hne => ?_) rfl rfl
          fun h => absurd h (Option.some_ne_none _)
        · by_cases hm : m = a
          · rw [hm, setDelinfo_self, setDelinfo_of_ne (Ne.symm hab)]
            rfl
          · rw [setDelinfo_of_ne hm]
            by_cases hm : m = b
            · rw [hm, setDelinfo_self]
              rfl
            · rw [setDelinfo_of_ne hm]
              rfl
        · by_cases hm : m = a
          · rw [hm, setDelinfo_self, setDelinfo_of_ne (Ne.symm hab),
              if_neg fun h => hab (Option.some.inj h)]
            rfl
          · rw [setDelinfo_of_ne hm]
            by_cases hm : m = b
            · rw [hm, setDelinfo_self, if_pos rfl]
            · rw [setDelinfo_of_ne hm, if_neg fun h => hm (Option.some.inj h).symm]
              rfl
        · have hmb : m ≠ b := fun hm => hne (by rw [hm])
          by_cases hm : m = a
          · rw [hm, setDelinfo_self, if_pos rfl, hdead b hd]
            rfl
          · rw [setDelinfo_of_ne hm, setDelinfo_of_ne hmb, if_neg fun h => hm (Option.some.inj h).symm]
            rfl

/-- Apart from the slots, only the flags of the record and of the removed branch change. -/
theorem recordDeletion_eq : recordDeletion s slot x P =
    { (s.setDeleting x (slotOf s x).isNone).setDeleting P (slotOf s P).isNone with
      delinfos := (recordDeletion s slot x P).delinfos } := by
  have hldi : (if (s.nodes x).deleting then delinfoSearch s x else none) = slotOf s x := rfl
  have hddi : (if (s.nodes P).deleting then delinfoSearch s P else none) = slotOf s P := rfl
  unfold recordDeletion
  simp only [hldi, hddi]
  cases slotOf s x with
  | none =>
    cases slotOf s P with
    | none => rfl
    | some b => rfl
  | some a =>
    cases slotOf s P with
    | none => rfl
    | some b =>
      by_cases hab : b = a
      · simp only [if_pos hab]
        rfl
      · simp only [if_neg hab]
        rfl

theorem recordDeletion_deleting {j : ℕ} (hxP : P ≠ x) :
    ((recordDeletion s slot x P).nodes j).deleting = true ↔
      (j = P ∧ slotOf s P = none) ∨ (j = x ∧ slotOf s x = none) ∨
        (j ≠ P ∧ j ≠ x ∧ (s.nodes j).deleting = true) := by
  rw [recordDeletion_eq]
  simp only [setDeleting_deleting]
  by_cases hP : j = P
  · subst hP
    simp only [if_true, Option.isNone_iff_eq_none, true_and, hxP, false_and, ne_eq,
      not_true_eq_false, or_false]
  · by_cases hx : j = x
    · subst hx
      simp only [if_false, if_true, Option.isNone_iff_eq_none, hP, false_and, true_and, ne_eq,
        not_true_eq_false, and_false, or_false, false_or]
    · simp only [if_false, hP, hx, false_and, ne_eq, not_false_eq_true, true_and, false_or]

/-- The recorded slots are those of the tree without the record and the branch. -/
theorem slotsAfter_recordDeletion (hrooted : Rooted s.nodes s.words t own) (hring : Ring s)
    (hslots : Slots s.nodes s.delinfos t own) (hx : x ∈ t.leaves) (hP : P ∈ t.inner) (hxP : P ≠ x)
    (howned : ∃ j ∈ t.inner, own j = x) (hslot : (s.delinfos slot).stat = .empty) :
    SlotsAfter s.delinfos (recordDeletion s slot x P).delinfos t own slot x P := by
  have houtput := slotOf_output hrooted hring hslots hx howned
  have hbranch := slotOf_branch hrooted hring hslots hP
  have hrec := @recorded_recordDeletion s x P slot (own P)
    (fun hnone => by
      rcases hbranch with ⟨b, hb, -⟩ | ⟨-, hlive⟩
      · rw [hnone] at hb
        cases hb
      · exact hrooted.own_self P hP hlive)
    (fun b hb => by
      rcases hbranch with ⟨b', hb', hstat, hd, -⟩ | ⟨hnone, -⟩
      · obtain rfl : b' = b := Option.some.inj (hb'.symm.trans hb)
        rw [← hd, (hslots.phase1 b' hstat).2.2]
      · rw [hb] at hnone
        cases hnone)
  -- the slot of the removed branch
  have hddi : ∀ m, slotOf s P = some m ↔
      (s.delinfos m).stat = .phase1 ∧ (s.delinfos m).d = P := by
    intro m
    rcases hbranch with ⟨b, hb, hstat, hd, -⟩ | ⟨hnone, hlive⟩
    · rw [hb]
      constructor
      · intro h
        obtain rfl := Option.some.inj h
        exact ⟨hstat, hd⟩
      · rintro ⟨hm, hmP⟩
        rw [hslots.d_inj b m (by rw [hstat]; exact Stat.noConfusion)
          (by rw [hm]; exact Stat.noConfusion) (hd.trans hmP.symm)]
    · rw [hnone]
      refine iff_of_false nofun ?_
      rintro ⟨hm, rfl⟩
      exact (hslots.phase1 m hm).2.1 hlive
  -- the slot of a branch that the record was to take over
  have hldi : ∀ m, (s.delinfos m).stat = .phase1 →
      (slotOf s x = some m ↔ own (s.delinfos m).d = x) := by
    intro m hm
    obtain ⟨h1, h2, h3⟩ := hslots.phase1 m hm
    rcases houtput with ⟨a, ha, hstat, hld, -⟩ | ⟨hnone, hin⟩
    · obtain ⟨ha1, -, ha3⟩ := hslots.phase1 a hstat
      rw [ha]
      constructor
      · intro h
        obtain rfl := Option.some.inj h
        rw [h3, hld]
      · intro hmx
        have hd := hrooted.own_inj _ ha1 _ h1 (by rw [ha3, hld, hmx])
        rw [hslots.d_inj a m (by rw [hstat]; exact Stat.noConfusion)
          (by rw [hm]; exact Stat.noConfusion) hd]
    · rw [hnone]
      refine iff_of_false nofun fun hmx => h2 ?_
      rw [hrooted.own_inj _ h1 x hin (hmx.trans (hrooted.own_self x hin hx).symm)]
      exact hx
  have hxin : slotOf s x = none ↔ x ∈ t.inner := by
    rcases houtput with ⟨a, ha, -, -, hin⟩ | ⟨hnone, hin⟩
    · exact iff_of_false (by rw [ha]; exact nofun) hin
    · exact iff_of_true hnone hin
  refine ⟨hrec.d_ne, hrec.d_slot, fun m hm => ?_, ?_, fun m hm => ?_⟩
  · rw [hrec.stat_ne m hm]
    simp only [hddi]
  · rw [hrec.stat_slot]
    simp only [hxin, ne_eq, hxP.symm, not_false_eq_true, and_true]
  · by_cases hms : m = slot
    · subst hms
      rw [hrec.stat_slot] at hm
      split_ifs at hm with hnone
      · have hin := hxin.mp hnone
        rw [hrec.ld_slot hnone, hrec.d_slot, passOn_of_eq (hrooted.own_self x hin hx)]
    · rw [hrec.stat_ne m hms] at hm
      split_ifs at hm with hif
      · rw [hrec.ld_ne m hms hif, hrec.d_ne m hms]
        split_ifs with hif'
        · rw [passOn_of_eq ((hldi m hm).mp hif')]
        · rw [passOn_of_ne fun hmx => hif' ((hldi m hm).mpr hmx), (hslots.phase1 m hm).2.2]

end Groonga.Pat
