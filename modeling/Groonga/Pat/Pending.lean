import Groonga.Pat.Keys
import Groonga.Pat.Surgery

/-!
# The ring of pending deletions

A new deletion takes the next slot of the ring. Before that, the slot that leaves the
first half is turned to phase 2: the owner takes over the branch of the deleted node.
The slot that the ring comes round to is turned to empty: its node becomes free. At most
one slot is turned each time.
-/

namespace Groonga.Pat

open Lib.Patricia Lib.Patricia.Trie

variable {s s' : GrnPat} {t t' : Trie ℕ} {own : ℕ → ℕ} {free : ℕ → List ℕ} {lost : Finset ℕ} {i j n : ℕ}

/-! ## The second turn -/

/-- Setting one slot. -/
theorem setDelinfo_self {di : Delinfo} : (s.setDelinfo n di).delinfos n = di :=
  Function.update_self ..

theorem setDelinfo_of_ne {m : ℕ} {di : Delinfo} (hmn : m ≠ n) :
    (s.setDelinfo n di).delinfos m = s.delinfos m := Function.update_of_ne hmn ..

/-- A slot that keeps its node and is still in use. -/
theorem pending_update {delinfos : ℕ → Delinfo} {di : Delinfo} (hstat : di.stat ≠ .empty)
    (hold : (delinfos n).stat ≠ .empty) (hd : di.d = (delinfos n).d) :
    Pending (Function.update delinfos n di) i ↔ Pending delinfos i := by
  constructor
  · rintro ⟨m, hm, hmi⟩
    by_cases hmn : m = n
    · rw [hmn, Function.update_self] at hmi
      exact ⟨n, hold, hd ▸ hmi⟩
    · rw [Function.update_of_ne hmn] at hm hmi
      exact ⟨m, hm, hmi⟩
  · rintro ⟨m, hm, hmi⟩
    by_cases hmn : m = n
    · subst hmn
      refine ⟨m, ?_, ?_⟩ <;> rw [Function.update_self]
      · exact hstat
      · rw [hd, hmi]
    · refine ⟨m, ?_, ?_⟩ <;> rw [Function.update_of_ne hmn]
      · exact hm
      · exact hmi

/-- The state after the second turn of a slot whose branch is at `p`. -/
def takenOver (s : GrnPat) (n : ℕ) (p : Loc) : GrnPat :=
  let di := s.delinfos n
  let s := (s.setDeleting di.ld false).setDeleting di.d false
  ((s.modify di.ld ({ · with check := (s.nodes di.d).check, lr := (s.nodes di.d).lr })).store p
    di.ld).setDelinfo n { di with stat := .phase2 }

section TakenOver

variable {p : Loc} {d : Bool}

theorem takenOver_sameKeys : SameKeys s (takenOver s n p) where
  isKeyLarge := rfl
  keys := rfl
  currRec := rfl
  currKey := rfl
  cacheSize := rfl
  cache := rfl
  key := by
    intro j
    refine store_key.trans ((modify_field Node.key ?_).trans ?_)
    · exact fun _ => rfl
    · rw [setDeleting_key, setDeleting_key]

theorem takenOver_check_self : ((takenOver s n p).nodes (s.delinfos n).ld).check =
    (s.nodes (s.delinfos n).d).check := by
  refine store_check.trans ((congrArg Node.check modify_self).trans ?_)
  simp only [setDeleting_check]

theorem takenOver_check_of_ne (hj : j ≠ (s.delinfos n).ld) :
    ((takenOver s n p).nodes j).check = (s.nodes j).check := by
  refine store_check.trans ((congrArg Node.check (modify_of_ne hj)).trans ?_)
  simp only [setDeleting_check]

theorem takenOver_lr_self (hp : p.node ≠ (s.delinfos n).ld) :
    ((takenOver s n p).nodes (s.delinfos n).ld).lr = (s.nodes (s.delinfos n).d).lr := by
  funext d
  refine (store_lr_of_ne fun h => hp (congrArg Loc.node h)).trans
    ((congrFun (congrArg Node.lr modify_self) d).trans ?_)
  simp only [setDeleting_lr]

theorem takenOver_lr_of_ne (hj : j ≠ (s.delinfos n).ld) (hp : p ≠ ⟨j, d⟩) :
    ((takenOver s n p).nodes j).lr d = (s.nodes j).lr d := by
  refine (store_lr_of_ne hp).trans ((congrFun (congrArg Node.lr (modify_of_ne hj)) d).trans ?_)
  simp only [setDeleting_lr]

theorem takenOver_link : linkAt (takenOver s n p).nodes p = (s.delinfos n).ld := store_lr_self

theorem takenOver_deleting : ((takenOver s n p).nodes j).deleting =
    if j = (s.delinfos n).d ∨ j = (s.delinfos n).ld then false else (s.nodes j).deleting := by
  refine store_deleting.trans ((modify_field Node.deleting ?_).trans ?_)
  · exact fun _ => rfl
  · rw [setDeleting_deleting, setDeleting_deleting]
    by_cases hd : j = (s.delinfos n).d
    · rw [if_pos hd, if_pos (.inl hd)]
    · by_cases hld : j = (s.delinfos n).ld
      · rw [if_neg hd, if_pos hld, if_pos (.inr hld)]
      · rw [if_neg hd, if_neg hld, if_neg (not_or.mpr ⟨hd, hld⟩)]

end TakenOver

/-- The loop finds the branch of the node. -/
theorem delinfoTurn2_eq (h : Inv s t own free lost) (hstat : (s.delinfos n).stat = .phase1) :
    ∃ k c child, plug k (.node (s.delinfos n).d c child) = t ∧
      delinfoTurn2 s n = some (takenOver s n (place k)) := by
  obtain ⟨hd, -, -⟩ := h.slots.phase1 n hstat
  have hrooted : Rooted ((s.setDeleting (s.delinfos n).ld false).setDeleting (s.delinfos n).d
      false).nodes s.words t own := by
    refine h.rooted.congr ?_ (fun i _ => ?_) fun i _ => ?_
    · simp only [linkAt, setDeleting_lr]
    · rw [setDeleting_check, setDeleting_check]
    · rw [setDeleting_lr, setDeleting_lr]
  have hkey : ((s.setDeleting (s.delinfos n).ld false).setDeleting (s.delinfos n).d false).keyOf
      (s.delinfos n).d = s.keyOf (s.delinfos n).d :=
    keyOf_congr (by rw [setDeleting_key, setDeleting_key]) rfl
  obtain ⟨k, c, child, hplug, hloop⟩ := turn2Loop_eq (k := []) hrooted.linked hrooted.wf hd
    (show s.words _ = word (s.keyOf (s.delinfos n).d) from rfl) (enoughFuel_start _)
  refine ⟨k, c, child, hplug, ?_⟩
  unfold delinfoTurn2
  rw [if_neg (not_not.mpr hstat)]
  simp only [hkey, patCheckPack_length]
  have hloop : turn2Loop ((s.setDeleting (s.delinfos n).ld false).setDeleting (s.delinfos n).d false)
      (s.keyOf (s.delinfos n).d) ((s.keyOf (s.delinfos n).d).length * 16) (s.delinfos n).d
      ((s.keyOf (s.delinfos n).d).length * 16 + 2) .root (-1) = some (some (place k)) := hloop
  rw [hloop]
  rfl

/-- The pending deletions after the second turn. -/
theorem Slots.turn2 {nodes nodes' : ℕ → Node} {delinfos : ℕ → Delinfo}
    (h : Slots nodes delinfos t own) (hstat : (delinfos n).stat = .phase1) (howned : Owned own t)
    (hinj : ∀ i ∈ t.inner, ∀ j ∈ t.inner, own i = own j → i = j) (hleaves : t'.leaves = t.leaves)
    (hinner : ∀ j, j ∈ t'.inner ↔ j = (delinfos n).ld ∨ j ∈ t.inner ∧ j ≠ (delinfos n).d)
    (hdeleting : ∀ j, (nodes' j).deleting = if j = (delinfos n).d ∨ j = (delinfos n).ld then false
      else (nodes j).deleting) :
    Slots nodes' (Function.update delinfos n { delinfos n with stat := .phase2 }) t'
      (Function.update own (delinfos n).ld (delinfos n).ld) := by
  obtain ⟨hd, hdead, hown⟩ := h.phase1 n hstat
  have hlive : (delinfos n).ld ∈ t.leaves := hown ▸ howned.mem_leaves hd
  have hdl : (delinfos n).d ≠ (delinfos n).ld := fun heq => hdead (heq ▸ hlive)
  have hne : ∀ m, m ≠ n → (delinfos m).stat ≠ .empty → (delinfos m).d ≠ (delinfos n).d :=
    fun m hmn hm heq => hmn (h.d_inj m n hm (by rw [hstat]; exact Stat.noConfusion) heq)
  have hne1 : ∀ m, m ≠ n → (delinfos m).stat = .phase1 → (delinfos m).d ≠ (delinfos n).d :=
    fun m hmn hm => hne m hmn (by rw [hm]; exact Stat.noConfusion)
  have hids : ∀ j, j ∈ t'.ids → j ∈ t.ids ∧ j ≠ (delinfos n).d := by
    intro j hj
    rcases mem_ids.mp hj with hj | hj
    · rcases (hinner j).mp hj with rfl | ⟨hj, hjd⟩
      · exact ⟨mem_ids.mpr (.inr hlive), hdl.symm⟩
      · exact ⟨mem_ids.mpr (.inl hj), hjd⟩
    · rw [hleaves] at hj
      exact ⟨mem_ids.mpr (.inr hj), fun hjd => hdead (hjd ▸ hj)⟩
  -- a slot in phase 1 is another one
  have hphase1 : ∀ m, (Function.update delinfos n { delinfos n with stat := .phase2 } m).stat =
      .phase1 → m ≠ n ∧ (delinfos m).stat = .phase1 := by
    intro m hm
    by_cases hmn : m = n
    · rw [hmn, Function.update_self] at hm
      cases hm
    · rw [Function.update_of_ne hmn] at hm
      exact ⟨hmn, hm⟩
  refine ⟨fun m hm => ?_, fun j hj hjdead => ?_, fun m hm => ?_, fun a b ha hb hab => ?_,
    fun j hj => ?_⟩
  · obtain ⟨hmn, hm⟩ := hphase1 m hm
    obtain ⟨h1, h2, h3⟩ := h.phase1 m hm
    rw [Function.update_of_ne hmn]
    refine ⟨(hinner _).mpr (.inr ⟨h1, hne1 m hmn hm⟩), by rwa [hleaves], ?_⟩
    have hml : (delinfos m).d ≠ (delinfos n).ld := fun heq => h2 (heq ▸ hlive)
    rw [Function.update_of_ne hml]
    exact h3
  · rw [hleaves] at hjdead
    rcases (hinner j).mp hj with rfl | ⟨hj, hjd⟩
    · exact absurd hlive hjdead
    · obtain ⟨m, hm, hmj⟩ := h.dead j hj hjdead
      have hmn : m ≠ n := by
        rintro rfl
        exact hjd hmj.symm
      refine ⟨m, ?_, ?_⟩ <;> rw [Function.update_of_ne hmn]
      · exact hm
      · exact hmj
  · by_cases hmn : m = n
    · rw [hmn, Function.update_self]
      exact fun hin => (hids _ hin).2 rfl
    · rw [Function.update_of_ne hmn] at hm ⊢
      exact fun hin => h.phase2 m hm (hids _ hin).1
  · have hsame : ∀ m, (Function.update delinfos n { delinfos n with stat := .phase2 } m).d =
        (delinfos m).d ∧ ((Function.update delinfos n { delinfos n with stat := .phase2 } m).stat ≠
        .empty → (delinfos m).stat ≠ .empty) := by
      intro m
      by_cases hmn : m = n
      · subst hmn
        rw [Function.update_self]
        exact ⟨rfl, fun _ => by rw [hstat]; exact Stat.noConfusion⟩
      · rw [Function.update_of_ne hmn]
        exact ⟨rfl, id⟩
    rw [(hsame a).1, (hsame b).1] at hab
    exact h.d_inj a b ((hsame a).2 ha) ((hsame b).2 hb) hab
  · obtain ⟨hj, hjd⟩ := hids j hj
    rw [hdeleting]
    by_cases hjl : j = (delinfos n).ld
    · rw [if_pos (.inr hjl)]
      refine iff_of_false Bool.false_ne_true ?_
      rintro ⟨m, hm, hmj⟩
      obtain ⟨hmn, hm⟩ := hphase1 m hm
      rw [Function.update_of_ne hmn] at hmj
      obtain ⟨h1, h2, h3⟩ := h.phase1 m hm
      rcases hmj with hmj | hmj
      · exact hne1 m hmn hm (hinj _ h1 _ hd (by rw [h3, hown, hmj, hjl]))
      · exact h2 (by rw [hmj, hjl]; exact hlive)
    · rw [if_neg (not_or.mpr ⟨hjd, hjl⟩), h.deleting j hj]
      constructor
      · rintro ⟨m, hm, hmj⟩
        have hmn : m ≠ n := by
          rintro rfl
          rcases hmj with hmj | hmj
          · exact hjl hmj.symm
          · exact hjd hmj.symm
        refine ⟨m, ?_, ?_⟩ <;> rw [Function.update_of_ne hmn]
        · exact hm
        · exact hmj
      · rintro ⟨m, hm, hmj⟩
        obtain ⟨hmn, hm⟩ := hphase1 m hm
        rw [Function.update_of_ne hmn] at hmj
        exact ⟨m, hm, hmj⟩

/-- **The second turn** keeps the invariant and the live records. -/
theorem delinfoTurn2_spec (h : Inv s t own free lost) (hstat : (s.delinfos n).stat = .phase1) :
    ∃ s' t' own', delinfoTurn2 s n = some s' ∧ Inv s' t' own' free lost ∧ t'.leaves = t.leaves ∧
      SameKeys s s' ∧ (s'.currDel = s.currDel ∧ s'.currDel2 = s.currDel2 ∧
        s'.currDel3 = s.currDel3) ∧
      s'.delinfos = Function.update s.delinfos n { s.delinfos n with stat := .phase2 } := by
  obtain ⟨hd, hdead, hown⟩ := h.slots.phase1 n hstat
  have hused : (s.delinfos n).stat ≠ .empty := by
    rw [hstat]
    exact Stat.noConfusion
  have hlive : own (s.delinfos n).d ∈ t.leaves := h.rooted.owned.mem_leaves hd
  have hnot := h.rooted.own_not_inner hd hdead
  have hl0 := h.rooted.ne_zero (mem_ids.mpr (.inr hlive))
  obtain ⟨k, c, child, rfl, heq⟩ := delinfoTurn2_eq h hstat
  have hp : ∀ e, place k ≠ ⟨(s.delinfos n).ld, e⟩ := fun e => by
    rw [← hown]
    exact place_ne_of_not_mem_plug hl0 hnot
  have hcheck : (s.nodes (s.delinfos n).d).check = c := (linked_plug.mp h.rooted.linked).2.2.2.1
  have hleaves : (plug k (.node (s.delinfos n).ld c child)).leaves =
      (plug k (.node (s.delinfos n).d c child)).leaves := by
    rw [leaves_plug, leaves_plug]
    rfl
  have hsame := @takenOver_sameKeys s n (place k)
  refine ⟨_, plug k (.node (s.delinfos n).ld c child), Function.update own (s.delinfos n).ld
    (s.delinfos n).ld, heq, ⟨?_, ?_, ?_, h.keys.congr hsame, ?_, ?_⟩, hleaves, hsame,
    ⟨rfl, rfl, rfl⟩, rfl⟩
  · rw [hsame.words_eq]
    have htake := @Rooted.takeOver s.nodes (takenOver s n (place k)).nodes s.words own k _ c child
      h.rooted hdead
    rw [hown] at htake
    refine htake (takenOver_check_self.trans hcheck) (takenOver_lr_self ?_)
      (fun j hj => takenOver_check_of_ne hj) (fun j hj e he => takenOver_lr_of_ne hj he)
      takenOver_link
    exact fun hnode => hp (place k).direction (by rw [← hnode])
  · refine h.ring.mono ⟨rfl, rfl, rfl⟩ (fun m hm => ?_) fun m hm => ?_
    · by_cases hmn : m = n
      · rw [hmn]
        exact hused
      · rwa [takenOver, setDelinfo_of_ne hmn] at hm
    · by_cases hmn : m = n
      · rw [hmn, takenOver, setDelinfo_self] at hm
        cases hm
      · rwa [takenOver, setDelinfo_of_ne hmn] at hm
  · refine h.slots.turn2 hstat h.rooted.owned h.rooted.own_inj hleaves (fun j => ?_)
      fun j => takenOver_deleting
    have hnodup := h.rooted.inner_nodup
    rw [inner_plug, Trie.inner, Multiset.cons_add, Multiset.nodup_cons] at hnodup
    have hrest : ((∃ e, j ∈ (child e).inner) ∨ j ∈ innerBeside k) → j ≠ (s.delinfos n).d := by
      rintro hj rfl
      refine hnodup.1 (Multiset.mem_add.mpr (hj.imp_left fun he => ?_))
      rwa [Bool.exists_bool, ← Multiset.mem_add] at he
    rw [mem_plug_inner, mem_plug_inner, mem_inner_node, mem_inner_node]
    tauto
  · refine h.accounts.congr hsame hleaves (fun i => pending_update Stat.noConfusion ?_ rfl)
      (fun m j hj => ?_) rfl ⟨rfl, rfl⟩
    · exact hused
    · have hids := h.not_mem_ids_of_free hj
      refine takenOver_lr_of_ne ?_ ?_
      · rintro rfl
        rw [hown] at hlive
        exact hids (mem_ids.mpr (.inr hlive))
      · have hj0 : j ≠ 0 :=
          Nat.one_le_iff_ne_zero.mp ((h.accounts.total j).mp (.inr (.inr ⟨m, hj⟩))).1
        exact place_ne_of_not_mem_plug hj0 fun hin => hids (mem_ids.mpr (.inl hin))
  · exact h.cache.congr hsame fun m hm => by rwa [hleaves]

/-! ## The third turn -/

/-- The state after the third turn. -/
def freed (s : GrnPat) (n : ℕ) : GrnPat :=
  let d := (s.delinfos n).d
  let size := (s.nodes d).key.storageSize
  { (s.setDelinfo n { s.delinfos n with stat := .empty }).store ⟨d, false⟩ (s.garbages size) with
    garbages := Function.update s.garbages size d }

theorem delinfoTurn3_eq (hstat : (s.delinfos n).stat = .phase2) : delinfoTurn3 s n = freed s n := by
  unfold delinfoTurn3
  rw [if_neg (not_not.mpr hstat)]
  simp only [freed, StoredKey.storageSize]
  cases (s.nodes (s.delinfos n).d).key <;> rfl

theorem freed_sameKeys : SameKeys s (freed s n) where
  isKeyLarge := rfl
  keys := rfl
  currRec := rfl
  currKey := rfl
  cacheSize := rfl
  cache := rfl
  key := fun _ => store_key

/-- Only the left link of the freed node changes. -/
theorem freed_lr_of_ne (hj : j ≠ (s.delinfos n).d) : ((freed s n).nodes j).lr = (s.nodes j).lr := by
  funext d
  exact store_lr_of_ne fun h => hj (congrArg Loc.node h).symm

theorem freed_next : ((freed s n).nodes (s.delinfos n).d).lr false =
    s.garbages (s.nodes (s.delinfos n).d).key.storageSize :=
  @store_lr_self _ ⟨(s.delinfos n).d, false⟩ _

/-- An emptied slot. -/
theorem empty_update {delinfos : ℕ → Delinfo} {di : Delinfo} (hdi : di.stat = .empty) {m : ℕ}
    (hm : (Function.update delinfos n di m).stat ≠ .empty) :
    m ≠ n ∧ Function.update delinfos n di m = delinfos m := by
  by_cases hmn : m = n
  · rw [hmn, Function.update_self] at hm
    exact absurd hdi hm
  · exact ⟨hmn, Function.update_of_ne hmn ..⟩

/-- The pending deletions after a slot of the second phase is emptied. -/
theorem Slots.turn3 {nodes nodes' : ℕ → Node} {delinfos : ℕ → Delinfo}
    (h : Slots nodes delinfos t own) (hstat : (delinfos n).stat = .phase2)
    (hdeleting : ∀ j, (nodes' j).deleting = (nodes j).deleting) :
    Slots nodes' (Function.update delinfos n { delinfos n with stat := .empty }) t own := by
  have hused : ∀ {m}, (Function.update delinfos n { delinfos n with stat := .empty } m).stat ≠
      .empty → m ≠ n ∧ Function.update delinfos n { delinfos n with stat := .empty } m =
        delinfos m := fun hm => empty_update rfl hm
  have hphase1 : ∀ m, (Function.update delinfos n { delinfos n with stat := .empty } m).stat =
      .phase1 ↔ (delinfos m).stat = .phase1 := by
    intro m
    by_cases hmn : m = n
    · rw [hmn, Function.update_self, hstat]
      exact iff_of_false Stat.noConfusion Stat.noConfusion
    · rw [Function.update_of_ne hmn]
  have hsame : ∀ m, (delinfos m).stat = .phase1 →
      Function.update delinfos n { delinfos n with stat := .empty } m = delinfos m := by
    intro m hm
    refine Function.update_of_ne ?_ ..
    rintro rfl
    rw [hstat] at hm
    cases hm
  refine ⟨fun m hm => ?_, fun j hj hdead => ?_, fun m hm => ?_, fun a b ha hb hab => ?_,
    fun j hj => ?_⟩
  · have hm := (hphase1 m).mp hm
    rw [hsame m hm]
    exact h.phase1 m hm
  · obtain ⟨m, hm, hmj⟩ := h.dead j hj hdead
    exact ⟨m, (hphase1 m).mpr hm, by rw [hsame m hm, hmj]⟩
  · have heq := (hused (by rw [hm]; exact Stat.noConfusion)).2
    rw [heq] at hm ⊢
    exact h.phase2 m hm
  · obtain ⟨-, ha'⟩ := hused ha
    obtain ⟨-, hb'⟩ := hused hb
    rw [ha'] at ha hab
    rw [hb'] at hb hab
    exact h.d_inj a b ha hb hab
  · rw [hdeleting, h.deleting j hj]
    constructor
    · rintro ⟨m, hm, hmj⟩
      exact ⟨m, (hphase1 m).mpr hm, by rwa [hsame m hm]⟩
    · rintro ⟨m, hm, hmj⟩
      have hm := (hphase1 m).mp hm
      rw [hsame m hm] at hmj
      exact ⟨m, hm, hmj⟩

/-- The node of an emptied slot is free. -/
theorem Accounts.turn3 (h : Accounts s t free lost) (hslots : Slots s.nodes s.delinfos t own)
    (hstat : (s.delinfos n).stat = .phase2) :
    Accounts (freed s n) t (Function.update free (s.nodes (s.delinfos n).d).key.storageSize
      ((s.delinfos n).d :: free (s.nodes (s.delinfos n).d).key.storageSize)) lost := by
  generalize hsize : (s.nodes (s.delinfos n).d).key.storageSize = size
  have hpd : Pending s.delinfos (s.delinfos n).d :=
    ⟨n, by rw [hstat]; exact Stat.noConfusion, rfl⟩
  have hd0 : (s.delinfos n).d ≠ 0 := Nat.one_le_iff_ne_zero.mp ((h.total _).mp (.inr (.inl hpd))).1
  have hpending : ∀ i, Pending (freed s n).delinfos i ↔ Pending s.delinfos i ∧
      i ≠ (s.delinfos n).d := by
    intro i
    constructor
    · rintro ⟨m, hm, rfl⟩
      obtain ⟨hmn, heq⟩ := empty_update rfl hm
      have heq : (freed s n).delinfos m = s.delinfos m := heq
      rw [heq] at hm ⊢
      refine ⟨⟨m, hm, rfl⟩, fun hd => hmn ?_⟩
      exact hslots.d_inj m n hm (by rw [hstat]; exact Stat.noConfusion) hd
    · rintro ⟨⟨m, hm, rfl⟩, hne⟩
      have heq : (freed s n).delinfos m = s.delinfos m := Function.update_of_ne (by
        rintro rfl
        exact hne rfl) ..
      exact ⟨m, by rwa [heq], by rw [heq]⟩
  have hfree : ∀ i m, i ∈ Function.update free size ((s.delinfos n).d :: free size) m ↔
      i ∈ free m ∨ i = (s.delinfos n).d ∧ m = size := by
    intro i m
    by_cases hm : m = size
    · subst hm
      rw [Function.update_self, List.mem_cons]
      tauto
    · rw [Function.update_of_ne hm]
      tauto
  have hchain : ∀ r m, Chain s.nodes r (free m) → Chain (freed s n).nodes r (free m) := by
    intro r m hc
    refine hc.congr fun i hi => ?_
    rw [freed_lr_of_ne]
    rintro rfl
    exact h.pending_not_free _ hpd m hi
  refine
    { total := fun i => ?_
      lost_le := h.lost_le
      currRec_le := h.currRec_le
      live_not_pending := fun i hi hp => h.live_not_pending i hi ((hpending i).mp hp).1
      live_not_free := fun i hi m him => ?_
      pending_not_free := fun i hi m him => ?_
      free_nodup := fun m => ?_
      free_disjoint := fun a b i ha hb => ?_
      chain := fun m => ?_
      size := fun m i hi => ?_
      entries := h.entries
      count := h.count }
  · have htotal := h.total i
    have hknown : (freed s n).KnownId lost i ↔ s.KnownId lost i := Iff.rfl
    rw [hknown, ← htotal, hpending]
    simp only [hfree]
    by_cases hid : i = (s.delinfos n).d
    · rw [hid]
      exact iff_of_true (.inr (.inr ⟨size, .inr ⟨rfl, rfl⟩⟩)) (.inr (.inl hpd))
    · simp only [hid, ne_eq, not_false_eq_true, and_true, false_and, or_false]
  · rcases (hfree i m).mp him with him | ⟨rfl, -⟩
    · exact h.live_not_free i hi m him
    · exact h.live_not_pending _ hi hpd
  · obtain ⟨hi, hid⟩ := (hpending i).mp hi
    rcases (hfree i m).mp him with him | ⟨rfl, -⟩
    · exact h.pending_not_free i hi m him
    · exact hid rfl
  · by_cases hm : m = size
    · rw [hm, Function.update_self, List.nodup_cons]
      exact ⟨h.pending_not_free _ hpd size, h.free_nodup size⟩
    · rw [Function.update_of_ne hm]
      exact h.free_nodup m
  · rcases (hfree i a).mp ha with ha | ⟨hia, ha⟩ <;> rcases (hfree i b).mp hb with hb | ⟨hib, hb⟩
    · exact h.free_disjoint a b i ha hb
    · exact absurd (hib ▸ ha) (h.pending_not_free _ hpd a)
    · exact absurd (hia ▸ hb) (h.pending_not_free _ hpd b)
    · exact ha.trans hb.symm
  · have hgarbages : (freed s n).garbages = Function.update s.garbages size (s.delinfos n).d := by
      rw [freed, hsize]
    rw [hgarbages]
    by_cases hm : m = size
    · rw [hm, Function.update_self, Function.update_self]
      refine ⟨rfl, hd0, ?_⟩
      rw [freed_next, hsize]
      exact hchain _ _ (h.chain size)
    · rw [Function.update_of_ne hm, Function.update_of_ne hm]
      exact hchain _ _ (h.chain m)
  · rw [freed_sameKeys.key]
    rcases (hfree i m).mp hi with hi | ⟨rfl, rfl⟩
    · exact h.size m i hi
    · exact hsize

/-- **The third turn** keeps the invariant and the live records. -/
theorem inv_freed (h : Inv s t own free lost) (hstat : (s.delinfos n).stat = .phase2) :
    ∃ free', Inv (freed s n) t own free' lost := by
  have hd := h.slots.phase2 n hstat
  have hne : ∀ j ∈ t.ids, j ≠ (s.delinfos n).d := fun j hj hjd => hd (hjd ▸ hj)
  have hpd : Pending s.delinfos (s.delinfos n).d :=
    ⟨n, by rw [hstat]; exact Stat.noConfusion, rfl⟩
  have hd0 : (s.delinfos n).d ≠ 0 :=
    Nat.one_le_iff_ne_zero.mp ((h.accounts.total _).mp (.inr (.inl hpd))).1
  refine ⟨_, ⟨?_, ?_, ?_, h.keys.congr freed_sameKeys, h.accounts.turn3 h.slots hstat,
    h.cache.congr freed_sameKeys fun _ => id⟩⟩
  · rw [freed_sameKeys.words_eq]
    refine h.rooted.congr ?_ (fun j _ => store_check) fun j hj => freed_lr_of_ne (hne j hj)
    exact congrFun (freed_lr_of_ne hd0.symm) true
  · refine h.ring.mono ⟨rfl, rfl, rfl⟩ (fun m hm => ?_) fun m hm => ?_
    · have heq : (freed s n).delinfos m = s.delinfos m := (empty_update rfl hm).2
      rwa [heq] at hm
    · have hused : ((freed s n).delinfos m).stat ≠ .empty := by
        rw [hm]
        exact Stat.noConfusion
      have heq : (freed s n).delinfos m = s.delinfos m := (empty_update rfl hused).2
      rwa [heq] at hm
  · exact h.slots.turn3 hstat fun j => store_deleting

/-! ## A new slot -/

/-- What `delinfo_new` gives: a slot that is empty and may be used in either phase. -/
structure NewSlot (s : GrnPat) (slot : ℕ) : Prop where
  empty : (s.delinfos slot).stat = .empty
  lt : slot < 256
  used : (slot + 256 - s.currDel3) % 256 < (s.currDel + 256 - s.currDel3) % 256
  phase1 : (slot + 256 - s.currDel2) % 256 < (s.currDel + 256 - s.currDel2) % 256

/-- The cursor of phase 1 moves over a slot that is not in phase 1. -/
theorem ring_advance2 (h : Ring s) (hfull : (s.currDel + 256 - s.currDel2) % 256 = 128)
    (hstat : (s.delinfos s.currDel2).stat ≠ .phase1) :
    Ring { s with currDel2 := (s.currDel2 + 1) % 256 } := by
  obtain ⟨h1, h2, h3, h4, h5, h6, h7, h8⟩ := h
  refine ⟨h1, Nat.mod_lt _ (by decide), h3, ?_, ?_, h6, h7, fun n hn => ?_⟩
  · simp only
    omega
  · simp only
    omega
  · have := h8 n hn
    have := h6 n (by rw [hn]; exact Stat.noConfusion)
    have hne : n ≠ s.currDel2 := by
      rintro rfl
      exact hstat hn
    simp only
    omega

/-- The ring after a new slot is taken, with the cursor of the third turn. -/
theorem ring_next {del3 : ℕ} (h : Ring s) (hroom : (s.currDel + 256 - s.currDel2) % 256 < 128)
    (hdel3 : ((s.currDel + 1) % 256 ≠ s.currDel3 ∧ del3 = s.currDel3) ∨
      ((s.currDel + 1) % 256 = s.currDel3 ∧ (s.delinfos s.currDel3).stat = .empty ∧
        del3 = (s.currDel3 + 1) % 256)) :
    Ring { s with currDel := (s.currDel + 1) % 256, currDel3 := del3 } ∧
      NewSlot { s with currDel := (s.currDel + 1) % 256, currDel3 := del3 } s.currDel := by
  obtain ⟨h1, h2, h3, h4, h5, h6, h7, h8⟩ := h
  have hempty : (s.delinfos s.currDel).stat = .empty := by
    by_contra hne
    exact lt_irrefl _ (h7 s.currDel hne)
  have hlt : del3 < 256 := by
    rcases hdel3 with ⟨-, rfl⟩ | ⟨-, -, rfl⟩
    · exact h3
    · exact Nat.mod_lt _ (by decide)
  refine ⟨⟨Nat.mod_lt _ (by decide), h2, hlt, ?_, ?_, h6, fun n hn => ?_, fun n hn => ?_⟩,
    hempty, h1, ?_, ?_⟩
  · simp only
    omega
  · simp only
    omega
  · have := h7 n hn
    have := h6 n hn
    have hne : (s.delinfos s.currDel3).stat = .empty → n ≠ s.currDel3 := by
      rintro he rfl
      exact hn he
    simp only
    rcases hdel3 with ⟨h, rfl⟩ | ⟨h, he, rfl⟩
    · omega
    · have := hne he
      omega
  · have := h8 n hn
    have := h6 n (by rw [hn]; exact Stat.noConfusion)
    simp only
    omega
  · simp only
    omega
  · simp only
    omega

/-- Only the ring depends on its cursors. -/
theorem Inv.cursors {a b c : ℕ} (h : Inv s t own free lost)
    (hring : Ring { s with currDel := a, currDel2 := b, currDel3 := c }) :
    Inv { s with currDel := a, currDel2 := b, currDel3 := c } t own free lost where
  rooted := h.rooted
  ring := hring
  slots := h.slots
  keys := ⟨h.keys.valid, h.keys.apart⟩
  accounts := { h.accounts with }
  cache := h.cache

/-- The loop of `delinfo_new` turns at most one slot, and leaves room in the first half. -/
theorem turn2s_spec (h : Inv s t own free lost) :
    ∃ s' t' own', turn2s s (((s.currDel + 1) % 256 + 256 - s.currDel2) % 256 - 128) = some s' ∧
      Inv s' t' own' free lost ∧ t'.leaves = t.leaves ∧ SameKeys s s' ∧ s'.currDel = s.currDel ∧
      (s'.currDel + 256 - s'.currDel2) % 256 < 128 := by
  have hhalf := h.ring.half
  have hlt := h.ring.del_lt
  have hlt2 := h.ring.del2_lt
  rcases hhalf.lt_or_eq with hroom | hfull
  · have hgap : ((s.currDel + 1) % 256 + 256 - s.currDel2) % 256 - 128 = 0 := by omega
    rw [hgap]
    exact ⟨s, t, own, rfl, h, rfl, ⟨rfl, rfl, rfl, rfl, rfl, rfl, fun _ => rfl⟩, rfl, hroom⟩
  · have hgap : ((s.currDel + 1) % 256 + 256 - s.currDel2) % 256 - 128 = 1 := by omega
    rw [hgap]
    -- the slot that leaves the first half
    obtain ⟨s₁, t₁, own₁, heq, hinv, hleaves, hsame, ⟨h1, h2, h3⟩, hstat⟩ :
        ∃ s₁ t₁ own₁, delinfoTurn2 s s.currDel2 = some s₁ ∧ Inv s₁ t₁ own₁ free lost ∧
          t₁.leaves = t.leaves ∧ SameKeys s s₁ ∧ (s₁.currDel = s.currDel ∧
            s₁.currDel2 = s.currDel2 ∧ s₁.currDel3 = s.currDel3) ∧
          (s₁.delinfos s.currDel2).stat ≠ .phase1 := by
      by_cases hstat : (s.delinfos s.currDel2).stat = .phase1
      · obtain ⟨s₁, t₁, own₁, heq, hinv, hleaves, hsame, hring, hdel⟩ := delinfoTurn2_spec h hstat
        refine ⟨s₁, t₁, own₁, heq, hinv, hleaves, hsame, hring, ?_⟩
        rw [hdel, Function.update_self]
        exact Stat.noConfusion
      · exact ⟨s, t, own, if_pos hstat, h, rfl, ⟨rfl, rfl, rfl, rfl, rfl, rfl, fun _ => rfl⟩,
          ⟨rfl, rfl, rfl⟩, hstat⟩
    have hring := ring_advance2 hinv.ring (by rw [h1, h2]; exact hfull) (by rwa [h2])
    refine ⟨{ s₁ with currDel2 := (s₁.currDel2 + 1) % 256 }, t₁, own₁, ?_, hinv.cursors hring,
      hleaves, ?_, h1, ?_⟩
    · rw [turn2s, heq]
      rfl
    · exact ⟨hsame.isKeyLarge, hsame.keys, hsame.currRec, hsame.currKey, hsame.cacheSize,
        hsame.cache, hsame.key⟩
    · simp only [h1, h2]
      omega

/-- **A new slot.** The turns keep the invariant and the live records. -/
theorem delinfoNew_spec (h : Inv s t own free lost) :
    ∃ s' t' own' free', delinfoNew s = some (s', s.currDel) ∧ Inv s' t' own' free' lost ∧
      t'.leaves = t.leaves ∧ SameKeys s s' ∧ NewSlot s' s.currDel := by
  obtain ⟨s₁, t₁, own₁, heq, hinv, hleaves, hsame, hdel, hroom⟩ := turn2s_spec h
  have hnew : delinfoNew s = some
      ({ (if (s.currDel + 1) % 256 = s₁.currDel3 then
          { delinfoTurn3 s₁ s₁.currDel3 with
            currDel3 := ((delinfoTurn3 s₁ s₁.currDel3).currDel3 + 1) % 256 }
        else s₁) with currDel := (s.currDel + 1) % 256 }, s.currDel) := by
    unfold delinfoNew
    simp only [nDelinfos]
    rw [heq]
    rfl
  rw [← hdel] at hnew ⊢
  by_cases hround : (s₁.currDel + 1) % 256 = s₁.currDel3
  · rw [if_pos hround] at hnew
    -- the slot that the ring comes round to
    obtain ⟨s₂, free₂, heq₂, hinv₂, hsame₂, ⟨h1, h2, h3⟩, hempty⟩ :
        ∃ s₂ free₂, delinfoTurn3 s₁ s₁.currDel3 = s₂ ∧ Inv s₂ t₁ own₁ free₂ lost ∧ SameKeys s₁ s₂ ∧
          (s₂.currDel = s₁.currDel ∧ s₂.currDel2 = s₁.currDel2 ∧ s₂.currDel3 = s₁.currDel3) ∧
          (s₂.delinfos s₁.currDel3).stat = .empty := by
      cases hstat : (s₁.delinfos s₁.currDel3).stat with
      | empty =>
        refine ⟨s₁, free, if_pos (by rw [hstat]; exact Stat.noConfusion), hinv,
          ⟨rfl, rfl, rfl, rfl, rfl, rfl, fun _ => rfl⟩, ⟨rfl, rfl, rfl⟩, hstat⟩
      | phase1 =>
        -- it is not in the first half
        have := hinv.ring.phase1 _ hstat
        have := hinv.ring.del_lt
        have := hinv.ring.del2_lt
        omega
      | phase2 =>
        obtain ⟨free₂, hinv₂⟩ := inv_freed hinv hstat
        refine ⟨_, free₂, delinfoTurn3_eq hstat, hinv₂, freed_sameKeys, ⟨rfl, rfl, rfl⟩, ?_⟩
        have hself : (freed s₁ s₁.currDel3).delinfos s₁.currDel3 =
          { s₁.delinfos s₁.currDel3 with stat := .empty } := Function.update_self ..
        rw [hself]
    rw [heq₂] at hnew
    obtain ⟨hring, hslot⟩ := @ring_next s₂ ((s₂.currDel3 + 1) % 256) hinv₂.ring
      (by rw [h1, h2]; exact hroom) (.inr ⟨by rw [h1, h3]; exact hround, by rw [h3]; exact hempty, rfl⟩)
    rw [h1] at hring hslot
    refine ⟨_, t₁, own₁, free₂, hnew, hinv₂.cursors hring, hleaves, ?_, hslot⟩
    exact hsame.trans ⟨hsame₂.isKeyLarge, hsame₂.keys, hsame₂.currRec, hsame₂.currKey,
      hsame₂.cacheSize, hsame₂.cache, hsame₂.key⟩
  · rw [if_neg hround] at hnew
    obtain ⟨hring, hslot⟩ := ring_next hinv.ring hroom (.inl ⟨hround, rfl⟩)
    refine ⟨_, t₁, own₁, free, hnew, hinv.cursors hring, hleaves, ?_, hslot⟩
    exact ⟨hsame.isKeyLarge, hsame.keys, hsame.currRec, hsame.currKey, hsame.cacheSize,
      hsame.cache, hsame.key⟩

end Groonga.Pat
