import Groonga.Pat.Again

/-!
# Recovering twice

A log that was recovered, or written out, but not cleared is recovered again on the file from after its
operations. When each of its entries may be done again, that changes nothing.

A deletion below the branch of another record may not: its entry looks at the slots and at the marks of the
nodes, which now are as after it.
-/

namespace Groonga.Pat

open Lib Lib.Patricia Lib.Patricia.Trie

variable {s s' s₁ : GrnPat} {t t' : Trie ℕ} {own own' : ℕ → ℕ} {free free' : ℕ → List ℕ} {lost : Finset ℕ}
  {key : List UInt8} {k : List (Frame ℕ)} {f : Frame ℕ} {i x slot : ℕ} {log es : List WalEntry}

/-! ## Deletions -/

/-- The entry of a deletion at its place. -/
theorem deleteEntryWal_delStateAt (h : Rooted s.nodes s.words (plug (f :: k) (.leaf x)) own) :
    deleteEntryWal s slot (delStateAt (f :: k)) =
      [.deleteEntry x (place (f :: k)) f.check (place k) (checkAbove k) ((s.nodes f.id).lr (!f.dir))
        (s.nGarbages + 1) (s.nEntries - 1) slot s.currDel s.currDel2] := by
  have hload : s.load (delStateAt (f :: k)).p = x := h.lr_dir
  have hprev : (delStateAt (f :: k)).nodePrevious = f.id := rfl
  have hdir : (s.nodes f.id).lr f.dir = x := hload
  have hne := h.lr_ne
  have hside : (if (s.nodes f.id).lr true = x then (s.nodes f.id).lr false
      else (s.nodes f.id).lr true) = (s.nodes f.id).lr (!f.dir) := by
    revert hdir hne
    cases f.dir
    · exact fun _ hne => if_neg hne
    · exact fun hdir _ => if_pos hdir
  have hdiff : ¬ (s.nodes f.id).lr false = (s.nodes f.id).lr true := by
    revert hdir hne
    cases f.dir
    · exact fun hdir hne heq => hne (heq.symm.trans hdir)
    · exact fun hdir hne heq => hne (heq.trans hdir)
  have hcheck : (delStateAt (f :: k)).nodeCheck.toNat = f.check := Int.toNat_natCast f.check
  rw [deleteEntryWal, hload, hprev, hcheck]
  dsimp only
  rw [if_neg hdiff, hside]
  rfl

/-- The step of a deletion at its place. The recovery may have other cursors. -/
theorem steps_deleteEntryWal {n c d : ℕ} (h : Inv s (plug (f :: k) (.leaf x)) own free lost)
    (h' : Rooted s'.nodes s'.words t' own')
    (hredo : recoverAll (deleteEntryWal s slot (delStateAt (f :: k))) (s.withCursors n c d) = some s'.file)
    (halone : x = f.id ∨ SelfLoop s.nodes x) :
    Steps lost log (s.withCursors n c d) (plug (f :: k) (.leaf x)) (deleteEntryWal s slot (delStateAt (f :: k)))
      s'.file t' := by
  rw [deleteEntryWal_delStateAt h.rooted] at hredo ⊢
  rw [recoverAll_singleton] at hredo
  have hknown : ∀ j ∈ (plug (f :: k) (.leaf x)).ids, (s.withCursors n c d).KnownId lost j := fun j hj => h.known hj
  have hrooted' : Rooted s'.file.nodes s'.file.words t' own' := h'
  by_cases hne : x = f.id
  · subst hne
    exact (Step.deleteOwn (s := s.withCursors n c d) h.rooted hknown rfl hredo hrooted').steps
  · exact (Step.deleteAlone (s := s.withCursors n c d) h.rooted hknown hne
      (halone.resolve_left hne) hredo hrooted').steps

/-- **A deletion.** -/
theorem steps_delWal (h : Inv s t own free lost) (h' : Inv s' t' own' free' lost) (hrec : DelRecorded s key)
    {b : Bool} (hdel : _grnPatDel s key = some (s', b)) (hagain : ∀ e ∈ delWal s key, e.Again s log) :
    Steps lost log s.file t (delWal s key) s'.file t' := by
  obtain ⟨s₁, t₁, own₁, free₁, hnew, hinv, -, -, -⟩ := delinfoNew_spec h
  have hredo := recoverAll_delWal_of_recorded h hrec hdel
  obtain ⟨c, d, hsteps, hrooted, hnodes⟩ := steps_delinfoNewWal h
    (fun e he => hagain e (List.mem_append_left _ he)) hnew
  obtain rfl := hrooted.tree_eq hinv.rooted
  -- the search ends as in the operation
  have hlen : lastCheck ([] : List (Frame ℕ)) < (key.length * 16 : ℕ) :=
    Int.negSucc_lt_zero 0 |>.trans_le (Int.natCast_nonneg _)
  have hloop := delLoop_eq (k := []) hinv.rooted.linked hinv.rooted.wf hlen (enoughFuel_start _)
  have hplug := plug_descend (word key) [] t
  rw [_grnPatDel_eq hnew, hloop, Option.bind_some] at hdel
  have hwal : delWal s key = delinfoNewWal s ++
      match delFoundAt s₁ key (descend (word key) [] t) with
      | some st => deleteEntryWal s₁ s.currDel st
      | none => [] := by
    have hloop' : delLoop s₁ key (patCheckPack key.length 0 false) (patCheckPack key.length 0 false + 2)
        ⟨.root, .root, 0, -1, -1⟩ = some (delFoundAt s₁ key (descend (word key) [] t)) := by
      rw [patCheckPack_length]
      exact hloop
    rw [delWal, hnew]
    dsimp only
    rw [hloop']
    cases delFoundAt s₁ key (descend (word key) [] t) <;> rfl
  rw [hwal] at hredo hagain ⊢
  rw [recoverAll_append, hsteps.recoverAll, Option.bind_some] at hredo
  refine hsteps.append ?_
  generalize descend (word key) [] t = r at hplug hdel hredo hagain ⊢
  obtain ⟨k, t₂⟩ := r
  rw [plug_nil] at hplug
  simp only at hplug
  have hmissing : delFoundAt s₁ key (k, t₂) = none → Steps lost (log ++ delinfoNewWal s)
      (s₁.withCursors s₁.currDel c d) t
      (match delFoundAt s₁ key (k, t₂) with
        | some st => deleteEntryWal s₁ s.currDel st
        | none => []) s'.file t' := by
    intro hnone
    rw [hnone] at hdel hredo ⊢
    obtain ⟨rfl, -⟩ := Prod.mk.inj (Option.some.inj hdel)
    exact ⟨Option.some.inj hredo, hinv.rooted.tree_eq h'.rooted⟩
  cases t₂ with
  | nil => exact hmissing rfl
  | node i c child => exact hmissing rfl
  | leaf x =>
    by_cases hx : s₁.keyOf x = key
    · subst hplug
      rw [delFoundAt, if_pos hx] at hredo hagain ⊢
      rcases k with _ | ⟨f, k⟩
      · -- the first node is a branch
        obtain ⟨-, -, hlo⟩ := hinv.rooted.linked
        exact absurd hlo (not_le.mpr (Int.negSucc_lt_zero 0 |>.trans_le (Int.natCast_nonneg _)))
      · refine steps_deleteEntryWal hinv h'.rooted hredo ?_
        dsimp only at hagain
        rw [deleteEntryWal_delStateAt hinv.rooted] at hagain
        have halone : x = f.id ∨ SelfLoop s.nodes x :=
          hagain _ (List.mem_append_right _ (List.mem_singleton_self _))
        refine halone.imp_right fun hloop => ?_
        have hlive : x ∈ (plug (f :: k) (.leaf x)).leaves :=
          mem_plug_leaves.mpr (.inl (Multiset.mem_singleton_self _))
        rw [SelfLoop, hnodes x (mem_ids.mpr (.inr hlive))]
        exact hloop
    · exact hmissing (if_neg hx)

/-! ## Calls -/

/-- A deletion keeps the invariant, and its entries lead to the file after it. -/
theorem steps_delWal_of_inv (h : Inv s t own free lost) (hrec : DelRecorded s key) {b : Bool}
    (hdel : _grnPatDel s key = some (s', b)) (hagain : ∀ e ∈ delWal s key, e.Again s log) :
    ∃ t' own' free', Inv s' t' own' free' lost ∧ Steps lost log s.file t (delWal s key) s'.file t' := by
  obtain ⟨s'', b', t', own', free', hdel', hinv, -, -⟩ := @_grnPatDel_spec s t own free lost key h
  obtain ⟨rfl, rfl⟩ := Prod.mk.inj (Option.some.inj (hdel'.symm.trans hdel))
  exact ⟨t', own', free', hinv, steps_delWal h hinv hrec hdel hagain⟩

/-- **The entries of a call** lead from the file before it to the one after it. -/
theorem steps_opWal (h : Inv s t own free lost) {c : Call} (hrec : (Op.call c).Recorded s log)
    (hagain : ∀ e ∈ opWal s (.call c), e.Again s log) :
    ∃ t' own' free', Inv (op s (.call c)) t' own' free' lost ∧
      Steps lost log s.file t (opWal s (.call c)) (op s (.call c)).file t' := by
  cases c with
  | add key =>
    cases hadd : grnPatAdd s key with
    | some r =>
      obtain ⟨s', id, b⟩ := r
      obtain ⟨t', own', free', hinv, -⟩ := grnPatAdd_spec h hadd
      simp only [op, call, hadd]
      exact ⟨t', own', free', hinv, steps_addWal h hinv hadd hagain⟩
    | none =>
      by_cases hkey : key = [] ∨ maxKeySize < key.length
      · have hnone : opWal s (.call (.add key)) = [] := if_pos hkey
        rw [hnone]
        simp only [op, call, hadd]
        exact ⟨t, own, free, h, rfl, rfl⟩
      · push Not at hkey
        have hsome := grnPatAdd_isSome_of_addRoom h hkey.1 hkey.2 (hrec hkey.1 hkey.2)
        rw [hadd] at hsome
        cases hsome
  | delete key =>
    by_cases hkey : key = []
    · have hnone : opWal s (.call (.delete key)) = [] := if_pos hkey
      have heq : grnPatDelete s key = some (s, false) := if_pos hkey
      rw [hnone]
      simp only [op, call, heq]
      exact ⟨t, own, free, h, rfl, rfl⟩
    · have hwal : opWal s (.call (.delete key)) = delWal s key := if_neg hkey
      obtain ⟨s', b, -, -, -, hdel, -⟩ := @_grnPatDel_spec s t own free lost key h
      have heq : grnPatDelete s key = some (s', b) := (if_neg hkey).trans hdel
      rw [hwal] at hagain ⊢
      simp only [op, call, heq]
      exact steps_delWal_of_inv h (hrec hkey) hdel hagain
  | deleteById id =>
    by_cases hid : id = 0
    · have hnone : opWal s (.call (.deleteById id)) = [] := if_pos hid
      have heq : grnPatDeleteById s id = some (s, false) := if_pos hid
      rw [hnone]
      simp only [op, call, heq]
      exact ⟨t, own, free, h, rfl, rfl⟩
    · have hwal : opWal s (.call (.deleteById id)) = delWal s (_grnPatKey s id) := if_neg hid
      obtain ⟨s', b, -, -, -, hdel, -⟩ := @_grnPatDel_spec s t own free lost (_grnPatKey s id) h
      have heq : grnPatDeleteById s id = some (s', b) := (if_neg hid).trans hdel
      rw [hwal] at hagain ⊢
      simp only [op, call, heq]
      exact steps_delWal_of_inv h (hrec hid) hdel hagain
  | get key => exact ⟨t, own, free, h, rfl, rfl⟩

/-! ## Runs -/

/-- Every entry of a run of calls may be done again: `log` is the log before it. -/
def AllAgain : GrnPat → List WalEntry → List Call → Prop
  | _, _, [] => True
  | s, log, c :: calls => (∀ e ∈ opWal s (.call c), e.Again s log) ∧
      AllAgain (op s (.call c)) (log ++ opWal s (.call c)) calls

instance decidableAllAgain : (s : GrnPat) → (log : List WalEntry) → (calls : List Call) →
    Decidable (AllAgain s log calls)
  | _, _, [] => .isTrue trivial
  | s, log, c :: calls =>
    @instDecidableAnd _ _ inferInstance (decidableAllAgain (op s (.call c)) (log ++ opWal s (.call c)) calls)

/-- The entries of a run of calls are done at once. -/
theorem opsWal_atOnce (s : GrnPat) (calls : List Call) : ∀ e ∈ opsWal s (calls.map .call), e.AtOnce := by
  induction calls generalizing s with
  | nil => exact fun _ he => nomatch he
  | cons c calls ih =>
    intro e he
    rcases List.mem_append.mp he with he | he
    · cases c with
      | add key => exact addWal_atOnce s key e he
      | delete key =>
        rw [opWal] at he
        split_ifs at he
        · cases he
        · exact delWal_atOnce s key e he
      | deleteById id =>
        rw [opWal] at he
        split_ifs at he
        · cases he
        · exact delWal_atOnce s _ e he
      | get key => cases he
    · exact ih _ e he

/-- **The entries of a run** lead from the file before it to the one after it. -/
theorem steps_opsWal {calls : List Call} (h : Inv s t own free lost) (hrec : AllRecorded s log (calls.map .call))
    (hagain : AllAgain s log calls) : ∃ t', Steps lost log s.file t (opsWal s (calls.map .call))
      (runOps s (calls.map .call)).file t' := by
  induction calls generalizing s t own free log with
  | nil => exact ⟨t, rfl, rfl⟩
  | cons c calls ih =>
    obtain ⟨hc, hrest⟩ := hrec
    obtain ⟨hc', hrest'⟩ := hagain
    obtain ⟨t₁, own₁, free₁, hinv, hsteps⟩ := steps_opWal h hc hc'
    obtain ⟨t', hsteps'⟩ := ih hinv hrest hrest'
    exact ⟨t', hsteps.append hsteps'⟩

/-- The recovery from the file after the operations changes nothing. -/
def RecoversAgain (s : GrnPat) (ops : List Op) : Prop :=
  grnPatWalRecover (runOps s ops).file (opsWal s ops) = some (runOps s ops).file

/-- **A run whose entries may be done again is recovered again.** -/
theorem recoversAgain_of_allAgain (isKeyLarge : Bool) (cacheSize : ℕ) (ops₀ : List Op) (calls : List Call)
    (hrec : AllRecorded (runOps (grnPatCreate isKeyLarge cacheSize) ops₀) [] (calls.map .call))
    (hagain : AllAgain (runOps (grnPatCreate isKeyLarge cacheSize) ops₀) [] calls) :
    RecoversAgain (runOps (grnPatCreate isKeyLarge cacheSize) ops₀) (calls.map .call) := by
  obtain ⟨t, own, free, lost, hinv⟩ := (inv_grnPatCreate isKeyLarge cacheSize).runOps ops₀
  generalize runOps (grnPatCreate isKeyLarge cacheSize) ops₀ = s at *
  obtain ⟨t', hsteps⟩ := steps_opsWal hinv hrec hagain
  have hloop := @recoverLoop_append (runOps s (calls.map .call)).file 1 _ [] (opsWal s (calls.map .call))
    (opsWal_atOnce s calls) 0
  rw [List.append_nil, hsteps.recoverAll_again, Option.bind_some] at hloop
  exact hloop

/-- Two keys are added, and deleted with their own branches. -/
def ownCalls : List Call := [.add [97], .add [98], .delete [98], .delete [97]]

theorem recoversAgain_ownCalls : RecoversAgain (grnPatCreate false 0) (ownCalls.map .call) := by
  refine recoversAgain_of_allAgain false 0 [] ownCalls ⟨fun _ _ _ => .inr ?_, fun _ _ _ => .inr ?_, fun _ => ?_,
    fun _ => ?_, trivial⟩ ?_
  · decide +kernel
  · decide +kernel
  · exact ⟨by decide +kernel, by decide +kernel⟩
  · exact ⟨by decide +kernel, by decide +kernel⟩
  · decide +kernel

/-- Three keys are in the table, and the second one is deleted below the branch of another record. -/
def belowOps : List Op := [.call (.delete [98])]

/-- The slot of the deletion waits for the second phase. The recovery finds the record marked, takes the slot
for the one of an earlier deletion, and leaves it in the second phase. -/
theorem not_recoversAgain_belowOps : ¬ RecoversAgain (runOps (grnPatCreate false 0)
    [.call (.add [97]), .call (.add [98]), .call (.add [99])]) belowOps := by
  intro h
  have hstat : ((runOps (runOps (grnPatCreate false 0) [.call (.add [97]), .call (.add [98]), .call (.add [99])])
      belowOps).delinfos 0).stat = .phase1 := by decide +kernel
  have hrecovered : (grnPatWalRecover (runOps (runOps (grnPatCreate false 0)
      [.call (.add [97]), .call (.add [98]), .call (.add [99])]) belowOps).file
      (opsWal (runOps (grnPatCreate false 0) [.call (.add [97]), .call (.add [98]), .call (.add [99])])
        belowOps)).map (fun r => (r.delinfos 0).stat) = some .phase2 := by decide +kernel
  rw [h, Option.map_some] at hrecovered
  exact absurd (hstat.symm.trans (Option.some.inj hrecovered)) (by decide)

end Groonga.Pat
