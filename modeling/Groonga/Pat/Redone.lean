import Groonga.Pat.Changes

/-!
# Doing the entries of a run again

A run leads from the file before it, over the states after each of its entries, to the file after it. The
recovery of the file from after the run is led along these states: every cell of its file is as in the
state of the run, or as it is in the end, or it will be written as a whole.

For this the run must not change certain cells: the check of a branch while it is one, the links of a node
that is not in the tree, and the bytes of a key.
-/

namespace Groonga.Pat

open Lib Lib.Patricia Lib.Patricia.Trie

variable {s s' s₁ n r r' : GrnPat} {t t' t₁ : Trie ℕ} {tn : Trie ℕ} {lost : Finset ℕ}
  {id i j o : ℕ} {d : Bool} {p : Loc} {e : WalEntry}
  {log es es' : List WalEntry}

/-! ## The steps of a run -/

/-- What an entry refers to. -/
def WalEntry.Fits (lost : Finset ℕ) (s : GrnPat) (t t' : Trie ℕ) : WalEntry → Prop
  | .addEntry id .. => id = s.currRec + 1
  | .reuseEntry id .. => s.KnownId lost id ∧ id ∉ t.ids
  | .deleteInfoPhase3 id .. => s.KnownId lost id ∧ id ∉ t.ids
  | .deleteEntry id location _ parentLocation _ othersideId .. =>
    s.KnownId lost id ∧ id ∈ t.ids ∧ id ∉ t'.ids ∧ (id = location.node → othersideId ≠ 0 →
      othersideId ∈ t.ids ∧ s.KnownId lost othersideId ∧
        (parentLocation = .root → othersideId ∈ t'.inner))
  | _ => True

/-- **An entry of a run**, with the tree before and after it. -/
structure Step (lost : Finset ℕ) (log : List WalEntry) (s : GrnPat) (t : Trie ℕ) (e : WalEntry) (s' : GrnPat)
    (t' : Trie ℕ) : Prop where
  redo : recoverEntry s e = some s'
  large : s'.isKeyLarge = s.isKeyLarge
  again : e.Again s log
  fits : e.Fits lost s t t'
  known : ∀ j, s.KnownId lost j → s'.KnownId lost j
  /-- Only outputs get another check. -/
  check : ∀ j, e.target ≠ some j → (s'.nodes j).check = (s.nodes j).check ∨
    (s'.nodes j).check = 0 ∧ j ∈ t.ids ∧ j ∉ t.inner
  inner : ∀ j, e.target ≠ some j → j ∈ t.inner → j ∈ t'.inner ∨ j ∉ t'.ids
  gone : ∀ j, e.target ≠ some j → j ∉ t.ids → j ∉ t'.ids
  /-- Nodes that are not in the tree keep their links. -/
  lr : ∀ j, j ≠ 0 → j ∉ t.ids → e.target ≠ some j → e.freed ≠ some j → (s'.nodes j).lr = (s.nodes j).lr
  key : ∀ j, s.KnownId lost j → e.target ≠ some j →
    (s'.nodes j).key = (s.nodes j).key ∧ s'.keyOf j = s.keyOf j
  shape : ∀ j, s.KnownId lost j → (s'.nodes j).key.shape = (s.nodes j).key.shape

/-- **The entries of a run**, from a state with a tree to another one. -/
def Steps (lost : Finset ℕ) : List WalEntry → GrnPat → Trie ℕ → List WalEntry → GrnPat → Trie ℕ → Prop
  | _, s, t, [], n, tn => s = n ∧ t = tn
  | log, s, t, e :: es, n, tn => ∃ s' t', Step lost log s t e s' t' ∧ Steps lost (log ++ [e]) s' t' es n tn

theorem Steps.append (h : Steps lost log s t es s₁ t₁) (h' : Steps lost (log ++ es) s₁ t₁ es' n tn) :
    Steps lost log s t (es ++ es') n tn := by
  induction es generalizing log s t with
  | nil =>
    obtain ⟨rfl, rfl⟩ := h
    rwa [List.append_nil] at h'
  | cons e es ih =>
    obtain ⟨s', t', hstep, hrest⟩ := h
    refine ⟨s', t', hstep, ih hrest ?_⟩
    rwa [List.append_assoc]

/-- The run is recovered from its beginning. -/
theorem Steps.recoverAll (h : Steps lost log s t es n tn) : recoverAll es s = some n := by
  induction es generalizing log s t with
  | nil =>
    obtain ⟨rfl, -⟩ := h
    rfl
  | cons e es ih =>
    obtain ⟨s', t', hstep, hrest⟩ := h
    rw [Pat.recoverAll, redoAll, hstep.redo]
    exact ih hrest

theorem Steps.large (h : Steps lost log s t es n tn) : n.isKeyLarge = s.isKeyLarge := by
  induction es generalizing log s t with
  | nil =>
    obtain ⟨rfl, -⟩ := h
    rfl
  | cons e es ih =>
    obtain ⟨s', t', hstep, hrest⟩ := h
    rw [ih hrest, hstep.large]

/-! ## What a run keeps -/

theorem not_target_cons (h : ¬ ∃ e' ∈ e :: es, e'.target = some j) :
    e.target ≠ some j ∧ ¬ ∃ e' ∈ es, e'.target = some j :=
  ⟨fun he => h ⟨e, List.mem_cons_self, he⟩, fun ⟨e', he', htarget⟩ => h ⟨e', List.mem_cons_of_mem _ he', htarget⟩⟩

/-- A check is kept or reset. -/
theorem Steps.check (h : Steps lost log s t es n tn) (hj : ¬ ∃ e ∈ es, e.target = some j) :
    (n.nodes j).check = (s.nodes j).check ∨ (n.nodes j).check = 0 := by
  induction es generalizing log s t with
  | nil =>
    obtain ⟨rfl, -⟩ := h
    exact .inl rfl
  | cons e es ih =>
    obtain ⟨s', t', hstep, hrest⟩ := h
    obtain ⟨he, hes⟩ := not_target_cons hj
    rcases ih hrest hes with hsame | hzero
    · rw [hsame]
      exact (hstep.check j he).imp_right And.left
    · exact .inr hzero

/-- The check of a branch is kept, also when it is no longer in the tree. -/
theorem Steps.check_eq (h : Steps lost log s t es n tn) (hj : ¬ ∃ e ∈ es, e.target = some j)
    (hin : j ∈ t.inner ∨ j ∉ t.ids) : (n.nodes j).check = (s.nodes j).check := by
  induction es generalizing log s t with
  | nil =>
    obtain ⟨rfl, -⟩ := h
    rfl
  | cons e es ih =>
    obtain ⟨s', t', hstep, hrest⟩ := h
    obtain ⟨he, hes⟩ := not_target_cons hj
    have hcheck : (s'.nodes j).check = (s.nodes j).check := by
      refine (hstep.check j he).resolve_right ?_
      rintro ⟨-, hids, hout⟩
      exact hin.elim hout fun hno => hno hids
    rw [ih hrest hes (hin.elim (hstep.inner j he) fun hno => .inr (hstep.gone j he hno)), hcheck]

/-- The links of a node that is not in the tree are kept until it is given back. -/
theorem Steps.lr (h : Steps lost log s t es n tn) (hj : ¬ ∃ e ∈ es, e.target = some j)
    (hfreed : ¬ ∃ e ∈ es, e.freed = some j) (hj0 : j ≠ 0) (hout : j ∉ t.ids) :
    (n.nodes j).lr = (s.nodes j).lr := by
  induction es generalizing log s t with
  | nil =>
    obtain ⟨rfl, -⟩ := h
    rfl
  | cons e es ih =>
    obtain ⟨s', t', hstep, hrest⟩ := h
    obtain ⟨he, hes⟩ := not_target_cons hj
    have hfreed' : ¬ ∃ e ∈ es, e.freed = some j := fun ⟨e', he', h⟩ => hfreed ⟨e', List.mem_cons_of_mem _ he', h⟩
    rw [ih hrest hes hfreed' (hstep.gone j he hout),
      hstep.lr j hj0 hout he fun h => hfreed ⟨e, List.mem_cons_self, h⟩]

/-- A key is kept until its node is used again. -/
theorem Steps.key (h : Steps lost log s t es n tn) (hj : ¬ ∃ e ∈ es, e.target = some j)
    (hknown : s.KnownId lost j) : (n.nodes j).key = (s.nodes j).key ∧ n.keyOf j = s.keyOf j := by
  induction es generalizing log s t with
  | nil =>
    obtain ⟨rfl, -⟩ := h
    exact ⟨rfl, rfl⟩
  | cons e es ih =>
    obtain ⟨s', t', hstep, hrest⟩ := h
    obtain ⟨he, hes⟩ := not_target_cons hj
    obtain ⟨hkey, hkeyOf⟩ := hstep.key j hknown he
    obtain ⟨hkey', hkeyOf'⟩ := ih hrest hes (hstep.known j hknown)
    exact ⟨hkey'.trans hkey, hkeyOf'.trans hkeyOf⟩

/-- The place of a key is kept for ever. -/
theorem Steps.shape (h : Steps lost log s t es n tn) (hknown : s.KnownId lost j) :
    (n.nodes j).key.shape = (s.nodes j).key.shape := by
  induction es generalizing log s t with
  | nil =>
    obtain ⟨rfl, -⟩ := h
    rfl
  | cons e es ih =>
    obtain ⟨s', t', hstep, hrest⟩ := h
    rw [ih hrest (hstep.known j hknown), hstep.shape j hknown]

/-- A node that was given back is not in the tree. -/
theorem Step.givenBack (hstep : Step lost log s t e s' t')
    (hback : ∀ j ∈ givenBack log, s.KnownId lost j ∧ j ∉ t.ids) :
    ∀ j ∈ givenBack (log ++ [e]), s'.KnownId lost j ∧ j ∉ t'.ids := by
  intro j hj
  rw [givenBack_append] at hj
  have hkeep : j ∈ Pat.givenBack log → e.target ≠ some j → s'.KnownId lost j ∧ j ∉ t'.ids := fun hj he =>
    ⟨hstep.known j (hback j hj).1, hstep.gone j he (hback j hj).2⟩
  have hfits := hstep.fits
  cases e with
  | addEntry id =>
    refine hkeep hj fun htarget => ?_
    have hle := (hback j hj).1.2.1
    rw [← Option.some.inj htarget, show id = s.currRec + 1 from hfits] at hle
    exact Nat.not_succ_le_self _ hle
  | reuseEntry id =>
    obtain ⟨hj, hne⟩ := List.mem_filter.mp hj
    exact hkeep hj fun htarget => of_decide_eq_true hne (Option.some.inj htarget).symm
  | deleteInfoPhase3 id =>
    rcases List.mem_cons.mp hj with rfl | hj
    · exact ⟨hstep.known j hfits.1, hstep.gone j nofun hfits.2⟩
    · exact hkeep hj nofun
  | _ => exact hkeep hj nofun

/-- A record that was deleted below another branch is left alone. -/
theorem Steps.untouched (h : Steps lost log s t es n tn) (hbelow : ∃ e ∈ log, e.deletedBelow = some j)
    (hback : j ∉ givenBack log) (hknown : s.KnownId lost j) :
    (¬ ∃ e ∈ es, e.target = some j) ∧ ¬ ∃ e ∈ es, e.freed = some j := by
  induction es generalizing log s t with
  | nil =>
    constructor
    · rintro ⟨e, he, -⟩
      cases he
    · rintro ⟨e, he, -⟩
      cases he
  | cons e es ih =>
    obtain ⟨s', t', hstep, hrest⟩ := h
    have htarget : e.target ≠ some j := by
      intro htarget
      have hfits := hstep.fits
      have hagain := hstep.again
      cases e with
      | addEntry id =>
        obtain rfl := Option.some.inj htarget
        have hle := hknown.2.1
        rw [show id = s.currRec + 1 from hfits] at hle
        exact Nat.not_succ_le_self _ hle
      | reuseEntry id =>
        obtain rfl := Option.some.inj htarget
        exact hback hagain
      | _ => cases htarget
    have hfreed : e.freed ≠ some j := by
      intro hfreed
      have hagain := hstep.again
      cases e with
      | deleteInfoPhase3 id =>
        obtain rfl := Option.some.inj hfreed
        obtain ⟨e', he', hbelow'⟩ := hbelow
        exact hagain e' he' hbelow'
      | _ => cases hfreed
    have hback' : j ∉ givenBack (log ++ [e]) := by
      rw [givenBack_append]
      cases e with
      | reuseEntry id => exact fun hj => hback (List.mem_filter.mp hj).1
      | deleteInfoPhase3 id => exact List.not_mem_cons_of_ne_of_not_mem (fun hj => hfreed (congrArg some hj.symm)) hback
      | _ => exact hback
    obtain ⟨e', he', hbelow'⟩ := hbelow
    obtain ⟨h1, h2⟩ := ih hrest ⟨e', List.mem_append_left _ he', hbelow'⟩ hback' (hstep.known j hknown)
    constructor
    · rintro ⟨e'', he'', h⟩
      rcases List.mem_cons.mp he'' with rfl | he''
      · exact htarget h
      · exact h1 ⟨e'', he'', h⟩
    · rintro ⟨e'', he'', h⟩
      rcases List.mem_cons.mp he'' with rfl | he''
      · exact hfreed h
      · exact h2 ⟨e'', he'', h⟩

/-! ## The recovery beside the run -/

/-- **The recovered file beside a state of the run**: the cells are as there, or as in the end, or they
will be written as a whole. The nodes that were given back are linked as in the run. -/
structure Beside (log : List WalEntry) (s : GrnPat) (es : List WalEntry) (n r : GrnPat) : Prop where
  large : r.isKeyLarge = s.isKeyLarge
  cacheSize : r.cacheSize = n.cacheSize
  cache : r.cache = n.cache
  cells : MixedBut (Cell.Later es) GrnPat.cell s n r
  back : ∀ j ∈ givenBack log, (r.nodes j).lr false = (s.nodes j).lr false

/-- The place of a key is the same. -/
theorem Beside.shape (h : Beside log s es n r) (hsteps : Steps lost log s t es n tn)
    (hknown : s.KnownId lost j) : (r.nodes j).key.shape = (s.nodes j).key.shape := by
  rcases h.cells (.key j) (fun hno => hno) with hkey | hkey
  · rw [Value.key.inj hkey]
  · rw [Value.key.inj hkey, hsteps.shape hknown]

/-- The key of a record that is not used again is the same. -/
theorem Beside.keyOf (h : Beside log s es n r) (hsteps : Steps lost log s t es n tn)
    (hknown : s.KnownId lost j) (hj : ¬ ∃ e ∈ es, e.target = some j) : r.keyOf j = s.keyOf j := by
  obtain ⟨hkey, hkeyOf⟩ := hsteps.key hj hknown
  have hkey' : (r.nodes j).key = (s.nodes j).key := by
    rcases h.cells (.key j) (fun hno => hno) with h | h
    · exact Value.key.inj h
    · exact (Value.key.inj h).trans hkey
  rw [GrnPat.keyOf, GrnPat.keyOf] at hkeyOf ⊢
  cases hk : (s.nodes j).key with
  | immediate key =>
    rw [nodeKey_immediate (hkey'.trans hk), nodeKey_immediate hk]
  | stored offset length =>
    rw [nodeKey_stored (hkey.trans hk), nodeKey_stored hk, bytesAt, bytesAt] at hkeyOf
    rw [nodeKey_stored (hkey'.trans hk), nodeKey_stored hk, bytesAt, bytesAt]
    refine List.map_congr_left fun a ha => ?_
    have hbyte := List.map_inj_left.mp hkeyOf a ha
    rcases h.cells (.byte (offset + a)) (fun hno => hno) with h | h
    · exact Value.byte.inj h
    · exact (Value.byte.inj h).trans hbyte

/-! ## Entries beside the run -/

/-- Only the new file has other cells. -/
theorem Beside.next (h : Beside log s (e :: es) n r) (hlarge : r'.isKeyLarge = s'.isKeyLarge)
    (hsize : r'.cacheSize = r.cacheSize) (hcache : r'.cache = r.cache)
    (hcells : ∀ c : Cell, ¬ c.Later es → r'.cell c = s'.cell c ∨ r'.cell c = n.cell c ∨
      ¬ c.Later (e :: es) ∧ s'.cell c = s.cell c ∧ r'.cell c = r.cell c)
    (hback : ∀ j ∈ givenBack (log ++ [e]), (r'.nodes j).lr false = (s'.nodes j).lr false) :
    Beside (log ++ [e]) s' es n r' where
  large := hlarge
  cacheSize := hsize.trans h.cacheSize
  cache := hcache.trans h.cache
  cells := h.cells.step hcells
  back := hback

section Put

variable {key : List UInt8} {check previousId : ℕ} {k : StoredKey}

/-- A record is put at the same link of two tables. -/
theorem putNodes_cells {c : Cell} (hs : s'.nodes = putNodes s.nodes id p key check previousId k)
    (hr : r'.nodes = putNodes r.nodes id p key check previousId k) (he : e.target = some id)
    (hc : ¬ c.Later es) (hkind : (∃ j, c = .key j) ∨ (∃ j, c = .deleting j) ∨ (∃ j, c = .check j) ∨
      ∃ j d, c = .link j d) :
    r'.cell c = s'.cell c ∨ r'.cell c = n.cell c ∨
      ¬ c.Later (e :: es) ∧ s'.cell c = s.cell c ∧ r'.cell c = r.cell c := by
  have hlater : ∀ j d, j ≠ id → (c = .check j ∨ c = .link j d) → ¬ c.Later (e :: es) := by
    rintro j d hj (rfl | rfl)
    · exact not_later_cons_target hc he nofun fun h => hj (Cell.check.inj h)
    · exact not_later_cons_target hc he (fun d' h => hj (Cell.link.inj h).1) nofun
  rcases hkind with ⟨j, rfl⟩ | ⟨j, rfl⟩ | ⟨j, rfl⟩ | ⟨j, d, rfl⟩
  · by_cases hj : j = id
    · left
      simp only [GrnPat.cell, hs, hr, putNodes, if_pos hj]
    · right; right
      simp only [GrnPat.cell, hs, hr, putNodes, if_neg hj]
      exact ⟨fun h => h, trivial, trivial⟩
  · by_cases hj : j = id
    · left
      simp only [GrnPat.cell, hs, hr, putNodes, if_pos hj]
    · right; right
      simp only [GrnPat.cell, hs, hr, putNodes, if_neg hj]
      exact ⟨fun h => h, trivial, trivial⟩
  · by_cases hj : j = id
    · left
      simp only [GrnPat.cell, hs, hr, putNodes, if_pos hj]
    · right; right
      refine ⟨hlater j false hj (.inl rfl), ?_⟩
      simp only [GrnPat.cell, hs, hr, putNodes, if_neg hj]
      exact ⟨trivial, trivial⟩
  · by_cases hp : p = ⟨j, d⟩
    · left
      simp only [GrnPat.cell, hs, hr, putNodes, if_pos hp]
    by_cases hj : j = id
    · left
      simp only [GrnPat.cell, hs, hr, putNodes, if_neg hp, if_pos hj]
    · right; right
      refine ⟨hlater j d hj (.inr rfl), ?_⟩
      simp only [GrnPat.cell, hs, hr, putNodes, if_neg hp, if_neg hj]
      exact ⟨trivial, trivial⟩

/-- A node that was given back is linked alike. -/
theorem putNodes_back {j : ℕ} (hs : s'.nodes = putNodes s.nodes id p key check previousId k)
    (hr : r'.nodes = putNodes r.nodes id p key check previousId k)
    (hj : (r.nodes j).lr false = (s.nodes j).lr false) : (r'.nodes j).lr false = (s'.nodes j).lr false := by
  simp only [hs, hr, putNodes, hj]

end Put

/-- The bytes of a key are written at the same place of two key areas. -/
theorem writeKey_eq_or (keys keys' : ℕ → UInt8) (offset : ℕ) (key : List UInt8) (a : ℕ) :
    writeKey keys' offset key a = writeKey keys offset key a ∨
      writeKey keys offset key a = keys a ∧ writeKey keys' offset key a = keys' a := by
  unfold writeKey
  by_cases ha : offset ≤ a ∧ a < offset + key.length
  · left
    rw [if_pos ha, if_pos ha]
  · right
    rw [if_neg ha, if_neg ha]
    exact ⟨rfl, rfl⟩

/-- **An addition** is done again. -/
theorem Beside.addEntry {key : List UInt8} {keyOffset check nEntries previousId : ℕ}
    (h : Beside log s (.addEntry id p key keyOffset check nEntries previousId :: es) n r)
    (hredo : recoverEntry s (.addEntry id p key keyOffset check nEntries previousId) = some s') :
    ∃ r', recoverEntry r (.addEntry id p key keyOffset check nEntries previousId) = some r' ∧
      Beside (log ++ [.addEntry id p key keyOffset check nEntries previousId]) s' es n r' := by
  obtain ⟨k, currKey, write, hwrite, heq⟩ := recoverAddEntry_eq hredo
  obtain rfl := Option.some.inj (hredo.symm.trans (heq s rfl))
  refine ⟨_, heq r h.large, h.next h.large rfl rfl (fun c hc => ?_) fun j hj => ?_⟩
  · cases c with
    | nEntries => exact .inl rfl
    | currRec => exact .inl rfl
    | currKey => exact .inl rfl
    | byte a =>
      rcases hwrite with hwrite | ⟨o, hwrite⟩
      · simp only [GrnPat.cell, hwrite]
        exact .inr (.inr ⟨fun h => h, trivial, trivial⟩)
      · simp only [GrnPat.cell, hwrite]
        rcases writeKey_eq_or s.keys r.keys o key a with hsame | ⟨hs, hr⟩
        · exact .inl (congrArg Value.byte hsame)
        · exact .inr (.inr ⟨fun h => h, congrArg Value.byte hs, congrArg Value.byte hr⟩)
    | key j => exact putNodes_cells rfl rfl rfl hc (.inl ⟨j, rfl⟩)
    | deleting j => exact putNodes_cells rfl rfl rfl hc (.inr (.inl ⟨j, rfl⟩))
    | check j => exact putNodes_cells rfl rfl rfl hc (.inr (.inr (.inl ⟨j, rfl⟩)))
    | link j d => exact putNodes_cells rfl rfl rfl hc (.inr (.inr (.inr ⟨j, d, rfl⟩)))
    | _ => exact .inr (.inr ⟨fun h => h, rfl, rfl⟩)
  · rw [givenBack_append] at hj
    exact putNodes_back rfl rfl (h.back j hj)

/-- A key is put into the place of another one. -/
theorem recycled_eq {k k' : StoredKey} {key : List UInt8} (h : k'.shape = k.shape) :
    k'.recycled key = k.recycled key := by
  cases k <;> cases k' <;> cases h <;> rfl

theorem written_eq_or {k k' : StoredKey} {key : List UInt8} (h : k'.shape = k.shape) (keys keys' : ℕ → UInt8)
    (a : ℕ) : k'.written keys' key a = k.written keys key a ∨
      k.written keys key a = keys a ∧ k'.written keys' key a = keys' a := by
  cases k with
  | immediate old =>
    cases k' with
    | immediate => exact .inr ⟨rfl, rfl⟩
    | stored => cases h
  | stored offset length =>
    cases k' with
    | immediate => cases h
    | stored =>
      cases h
      exact writeKey_eq_or keys keys' offset key a

/-- **A reuse** is done again: the node has the same place for its key, and the same next free node. -/
theorem Beside.reuseEntry {key : List UInt8} {check next nGarbages nEntries previousId : ℕ}
    (h : Beside log s (.reuseEntry id p key check next nGarbages nEntries previousId :: es) n r)
    (hshape : (r.nodes id).key.shape = (s.nodes id).key.shape) (hback : id ∈ givenBack log) :
    Beside (log ++ [.reuseEntry id p key check next nGarbages nEntries previousId])
      (recoverReuseEntry s id p key check nGarbages nEntries previousId) es n
      (recoverReuseEntry r id p key check nGarbages nEntries previousId) := by
  have hnext : ((r.store p previousId).nodes id).lr false = ((s.store p previousId).nodes id).lr false := by
    rw [store_lr, store_lr, h.back id hback]
  have hkey : (r.nodes id).key.recycled key = (s.nodes id).key.recycled key := recycled_eq hshape
  have hlarge := h.large
  rw [recoverReuseEntry_eq, recoverReuseEntry_eq, hnext, hkey, hlarge]
  refine h.next rfl rfl rfl (fun c hc => ?_) fun j hj => ?_
  · cases c with
    | nEntries => exact .inl rfl
    | nGarbages => exact .inl rfl
    | garbage size =>
      by_cases hsize : size = patKeyStorageSize s.isKeyLarge key.length
      · left
        simp only [GrnPat.cell, hsize, Function.update_self]
      · right; right
        simp only [GrnPat.cell, Function.update_of_ne hsize]
        exact ⟨fun h => h, trivial, trivial⟩
    | byte a =>
      rcases written_eq_or hshape s.keys r.keys a with hsame | ⟨hs, hr⟩
      · exact .inl (congrArg Value.byte hsame)
      · exact .inr (.inr ⟨fun h => h, congrArg Value.byte hs, congrArg Value.byte hr⟩)
    | key j => exact putNodes_cells rfl rfl rfl hc (.inl ⟨j, rfl⟩)
    | deleting j => exact putNodes_cells rfl rfl rfl hc (.inr (.inl ⟨j, rfl⟩))
    | check j => exact putNodes_cells rfl rfl rfl hc (.inr (.inr (.inl ⟨j, rfl⟩)))
    | link j d => exact putNodes_cells rfl rfl rfl hc (.inr (.inr (.inr ⟨j, d, rfl⟩)))
    | _ => exact .inr (.inr ⟨fun h => h, rfl, rfl⟩)
  · rw [givenBack_append] at hj
    exact putNodes_back rfl rfl (h.back j (List.mem_filter.mp hj).1)

/-- **A new slot** is taken again. -/
theorem Beside.deleteInfoPhase1 (h : Beside log s (.deleteInfoPhase1 i :: es) n r) :
    Beside (log ++ [.deleteInfoPhase1 i]) (recoverDeleteInfoPhase1 s i) es n (recoverDeleteInfoPhase1 r i) := by
  refine h.next h.large rfl rfl (fun c hc => ?_) fun j hj => ?_
  · have hlater : ¬ c.Later (.deleteInfoPhase1 i :: es) := not_later_cons hc rfl
    cases c with
    | currDel => exact .inl rfl
    | _ => exact .inr (.inr ⟨hlater, rfl, rfl⟩)
  · rw [givenBack_append] at hj
    exact h.back j hj

/-- What the third phase writes. -/
theorem recoverDeleteInfoPhase3_eq (s : GrnPat) (id next i : ℕ) :
    recoverDeleteInfoPhase3 s id next i = { s.store ⟨id, false⟩ next with
      currDel3 := (i + 1) % nDelinfos
      delinfos := Function.update s.delinfos i { s.delinfos i with d := id, stat := .empty }
      garbages := Function.update s.garbages (s.nodes id).key.storageSize id } := by
  generalize hs₁ : ({ ({ s with currDel3 := i } : GrnPat).setDelinfo i
      { ({ s with currDel3 := i } : GrnPat).delinfos i with d := id, stat := .phase2 } with
      garbages := Function.update s.garbages (s.nodes id).key.storageSize next } : GrnPat) = s₁
  have heq : recoverDeleteInfoPhase3 s id next i =
      { delinfoTurn3 s₁ i with currDel3 := ((delinfoTurn3 s₁ i).currDel3 + 1) % nDelinfos } := by
    rw [← hs₁]
    rfl
  have hslot : s₁.delinfos i = { s.delinfos i with d := id, stat := .phase2 } := by
    rw [← hs₁]
    exact Function.update_self ..
  have hturn : delinfoTurn3 s₁ i = freed s₁ i := delinfoTurn3_eq (by rw [hslot])
  have hnext : s₁.garbages (s.nodes id).key.storageSize = next := by
    rw [← hs₁]
    exact Function.update_self ..
  have hnodes : s₁.nodes = s.nodes := by rw [← hs₁]; rfl
  have hrest : s₁.currDel3 = i := by rw [← hs₁]; rfl
  have hdelinfos : Function.update s₁.delinfos i { s₁.delinfos i with stat := .empty } =
      Function.update s.delinfos i { s.delinfos i with d := id, stat := .empty } := by
    rw [hslot, ← hs₁]
    exact Function.update_idem ..
  have hgarbages : Function.update s₁.garbages (s.nodes id).key.storageSize id =
      Function.update s.garbages (s.nodes id).key.storageSize id := by
    rw [← hs₁]
    exact Function.update_idem ..
  rw [heq, hturn, freed, hslot, GrnPat.setDelinfo, GrnPat.store, GrnPat.modify]
  simp only [hnodes, hnext, hgarbages, hrest]
  rw [hslot] at hdelinfos
  simp only [hdelinfos]
  rw [← hs₁]
  rfl

/-- **A node is given back** again. -/
theorem Beside.deleteInfoPhase3 {next : ℕ} (h : Beside log s (.deleteInfoPhase3 id next i :: es) n r)
    (hshape : (r.nodes id).key.shape = (s.nodes id).key.shape) :
    Beside (log ++ [.deleteInfoPhase3 id next i]) (recoverDeleteInfoPhase3 s id next i) es n
      (recoverDeleteInfoPhase3 r id next i) := by
  have hsize : (r.nodes id).key.storageSize = (s.nodes id).key.storageSize := by
    generalize (r.nodes id).key = k' at hshape
    generalize (s.nodes id).key = k at hshape
    cases k <;> cases k' <;> cases hshape <;> rfl
  rw [recoverDeleteInfoPhase3_eq, recoverDeleteInfoPhase3_eq, hsize]
  refine h.next h.large rfl rfl (fun c hc => ?_) fun j hj => ?_
  · have hlater : ¬ c.Later (.deleteInfoPhase3 id next i :: es) := not_later_cons hc rfl
    cases c with
    | currDel3 => exact .inl rfl
    | slotD j =>
      by_cases hj : j = i
      · left
        simp only [GrnPat.cell, hj, Function.update_self]
      · right; right
        simp only [GrnPat.cell, Function.update_of_ne hj]
        exact ⟨hlater, trivial, trivial⟩
    | slotLd j =>
      right; right
      by_cases hj : j = i
      · simp only [GrnPat.cell, hj, Function.update_self]
        exact ⟨hlater, trivial, trivial⟩
      · simp only [GrnPat.cell, Function.update_of_ne hj]
        exact ⟨hlater, trivial, trivial⟩
    | slotStat j =>
      by_cases hj : j = i
      · left
        simp only [GrnPat.cell, hj, Function.update_self]
      · right; right
        simp only [GrnPat.cell, Function.update_of_ne hj]
        exact ⟨hlater, trivial, trivial⟩
    | garbage size =>
      by_cases hj : size = (s.nodes id).key.storageSize
      · left
        simp only [GrnPat.cell, hj, Function.update_self]
      · right; right
        simp only [GrnPat.cell, Function.update_of_ne hj]
        exact ⟨hlater, trivial, trivial⟩
    | key j => exact .inr (.inr ⟨hlater, congrArg Value.key store_key, congrArg Value.key store_key⟩)
    | deleting j =>
      exact .inr (.inr ⟨hlater, congrArg Value.flag store_deleting, congrArg Value.flag store_deleting⟩)
    | check j => exact .inr (.inr ⟨hlater, congrArg Value.nat store_check, congrArg Value.nat store_check⟩)
    | link j d =>
      by_cases hj : (⟨id, false⟩ : Loc) = ⟨j, d⟩
      · left
        show Value.nat (((r.store ⟨id, false⟩ next).nodes j).lr d) = .nat (((s.store ⟨id, false⟩ next).nodes j).lr d)
        rw [store_lr, store_lr, if_pos hj, if_pos hj]
      · exact .inr (.inr ⟨hlater, congrArg Value.nat (store_lr_of_ne hj), congrArg Value.nat (store_lr_of_ne hj)⟩)
    | _ => exact .inr (.inr ⟨hlater, rfl, rfl⟩)
  · show ((r.store ⟨id, false⟩ next).nodes j).lr false = ((s.store ⟨id, false⟩ next).nodes j).lr false
    rw [givenBack_append] at hj
    rw [store_lr, store_lr]
    by_cases hj' : (⟨id, false⟩ : Loc) = ⟨j, false⟩
    · rw [if_pos hj', if_pos hj']
    · rw [if_neg hj', if_neg hj']
      exact h.back j ((List.mem_cons.mp hj).resolve_left fun heq => hj' (by rw [heq]))

section Delete

variable {check check0 nGarbages nEntries slot phase1 phase2 : ℕ} {p0 : Loc}

/-- The cells that a deletion writes beside the tree. -/
def deletedAt (s : GrnPat) (slot id nGarbages nEntries phase1 phase2 : ℕ) (nodes : ℕ → Node) : GrnPat :=
  { s with
    nodes := nodes
    nEntries := nEntries
    nGarbages := nGarbages
    currDel := phase1
    currDel2 := phase2
    delinfos := Function.update s.delinfos slot { s.delinfos slot with d := id, stat := .phase2 } }

/-- Beside the tree a deletion is done again. -/
theorem Beside.deletedAt {nodes nodes' : ℕ → Node}
    (h : Beside log s (e :: es) n r) (he : e.target = none) (hgiven : givenBack (log ++ [e]) = givenBack log)
    (hkept : ∀ j, (nodes j).key = (s.nodes j).key ∧ (nodes j).deleting = (s.nodes j).deleting)
    (hkept' : ∀ j, (nodes' j).key = (r.nodes j).key ∧ (nodes' j).deleting = (r.nodes j).deleting)
    (hcheck : ∀ j, (¬ ∃ e ∈ es, e.target = some j) → (nodes' j).check = (nodes j).check ∨
      (nodes' j).check = (n.nodes j).check ∨
      (nodes j).check = (s.nodes j).check ∧ (nodes' j).check = (r.nodes j).check)
    (hlink : ∀ j d, (¬ ∃ e ∈ es, e.target = some j) → (nodes' j).lr d = (nodes j).lr d ∨
      (nodes j).lr d = (s.nodes j).lr d ∧ (nodes' j).lr d = (r.nodes j).lr d)
    (hback : ∀ j ∈ givenBack log, (nodes' j).lr false = (nodes j).lr false) :
    Beside (log ++ [e]) (Pat.deletedAt s slot id nGarbages nEntries phase1 phase2 nodes) es n
      (Pat.deletedAt r slot id nGarbages nEntries phase1 phase2 nodes') := by
  refine h.next h.large rfl rfl (fun c hc => ?_) fun j hj => hback j (hgiven ▸ hj)
  have hlater : ¬ c.Later (e :: es) := not_later_cons hc he
  cases c with
  | nEntries => exact .inl rfl
  | nGarbages => exact .inl rfl
  | currDel => exact .inl rfl
  | currDel2 => exact .inl rfl
  | slotD j =>
    by_cases hj : j = slot
    · left
      simp only [GrnPat.cell, Pat.deletedAt, hj, Function.update_self]
    · right; right
      simp only [GrnPat.cell, Pat.deletedAt, Function.update_of_ne hj]
      exact ⟨hlater, trivial, trivial⟩
  | slotLd j =>
    right; right
    by_cases hj : j = slot
    · simp only [GrnPat.cell, Pat.deletedAt, hj, Function.update_self]
      exact ⟨hlater, trivial, trivial⟩
    · simp only [GrnPat.cell, Pat.deletedAt, Function.update_of_ne hj]
      exact ⟨hlater, trivial, trivial⟩
  | slotStat j =>
    by_cases hj : j = slot
    · left
      simp only [GrnPat.cell, Pat.deletedAt, hj, Function.update_self]
    · right; right
      simp only [GrnPat.cell, Pat.deletedAt, Function.update_of_ne hj]
      exact ⟨hlater, trivial, trivial⟩
  | key j => exact .inr (.inr ⟨hlater, congrArg Value.key (hkept j).1, congrArg Value.key (hkept' j).1⟩)
  | deleting j => exact .inr (.inr ⟨hlater, congrArg Value.flag (hkept j).2, congrArg Value.flag (hkept' j).2⟩)
  | check j =>
    rcases hcheck j hc with hsame | hend | ⟨hs, hr⟩
    · exact .inl (congrArg Value.nat hsame)
    · exact .inr (.inl (congrArg Value.nat hend))
    · exact .inr (.inr ⟨hlater, congrArg Value.nat hs, congrArg Value.nat hr⟩)
  | link j d =>
    rcases hlink j d hc with hsame | ⟨hs, hr⟩
    · exact .inl (congrArg Value.nat hsame)
    · exact .inr (.inr ⟨hlater, congrArg Value.nat hs, congrArg Value.nat hr⟩)
  | _ => exact .inr (.inr ⟨hlater, rfl, rfl⟩)

/-- A deletion with the branch of the record. -/
theorem recoverDeleteEntry_own (s : GrnPat) :
    ∃ nodes, recoverDeleteEntry s p.node p check p0 check0 o nGarbages nEntries slot phase1 phase2 =
        deletedAt s slot p.node nGarbages nEntries phase1 phase2 nodes ∧
      (∀ j, (nodes j).key = (s.nodes j).key ∧ (nodes j).deleting = (s.nodes j).deleting) ∧
      (∀ j, j ≠ o ∨ o = 0 → (nodes j).check = (s.nodes j).check ∧
        ∀ d, (nodes j).lr d = if p0 = ⟨j, d⟩ then o else (s.nodes j).lr d) ∧
      (o ≠ 0 → (nodes o).check = outputCheck check0 check (s.nodes o).check ∧
        ∀ d, (nodes o).lr d = if p0 = ⟨o, d⟩ then o
          else if p0 = .root ∧ outputCheck check0 check (s.nodes o).check = 0 then
            if d = nthBit (s.keyOf o) 0 then o else 0 else (s.nodes o).lr d) := by
  obtain ⟨nodes, heq, hfields, hne, ho⟩ := keepOtherside_fields
    (({ s with currDel := phase1, currDel2 := phase2 } : GrnPat).setDelinfo slot
      { s.delinfos slot with d := p.node, stat := .phase2 }) o p0 check0 check
  refine ⟨(({ s with nodes := nodes } : GrnPat).store p0 o).nodes, ?_, fun j => ?_, fun j hj => ?_,
    fun ho' => ?_⟩
  · rw [recoverDeleteEntry, recoverDelInternal, if_pos rfl]
    have hslot : ({ s with currDel := phase1, currDel2 := phase2 } : GrnPat).delinfos slot = s.delinfos slot := rfl
    dsimp only
    rw [heq]
    rfl
  · rw [store_key, store_deleting]
    exact hfields j
  · rw [store_check]
    refine ⟨(hne j hj).1, fun d => ?_⟩
    rw [store_lr]
    split_ifs
    · rfl
    · exact congrFun (hne j hj).2 d
  · rw [store_check]
    refine ⟨(ho ho').1, fun d => ?_⟩
    rw [store_lr]
    by_cases hp0 : p0 = ⟨o, d⟩
    · rw [if_pos hp0, if_pos hp0]
    · rw [if_neg hp0, if_neg hp0]
      exact (ho ho').2 d

/-- **A deletion with the branch of the record** is done again. -/
theorem Beside.deleteOwn
    (h : Beside log s (.deleteEntry p.node p check p0 check0 o nGarbages nEntries slot phase1 phase2 :: es) n r)
    (hstep : Step lost log s t (.deleteEntry p.node p check p0 check0 o nGarbages nEntries slot phase1 phase2)
      s' t')
    (hsteps : Steps lost (log ++
      [.deleteEntry p.node p check p0 check0 o nGarbages nEntries slot phase1 phase2]) s' t' es n tn)
    (hall : Steps lost log s t
      (.deleteEntry p.node p check p0 check0 o nGarbages nEntries slot phase1 phase2 :: es) n tn)
    (hback : ∀ j ∈ givenBack log, s.KnownId lost j ∧ j ∉ t.ids) :
    Beside (log ++ [.deleteEntry p.node p check p0 check0 o nGarbages nEntries slot phase1 phase2]) s' es n
      (recoverDeleteEntry r p.node p check p0 check0 o nGarbages nEntries slot phase1 phase2) := by
  obtain ⟨nodes, heq, hfields, hne, ho⟩ := @recoverDeleteEntry_own o p check check0 nGarbages nEntries slot
    phase1 phase2 p0 s
  obtain ⟨nodes', heq', hfields', hne', ho'⟩ := @recoverDeleteEntry_own o p check check0 nGarbages nEntries slot
    phase1 phase2 p0 r
  obtain ⟨-, -, -, hother⟩ := hstep.fits
  have hs' : s' = Pat.deletedAt s slot p.node nGarbages nEntries phase1 phase2 nodes :=
    (Option.some.inj hstep.redo).symm.trans heq
  subst hs'
  rw [heq']
  -- the check on the other side, when its node is not used again
  have hcheck : o ≠ 0 → (¬ ∃ e ∈ es, e.target = some o) →
      (r.nodes o).check = (s.nodes o).check ∨ (r.nodes o).check = 0 ∧ (n.nodes o).check = 0 ∧
        (p0 = .root → outputCheck check0 check (s.nodes o).check = 0) := by
    intro ho0 hes
    have hlater : ¬ Cell.Later (.deleteEntry p.node p check p0 check0 o nGarbages nEntries slot phase1 phase2 :: es)
        (.check o) := not_later_cons hes rfl
    rcases h.cells (.check o) hlater with hsame | hend
    · exact .inl (Value.nat.inj hsame)
    have hend := Value.nat.inj hend
    by_cases hsame : (r.nodes o).check = (s.nodes o).check
    · exact .inl hsame
    have hzero : (n.nodes o).check = 0 := by
      rcases hsteps.check hes with hkept | hzero
      · have hkept := hkept.trans (ho ho0).1
        rcases outputCheck_eq_or check0 check (s.nodes o).check with hout | hout
        · exact absurd (hend.trans (hkept.trans hout)) hsame
        · exact hkept.trans hout
      · exact hzero
    refine .inr ⟨hend.trans hzero, hzero, fun hroot => ?_⟩
    -- the first node is a branch, so its check is kept
    have hkept := hsteps.check_eq hes (.inl ((hother rfl ho0).2.2 hroot))
    exact ((hzero.symm.trans hkept).trans (ho ho0).1).symm
  refine h.deletedAt rfl (givenBack_append ..) hfields hfields' (fun j hes => ?_) (fun j d hes => ?_)
    fun j hj => ?_
  · by_cases hj : j ≠ o ∨ o = 0
    · exact .inr (.inr ⟨(hne j hj).1, (hne' j hj).1⟩)
    push Not at hj
    obtain ⟨rfl, ho0⟩ := hj
    rw [(ho ho0).1, (ho' ho0).1]
    rcases hcheck ho0 hes with hsame | ⟨hr, hn, -⟩
    · exact .inl (by rw [hsame])
    · exact .inr (.inl (by rw [hr, hn, outputCheck_zero]))
  · by_cases hj : j ≠ o ∨ o = 0
    · rw [(hne j hj).2 d, (hne' j hj).2 d]
      by_cases hp : p0 = ⟨j, d⟩
      · rw [if_pos hp, if_pos hp]
        exact .inl rfl
      · rw [if_neg hp, if_neg hp]
        exact .inr ⟨rfl, rfl⟩
    push Not at hj
    obtain ⟨rfl, ho0⟩ := hj
    rw [(ho ho0).2 d, (ho' ho0).2 d]
    by_cases hp : p0 = ⟨j, d⟩
    · rw [if_pos hp, if_pos hp]
      exact .inl rfl
    rw [if_neg hp, if_neg hp]
    by_cases hroot : p0 = .root
    · have hout : outputCheck check0 check (r.nodes j).check = outputCheck check0 check (s.nodes j).check := by
        rcases hcheck ho0 hes with hsame | ⟨hr, -, hzero⟩
        · rw [hsame]
        · rw [hr, outputCheck_zero, hzero hroot]
      have hkeyOf : r.keyOf j = s.keyOf j := h.keyOf hall (hother rfl ho0).2.1 (by
        rintro ⟨e, he, htarget⟩
        rcases List.mem_cons.mp he with rfl | he
        · cases htarget
        · exact hes ⟨e, he, htarget⟩)
      rw [hout, hkeyOf]
      by_cases hzero : outputCheck check0 check (s.nodes j).check = 0
      · have hfirst : p0 = .root ∧ outputCheck check0 check (s.nodes j).check = 0 := ⟨hroot, hzero⟩
        rw [if_pos hfirst, if_pos hfirst]
        exact .inl rfl
      · have hfirst : ¬ (p0 = .root ∧ outputCheck check0 check (s.nodes j).check = 0) := fun h => hzero h.2
        rw [if_neg hfirst, if_neg hfirst]
        exact .inr ⟨rfl, rfl⟩
    · have hfirst : ∀ c, ¬ (p0 = .root ∧ outputCheck check0 check c = 0) := fun c h => hroot h.1
      rw [if_neg (hfirst _), if_neg (hfirst _)]
      exact .inr ⟨rfl, rfl⟩
  · -- a free node is not on the other side
    have hj' : j ≠ o ∨ o = 0 := by
      by_cases ho0 : o = 0
      · exact .inr ho0
      · exact .inl fun hjo => (hback j hj).2 (hjo ▸ (hother rfl ho0).1)
    rw [(hne j hj').2, (hne' j hj').2, h.back j hj]

/-- A deletion of an output that has only a self-loop. -/
theorem recoverDeleteEntry_alone (s : GrnPat) (hne : id ≠ p.node) (hloop : SelfLoop s.nodes id) :
    recoverDeleteEntry s id p check p0 check0 o nGarbages nEntries slot phase1 phase2 =
      Pat.deletedAt s slot id nGarbages nEntries phase1 phase2 (s.store p 0).nodes := by
  rw [recoverDeleteEntry, recoverDelInternal, if_neg hne]
  exact congrArg (fun s : GrnPat => { s with nGarbages := nGarbages, nEntries := nEntries }) (if_pos hloop)

/-- **A deletion of an output that has only a self-loop** is done again. -/
theorem Beside.deleteAlone
    (h : Beside log s (.deleteEntry id p check p0 check0 o nGarbages nEntries slot phase1 phase2 :: es) n r)
    (hstep : Step lost log s t (.deleteEntry id p check p0 check0 o nGarbages nEntries slot phase1 phase2)
      s' t')
    (hsteps : Steps lost (log ++
      [.deleteEntry id p check p0 check0 o nGarbages nEntries slot phase1 phase2]) s' t' es n tn)
    (hne : id ≠ p.node) (hback : ∀ j ∈ givenBack log, s.KnownId lost j ∧ j ∉ t.ids) :
    Beside (log ++ [.deleteEntry id p check p0 check0 o nGarbages nEntries slot phase1 phase2]) s' es n
      (recoverDeleteEntry r id p check p0 check0 o nGarbages nEntries slot phase1 phase2) := by
  obtain ⟨hknown, hin, hout, -⟩ := hstep.fits
  have hloop : SelfLoop s.nodes id := hstep.again.resolve_left hne
  have hs' : s' = Pat.deletedAt s slot id nGarbages nEntries phase1 phase2 (s.store p 0).nodes :=
    (Option.some.inj hstep.redo).symm.trans (recoverDeleteEntry_alone s hne hloop)
  have hplace : ∀ d, p ≠ ⟨id, d⟩ := fun d hp => hne (congrArg Loc.node hp).symm
  -- the links of the record are those of the run
  have hlr : ∀ d, (r.nodes id).lr d = (s.nodes id).lr d := by
    intro d
    have hgiven : id ∉ givenBack (log ++
        [.deleteEntry id p check p0 check0 o nGarbages nEntries slot phase1 phase2]) := by
      rw [givenBack_append]
      exact fun hj => (hback id hj).2 hin
    obtain ⟨htarget, hfreed⟩ := hsteps.untouched
      ⟨_, List.mem_append_right _ (List.mem_singleton_self _), if_neg hne⟩ hgiven (hstep.known id hknown)
    have hlater : ¬ Cell.Later (.deleteEntry id p check p0 check0 o nGarbages nEntries slot phase1 phase2 :: es)
        (.link id d) := not_later_cons htarget rfl
    rcases h.cells (.link id d) hlater with hsame | hend
    · exact Value.nat.inj hsame
    · have hkept := hsteps.lr htarget hfreed (Nat.one_le_iff_ne_zero.mp hknown.1) hout
      rw [Value.nat.inj hend, hkept, hs']
      exact store_lr_of_ne (hplace d)
  subst hs'
  rw [recoverDeleteEntry_alone r hne ((SelfLoop.congr hlr).mpr hloop)]
  refine h.deletedAt rfl (givenBack_append ..) (fun j => ⟨store_key, store_deleting⟩)
    (fun j => ⟨store_key, store_deleting⟩) (fun j _ => .inr (.inr ⟨store_check, store_check⟩))
    (fun j d _ => ?_) fun j hj => ?_
  · rw [store_lr, store_lr]
    by_cases hp : p = ⟨j, d⟩
    · rw [if_pos hp, if_pos hp]
      exact .inl rfl
    · rw [if_neg hp, if_neg hp]
      exact .inr ⟨rfl, rfl⟩
  · rw [store_lr, store_lr, h.back j hj]

end Delete

/-- **An entry of a run** is done again. -/
theorem Beside.step (h : Beside log s (e :: es) n r) (hstep : Step lost log s t e s' t')
    (hsteps : Steps lost (log ++ [e]) s' t' es n tn)
    (hback : ∀ j ∈ givenBack log, s.KnownId lost j ∧ j ∉ t.ids) :
    ∃ r', recoverEntry r e = some r' ∧ Beside (log ++ [e]) s' es n r' := by
  have hall : Steps lost log s t (e :: es) n tn := ⟨s', t', hstep, hsteps⟩
  have hredo := hstep.redo
  have hfits := hstep.fits
  have hagain := hstep.again
  cases e with
  | addEntry => exact h.addEntry hredo
  | reuseEntry id =>
    obtain rfl := Option.some.inj hredo
    exact ⟨_, rfl, h.reuseEntry (h.shape hall hfits.1) hagain⟩
  | deleteInfoPhase1 i =>
    obtain rfl := Option.some.inj hredo
    exact ⟨_, rfl, h.deleteInfoPhase1⟩
  | deleteInfoPhase2 => exact hagain.elim
  | deleteInfoPhase3 id =>
    obtain rfl := Option.some.inj hredo
    exact ⟨_, rfl, h.deleteInfoPhase3 (h.shape hall hfits.1)⟩
  | deleteEntry id location =>
    by_cases hne : id = location.node
    · subst hne
      exact ⟨_, rfl, h.deleteOwn hstep hsteps hall hback⟩
    · exact ⟨_, rfl, h.deleteAlone hstep hsteps hne hback⟩
  | defragKey => exact hagain.elim
  | defragCurrentKey => exact hagain.elim

/-- **The entries of a run** are done again, up to the file from after the run. -/
theorem Beside.recoverAll (h : Beside log s es n r) (hsteps : Steps lost log s t es n tn)
    (hback : ∀ j ∈ givenBack log, s.KnownId lost j ∧ j ∉ t.ids) : recoverAll es r = some n := by
  induction es generalizing log s t r with
  | nil =>
    obtain ⟨rfl, -⟩ := hsteps
    have hlater : ∀ c : Cell, ¬ c.Later [] := by
      intro c
      cases c with
      | check id =>
        rintro ⟨e, he, -⟩
        cases he
      | link id d =>
        rintro ⟨e, he, -⟩
        cases he
      | _ => exact fun h => h
    exact congrArg some (eq_of_cell (h.cells.eq hlater) h.large h.cacheSize h.cache)
  | cons e es ih =>
    obtain ⟨s', t', hstep, hrest⟩ := hsteps
    obtain ⟨r', hredo, hnext⟩ := h.step hstep hrest hback
    rw [Pat.recoverAll, redoAll, hredo]
    exact ih hnext hrest (hstep.givenBack hback)

/-- **A run is recovered again** from the file after it. -/
theorem Steps.recoverAll_again (h : Steps lost [] s t es n tn) : Pat.recoverAll es n = some n := by
  have hbeside : Beside [] s es n n :=
    { large := h.large
      cacheSize := rfl
      cache := rfl
      cells := mixedBut_refl _ _ _ _
      back := fun _ hj => nomatch hj }
  exact hbeside.recoverAll h fun _ hj => nomatch hj

end Groonga.Pat
