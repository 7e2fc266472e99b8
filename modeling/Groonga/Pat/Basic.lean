import Mathlib

/-!
# The patricia trie table: records and operations

A `grn_pat` is an array of nodes linked by record ids, an area for long keys, and a
header with counters, a ring of pending deletions and lists of free nodes. Node 0
only holds the link to the first node.

A node is linked twice: once as a branch, and once as the output of its own key, by a
link that leads to a node whose `check` is not larger than that of the node it comes
from. A deletion takes effect at once for the output; the branch of the deleted node
stays in the tree until its pending deletion is 128 deletions old (`delinfo_turn_2`),
and the node is given back 127 deletions later (`delinfo_turn_3`).

The loops of the source end because `check` grows on the way down; each takes a
`fuel` here, and is given more than the number of checks of its key. A failed
allocation, and a result that the source reports as a broken file, is `none`.
Suffix sharing (`GRN_OBJ_KEY_WITH_SIS`) and the write-ahead log are not part of this
model, nor is the encoding of fixed size keys.
-/

namespace Groonga.Pat

/-! ## Data -/

/-- The key of a node, with its length: in the node itself (`PAT_IMMEDIATE`), or at an
offset in the key area. -/
inductive StoredKey where
  | immediate (key : List UInt8)
  | stored (offset length : ℕ)

/-- `pat_node`, both layouts. `lr true` is the right child. -/
structure Node where
  lr : Bool → ℕ
  key : StoredKey
  check : ℕ
  deleting : Bool

/-- A node of a segment that was never written. -/
def Node.zero : Node := ⟨fun _ => 0, .stored 0 1, 0, false⟩

/-- `DL_EMPTY`, `DL_PHASE1` and `DL_PHASE2`. -/
inductive Stat where
  | empty
  | phase1
  | phase2
deriving DecidableEq, Repr

/-- `grn_pat_delinfo`. -/
structure Delinfo where
  d : ℕ
  ld : ℕ
  stat : Stat

/-- `grn_pat`: the header, the segments and the cache of the process. A cache of size 0
is no cache. -/
structure GrnPat where
  isKeyLarge : Bool
  nodes : ℕ → Node
  keys : ℕ → UInt8
  nEntries : ℕ
  currRec : ℕ
  currKey : ℕ
  currDel : ℕ
  currDel2 : ℕ
  currDel3 : ℕ
  nGarbages : ℕ
  delinfos : ℕ → Delinfo
  garbages : ℕ → ℕ
  cacheSize : ℕ
  cache : ℕ → ℕ

/-- `_grn_pat_create`, with the cache that `grn_pat_cache_enable` sets up. -/
def grnPatCreate (isKeyLarge : Bool) (cacheSize : ℕ) : GrnPat where
  isKeyLarge := isKeyLarge
  nodes := fun _ => Node.zero
  keys := fun _ => 0
  nEntries := 0
  currRec := 0
  currKey := 0
  currDel := 0
  currDel2 := 0
  currDel3 := 0
  nGarbages := 0
  delinfos := fun _ => ⟨0, 0, .empty⟩
  garbages := fun _ => 0
  cacheSize := cacheSize
  cache := fun _ => 0

/-- `GRN_TABLE_MAX_KEY_SIZE`. -/
def maxKeySize : ℕ := 4096

/-- `GRN_ID_MAX`. -/
def grnIdMax : ℕ := 0x3fffffff

/-- `GRN_PAT_NDELINFOS`. -/
def nDelinfos : ℕ := 0x100

/-! ## Nodes and links -/

/-- Where a link is stored: `&node->lr[direction]`. -/
structure Loc where
  node : ℕ
  direction : Bool
deriving DecidableEq, Repr

/-- The link to the first node. -/
def Loc.root : Loc := ⟨0, true⟩

def GrnPat.load (s : GrnPat) (p : Loc) : ℕ := (s.nodes p.node).lr p.direction

def GrnPat.modify (s : GrnPat) (id : ℕ) (f : Node → Node) : GrnPat :=
  { s with nodes := Function.update s.nodes id (f (s.nodes id)) }

def Node.setChild (n : Node) (direction : Bool) (id : ℕ) : Node :=
  { n with lr := Function.update n.lr direction id }

def GrnPat.store (s : GrnPat) (p : Loc) (id : ℕ) : GrnPat := s.modify p.node (·.setChild p.direction id)

/-- `pat_node_set_check`. -/
def GrnPat.setCheck (s : GrnPat) (id check : ℕ) : GrnPat := s.modify id ({ · with check := check })

/-- `pat_node_set_deleting_on` and `pat_node_set_deleting_off`. -/
def GrnPat.setDeleting (s : GrnPat) (id : ℕ) (on : Bool) : GrnPat := s.modify id ({ · with deleting := on })

def GrnPat.setDelinfo (s : GrnPat) (i : ℕ) (di : Delinfo) : GrnPat :=
  { s with delinfos := Function.update s.delinfos i di }

/-! ## Keys -/

/-- `pat_node_get_key_length`. -/
def StoredKey.length : StoredKey → ℕ
  | .immediate key => key.length
  | .stored _ length => length

/-- `pat_node_get_key`, as many bytes as the key has. -/
def GrnPat.nodeKey (s : GrnPat) (n : Node) : List UInt8 :=
  match n.key with
  | .immediate key => key
  | .stored offset length => (List.range length).map fun i => s.keys (offset + i)

/-- The key of a record. -/
def GrnPat.keyOf (s : GrnPat) (id : ℕ) : List UInt8 := s.nodeKey (s.nodes id)

/-- `pat_key_is_embeddable`. -/
def patKeyIsEmbeddable (isKeyLarge : Bool) (keySize : ℕ) : Bool :=
  decide (keySize ≤ if isKeyLarge then 8 else 4)

/-- `pat_key_storage_size`. -/
def patKeyStorageSize (isKeyLarge : Bool) (keySize : ℕ) : ℕ :=
  if patKeyIsEmbeddable isKeyLarge keySize then 0 else keySize

/-- `W_OF_KEY_IN_A_SEGMENT` as a size. -/
def keySegmentSize : ℕ := 2 ^ 22

/-- `array_spec[SEGMENT_KEY].max_n_segments`. -/
def maxNSegments (isKeyLarge : Bool) : ℕ := if isKeyLarge then 0x40000 else 0x400

/-- `grn_pat_max_total_key_size`. -/
def grnPatMaxTotalKeySize (isKeyLarge : Bool) : ℕ :=
  if isKeyLarge then keySegmentSize * 0x40000 - 1 else 2 ^ 32 - 1 - 1

/-- `memcpy` into the key area. -/
def writeKey (keys : ℕ → UInt8) (offset : ℕ) (key : List UInt8) (i : ℕ) : UInt8 :=
  if offset ≤ i ∧ i < offset + key.length then key.getD (i - offset) 0 else keys i

/-- `key_put`: the area with the key, and its offset. -/
def keyPut (s : GrnPat) (key : List UInt8) : Option (GrnPat × ℕ) :=
  let res := s.currKey
  let max := grnPatMaxTotalKeySize s.isKeyLarge
  if res < max ∧ max - res < key.length then none
  else
    let endSegment := (res + key.length - 1) / keySegmentSize
    -- a key does not cross the end of a segment
    let res := if res / keySegmentSize ≠ endSegment then endSegment * keySegmentSize else res
    if maxNSegments s.isKeyLarge ≤ res / keySegmentSize then none
    else some ({ s with keys := writeKey s.keys res key, currKey := res + key.length }, res)

/-- `pat_node_set_key`. -/
def patNodeSetKey (s : GrnPat) (id : ℕ) (key : List UInt8) : Option GrnPat :=
  if key = [] then none
  else if patKeyIsEmbeddable s.isKeyLarge key.length then
    some (s.modify id ({ · with key := .immediate key }))
  else
    (keyPut s key).map fun r => r.1.modify id ({ · with key := .stored r.2 key.length })

/-! ## Checks -/

/-- `PAT_CHECK_PACK`. -/
def patCheckPack (byteDifferences bitDifferences : ℕ) (terminated : Bool) : ℕ :=
  byteDifferences * 16 + bitDifferences * 2 + terminated.toNat

/-- `nth_bit`. -/
def nthBit (key : List UInt8) (check : ℕ) : Bool :=
  (key.getD (check / 16) 0).toNat.testBit (7 - check / 2 % 8)

/-- The direction of `grn_pat_next_location`. A terminated check asks whether the key
goes on behind its byte. -/
def direction (key : List UInt8) (check checkMax : ℕ) : Bool :=
  if check % 2 = 1 then decide (check + 1 < checkMax) else nthBit key check

/-- `grn_pat_next_location`. -/
def grnPatNextLocation (id : ℕ) (key : List UInt8) (check checkMax : ℕ) : Loc :=
  ⟨id, direction key check checkMax⟩

/-- The loop over the bits of the first different byte, from the bit `i` on. -/
def bitDifferences (a b : UInt8) : ℕ → ℕ → ℕ
  | 0, i => i
  | fuel + 1, i =>
    if a.toNat.testBit (7 - i) ≠ b.toNat.testBit (7 - i) then i else bitDifferences a b fuel (i + 1)

/-- The check that `grn_pat_add_internal_find` computes for a key and the key it found,
from the byte `n` on. -/
def keyDifference : ℕ → List UInt8 → List UInt8 → ℕ
  | n, x :: key, y :: found =>
    if x = y then keyDifference (n + 1) key found
    else patCheckPack n (bitDifferences x y 8 0) false
  | n, _, _ => patCheckPack (n - 1) 7 true

/-! ## Lookup -/

/-- The loop of `_grn_pat_get`: the id `r` is next, `c0` is the check above it. -/
def getLoop (s : GrnPat) (key : List UInt8) (len : ℕ) : ℕ → ℕ → ℤ → Option ℕ
  | 0, _, _ => none
  | fuel + 1, r, c0 =>
    if r = 0 then some 0
    else
      let c := (s.nodes r).check
      if len ≤ c then some 0
      else if (c : ℤ) ≤ c0 then
        if s.keyOf r = key then some r else some 0
      else
        getLoop s key len fuel (s.load (grnPatNextLocation r key c len)) c

/-- `_grn_pat_get`. -/
def grnPatGet (s : GrnPat) (key : List UInt8) : Option ℕ :=
  let len := key.length * 16
  getLoop s key len (len + 2) (s.load .root) (-1)

/-- How many nodes share a segment: `pat_node` has 16 bytes and `pat_node_large` 24. -/
def nodesInSegment (isKeyLarge : Bool) : ℕ := if isKeyLarge then 2 ^ 17 else 2 ^ 18

/-- `_grn_pat_key`, empty for `NULL`: the node or the key area may not exist. -/
def _grnPatKey (s : GrnPat) (id : ℕ) : List UInt8 :=
  if id = 0 ∨ s.currRec / nodesInSegment s.isKeyLarge < id / nodesInSegment s.isKeyLarge then []
  else
    match (s.nodes id).key with
    | .immediate key => key
    | .stored _ _ => if s.currKey = 0 then [] else s.keyOf id

/-! ## Addition -/

/-- The variables of the loop of `grn_pat_add_internal_find`. -/
structure FindState where
  id : ℕ
  idLocation : Loc
  idLocationPrevious : Loc
  checkNode : ℤ
  checkNodePrevious : ℤ

/-- What the loop stops with: the key is there, or the key to compare with. -/
inductive Found where
  | found (id : ℕ)
  | compare (st : FindState) (foundKey : List UInt8)

/-- The loop of `grn_pat_add_internal_find`. -/
def findLoop (s : GrnPat) (key : List UInt8) (checkMax : ℕ) : ℕ → FindState → Option Found
  | 0, _ => none
  | fuel + 1, st =>
    let id := s.load st.idLocation
    if id = 0 then
      -- the node of the last round
      some (.compare { st with id := 0 } (s.keyOf st.id))
    else
      let checkNodeCurrent := (s.nodes id).check
      if st.checkNode < checkNodeCurrent ∧ checkNodeCurrent < checkMax then
        findLoop s key checkMax fuel
          { id := id
            idLocation := grnPatNextLocation id key checkNodeCurrent checkMax
            idLocationPrevious := st.idLocation
            checkNode := checkNodeCurrent
            checkNodePrevious := st.checkNode }
      else if s.keyOf id = key then
        some (.found id)
      else
        some (.compare { st with id := id } (s.keyOf id))

/-- The second search of `grn_pat_add_internal_find`: the first link to a node behind
`check`, or to nothing. -/
def locateLoop (s : GrnPat) (key : List UInt8) (check checkMax : ℕ) : ℕ → Loc → Option Loc
  | 0, _ => none
  | fuel + 1, idLocation =>
    let id := s.load idLocation
    if id = 0 then some idLocation
    else
      let checkNode := (s.nodes id).check
      if check < checkNode then some idLocation
      else locateLoop s key check checkMax fuel (grnPatNextLocation id key checkNode checkMax)

/-- `grn_pat_add_internal_find`: the id of the key, or the link to put it at and its
check. -/
def grnPatAddInternalFind (s : GrnPat) (key : List UInt8) : Option (ℕ ⊕ Loc × ℕ) :=
  let checkMax := patCheckPack key.length 0 false
  if s.load .root = 0 then
    some (.inr (.root, patCheckPack (key.length - 1) 7 false))
  else do
    match ← findLoop s key checkMax (checkMax + 2) ⟨0, .root, .root, -1, -1⟩ with
    | .found id => return .inl id
    | .compare st foundKey =>
      let check := keyDifference 0 key foundKey
      let (idLocation, check) ←
        if (check : ℤ) = st.checkNode ∧ s.load st.idLocation = 0 then
          some (st.idLocation, if check + 2 < checkMax then check + 2 else check)
        else if (check : ℤ) < st.checkNode then
          if st.checkNodePrevious < check then
            some (st.idLocationPrevious, check)
          else
            (locateLoop s key check checkMax (checkMax + 2) .root).map (·, check)
        else
          some (st.idLocation, check)
      -- BUG: computed check is too large
      if checkMax ≤ check then none else return .inr (idLocation, check)

/-- `grn_pat_enable_node`. -/
def grnPatEnableNode (s : GrnPat) (id : ℕ) (key : List UInt8) (check checkMax : ℕ)
    (idLocation : Loc) : GrnPat :=
  let next := s.load idLocation
  let side := direction key check checkMax
  (s.modify id fun n =>
    { n with check := check, deleting := false, lr := fun d => if d = side then id else next }).store
      idLocation id

/-- `grn_pat_reuse_node`. -/
def grnPatReuseNode (s : GrnPat) (id : ℕ) (key : List UInt8) (check checkMax : ℕ)
    (idLocation : Loc) : GrnPat :=
  let s := { s with
    garbages := Function.update s.garbages (patKeyStorageSize s.isKeyLarge key.length)
      ((s.nodes id).lr false) }
  let s :=
    match (s.nodes id).key with
    | .immediate _ => s.modify id ({ · with key := .immediate key })
    | .stored offset _ =>
      { s.modify id ({ · with key := .stored offset key.length }) with
        keys := writeKey s.keys offset key }
  let s := { s with nGarbages := s.nGarbages - 1, nEntries := s.nEntries + 1 }
  grnPatEnableNode s id key check checkMax idLocation

/-- `grn_pat_add_node`. -/
def grnPatAddNode (s : GrnPat) (id : ℕ) (key : List UInt8) (check checkMax : ℕ) (idLocation : Loc) :
    Option GrnPat := do
  let s ← patNodeSetKey s id key
  let s := { s with currRec := id, nEntries := s.nEntries + 1 }
  return grnPatEnableNode s id key check checkMax idLocation

/-- `grn_pat_cache_compute_id`. -/
def grnPatCacheComputeId (cacheSize : ℕ) (key : List UInt8) : ℕ :=
  key.foldl (fun cacheId c => (cacheId * 37 + c.toNat) % 2 ^ 32) 0 &&& (cacheSize - 1)

/-- `pat->cache[cache_id] = id` if there is a cache. -/
def GrnPat.setCache (s : GrnPat) (key : List UInt8) (id : ℕ) : GrnPat :=
  if s.cacheSize = 0 then s
  else { s with cache := Function.update s.cache (grnPatCacheComputeId s.cacheSize key) id }

/-- `grn_pat_add_internal` without sharing: the id, and whether it is new. -/
def grnPatAddInternal (s : GrnPat) (key : List UInt8) : Option (GrnPat × ℕ × Bool) :=
  let cached := s.cache (grnPatCacheComputeId s.cacheSize key)
  if s.cacheSize ≠ 0 ∧ cached ≠ 0 ∧ s.keyOf cached = key then
    some (s, cached, false)
  else do
    let checkMax := patCheckPack key.length 0 false
    match ← grnPatAddInternalFind s key with
    | .inl id => return (s.setCache key id, id, false)
    | .inr (idLocation, check) =>
      let garbage := s.garbages (patKeyStorageSize s.isKeyLarge key.length)
      if garbage ≠ 0 then
        let s := grnPatReuseNode s garbage key check checkMax idLocation
        return (s.setCache key garbage, garbage, true)
      else
        let id := s.currRec + 1
        if grnIdMax < id then none
        else
          let s ← grnPatAddNode s id key check checkMax idLocation
          return (s.setCache key id, id, true)

/-- `grn_pat_add` of a table with variable size keys. -/
def grnPatAdd (s : GrnPat) (key : List UInt8) : Option (GrnPat × ℕ × Bool) :=
  if key = [] ∨ maxKeySize < key.length then none else grnPatAddInternal s key

/-! ## Pending deletions -/

/-- The loop of `delinfo_search` over the slots before `currDel`. -/
def searchLoop (s : GrnPat) (id : ℕ) : ℕ → ℕ → Option ℕ
  | 0, _ => none
  | fuel + 1, i =>
    if i = s.currDel then none
    else
      let di := s.delinfos i
      if di.stat = .phase1 ∧ (di.ld = id ∨ di.d = id) then some i
      else searchLoop s id fuel ((i + 1) % nDelinfos)

/-- `delinfo_search`: the slot. -/
def delinfoSearch (s : GrnPat) (id : ℕ) : Option ℕ :=
  searchLoop s id nDelinfos (s.currDel2 % nDelinfos)

/-- The search of `delinfo_turn_2_internal` for the link to the node `d`; `some none` if
there is none. -/
def turn2Loop (s : GrnPat) (key : List UInt8) (checkMax d : ℕ) : ℕ → Loc → ℤ → Option (Option Loc)
  | 0, _, _ => none
  | fuel + 1, p0, c0 =>
    let r := s.load p0
    if r = 0 then some none
    else if r = d then some (some p0)
    else
      let c := (s.nodes r).check
      if (c : ℤ) ≤ c0 ∨ checkMax ≤ c then some none
      else turn2Loop s key checkMax d fuel (grnPatNextLocation r key c checkMax) c

/-- `delinfo_turn_2` on the slot `i`: the node `ld` takes over the branch of `d`. -/
def delinfoTurn2 (s : GrnPat) (i : ℕ) : Option GrnPat :=
  let di := s.delinfos i
  if di.stat ≠ .phase1 then some s
  else do
    let s := (s.setDeleting di.ld false).setDeleting di.d false
    let dn := s.nodes di.d
    let key := s.keyOf di.d
    let checkMax := patCheckPack key.length 0 false
    let p ← turn2Loop s key checkMax di.d (checkMax + 2) .root (-1)
    let s :=
      match p with
      | some p => (s.modify di.ld ({ · with check := dn.check, lr := dn.lr })).store p di.ld
      | none => s
    return s.setDelinfo i { di with stat := .phase2 }

/-- `delinfo_turn_3` on the slot `i`: the node `d` becomes free. -/
def delinfoTurn3 (s : GrnPat) (i : ℕ) : GrnPat :=
  let di := s.delinfos i
  if di.stat ≠ .phase2 then s
  else
    let size :=
      match (s.nodes di.d).key with
      | .immediate _ => 0
      | .stored _ length => length
    let s := s.setDelinfo i { di with stat := .empty }
    { s.store ⟨di.d, false⟩ (s.garbages size) with
      garbages := Function.update s.garbages size di.d }

/-- The loop of `delinfo_new` that keeps at most half of the slots in the first phase. -/
def turn2s (s : GrnPat) : ℕ → Option GrnPat
  | 0 => some s
  | gap + 1 => do
    let s ← delinfoTurn2 s s.currDel2
    turn2s { s with currDel2 := (s.currDel2 + 1) % nDelinfos } gap

/-- `delinfo_new`: the slot for a new deletion. -/
def delinfoNew (s : GrnPat) : Option (GrnPat × ℕ) := do
  let di := s.currDel
  let next := (s.currDel + 1) % nDelinfos
  let gap := (next + nDelinfos - s.currDel2) % nDelinfos - nDelinfos / 2
  let s ← turn2s s gap
  let s :=
    if next = s.currDel3 then
      let s := delinfoTurn3 s s.currDel3
      { s with currDel3 := (s.currDel3 + 1) % nDelinfos }
    else s
  return ({ s with currDel := next }, di)

/-! ## Deletion -/

/-- The variables of the search of `_grn_pat_del`: `p` is the link to the output node,
`p0` the link to the node before it. -/
structure DelState where
  p : Loc
  p0 : Loc
  nodePrevious : ℕ
  nodeCheck : ℤ
  nodePreviousCheck : ℤ

/-- The search of `_grn_pat_del`; `some none` if the key is not there. -/
def delLoop (s : GrnPat) (key : List UInt8) (checkMax : ℕ) : ℕ → DelState → Option (Option DelState)
  | 0, _ => none
  | fuel + 1, st =>
    let id := s.load st.p
    if id = 0 then some none
    else
      let check := (s.nodes id).check
      if checkMax ≤ check then some none
      else if (check : ℤ) ≤ st.nodeCheck then
        if s.keyOf id = key then some (some st) else some none
      else
        delLoop s key checkMax fuel
          { p := grnPatNextLocation id key check checkMax
            p0 := st.p
            nodePrevious := id
            nodeCheck := check
            nodePreviousCheck := st.nodeCheck }

/-- The first node is a branch whatever its check is, so an output node that becomes the
first node gets a link to itself. -/
def becomeFirst (s : GrnPat) (otherside : ℕ) : GrnPat :=
  let direction := nthBit (s.keyOf otherside) 0
  (s.store ⟨otherside, direction⟩ otherside).store ⟨otherside, !direction⟩ 0

/-- What `grn_pat_del_internal` does to the other side of the removed branch: it stays
an output node. `check0` is a `uint16_t`, 65535 above the first node. -/
def keepOtherside (s : GrnPat) (otherside : ℕ) (p0 : Loc) (check0 : ℕ) (check : ℕ) : GrnPat :=
  if otherside = 0 then s
  else
    let othersideCheck := (s.nodes otherside).check
    let s := if check0 < othersideCheck ∧ othersideCheck ≤ check then s.setCheck otherside 0 else s
    if p0 = .root ∧ (s.nodes otherside).check = 0 then becomeFirst s otherside else s

/-- The bookkeeping of `grn_pat_del_internal` for an output `id` whose branch is
elsewhere: `previous` is the branch that is removed, `slot` the new deletion. -/
def recordDeletion (s : GrnPat) (slot id previous : ℕ) : GrnPat :=
  let ldi := if (s.nodes id).deleting then delinfoSearch s id else none
  let ddi := if (s.nodes previous).deleting then delinfoSearch s previous else none
  match ldi, ddi with
  | some ldi, some ddi =>
    let s := (s.setDeleting id false).setDeleting previous false
    let d := s.delinfos ddi
    let s := s.setDelinfo ddi { d with stat := .phase2 }
    let s := if ddi = ldi then s
      else s.setDelinfo ldi { s.delinfos ldi with ld := d.ld }
    s.setDelinfo slot ⟨id, (s.delinfos slot).ld, .phase2⟩
  | some ldi, none =>
    let s := (s.setDeleting id false).setDeleting previous true
    let s := s.setDelinfo ldi { s.delinfos ldi with ld := previous }
    s.setDelinfo slot ⟨id, (s.delinfos slot).ld, .phase2⟩
  | none, some ddi =>
    let s := (s.setDeleting id true).setDeleting previous false
    let d := s.delinfos ddi
    let s := s.setDelinfo ddi { d with stat := .phase2 }
    s.setDelinfo slot ⟨id, d.ld, .phase1⟩
  | none, none =>
    let s := (s.setDeleting id true).setDeleting previous true
    s.setDelinfo slot ⟨id, previous, .phase1⟩

/-- `grn_pat_del_internal`. -/
def grnPatDelInternal (s : GrnPat) (slot id otherside : ℕ) (st : DelState) : GrnPat :=
  let check := st.nodeCheck.toNat
  let check0 := if st.nodePreviousCheck < 0 then 65535 else st.nodePreviousCheck.toNat
  let node := s.nodes id
  let s :=
    if id = st.nodePrevious then
      -- the last transition is a self-loop
      let s := s.setDelinfo slot ⟨id, (s.delinfos slot).ld, .phase2⟩
      (keepOtherside s otherside st.p0 check0 check).store st.p0 otherside
    else if (node.lr false = 0 ∧ node.lr true = id) ∨ (node.lr true = 0 ∧ node.lr false = id) then
      -- the output node has only a disabled self-loop
      let s := s.setDelinfo slot ⟨id, (s.delinfos slot).ld, .phase2⟩
      s.store st.p 0
    else
      let s := recordDeletion s slot id st.nodePrevious
      if st.nodePrevious = otherside then
        let s := s.setCheck otherside 0
        if st.p0 = .root then becomeFirst s otherside else s
      else
        (keepOtherside s otherside st.p0 check0 check).store st.p0 otherside
  { s with nGarbages := s.nGarbages + 1, nEntries := s.nEntries - 1 }

/-- `_grn_pat_del` of an unshared key: whether the key was there. -/
def _grnPatDel (s : GrnPat) (key : List UInt8) : Option (GrnPat × Bool) := do
  let checkMax := patCheckPack key.length 0 false
  let (s, slot) ← delinfoNew s
  match ← delLoop s key checkMax (checkMax + 2) ⟨.root, .root, 0, -1, -1⟩ with
  | none => return (s, false)
  | some st =>
    let id := s.load st.p
    let previous := s.nodes st.nodePrevious
    if previous.lr false = previous.lr true then none
    else
      let otherside := if previous.lr true = id then previous.lr false else previous.lr true
      let s := s.setCache key 0
      return (grnPatDelInternal s slot id otherside st, true)

/-- `grn_pat_delete`. -/
def grnPatDelete (s : GrnPat) (key : List UInt8) : Option (GrnPat × Bool) :=
  if key = [] then some (s, false) else _grnPatDel s key

/-- `grn_pat_delete_by_id`. -/
def grnPatDeleteById (s : GrnPat) (id : ℕ) : Option (GrnPat × Bool) :=
  if id = 0 then some (s, false) else _grnPatDel s (_grnPatKey s id)

end Groonga.Pat
