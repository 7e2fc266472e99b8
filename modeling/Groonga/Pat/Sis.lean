import Groonga.Pat.Defrag
import Groonga.Str

/-!
# Tables with suffix sharing

A table with `GRN_OBJ_KEY_WITH_SIS` also adds the suffixes of a key, each from a character
on, as long as they start with a byte of at least `0x80`. A suffix that is too long for its
node shares the bytes of the key it is a suffix of.

`grn_pat_defrag` does not know of that. It moves the bytes of each record to a place of
their own, so the key area grows, and a moved suffix is written over keys that are still to
be moved. Without suffix sharing no two records share a byte, and every defragmentation of
every run preserves the table.

The deletion in a table with suffix sharing is not part of this model.
-/

namespace Groonga.Pat

/-! ## Addition -/

/-- `sis_node`: the records whose suffix a record is, linked by `sibling`. -/
structure SisNode where
  children : ℕ
  sibling : ℕ

/-- `pat_node_set_shared_key`. -/
def patNodeSetSharedKey (s : GrnPat) (id keySize sharedKeyOffset : ℕ) : GrnPat :=
  s.modify id ({ · with key := .stored sharedKeyOffset keySize })

/-- `grn_pat_reuse_shared_node`. -/
def grnPatReuseSharedNode (s : GrnPat) (id : ℕ) (key : List UInt8) (sharedKeyOffset check checkMax : ℕ)
    (idLocation : Loc) : GrnPat :=
  let s := { s with
    garbages := Function.update s.garbages 0 ((s.nodes id).lr false)
    nGarbages := s.nGarbages - 1
    nEntries := s.nEntries + 1 }
  let s := patNodeSetSharedKey s id key.length sharedKeyOffset
  grnPatEnableNode s id key check checkMax idLocation

/-- `grn_pat_add_shared_node`. -/
def grnPatAddSharedNode (s : GrnPat) (id : ℕ) (key : List UInt8) (sharedKeyOffset check checkMax : ℕ)
    (idLocation : Loc) : GrnPat :=
  let s := { s with currRec := id, nEntries := s.nEntries + 1 }
  let s := patNodeSetSharedKey s id key.length sharedKeyOffset
  grnPatEnableNode s id key check checkMax idLocation

/-- `grn_pat_add_internal` of a key that shares its bytes. -/
def grnPatAddInternalShared (s : GrnPat) (key : List UInt8) (sharedKeyOffset : ℕ) :
    Option (GrnPat × ℕ × Bool) :=
  let cached := s.cache (grnPatCacheComputeId s.cacheSize key)
  if s.cacheSize ≠ 0 ∧ cached ≠ 0 ∧ s.keyOf cached = key then
    some (s, cached, false)
  else do
    let checkMax := patCheckPack key.length 0 false
    match ← grnPatAddInternalFind s key with
    | .inl id => return (s.setCache key id, id, false)
    | .inr (idLocation, check) =>
      let garbage := s.garbages 0
      if garbage ≠ 0 then
        let s := grnPatReuseSharedNode s garbage key sharedKeyOffset check checkMax idLocation
        return (s.setCache key garbage, garbage, true)
      else
        let id := s.currRec + 1
        if grnIdMax < id then none
        else
          let s := grnPatAddSharedNode s id key sharedKeyOffset check checkMax idLocation
          return (s.setCache key id, id, true)

/-- The loop of `grn_pat_add` over the suffixes: `l` is the record of the key `sis`, whose
bytes are at `sharedKeyOffset` unless they are in the node. The offset is a `uint32_t`. -/
def sisLoop : ℕ → GrnPat → (ℕ → SisNode) → ℕ → List UInt8 → ℕ → GrnPat × (ℕ → SisNode)
  | 0, s, links, _, _, _ => (s, links)
  | fuel + 1, s, links, l, sis, sharedKeyOffset =>
    let len := grnStrCharlenUtf8 sis
    let sharedKeyOffset := (sharedKeyOffset + len) % 2 ^ 32
    match sis.drop len with
    | [] => (s, links)
    | c :: rest =>
      let sis := c :: rest
      -- `chop` fails, or the suffix starts with a character of one byte
      if len = 0 ∨ c < 0x80 then (s, links)
      else
        let shared := 0 < sharedKeyOffset ∧ 0 < patKeyStorageSize s.isKeyLarge sis.length
        match if shared then grnPatAddInternalShared s sis sharedKeyOffset
          else grnPatAddInternal s sis with
        | none => (s, links)
        | some (s, r, true) =>
          let links := Function.update links l { links l with sibling := r }
          let links := Function.update links r ⟨l, 0⟩
          let sharedKeyOffset := if shared then sharedKeyOffset else (s.nodes r).key.offset % 2 ^ 32
          sisLoop fuel s links r sis sharedKeyOffset
        | some (s, r, false) =>
          let links := Function.update links l { links l with sibling := (links r).children }
          (s, Function.update links r { links r with children := l })

/-- `grn_pat_add` of a table with suffix sharing. -/
def grnPatAddWithSis (s : GrnPat) (links : ℕ → SisNode) (key : List UInt8) :
    Option (GrnPat × (ℕ → SisNode) × ℕ × Bool) := do
  let (s, id, added) ← grnPatAdd s key
  if added ∧ 0x80 ≤ key.headD 0 then
    let links := Function.update links id ⟨id, 0⟩
    let (s, links) := sisLoop key.length s links id key ((s.nodes id).key.offset % 2 ^ 32)
    return (s, links, id, added)
  else
    return (s, links, id, added)

/-- A table with suffix sharing after some additions. -/
def runWithSis (s : GrnPat) (links : ℕ → SisNode) : List (List UInt8) → GrnPat
  | [] => s
  | key :: keys =>
    match grnPatAddWithSis s links key with
    | some (s, links, _, _) => runWithSis s links keys
    | none => runWithSis s links keys

/-! ## Defragmentation -/

/-- Four characters of three bytes: the suffixes of three and of two characters share the
bytes of the key. -/
def kana : List UInt8 := [0xe3, 0x81, 0x82, 0xe3, 0x81, 0x84, 0xe3, 0x81, 0x86, 0xe3, 0x81, 0x88]

/-- Ten characters of one byte, which have no suffixes. -/
def letters : List UInt8 := [0x61, 0x62, 0x63, 0x64, 0x65, 0x66, 0x67, 0x68, 0x69, 0x6a]

/-- A table with suffix sharing and the two keys. -/
def sharing : GrnPat := runWithSis (grnPatCreate false 0) (fun _ => ⟨0, 0⟩) [kana, letters]

end Groonga.Pat
