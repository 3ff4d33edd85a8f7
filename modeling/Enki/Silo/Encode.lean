import Enki.Lib.BoundedWriter
import Enki.Silo.Format

/-!
# The canonical Silo writer (`silo.c`, "Canonical encoder")

The writer threads the bytes written so far (`pl_silo_writer` over a buffer
whose `write` callback never fails); every function either extends them or
fails with the message of the source. The nesting depth is counted down: a
budget of `maxDepth + 1 - depth`, so that budget `0` is the source's
`depth > PL_SILO_MAX_DEPTH`.

The Merkle tree of a large natural is the tree itself rather than the
post-order node array of the source; `nodes[0]` is its leftmost leaf.
-/

namespace Enki.Silo

open LittleEndian BoundedWriter

/-- Writers of `silo_enc`. -/
abbrev Enc := ByteWriter

/-- `swrite`. -/
def swrite (bs : List UInt8) : Enc Unit := write uint64Max "Silo output length overflow" bs

/-- `swrite_u8`. -/
def swriteU8 (v : Nat) : Enc Unit := swrite [UInt8.ofNat v]

/-- `swrite_le`. -/
def swriteLe (v width : Nat) : Enc Unit := swrite (bytes width v)

/-- `swrite_varnat`. -/
def swriteVarnat (v : Nat) : Enc Unit := do
  let width := if v = 0 then 0 else widthU64 v
  swriteU8 width
  swriteLe v width

/-- Write bytes `off, …, len - 1` of `v` through a 4096-byte buffer: the loop
of `encode_nat_bytes`, and the payload loop of `encode_mnat`. -/
def encodeNatRange (v off len : Nat) : Enc Unit :=
  if _h : off < len then do
    let n := min (len - off) 4096
    swrite (natByteRange v off n)
    encodeNatRange v (off + n) len
  else pure ()
termination_by len - off
decreasing_by omega

/-- `encode_nat_bytes`. -/
def encodeNatBytes (v len : Nat) : Enc Unit := encodeNatRange v 0 len

/-! ## Merkle-paged naturals -/

/-- `mnat_node`, with its children. -/
inductive MnatTree where
  | leaf (start : Nat) (hash : Hash)
  | node (start count : Nat) (hash : Hash) (left right : MnatTree)

namespace MnatTree

def start : MnatTree → Nat
  | leaf s _ => s
  | node s _ _ _ _ => s

def count : MnatTree → Nat
  | leaf _ _ => 1
  | node _ c _ _ _ => c

def hash : MnatTree → Hash
  | leaf _ h => h
  | node _ _ h _ _ => h

/-- `nodes[0].hash`: the first node in post-order. -/
def firstHash : MnatTree → Hash
  | leaf _ h => h
  | node _ _ _ l _ => l.firstHash

end MnatTree

variable (sha256 : List UInt8 → Hash)

/-- Bytes of leaf `start`. -/
def mnatLeaf (v byteLength start : Nat) : List UInt8 :=
  natByteRange v (start * leafBytes) (min (byteLength - start * leafBytes) leafBytes)

/-- `mnat_build`. -/
def mnatBuild (v byteLength start count : Nat) : MnatTree :=
  if _h : 1 < count then
    let k := splitPower count
    let left := mnatBuild v byteLength start k
    let right := mnatBuild v byteLength (start + k) (count - k)
    .node start count (siloNodeHash sha256 start count left.hash right.hash) left right
  else
    .leaf start (siloLeafHash sha256 start (mnatLeaf v byteLength start))
termination_by count
decreasing_by
  · exact mnatSplit.lt _h
  · have hpos : 0 < splitPower count := mnatSplit.pos _h
    omega

/-- `node_queue_insert`: keep the frontier sorted by `start`. -/
def nodeQueueInsert (t : MnatTree) : List MnatTree → List MnatTree
  | [] => [t]
  | u :: us => if u.start < t.start then u :: nodeQueueInsert t us else t :: u :: us

/-- Queue a subtree that still has to be opened. -/
def queueInner (t : MnatTree) (frontier : List MnatTree) : List MnatTree :=
  if t.count > 1 then nodeQueueInsert t frontier else frontier

/-- The initial proof: the right siblings down the left spine. -/
def encodeSpine : MnatTree → List MnatTree → Enc (List MnatTree)
  | .leaf _ _, frontier => pure frontier
  | .node _ _ _ l r, frontier => do
    swrite r.hash.bytes
    encodeSpine l (queueInner r frontier)

/-- After a completed leaf: open the leftmost frontier node. -/
def encodeOpening : List MnatTree → Enc (List MnatTree)
  | .node _ _ _ l r :: frontier => do
    swrite l.hash.bytes
    swrite r.hash.bytes
    pure (queueInner r (queueInner l frontier))
  -- a leaf is never queued, so nothing is left to open
  | frontier => pure frontier

/-- The segments of one page; `leafOff` is the offset inside the current leaf. -/
def encodeSegments (v byteLength pageOff pageLen inPage : Nat) (leafOff : Fin leafBytes)
    (frontier : List MnatTree) : Enc (List MnatTree × Fin leafBytes) :=
  if _h : inPage < pageLen then do
    let seg := min (pageLen - inPage) (leafBytes - leafOff)
    let off := pageOff + inPage
    encodeNatRange v off (off + seg)
    -- the page ends within the leaf, or the leaf is complete
    if hl : leafOff + seg < leafBytes ∧ off + seg ≠ byteLength then
      encodeSegments v byteLength pageOff pageLen (inPage + seg) ⟨leafOff + seg, hl.1⟩ frontier
    else do
      let frontier ← encodeOpening frontier
      encodeSegments v byteLength pageOff pageLen (inPage + seg) ⟨0, by decide⟩ frontier
  else pure (frontier, leafOff)
termination_by pageLen - inPage
decreasing_by
  all_goals
    have := leafOff.isLt
    omega

/-- The pages of an MNAT payload. -/
def encodePages (v byteLength pageWidth payloadOff : Nat) (leafOff : Fin leafBytes)
    (frontier : List MnatTree) : Enc (List MnatTree) :=
  if _h : payloadOff < byteLength then do
    let pageLen := min (byteLength - payloadOff) pageBytes
    swriteLe pageLen pageWidth
    let (frontier, leafOff) ← encodeSegments v byteLength payloadOff pageLen 0 leafOff frontier
    encodePages v byteLength pageWidth (payloadOff + pageLen) leafOff frontier
  else pure frontier
termination_by byteLength - payloadOff
decreasing_by
  have : 0 < pageBytes := by decide
  omega

/-- `encode_mnat`. -/
def encodeMnat (v byteLength : Nat) : Enc Unit := do
  let bitLength := natBitLength v byteLength
  let leafCount := (byteLength + leafBytes - 1) / leafBytes
  let tree := mnatBuild sha256 v byteLength 0 leafCount
  let rootHash := siloNatRootHash sha256 bitLength tree.hash
  let lengthWidth := widthU64 bitLength
  let maxPage := if byteLength < pageBytes then byteLength else pageBytes
  let pageWidth := widthU64 maxPage
  swriteU8 0xf9
  swriteU8 0
  -- widths are written less one
  swriteU8 (lengthWidth - 1)
  swriteU8 (pageWidth - 1)
  swriteLe bitLength lengthWidth
  swrite rootHash.bytes
  swrite tree.firstHash.bytes
  let frontier ← encodeSpine tree []
  let frontier ← encodePages v byteLength pageWidth 0 ⟨0, by decide⟩ frontier
  if frontier.isEmpty then pure () else throw "internal MNAT frontier did not close"

/-! ## Nodes -/

/-- `encode_u64_nat`. -/
def encodeU64Nat (v : Nat) : Enc Unit :=
  if v ≤ 63 then swriteU8 (0x80 + v)
  else do
    let width := widthU64 v
    swriteU8 (0xc0 ||| width)
    swriteLe v width

/-- The natural case of `encode_node`. -/
def encodeNat (v : Nat) : Enc Unit :=
  let len := byteLen v
  if len = 0 then swriteU8 0x80
  else if len = 1 ∧ (natByteAt v 0).toNat ≤ 63 then swriteU8 (0x80 + (natByteAt v 0).toNat)
  else if len ≤ 31 then do
    swriteU8 (0xc0 ||| len)
    encodeNatBytes v len
  -- inline up to the cutover, in pages beyond it
  else if len ≤ natCutover then do
    let lw := widthU64 len
    swriteU8 (0xe0 ||| lw)
    swriteLe len lw
    encodeNatBytes v len
  else encodeMnat sha256 v len

/-- The reference to a pin: its index in the pin table, which maps each hash to
its position. -/
def encodePin (table : List Hash) (hash : Option Hash) : Enc Unit :=
  match hash with
  | none => throw "cannot encode a provisional PIN reference"
  | some h =>
    match table.idxOf? h with
    -- every pin that is met has been collected into the table
    | none => throw "PIN missing from canonical Silo table"
    | some index => do
      let width := widthU64 index
      swriteU8 (0xf0 + width)
      swriteLe index width

/-- Arguments written by the outermost level of a spine of `n`. -/
def spineOuter (n : Nat) : Nat :=
  let outer := if n ≤ 15 then n else n % 15
  if outer = 0 then 15 else outer

/-- The body of `encode_app_range` on `args[0..n)`, given the writers one level
deeper. -/
def encodeSpineWith (encodeRange : List Val → Enc Unit) (encodeVal : Val → Enc Unit)
    (head : Val) (args : List Val) : Enc Unit := do
  let outer := spineOuter args.length
  let inner := args.length - outer
  -- the arguments of one level; the rest of the spine is its head
  swriteU8 (outer * 8)
  if inner ≠ 0 then encodeRange (args.take inner) else encodeVal head
  (args.drop inner).forM encodeVal

variable (pinHash : Val → Option Hash) (table : List Hash)

mutual

/-- `encode_node`. -/
def encodeNode : Nat → Val → Enc Unit
  | 0, _ => throw "Silo nesting exceeds 4096"
  | _ + 1, .nat n => encodeNat sha256 n
  | _ + 1, .pin h b => encodePin table (pinHash (.pin h b))
  | budget + 1, .law arity name body =>
    if arity = 0 ∨ arity > nat63Max then
      throw "LAW arity is not a direct nonzero runtime natural"
    else do
      swriteU8 0xf0
      encodeNode budget name
      encodeU64Nat arity
      encodeNode budget body
  | budget + 1, .app _ head args =>
    if args.length = 0 then throw "cannot encode empty APP"
    else encodeSpineWith (encodeAppRange budget head) (encodeNode budget) head args

/-- `encode_app_range`. -/
def encodeAppRange : Nat → Val → List Val → Enc Unit
  | 0, _, _ => throw "Silo nesting exceeds 4096"
  | budget + 1, head, args =>
    encodeSpineWith (encodeAppRange budget head) (encodeNode budget) head args

end

/-- The pin table of `pl_silo_encode_resolved`: every entry a pin with a hash,
no hash twice. -/
def encodeTable : List Val → List Hash → Except String (List Hash)
  | [], table => .ok table
  | p :: subpins, table =>
    if p.isPin then
      match pinHash p with
      | none => .error "provisional PIN in Silo pin table"
      | some h =>
        if h ∈ table then .error "duplicate Silo pin table hash"
        else encodeTable subpins (table ++ [h])
    else .error "non-PIN in Silo pin table"

/-- Magic, pin count and pin table. -/
def encodeHeader (nsub : Nat) : Enc Unit := do
  swrite siloMagic
  swriteVarnat nsub
  table.forM fun h => swrite h.bytes

/-- `pl_silo_encode_resolved`, into an empty buffer. -/
def plSiloEncodeResolved (root : Val) (subpins : List Val) : Except String (List UInt8) :=
  if subpins.length > maxPinCount then .error "too many Silo pins"
  else
    match encodeTable pinHash subpins [] with
    | .error e => .error e
    | .ok table =>
      let stream : Enc Unit := do
        encodeHeader table subpins.length
        encodeNode sha256 pinHash table (maxDepth + 1) root
      (stream []).map Prod.snd

/-- `pl_silo_encode`. -/
def plSiloEncode (root : Val) (subpins : List Val) : Except String (List UInt8) :=
  plSiloEncodeResolved sha256 Val.pinHash root subpins

end Enki.Silo
