import Enki.Silo.Format
import Enki.Lib.StreamParser

/-!
# The Silo reader and canonical validator (`silo.c`, "General decoder")

One parser, `decodeNode`, serves both entry points. `plSiloScanStream` runs it
with `captureHeader`, recording the pin table and the order in which its
entries are first used; with `canonical` it also enforces the unique profile.
`plSiloBuildStream` re-reads an accepted stream with `build` and returns the
value. As in the source the two modes follow the same path through the bytes
and differ only in the checks they add and in the value they assemble: without
`build` the value is the `0` the source leaves in `*out`. Allocation succeeds.
-/

namespace Enki.Silo

open LittleEndian ExceptState StreamParser
open OpeningSchedule (insertBy)

/-- `silo_node_kind`. -/
inductive NodeKind where
  | nat | pin | law | app
  deriving DecidableEq

/-- `silo_node_info`. -/
structure NodeInfo where
  kind : NodeKind
  wireAppN : Nat := 0
  natFits : Bool := false
  natU64 : Nat := 0

/-- First-use tracking of a scan: `used`, `next_canonical_pin` and the `used`
list of `pl_silo_scan`. -/
structure PinTrack where
  used : List Bool
  nextCanonicalPin : Nat
  usedList : List Nat

/-- The configuration of `silo_dec`: mode flags, the pin table and the resolved
pins. -/
structure DecCfg where
  build : Bool
  canonical : Bool
  captureHeader : Bool
  pins : List Hash
  resolved : List Val

/-- Parsers over a Silo stream. -/
abbrev Dec := Parser PinTrack

/-- `sread`. -/
def dread (n : Nat) : Dec (List UInt8) :=
  StreamParser.take (fun pos => s!"truncated Silo stream at byte {pos}") n

/-- Read one byte. -/
def dreadByte : Dec UInt8 := do
  let b ← dread 1
  pure (b.headD 0)

/-- Read a 32-byte hash. -/
def dreadHash : Dec Hash := do
  let b ← dread 32
  pure (Hash.ofBytes b)

/-- `getle`: at most eight bytes count. -/
def getle (b : List UInt8) : Nat := toNat (b.take 8)

/-! ## Header -/

/-- `decode_varnat`. -/
def decodeVarnat : Dec Nat := do
  let width ← dreadByte
  reject (width.toNat > 8) s!"varnat width {width.toNat} exceeds 8"
  let b ← dread width.toNat
  let v := getle b
  -- zero is written without a byte
  reject ((v = 0 ∧ width.toNat ≠ 0) ∨ (v ≠ 0 ∧ width.toNat ≠ widthU64 v)) "nonminimal varnat"
  pure v

/-- The pin-table loop of `decode_header` while capturing: no hash twice. -/
def captureTable : Nat → List Hash → Dec (List Hash)
  | 0, table => pure table
  | n + 1, table => do
    let hash ← dreadHash
    reject (hash ∈ table) "duplicate Silo pin-table hash"
    captureTable n (table ++ [hash])

/-- The pin-table loop of `decode_header` on the second pass. -/
def recheckTable : List Hash → Dec Unit
  | [] => pure ()
  | h :: table => do
    let hash ← dreadHash
    reject (hash ≠ h) "Silo pin table changed on rewind"
    recheckTable table

/-- The fixed part of `decode_header`: magic and pin count. -/
def decodeCount : Dec Nat := do
  -- a stream too short for the magic gets the same message
  let magic ← StreamParser.take (fun _ => "bad Silo magic or version") siloMagic.length
  reject (magic ≠ siloMagic) "bad Silo magic or version"
  let count ← decodeVarnat
  reject (count > maxPinCount) "Silo pin count exceeds limit"
  pure count

/-! ## Naturals -/

/-- `nat_accum`; `cells` are the limb bytes filled so far when a boxed natural
is being built. -/
structure NatAccum where
  len : Nat
  low : Nat := 0
  last : UInt8 := 0
  cells : Option (List UInt8) := none

/-- `nat_accum_init`. -/
def natAccumInit (d : DecCfg) (len : Nat) : Dec NatAccum := do
  reject (len > maxNatBytes) "natural byte length exceeds runtime limit"
  -- only what does not fit a limb is built in place
  if d.build ∧ len > 8 then do
    reject ((len + 7) / 8 = 0 ∨ (len + 7) / 8 > maxPinCount) "natural limb count overflow"
    pure { len := len, cells := some [] }
  else pure { len := len }

/-- `nat_accum_bytes` at offset `off`, which is where the previous call ended. -/
def natAccumBytes (a : NatAccum) (off : Nat) (bs : List UInt8) : NatAccum :=
  { a with
    low := a.low ||| toNat (bs.take (8 - off)) * 256 ^ off
    last := bs.getLastD a.last
    cells := a.cells.map (· ++ bs) }

/-- `nat_accum_finish`. -/
def natAccumFinish (d : DecCfg) (a : NatAccum) : Dec (Val × NodeInfo) := do
  reject (a.len ≠ 0 ∧ a.last = 0) "natural has a trailing zero byte"
  let info : NodeInfo := { kind := .nat, natFits := a.len ≤ 8, natU64 := a.low }
  if ¬ d.build then pure (.nat 0, info)
  -- small enough to be direct
  else if a.len = 0 ∨ (a.len ≤ 8 ∧ a.low ≤ nat63Max) then pure (.nat a.low, info)
  else
    match a.cells with
    | none => pure (.nat a.low, info)
    | some cells => pure (.nat (toNat cells), info)

/-- The chunked read loop of `decode_contiguous_nat`. -/
def readNatChunks (len off : Nat) (a : NatAccum) : Dec NatAccum :=
  if _h : off < len then do
    let n := min (len - off) 4096
    let buf ← dread n
    readNatChunks len (off + n) (natAccumBytes a off buf)
  else pure a
termination_by len - off
decreasing_by omega

/-- `decode_contiguous_nat`. -/
def decodeContiguousNat (d : DecCfg) (len : Nat) : Dec (Val × NodeInfo) := do
  reject (len = 0) "zero-length natural payload"
  let a ← natAccumInit d len
  let a ← readNatChunks len 0 a
  natAccumFinish d a

/-- `decode_medium`. -/
def decodeMedium (d : DecCfg) (width : Nat) : Dec (Val × NodeInfo) := do
  reject (width = 0 ∨ width > 31) "invalid MEDIUM width"
  let (v, info) ← decodeContiguousNat d width
  -- a small natural has an opcode of its own
  reject (d.canonical ∧ info.natFits ∧ info.natU64 ≤ 63) "canonical small natural must use SMOL"
  pure (v, info)

/-- `decode_big`. -/
def decodeBig (d : DecCfg) (lengthWidth : Nat) : Dec (Val × NodeInfo) := do
  reject (lengthWidth = 0 ∨ lengthWidth > 15) "invalid BIG length width"
  let b ← dread lengthWidth
  -- a length of more than eight bytes must be zero there
  reject (∃ x ∈ b.drop 8, x ≠ 0) "BIG length exceeds implementation range"
  let len := getle b
  reject (len = 0) "zero-length BIG"
  reject (d.canonical ∧ lengthWidth ≠ widthU64 len) "nonminimal canonical BIG length width"
  reject (d.canonical ∧ (len < 32 ∨ len > natCutover)) "canonical natural uses the wrong BIG opcode"
  decodeContiguousNat d len

/-! ## Merkle-paged naturals -/

/-- `proof_sibling`. -/
structure ProofSibling where
  start : Nat
  count : Nat
  parentCount : Nat
  hash : Hash

/-- `unopened_node`. -/
structure UnopenedNode where
  start : Nat
  count : Nat
  hash : Hash

/-- `expected_leaf`. -/
structure ExpectedLeaf where
  index : Nat
  hash : Hash

/-- `unopened_insert`. -/
def unopenedInsert (x : UnopenedNode) : List UnopenedNode → Option (List UnopenedNode) :=
  insertBy UnopenedNode.start x

/-- `expected_insert`. -/
def expectedInsert (x : ExpectedLeaf) : List ExpectedLeaf → Option (List ExpectedLeaf) :=
  insertBy ExpectedLeaf.index x

/-- `expected_take`. -/
def expectedTake (index : Nat) : List ExpectedLeaf → Option (Hash × List ExpectedLeaf)
  | [] => none
  | x :: xs =>
    if x.index = index then some (x.hash, xs)
    -- the list is sorted, so the leaf is not there
    else if x.index > index then none
    else (expectedTake index xs).map fun r => (r.1, x :: r.2)

/-- The siblings down the left spine, root first. -/
def readPath (count : Nat) : Dec (List ProofSibling) :=
  if _h : count > 1 then do
    let k := splitPower count
    let hash ← dreadHash
    let path ← readPath k
    pure ({ start := k, count := count - k, parentCount := count, hash } :: path)
  else pure []
termination_by count
decreasing_by exact mnatSplit.lt _h

/-- What an MNAT traversal knows: intervals to open and leaves to check. -/
structure Frontier where
  unopened : List UnopenedNode
  expected : List ExpectedLeaf

/-- Queue a subtree by its size, `none` when its place is taken. -/
def Frontier.insert (f : Frontier) (start count : Nat) (hash : Hash) : Option Frontier :=
  if count = 1 then
    (expectedInsert ⟨start, hash⟩ f.expected).map fun e => { f with expected := e }
  else
    (unopenedInsert ⟨start, count, hash⟩ f.unopened).map fun u => { f with unopened := u }

/-- The initial frontier, from the first leaf and the path. -/
def initialFrontier (path : List ProofSibling) (f : Frontier) : Option Frontier :=
  match path with
  | [] => some f
  | s :: path => (f.insert s.start s.count s.hash).bind (initialFrontier path)

variable (sha256 : List UInt8 → Hash)

/-- The root hash the initial proof folds to. -/
def foldPath (first : Hash) (path : List ProofSibling) : Hash :=
  path.foldr (fun s folded => siloNodeHash sha256 0 s.parentCount folded s.hash) first

/-- Queue one child of an opened interval. -/
def insertChild (leafIndex start count : Nat) (hash : Hash) (f : Frontier) : Dec Frontier := do
  reject (start ≤ leafIndex) "MNAT expansion points behind completed leaf"
  match f.insert start count hash with
  | some f => pure f
  | none =>
    throw (if count = 1 then "duplicate MNAT expected leaf" else "duplicate MNAT unopened interval")

/-- Loop state of the payload pages. -/
structure MnatRun where
  accum : NatAccum
  payloadOff : Nat
  leafIndex : Nat
  leafBuf : List UInt8
  maxPage : Nat
  frontier : Frontier

/-- Open the leftmost unopened interval, if there is one; the page checksum
covers the two child hashes. -/
def openInterval (leafIndex : Nat) (crc : UInt32) (f : Frontier) : Dec (Frontier × UInt32) :=
  match f.unopened with
  -- all intervals are open: the rest of the leaves are known
  | [] => pure (f, crc)
  | parent :: unopened => do
    let children ← dread 64
    let left := Hash.ofBytes (children.take 32)
    let right := Hash.ofBytes (children.drop 32)
    reject (siloNodeHash sha256 parent.start parent.count left right ≠ parent.hash)
      "MNAT expansion does not match parent hash"
    let k := splitPower parent.count
    let f : Frontier := { f with unopened }
    let f ← insertChild leafIndex parent.start k left f
    let f ← insertChild leafIndex (parent.start + k) (parent.count - k) right f
    pure (f, crc32cUpdate crc children)

/-- A leaf is complete: check it, then open one interval. -/
def completeLeaf (crc : UInt32) (r : MnatRun) : Dec (MnatRun × UInt32) := do
  match expectedTake r.leafIndex r.frontier.expected with
  -- the hash must have been disclosed before the leaf was
  | none => throw "MNAT leaf completed without an expected hash"
  | some (wanted, expected) =>
    reject (siloLeafHash sha256 r.leafIndex r.leafBuf ≠ wanted)
      s!"MNAT leaf {r.leafIndex} hash mismatch"
    let (frontier, crc) ← openInterval sha256 r.leafIndex crc { r.frontier with expected }
    pure ({ r with frontier, leafIndex := r.leafIndex + 1, leafBuf := [] }, crc)

/-- The segments of one page. A segment is never empty: a leaf under
construction is shorter than its total. -/
def decodeSegments (byteLength pageLen pageDone : Nat) (crc : UInt32) (r : MnatRun) :
    Dec (MnatRun × UInt32) :=
  if _h : pageDone < pageLen then do
    -- the last leaf may be short
    let leafTotal := min (byteLength - r.leafIndex * leafBytes) leafBytes
    let n := min (pageLen - pageDone) (leafTotal - r.leafBuf.length)
    if _hn : n = 0 then throw "MNAT traversal did not close"
    else do
      let bs ← dread n
      let r := { r with
        accum := natAccumBytes r.accum r.payloadOff bs
        leafBuf := r.leafBuf ++ bs
        payloadOff := r.payloadOff + n }
      let crc := crc32cUpdate crc bs
      -- the segment ends the leaf, or the page ends first
      if r.leafBuf.length = leafTotal then do
        let (r, crc) ← completeLeaf sha256 crc r
        decodeSegments byteLength pageLen (pageDone + n) crc r
      else decodeSegments byteLength pageLen (pageDone + n) crc r
  else pure (r, crc)
termination_by pageLen - pageDone
decreasing_by all_goals omega

/-- The trailing checksum of a page, present when the flag bit is set. -/
def checkPageCrc (flags : UInt8) (crc : UInt32) : Dec Unit :=
  if flags &&& 1 ≠ 0 then do
    let b ← dread 4
    reject ((~~~ crc).toNat ≠ getle b) "MNAT page CRC32C mismatch"
  else pure ()

/-- The payload pages. Each consumes at least one byte of payload, so
`byteLength` rounds suffice. -/
def decodePages (d : DecCfg) (flags : UInt8) (pageWidth byteLength : Nat) :
    Nat → MnatRun → Dec MnatRun
  | 0, r => pure r
  | fuel + 1, r =>
    if r.payloadOff < byteLength then do
      let pbuf ← dread pageWidth
      let pageLen := getle pbuf
      reject (pageLen = 0 ∨ pageLen > maxNatBytes ∨ pageLen > byteLength - r.payloadOff)
        "invalid MNAT page payload length"
      let r := { r with maxPage := max r.maxPage pageLen }
      -- full pages, but for the last one
      let canonicalPage := min (byteLength - r.payloadOff) pageBytes
      reject (d.canonical ∧ pageLen ≠ canonicalPage) "noncanonical MNAT page payload length"
      let (r, crc) ←
        decodeSegments sha256 byteLength pageLen 0 (crc32cUpdate 0xffffffff pbuf) r
      checkPageCrc flags crc
      decodePages d flags pageWidth byteLength fuel r
    else pure r

/-- The scalars at the head of an MNAT. -/
structure MnatHeader where
  flags : UInt8
  pageWidth : Nat
  bitLength : Nat
  declaredRoot : Hash

/-- The scalars of `decode_mnat` and their checks. -/
def decodeMnatHeader (d : DecCfg) : Dec MnatHeader := do
  let fixed ← dread 3
  let flags := fixed.getD 0 0
  -- widths are written less one, and wrap in a byte
  let lengthWidth := (fixed.getD 1 0 + 1).toNat
  let pageWidth := (fixed.getD 2 0 + 1).toNat
  reject (flags &&& 0xfe ≠ 0) "reserved MNAT flag is set"
  reject (lengthWidth > 8 ∨ pageWidth > 8) "invalid MNAT scalar width"
  reject (d.canonical ∧ flags ≠ 0) "canonical MNAT must not carry page CRCs"
  let lenbuf ← dread lengthWidth
  let declaredRoot ← dreadHash
  let bitLength := getle lenbuf
  reject (bitLength = 0) "MNAT cannot encode zero"
  reject (lengthWidth ≠ widthU64 bitLength) "nonminimal MNAT bit-length width"
  pure { flags, pageWidth, bitLength, declaredRoot }

/-- The initial proof of `decode_mnat`, folded and checked against the root. -/
def decodeMnatProof (h : MnatHeader) (leafCount : Nat) : Dec Frontier := do
  let firstHash ← dreadHash
  let path ← readPath leafCount
  reject (siloNatRootHash sha256 h.bitLength (foldPath sha256 firstHash path) ≠ h.declaredRoot)
    "MNAT initial proof does not match root hash"
  match initialFrontier path { unopened := [], expected := [⟨0, firstHash⟩] } with
  | none => throw "inconsistent MNAT initial frontier"
  | some frontier => pure frontier

/-- The closing checks of `decode_mnat`. -/
def decodeMnatClose (d : DecCfg) (h : MnatHeader) (byteLength leafCount : Nat) (r : MnatRun) :
    Dec (Val × NodeInfo) := do
  reject (r.leafBuf ≠ [] ∨ r.leafIndex ≠ leafCount ∨ ¬ r.frontier.unopened.isEmpty ∨
    ¬ r.frontier.expected.isEmpty) "MNAT traversal did not close"
  let topBit := (h.bitLength - 1) % 8
  -- the top bit is where the bit length says
  reject (r.accum.last.toNat ≥ 2 ^ (topBit + 1) ∨ r.accum.last.toNat / 2 ^ topBit % 2 = 0)
    "MNAT final byte disagrees with bit length"
  let canonicalMax := if byteLength < pageBytes then byteLength else pageBytes
  reject (d.canonical ∧ (h.pageWidth ≠ widthU64 canonicalMax ∨ r.maxPage ≠ canonicalMax))
    "noncanonical MNAT page-length width"
  natAccumFinish d r.accum

/-- `decode_mnat`. -/
def decodeMnat (d : DecCfg) : Dec (Val × NodeInfo) := do
  let h ← decodeMnatHeader d
  let byteLength := h.bitLength / 8 + if h.bitLength % 8 ≠ 0 then 1 else 0
  reject (byteLength > maxNatBytes) "MNAT natural exceeds runtime limit"
  reject (d.canonical ∧ byteLength ≤ natCutover) "canonical small natural must not use MNAT"
  let leafCount := (byteLength + leafBytes - 1) / leafBytes
  let frontier ← decodeMnatProof sha256 h leafCount
  let accum ← natAccumInit d byteLength
  let r ← decodePages sha256 d h.flags h.pageWidth byteLength byteLength
    { accum, payloadOff := 0, leafIndex := 0, leafBuf := [], maxPage := 0, frontier }
  decodeMnatClose d h byteLength leafCount r

/-! ## Nodes -/

/-- `n` nodes in a row. -/
def decodeMany (x : Dec (Val × NodeInfo)) : Nat → Dec (List Val)
  | 0 => pure []
  | n + 1 => do
    let (a, _) ← x
    let as ← decodeMany x n
    pure (a :: as)

/-- Assemble an application, flattening an application head; without `build`
there is nothing to assemble. -/
def buildApp (d : DecCfg) (head : Val) (args : List Val) : Dec Val :=
  if ¬ d.build then pure (.nat 0)
  else
    -- the spine of the head is taken over
    let (flatHead, inner) :=
      match head with
      | .app _ h as => (h, as)
      | h => (h, [])
    let total := inner.length + args.length
    let need := if flatHead.arity = 0 ∨ flatHead.arity ≤ total then 0 else flatHead.arity - total
    if total = 0 ∨ total > 0xffffffff - 2 then throw "decoded APP is too large"
    else if need ≥ 2 ^ 20 then throw "decoded APP need exceeds runtime limit"
    else pure (.app need flatHead (inner ++ args))

/-- The first-use bookkeeping of a pin reference. -/
def trackPin (d : DecCfg) (index : Nat) : Dec Unit := fun s =>
  -- only the first use of an entry counts
  if d.captureHeader ∧ ¬ s.aux.used.getD index false then
    if d.canonical ∧ index ≠ s.aux.nextCanonicalPin then
      .error "canonical PIN table is not first-occurrence order"
    else
      .ok ((), { s with aux :=
        { used := s.aux.used.set index true
          nextCanonicalPin := s.aux.nextCanonicalPin + 1
          usedList := s.aux.usedList ++ [index] } })
  else .ok ((), s)

/-- A pin reference. -/
def decodePin (d : DecCfg) (width : Nat) : Dec (Val × NodeInfo) := do
  let b ← dread width
  let index := getle b
  reject (width ≠ widthU64 index) "nonminimal PIN index width"
  reject (index ≥ d.pins.length) "PIN index is out of range"
  trackPin d index
  let info : NodeInfo := { kind := .pin }
  if d.build then do
    let pin := d.resolved.getD index (.nat 0)
    reject (¬ pin.isPin) "Silo PIN referent was not resolved"
    pure (pin, info)
  else pure (.nat 0, info)

/-- `%02x`. -/
def hex2 (n : Nat) : String := String.ofList [(n / 16).digitChar, (n % 16).digitChar]

/-- An application of `n` arguments; `child` reads a node one level deeper. -/
def decodeApp (d : DecCfg) (child : Dec (Val × NodeInfo)) (n : Nat) : Dec (Val × NodeInfo) := do
  let (head, headInfo) ← child
  -- an application heads another only where the opcode is full
  reject (d.canonical ∧ headInfo.kind = .app ∧ headInfo.wireAppN ≠ 15)
    "noncanonical APP spine flattening"
  let args ← decodeMany child n
  let v ← buildApp d head args
  pure (v, { kind := .app, wireAppN := n })

/-- A law: name, arity, body. -/
def decodeLaw (d : DecCfg) (child : Dec (Val × NodeInfo)) : Dec (Val × NodeInfo) := do
  let (name, _) ← child
  let (_, arityInfo) ← child
  reject (arityInfo.kind ≠ .nat ∨ ¬ arityInfo.natFits ∨ arityInfo.natU64 = 0 ∨
    arityInfo.natU64 > nat63Max) "LAW arity is not a direct nonzero runtime natural"
  let (body, _) ← child
  pure (if d.build then .law arityInfo.natU64 name body else .nat 0, { kind := .law })

/-- The opcode dispatch of `decode_node`. -/
def decodeOp (d : DecCfg) (child : Dec (Val × NodeInfo)) (op : Nat) : Dec (Val × NodeInfo) :=
  if 0x80 ≤ op ∧ op ≤ 0xbf then
    pure (.nat (if d.build then op % 64 else 0),
      { kind := .nat, natFits := true, natU64 := op % 64 })
  else if 0xc1 ≤ op ∧ op ≤ 0xdf then decodeMedium d (op % 32)
  else if 0xe1 ≤ op ∧ op ≤ 0xef then decodeBig d (op % 16)
  else if op = 0xf9 then decodeMnat sha256 d
  else if 0x08 ≤ op ∧ op ≤ 0x78 ∧ op % 8 = 0 then decodeApp d child (op / 8)
  else if op = 0xf0 then decodeLaw d child
  else if 0xf1 ≤ op ∧ op ≤ 0xf8 then decodePin d (op - 0xf0)
  else throw s!"invalid Silo opcode 0x{hex2 op}"

/-- `decode_node`. -/
def decodeNode (d : DecCfg) : Nat → Dec (Val × NodeInfo)
  | 0 => throw "Silo nesting exceeds 4096"
  | budget + 1 => do
    let opcode ← dreadByte
    decodeOp sha256 d (decodeNode d budget) opcode.toNat

/-! ## Entry points -/

/-- `pl_silo_scan`: the pin table and the indices into it in first-use order. -/
structure Scan where
  pins : List Hash
  used : List Nat
  deriving DecidableEq

/-- The stream under a `pl_silo_reader`, whose `len` is a `uint64_t`. -/
structure Source where
  bytes : List UInt8
  length_le : bytes.length ≤ uint64Max

/-- `pl_silo_scan_stream`. -/
def plSiloScanStream (b : Source) (canonical : Bool) : Except String Scan := do
  let (count, s) ← decodeCount ⟨b.bytes, 0, ⟨[], 0, []⟩⟩
  let (pins, s) ← captureTable count [] s
  let cfg : DecCfg :=
    { build := false, canonical, captureHeader := true, pins, resolved := [] }
  let track : PinTrack := ⟨List.replicate count false, 0, []⟩
  let (_, s) ← decodeNode sha256 cfg (maxDepth + 1) { s with aux := track }
  if ¬ s.rest.isEmpty then .error "trailing bytes after Silo root node"
  -- a canonical table is used up
  else if canonical ∧ s.aux.nextCanonicalPin ≠ pins.length then
    .error "canonical Silo pin table contains unused entries"
  else .ok { pins, used := s.aux.usedList }

/-- `pl_silo_build_stream`, for a scan that accepted the stream. -/
def plSiloBuildStream (b : Source) (accepted : Scan) (resolved : List Val) :
    Except String Val := do
  let (count, s) ← decodeCount ⟨b.bytes, 0, ⟨[], 0, []⟩⟩
  if count ≠ accepted.pins.length then .error "Silo pin table changed on rewind"
  else
    let ((), s) ← recheckTable accepted.pins s
    let cfg : DecCfg :=
      { build := true, canonical := false, captureHeader := false, pins := accepted.pins, resolved }
    let ((v, _), s) ← decodeNode sha256 cfg (maxDepth + 1) s
    if ¬ s.rest.isEmpty then .error "trailing bytes after Silo root node"
    else .ok v

end Enki.Silo
