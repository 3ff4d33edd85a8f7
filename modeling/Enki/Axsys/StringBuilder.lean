import Enki.Axsys.Numerals

/-!
# The string builder of `axsys/sb.h`

A builder keeps pieces, not bytes: references to strings, characters, numbers. The
pieces are in the builder itself until there are more than sixteen, and then in a
block of its allocator.

A `World` has any number of builders over one heap of piece arrays; the slots of an
array that were never written are `none`. `Env.grant` says which requests to the
allocators succeed, and `Env.mem` is the memory that referenced strings lie in. The
outer `none` of an operation is undefined behaviour: a read or write outside an array,
or in a block that was freed.
-/

namespace Enki.Axsys.Sb

/-- The largest `size_t`. -/
def sizeMax : Nat := 2 ^ 64 - 1

/-- `sizeof(ax_sb_piece)`. -/
def pieceSize : Nat := 24

/-- `AX_SB_INLINE_PIECES`. -/
def inlineCount : Nat := 16

/-- Which callbacks an allocator has. -/
structure Allocator where
  alloc : Bool
  realloc : Bool
  free : Bool

/-- `ax_sb__allocator_ok`; `none` is the null pointer. -/
def allocatorOk : Option Allocator → Bool
  | none => false
  | some a => a.alloc && a.free

/-- `ax_sb_piece`. -/
inductive Piece where
  | ref (data len : Nat)
  | char (c : UInt8)
  | i64 (v : Int64)
  | u64 (v : UInt64) (base : Nat) (uppercase : Bool)
  deriving DecidableEq

/-- Where the pieces are. -/
inductive Place where
  | inline
  | block (a : Nat)
  deriving DecidableEq

/-- `ax_sb`. -/
structure Builder where
  allocator : Option Allocator
  pieces : Place
  count : Nat
  capacity : Nat
  failed : Bool
  inlinePieces : List (Option Piece)

/-- What an operation finds outside the builders. -/
structure Env where
  mem : Nat → UInt8
  grant : Nat → Bool

structure World where
  builder : Nat → Builder
  heap : Nat → Option (List (Option Piece)) := fun _ => none
  /-- How many requests the allocators got. -/
  requests : Nat := 0

/-! ## Memory -/

namespace World

def setBuilder (w : World) (b : Nat) (sb : Builder) : World :=
  { w with builder := Function.update w.builder b sb }

/-- `sb->failed = 1`. -/
def fail (w : World) (b : Nat) : World := w.setBuilder b { w.builder b with failed := true }

/-- The array the pieces of a builder are in. -/
def array (w : World) (b : Nat) : Option (List (Option Piece)) :=
  match (w.builder b).pieces with
  | .inline => some (w.builder b).inlinePieces
  | .block a => w.heap a

def setArray (w : World) (b : Nat) (arr : List (Option Piece)) : World :=
  match (w.builder b).pieces with
  | .inline => w.setBuilder b { w.builder b with inlinePieces := arr }
  | .block a => { w with heap := Function.update w.heap a (some arr) }

/-- The allocator's `free`. -/
def release (w : World) (a : Nat) : Option World :=
  (w.heap a).map fun _ => { w with heap := Function.update w.heap a none }

end World

/-- `memmove(dst + at, src, n * sizeof(ax_sb_piece))`. -/
def moveSlots (dst : List (Option Piece)) (at' : Nat) (src : List (Option Piece)) (n : Nat) :
    Option (List (Option Piece)) :=
  if n ≤ src.length ∧ at' + n ≤ dst.length then
    some (dst.take at' ++ src.take n ++ dst.drop (at' + n))
  else none

/-! ## Growing -/

/-- The doubling loop of `ax_sb__grow`, at most `fuel` rounds. -/
def growLoop : Nat → Nat → Nat → Option Nat
  | 0, _, _ => none
  | fuel + 1, wanted, capacity =>
    if wanted ≤ capacity then some capacity
    else if capacity > sizeMax / 2 then some wanted
    else growLoop fuel wanted (capacity * 2)

/-- The allocator's `realloc`: the new block starts with what the old one holds. -/
def realloc (w : World) (old a capacity : Nat) : Option World := do
  let src ← w.heap old
  let kept := min src.length capacity
  let arr ← moveSlots (List.replicate capacity none) 0 src kept
  let w ← w.release old
  return { w with heap := Function.update w.heap a (some arr) }

/-- The allocator's `alloc`, and the copy of the first `count` pieces into the block. -/
def allocCopy (w : World) (src : List (Option Piece)) (a capacity count : Nat) : Option World := do
  let arr ← moveSlots (List.replicate capacity none) 0 src count
  return { w with heap := Function.update w.heap a (some arr) }

/-- How `ax_sb__grow` gets the pieces of `sb` into a new block. -/
def relocate (sb : Builder) (a newCapacity : Nat) (w : World) : Option World :=
  match sb.pieces with
  | .inline => allocCopy w sb.inlinePieces a newCapacity sb.count
  | .block old =>
    if sb.allocator.any Allocator.realloc then realloc w old a newCapacity
    else do
      let src ← w.heap old
      let w ← allocCopy w src a newCapacity sb.count
      w.release old

/-- `ax_sb__grow`. -/
def grow (env : Env) (b wantedCapacity : Nat) (w : World) : Option (World × Bool) := do
  let sb := w.builder b
  if sb.failed then return (w, false)
  if wantedCapacity ≤ sb.capacity then return (w, true)
  if !allocatorOk sb.allocator then return (w.fail b, false)
  let newCapacity ← growLoop 65 wantedCapacity
    (if sb.capacity ≠ 0 then sb.capacity else inlineCount)
  if newCapacity > sizeMax / pieceSize then return (w.fail b, false)
  -- All three ways make one request, which may be refused.
  let a := w.requests
  let w := { w with requests := a + 1 }
  if !env.grant a then return (w.fail b, false)
  let w ← relocate sb a newCapacity w
  return (w.setBuilder b { sb with pieces := .block a, capacity := newCapacity }, true)

/-- The start of `ax_sb__push`: a full array grows by at least one slot. -/
def makeRoom (env : Env) (b : Nat) (w : World) : Option (World × Bool) :=
  if (w.builder b).count = (w.builder b).capacity then grow env b ((w.builder b).count + 1) w
  else some (w, true)

/-- `ax_sb__push`. -/
def push (env : Env) (b : Nat) (piece : Piece) (w : World) : Option (World × Bool) := do
  if (w.builder b).failed then return (w, false)
  let (w, ok) ← makeRoom env b w
  if !ok then return (w, false)
  let arr ← w.array b
  let arr ← moveSlots arr (w.builder b).count [some piece] 1
  let w := w.setArray b arr
  return (w.setBuilder b { w.builder b with count := (w.builder b).count + 1 }, true)

/-! ## The operations -/

/-- `ax_sb_init`. -/
def initBuilder (allocator : Option Allocator) : Builder where
  allocator := allocator
  pieces := .inline
  count := 0
  capacity := inlineCount
  failed := !allocatorOk allocator
  inlinePieces := List.replicate inlineCount none

/-- `ax_sb_reset`. -/
def reset (b : Nat) (w : World) : World :=
  w.setBuilder b { w.builder b with count := 0, failed := !allocatorOk (w.builder b).allocator }

/-- `ax_sb_reserve_pieces`. -/
def reservePieces (env : Env) (b additional : Nat) (w : World) : Option (World × Bool) :=
  if (w.builder b).failed then some (w, false)
  else if additional > sizeMax - (w.builder b).count then some (w.fail b, false)
  else grow env b ((w.builder b).count + additional) w

/-- `ax_sb_append_ref`. -/
def appendRef (env : Env) (b : Nat) (data : Option Nat) (len : Nat) (w : World) :
    Option (World × Bool) :=
  if (w.builder b).failed then some (w, false)
  else if len = 0 then some (w, true)
  else
    match data with
    | none => some (w.fail b, false)
    | some data => push env b (.ref data len) w

/-- `strlen`: where the first zero byte is, among `fuel`. -/
def strlen (mem : Nat → UInt8) : Nat → Nat → Nat
  | 0, _ => 0
  | fuel + 1, p => if mem p = 0 then 0 else strlen mem fuel (p + 1) + 1

/-- `ax_sb_append_cstr`. -/
def appendCstr (env : Env) (b : Nat) (cstr : Option Nat) (w : World) : Option (World × Bool) :=
  if (w.builder b).failed then some (w, false)
  else
    match cstr with
    | none => some (w.fail b, false)
    | some cstr => appendRef env b (some cstr) (strlen env.mem sizeMax cstr) w

/-- `ax_sb_append_char`. -/
def appendChar (env : Env) (b : Nat) (c : UInt8) (w : World) : Option (World × Bool) :=
  if (w.builder b).failed then some (w, false) else push env b (.char c) w

/-- `ax_sb_append_i64`. -/
def appendI64 (env : Env) (b : Nat) (value : Int64) (w : World) : Option (World × Bool) :=
  if (w.builder b).failed then some (w, false) else push env b (.i64 value) w

/-- `ax_sb_append_u64_base`. -/
def appendU64Base (env : Env) (b : Nat) (value : UInt64) (base : Nat) (uppercase : Bool)
    (w : World) : Option (World × Bool) :=
  if (w.builder b).failed then some (w, false)
  else if base < 2 ∨ base > 36 then some (w.fail b, false)
  else push env b (.u64 value (base % 256) uppercase) w

/-- `ax_sb_append_u64`. -/
def appendU64 (env : Env) (b : Nat) (value : UInt64) (w : World) : Option (World × Bool) :=
  appendU64Base env b value 10 false w

/-- `ax_sb_append_builder`. -/
def appendBuilder (env : Env) (b : Nat) (other : Option Nat) (w : World) :
    Option (World × Bool) := do
  if (w.builder b).failed then return (w, false)
  match other with
  | none => return (w.fail b, false)
  | some other =>
    if (w.builder other).failed then return (w.fail b, false)
    if (w.builder other).count = 0 then return (w, true)
    let oldCount := (w.builder b).count
    let (w, ok) ← reservePieces env b (w.builder other).count w
    if !ok then return (w, false)
    -- The array of `other` is read after the growth, which may have moved it.
    let src ← w.array other
    let dst ← w.array b
    let count := (w.builder other).count
    let arr ← moveSlots dst oldCount src count
    let w := w.setArray b arr
    return (w.setBuilder b { w.builder b with count := oldCount + count }, true)

inductive Op where
  | appendRef (b : Nat) (data : Option Nat) (len : Nat)
  | appendCstr (b : Nat) (cstr : Option Nat)
  | appendChar (b : Nat) (c : UInt8)
  | appendI64 (b : Nat) (value : Int64)
  | appendU64 (b : Nat) (value : UInt64)
  | appendU64Base (b : Nat) (value : UInt64) (base : Nat) (uppercase : Bool)
  | appendBuilder (b : Nat) (other : Option Nat)
  | reservePieces (b additional : Nat)
  | reset (b : Nat)

def step (env : Env) : Op → World → Option (World × Bool)
  | .appendRef b data len => appendRef env b data len
  | .appendCstr b cstr => appendCstr env b cstr
  | .appendChar b c => appendChar env b c
  | .appendI64 b value => appendI64 env b value
  | .appendU64 b value => appendU64 env b value
  | .appendU64Base b value base uppercase => appendU64Base env b value base uppercase
  | .appendBuilder b other => appendBuilder env b other
  | .reservePieces b additional => reservePieces env b additional
  | .reset b => fun w => some (reset b w, true)

/-- The operations in order, with what each returned. -/
def run (env : Env) : List Op → World → Option (World × List Bool)
  | [], w => some (w, [])
  | op :: ops, w => do
    let (w, r) ← step env op w
    let (w, rs) ← run env ops w
    return (w, r :: rs)

def init (allocators : Nat → Option Allocator) : World where
  builder b := initBuilder (allocators b)

/-! ## Flattening -/

/-- The pieces of a builder, read in order. -/
def pieces (w : World) (b : Nat) : Option (List Piece) := do
  let arr ← w.array b
  if (w.builder b).count ≤ arr.length then (arr.take (w.builder b).count).mapM id else none

def Piece.len : Piece → Option Nat
  | .ref _ len => some len
  | .char _ => some 1
  | .i64 v => i64Len v
  | .u64 v base _ => u64Len v base

/-- The loop of `ax_sb_measure`. -/
def measureLoop : List Piece → Nat → Option (Option Nat)
  | [], total => some (some total)
  | .u64 v base uppercase :: ps, total =>
    if base < 2 ∨ base > 36 then some none
    else do
      let len ← (Piece.u64 v base uppercase).len
      if len > sizeMax - total then some none else measureLoop ps (total + len)
  | p :: ps, total => do
    let len ← p.len
    if len > sizeMax - total then some none else measureLoop ps (total + len)

/-- `ax_sb_measure`: the inner `none` is the return value 0. -/
def measure (w : World) (b : Nat) : Option (Option Nat) := do
  if (w.builder b).failed then return none
  measureLoop (← pieces w b) 0

/-- `memcpy(p, data, len)` from a referenced string. -/
def copyBytes (mem : Nat → UInt8) (dst : List UInt8) (p data : Nat) :
    Nat → Option (List UInt8 × Nat)
  | 0 => some (dst, p)
  | len + 1 => do
    let dst ← store dst p (mem data)
    copyBytes mem dst (p + 1) (data + 1) len

/-- One round of `ax_sb_write`. -/
def writePiece (mem : Nat → UInt8) (dst : List UInt8) (p : Nat) :
    Piece → Option (List UInt8 × Nat)
  | .ref data len => copyBytes mem dst p data len
  | .char c => (store dst p c).map fun dst => (dst, p + 1)
  | .i64 v => emitI64 dst p v
  | .u64 v base uppercase => emitU64 dst p v base uppercase

/-- The loop of `ax_sb_write`. -/
def writeLoop (mem : Nat → UInt8) : List Piece → List UInt8 → Nat → Option (List UInt8 × Nat)
  | [], dst, p => some (dst, p)
  | piece :: ps, dst, p => do
    let (dst, p) ← writePiece mem dst p piece
    writeLoop mem ps dst p

/-- What `ax_sb_write` returns, leaves in `*out_len` and leaves in the destination. -/
structure Written where
  ok : Bool
  outLen : Nat
  dst : Option (List UInt8)
  deriving DecidableEq

/-- `ax_sb_write`: the destination is the `dst_size` bytes at `dst`, or null. -/
def write (mem : Nat → UInt8) (w : World) (b : Nat) (dst : Option (List UInt8)) :
    Option Written := do
  match ← measure w b with
  | none => return ⟨false, 0, dst⟩
  | some needed =>
    if needed = sizeMax then return ⟨false, needed, dst⟩
    match dst with
    | none => return ⟨false, needed, none⟩
    | some bytes =>
      if bytes.length < needed + 1 then return ⟨false, needed, some bytes⟩
      let (bytes, p) ← writeLoop mem (← pieces w b) bytes 0
      let bytes ← store bytes p 0
      return ⟨true, needed, some bytes⟩

/-- `ax_sb_build_with_allocator`, where `block` is what the allocator returns for a size. -/
def buildWithAllocator (mem : Nat → UInt8) (w : World) (b : Nat) (allocator : Option Allocator)
    (block : Nat → Option (List UInt8)) : Option (Option (List UInt8) × Nat) := do
  if !allocatorOk allocator then return (none, 0)
  match ← measure w b with
  | none => return (none, 0)
  | some len =>
    if len = sizeMax then return (none, 0)
    match block (len + 1) with
    | none => return (none, 0)
    | some result =>
      let r ← write mem w b (some result)
      return (if r.ok then r.dst else none, r.outLen)

/-- `ax_sb_build`. -/
def build (mem : Nat → UInt8) (w : World) (b : Nat) (block : Nat → Option (List UInt8)) :
    Option (Option (List UInt8) × Nat) :=
  buildWithAllocator mem w b (w.builder b).allocator block

end Enki.Axsys.Sb
