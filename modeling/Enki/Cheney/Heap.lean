import Mathlib.Algebra.Ring.Nat
import Mathlib.Data.List.Basic
import Mathlib.Logic.Function.Basic

/-!
# The copying collector

Memory is a function from addresses, counted in cells, to words. An object starts with
a header word; a value is a small natural or a tagged address. A collection copies what
it reaches from one space of the heap to the other, leaving the new address of each
object where the object was.

Chains of indirections and the scan are loops without a bound in the source; here they
take fuel. `none` is where the source stops the program.
-/

namespace Enki.Cheney

/-- `pl_kind` -/
inductive Kind where
  | nat
  | app
  | law
  | pin
  | thunk
  | env
  | ind
  | bh
  | fwd
  | thke
  deriving DecidableEq

def Kind.code : Kind → Nat
  | .nat => 1
  | .app => 2
  | .law => 3
  | .pin => 4
  | .thunk => 5
  | .env => 6
  | .ind => 7
  | .bh => 8
  | .fwd => 9
  | .thke => 10

/-! ## Words -/

/-- `pl_hdr_make` -/
def hdrMake (kind : Kind) (flags info cells : Nat) : Nat :=
  kind.code + 2 ^ 8 * (flags % 2 ^ 4) + 2 ^ 12 * (info % 2 ^ 20) + 2 ^ 32 * cells

/-- `pl_hdr_kind` -/
def hdrKind (hdr : Nat) : Option Kind :=
  match hdr % 2 ^ 8 with
  | 1 => some .nat
  | 2 => some .app
  | 3 => some .law
  | 4 => some .pin
  | 5 => some .thunk
  | 6 => some .env
  | 7 => some .ind
  | 8 => some .bh
  | 9 => some .fwd
  | 10 => some .thke
  | _ => none

/-- `pl_hdr_flags` -/
def hdrFlags (hdr : Nat) : Nat := hdr / 2 ^ 8 % 2 ^ 4

/-- `pl_hdr_meta` -/
def hdrMeta (hdr : Nat) : Nat := hdr / 2 ^ 12 % 2 ^ 20

/-- `pl_hdr_cells` -/
def hdrCells (hdr : Nat) : Nat := hdr / 2 ^ 32

/-- `PL_F_PIN_HASHED` -/
def isHashed (hdr : Nat) : Bool := hdrFlags hdr / 4 % 2 = 1

/-- `PL_F_PIN_PROXY` -/
def isProxy (hdr : Nat) : Bool := hdrFlags hdr / 8 % 2 = 1

/-- `PL_PIN_CELLS(0)` -/
def proxyCells : Nat := 7

/-- `pl_is_nat63` -/
def isNat63 (v : Nat) : Bool := v < 2 ^ 63

/-- `pl_tag` -/
def tag (v : Nat) : Nat := v / 2 ^ 56

/-- `pl_ptr`: the address in cells. -/
def ptr (v : Nat) : Nat := v % 2 ^ 56 / 8

/-- `pl_make` -/
def make (tag p : Nat) : Nat := tag * 2 ^ 56 + 8 * p

/-- `PL_TAG_PIN` -/
def pinTag : Nat := 0x84

/-- `pl_tag_for_kind` -/
def tagForKind : Option Kind → Nat
  | some .nat => 0x80
  | some .app => 0x82
  | some .law => 0x83
  | some .pin => 0x84
  | some .env => 0x85
  | _ => 0x86

/-! ## Forwarding -/

abbrev Mem := Nat → Nat

/-- `pl_gc_ctx`: the memory, and where the next object is copied to. -/
structure Ctx where
  mem : Mem
  free : Nat

def Ctx.write (c : Ctx) (a v : Nat) : Ctx := { c with mem := Function.update c.mem a v }

/-- `memcpy` of an object to the free cells. -/
def copyCells (mem : Mem) (src dst cells : Nat) : Mem :=
  fun a => if dst ≤ a ∧ a < dst + cells then mem (src + (a - dst)) else mem a

/-- Copy an object and leave its new address. -/
def evacuate (c : Ctx) (p : Nat) : Ctx × Nat :=
  let hdr := c.mem p
  let cells := hdrCells hdr
  let nv := make (tagForKind (hdrKind hdr)) c.free
  let moved : Ctx := ⟨copyCells c.mem p c.free cells, c.free + cells⟩
  ((moved.write p (hdrMake .fwd 0 0 cells)).write (p + 1) nv, nv)

/-- `pl_forward`. The store owns the addresses that do not move. -/
def forward (owns : Nat → Bool) : Nat → Ctx → Nat → Option (Ctx × Nat)
  | 0, _, _ => none
  | fuel + 1, c, v =>
    if isNat63 v then some (c, v)
    else if owns (ptr v) then some (c, v)
    else
      match hdrKind (c.mem (ptr v)) with
      -- copied already, or an indirection that is short-cut
      | some .fwd => some (c, c.mem (ptr v + 1))
      | some .ind => forward owns fuel c (c.mem (ptr v + 1))
      | _ => some (evacuate c (ptr v))

/-- Forward the value in a cell. -/
def forwardCell (owns : Nat → Bool) (fuel : Nat) (c : Ctx) (a : Nat) : Option Ctx :=
  (forward owns fuel c (c.mem a)).map fun r => r.1.write a r.2

/-! ## Scanning -/

/-- The first of the fields that are scanned and how many there are. -/
def fields (cells : Nat) : Kind → Option (Nat × Nat)
  | .nat => some (0, 0)
  | .app | .env => some (1, cells - 1)
  | .law => some (2, 2)
  | .thunk => some (1, 2)
  | .thke => some (2, cells - 2)
  | .ind | .bh => some (1, 1)
  | .pin | .fwd => none

/-- The target of a proxy is a canonical PIN: `pl_pin_set_target` stops otherwise. -/
def canonical (mem : Mem) (target : Nat) : Bool :=
  tag target = pinTag ∧ hdrKind (mem (ptr target)) = some .pin ∧
    isProxy (mem (ptr target)) = false ∧ isHashed (mem (ptr target)) = true

def scanProxy (owns : Nat → Bool) (fuel : Nat) (c : Ctx) (scan : Nat) : Option Ctx :=
  let hdr := c.mem scan
  if ¬(isProxy hdr = true ∧ hdrMeta hdr = 0 ∧ hdrCells hdr = proxyCells) then none
  -- not canonicalised yet: the body is alive
  else if c.mem (scan + 6) = 0 then forwardCell owns fuel c (scan + 5)
  else if ¬(tag (c.mem (scan + 6)) = pinTag ∧ owns (ptr (c.mem (scan + 6))) = true) then none
  else
    (forward owns fuel c (c.mem (scan + 6))).bind fun r =>
      -- the target is in the store, so it has not moved
      if r.2 ≠ c.mem (scan + 6) ∨ canonical r.1.mem r.2 = false then none
      else some ((r.1.write (scan + 5) 0).write (scan + 6) r.2)

/-- Scan one object. -/
def scanObject (owns : Nat → Bool) (fuel : Nat) (c : Ctx) (scan : Nat) : Option Ctx :=
  match hdrKind (c.mem scan) with
  | none => none
  | some .pin => scanProxy owns fuel c scan
  | some kind =>
    match fields (hdrCells (c.mem scan)) kind with
    | none => none
    | some (first, count) =>
      (List.range' (scan + first) count).foldlM (forwardCell owns fuel) c

/-- `pl_cheney_scan` -/
def cheneyScan (owns : Nat → Bool) (fuel : Nat) : Nat → Ctx → Nat → Option Ctx
  | 0, c, scan => if scan < c.free then none else some c
  | n + 1, c, scan =>
    if scan < c.free then
      -- on behind the object, whose size the header still has
      (scanObject owns fuel c scan).bind fun c' =>
        cheneyScan owns fuel n c' (scan + hdrCells (c.mem scan))
    else some c

/-! ## Roots -/

/-- The slots of a frame that hold values. -/
structure Frame where
  a : Nat
  b : Nat

/-- The slots of a thread that hold values. -/
structure Thread where
  vstack : List Nat
  ustack : List Nat
  frames : List Frame
  exn : Nat
  resumeVal : Nat
  blockedOn : Nat
  result : Nat
  zones : List Nat

/-- A registered source of roots: a thread, or any other slots. -/
inductive Source where
  | thread (t : Thread)
  | slots (vs : List Nat)

section Roots

variable (visit : Ctx → Nat → Option (Ctx × Nat))

def visitAll : Ctx → List Nat → Option (Ctx × List Nat)
  | c, [] => some (c, [])
  | c, v :: vs => do
    let r ← visit c v
    let rs ← visitAll r.1 vs
    return (rs.1, r.2 :: rs.2)

/-- Small naturals are skipped. -/
def visitUnlessNat (c : Ctx) (v : Nat) : Option (Ctx × Nat) :=
  if isNat63 v then some (c, v) else visit c v

def visitFrames : Ctx → List Frame → Option (Ctx × List Frame)
  | c, [] => some (c, [])
  | c, f :: fs => do
    let a ← visitUnlessNat visit c f.a
    let b ← visitUnlessNat visit a.1 f.b
    let rs ← visitFrames b.1 fs
    return (rs.1, ⟨a.2, b.2⟩ :: rs.2)

/-- `pl_thread_roots` -/
def threadRoots (c : Ctx) (t : Thread) : Option (Ctx × Thread) := do
  let vstack ← visitAll (visitUnlessNat visit) c t.vstack
  let ustack ← visitAll (visitUnlessNat visit) vstack.1 t.ustack
  let frames ← visitFrames visit ustack.1 t.frames
  let exn ← visit frames.1 t.exn
  let resumeVal ← visit exn.1 t.resumeVal
  let blockedOn ← visit resumeVal.1 t.blockedOn
  let result ← visit blockedOn.1 t.result
  let zones ← visitAll visit result.1 t.zones
  return (zones.1, ⟨vstack.2, ustack.2, frames.2, exn.2, resumeVal.2, blockedOn.2, result.2,
    zones.2⟩)

def visitSource (c : Ctx) : Source → Option (Ctx × Source)
  | .thread t => (threadRoots visit c t).map fun r => (r.1, .thread r.2)
  | .slots vs => (visitAll visit c vs).map fun r => (r.1, .slots r.2)

def visitSources : Ctx → List Source → Option (Ctx × List Source)
  | c, [] => some (c, [])
  | c, s :: ss => do
    let r ← visitSource visit c s
    let rs ← visitSources r.1 ss
    return (rs.1, r.2 :: rs.2)

end Roots

/-! ## Collections -/

/-- `pl_heap`, the memory it is in and the sources of its roots. -/
structure Heap where
  mem : Mem
  fromSpace : Nat
  toSpace : Nat
  cells : Nat
  free : Nat
  limit : Nat
  live : Nat
  sources : List Source

namespace Heap

variable (owns : Nat → Bool) (fuel : Nat)

/-- `pl_collect_into` -/
def collectInto (h : Heap) (target : Nat) : Option Heap := do
  let r ← visitSources (forward owns fuel) ⟨h.mem, target⟩ h.sources
  let c ← cheneyScan owns fuel fuel r.1 target
  return { h with mem := c.mem, sources := r.2, live := c.free - target, free := c.free }

/-- `pl_space_discard`: the cells read as zero from now on. -/
def discard (mem : Mem) (space cells : Nat) : Mem :=
  fun a => if space ≤ a ∧ a < space + cells then 0 else mem a

/-- `pl_gc_collect` -/
def collect (h : Heap) : Option Heap := do
  let h' ← h.collectInto owns fuel h.toSpace
  return { h' with
    fromSpace := h.toSpace
    toSpace := h.fromSpace
    limit := h.toSpace + h.cells
    mem := discard h'.mem h.fromSpace h.cells }

/-- Double a size until it reaches a goal. -/
def sizeFor (goal want : Nat) : Nat :=
  if want < goal ∧ 0 < want then sizeFor goal (want * 2) else want
termination_by goal - want

/-- `pl_gc_grow`, given the spaces that `pl_space_alloc` answers. -/
def grow (h : Heap) (need nfrom nto : Nat) : Option Heap := do
  let want := sizeFor (h.live + need + h.live / 2 + 4096) h.cells
  let h' ← h.collectInto owns fuel nfrom
  return { h' with fromSpace := nfrom, toSpace := nto, cells := want, limit := nfrom + want }

/-- `pl_gc_reserve`, with `pl_gc_reserve_slow`. -/
def reserve (h : Heap) (cells nfrom nto : Nat) : Option Heap :=
  if h.free + cells ≤ h.limit then some h
  else do
    let h ← h.collect owns fuel
    let h ← if h.free + cells > h.limit then h.grow owns fuel cells nfrom nto else some h
    if h.free + cells ≤ h.limit then some h else none

/-- `pl_gc_trim` -/
def trim (h : Heap) (next nto : Nat) : Option Heap := do
  let h ← h.collect owns fuel
  let want := sizeFor (h.live + 4096) 4096
  -- it would not get smaller
  if want ≥ h.cells then some h
  else do
    let h' ← h.collectInto owns fuel next
    return { h' with fromSpace := next, toSpace := nto, cells := want, limit := next + want }

end Heap

end Enki.Cheney
