import Enki.Gc2.Span
import Mathlib.Data.Set.Basic
import Mathlib.Logic.Function.Basic

/-!
# The shared collector

The spans of the store by their offset, the list of all of them, a list of those with
room for each size class, and the queue of those the sweep has not reached yet. An
object of the store is identified by the address of its slot.

The collector marks with the world stopped, then queues every span; spans are swept
one at a time, by the sweeper or by an allocation that finds no room. The buddy
allocator beneath is a parameter: it hands out any extent apart from those in use.
-/

namespace Enki.Gc2

/-- `GC2_PAGE` -/
def page : Nat := 65536

/-- `classes` -/
def classes : List Nat :=
  [16, 32, 48, 64, 96, 128, 192, 256, 384, 512, 768, 1024, 1536, 2048, 4096]

/-- `SIZE_MAX` -/
def sizeMax : Nat := 2 ^ 64 - 1

/-- `pl_gc2` -/
structure Collector where
  span : Nat → Option Span
  spans : List Nat
  available : Nat → List Nat
  work : List Nat
  serial : Nat

namespace Collector

/-- Change a span in place. -/
def update (g : Collector) (off : Nat) (f : Span → Span) : Collector :=
  { g with span := Function.update g.span off ((g.span off).map f) }

def unavailable (g : Collector) (off : Nat) : Collector :=
  match g.span off with
  | none => g
  | some sp =>
    if sp.available then
      { g.update off ({ · with available := false }) with
        available := Function.update g.available sp.klass ((g.available sp.klass).erase off) }
    else g

/-- `available` -/
def makeAvailable (g : Collector) (off : Nat) : Collector :=
  match g.span off with
  | none => g
  | some sp =>
    -- a span of one large object is on no list
    if sp.klass = classes.length ∨ sp.available ∨ sp.freeHead = none then g
    else
      { g.update off ({ · with available := true }) with
        available := Function.update g.available sp.klass (off :: g.available sp.klass) }

def spanFree (g : Collector) (off : Nat) : Collector :=
  let g := g.unavailable off
  { g with span := Function.update g.span off none, spans := g.spans.erase off }

/-- After slots were freed: an empty span is returned, another one has room. -/
def settle (g : Collector) (off : Nat) : Collector :=
  match g.span off with
  | none => g
  | some sp => if sp.used = 0 then g.spanFree off else g.makeAvailable off

def sweepSpan (g : Collector) (off : Nat) : Collector :=
  (g.update off (·.freeWhere Slot.garbage)).settle off

/-- Sweep the next span of the queue. -/
def sweepNext (g : Collector) : Collector :=
  match g.work with
  | [] => g
  | off :: rest => { g with work := rest }.sweepSpan off

/-! ## Allocation -/

/-- The first class with room for an object, or the number of classes. -/
def classOf (bytes : Nat) : Nat := classes.findIdx (bytes ≤ ·)

/-- A span with room for the class. -/
def head (g : Collector) (klass : Nat) : Option Nat :=
  if klass < classes.length then (g.available klass).head? else none

/-- Sweep until there is a span with room, or nothing is left to sweep. -/
def assist (klass : Nat) : Nat → Collector → Collector
  | 0, g => g
  | n + 1, g => if (g.head klass).isSome then g else assist klass n g.sweepNext

/-- A new span on an extent of the buddy allocator. -/
def newSpan (g : Collector) (off bytes klass : Nat) : Collector :=
  let stride := classes.getD klass bytes
  { g with
    span := Function.update g.span off (some (Span.new bytes stride klass))
    spans := off :: g.spans }.makeAvailable off

/-- Hand out the first free slot of a span. -/
def take (g : Collector) (off birth : Nat) : Option Nat × Collector :=
  match g.span off with
  | none => (none, g)
  | some sp =>
    match sp.freeHead with
    | none => (none, g)
    | some i =>
      -- serials are not used twice, so they may run out
      if g.serial < sizeMax then
        let g := { g.update off (·.takeSlot i (g.serial + 1) birth) with serial := g.serial + 1 }
        let full := (sp.takeSlot i g.serial birth).freeHead = none
        -- a span that is full now leaves its list
        (some (off + i * sp.stride), if full then g.unavailable off else g)
      else (none, g)

/-- The size of the extent asked for. -/
def extentBytes (bytes : Nat) : Nat := if bytes < page then page else bytes

/-- `pl_gc2_alloc`, given what the buddy allocator answers if it is asked. -/
def alloc (g : Collector) (cells birth : Nat) (block : Option (Nat × Nat)) : Option Nat × Collector :=
  -- the size in bytes would wrap
  if cells = 0 ∨ cells > sizeMax / 8 then (none, g)
  else
    let klass := classOf (cells * 8)
    let g := assist klass g.work.length g
    -- the free list comes first, and only then the buddy allocator
    match g.head klass with
    | some off => g.take off birth
    | none =>
      match block with
      | none => (none, g)
      | some (off, bytes) => (g.newSpan off bytes klass).take off birth

/-! ## Rollback -/

def rollbackSpan (checkpoint : Nat) (g : Collector) (off : Nat) : Collector :=
  match g.span off with
  | none => g
  | some sp =>
    -- spans without a younger slot are not touched
    if sp.slots.any (·.after checkpoint) then
      (g.update off (·.freeWhere (Slot.after checkpoint))).settle off
    else g

/-- `pl_gc2_rollback` -/
def rollback (g : Collector) (checkpoint : Nat) : Collector :=
  { g.spans.foldl (rollbackSpan checkpoint) g with serial := checkpoint }

end Collector

/-! ## Marking -/

/-- A value: a small natural or a native address, which are not traced, or the address
of an object. -/
inductive Val where
  | atom
  | ptr (addr : Nat)
  deriving DecidableEq

inductive Kind where
  | nat
  | app
  | env
  | law
  | thunk
  | thke
  | ind
  | bh
  | pin
  deriving DecidableEq

/-- An object as the tracer reads it. The cells start with the header; the target of a
proxy and the code of a PIN are where the object has them. -/
structure Obj where
  kind : Kind
  cells : List Val
  pins : Nat
  proxy : Bool
  target : Option Val
  code : Option Nat

/-- The cells from `first` on. -/
def Obj.fields (o : Obj) (first count : Nat) : List Val := (o.cells.drop first).take count

/-- What `trace_drain` follows first: the target or the body of a PIN. -/
def Obj.first (o : Obj) : List Val :=
  match o.kind with
  | .pin => if o.proxy then [o.target.getD (o.cells.getD 5 .atom)] else [o.cells.getD 5 .atom]
  | _ => []

/-- The code that the object refers to: only a canonical PIN has any. -/
def Obj.codeOf (o : Obj) : Option Nat :=
  if o.kind = .pin ∧ o.proxy = false then o.code else none

/-- The cells that `trace_drain` follows last. -/
def Obj.rest (o : Obj) : List Val :=
  match o.kind with
  | .nat => []
  | .app | .env => o.fields 1 (o.cells.length - 1)
  | .law => o.fields 2 2
  | .thunk => o.fields 1 2
  | .thke => o.fields 2 (o.cells.length - 2)
  | .ind | .bh => o.fields 1 1
  | .pin => if o.proxy then [] else o.fields 7 o.pins

/-- A root: a value, or the code of a suspended frame. -/
inductive Root where
  | val (v : Val)
  | code (c : Nat)

/-- The world while it is stopped: every object, which addresses are of actor heaps, the
roots, and the values each code refers to. -/
structure Memory where
  obj : Nat → Obj
  inHeap : Nat → Bool
  roots : List Root
  codeVals : Nat → List Val

/-- Everything an object refers to. -/
def Memory.succ (m : Memory) (a : Nat) : List Val :=
  (m.obj a).first ++ ((m.obj a).codeOf.map m.codeVals).getD [] ++ (m.obj a).rest

/-- The addresses that can be reached from the roots. -/
inductive Memory.Reach (m : Memory) : Nat → Prop where
  | root {a} : .val (.ptr a) ∈ m.roots → Reach m a
  | code {c a} : .code c ∈ m.roots → .ptr a ∈ m.codeVals c → Reach m a
  | succ {a b} : Reach m a → .ptr b ∈ m.succ a → Reach m b

/-- `gc2_trace` -/
structure Trace where
  gc : Collector
  todo : List Nat
  seen : List Nat
  codes : List Nat

namespace Collector

/-- The span that covers an address: `pages` finds it by its page. -/
def cover (g : Collector) (a : Nat) : Option Nat :=
  g.spans.find? fun off => (g.span off).any fun sp => decide (off ≤ a ∧ a < off + sp.bytes)

/-- `find_slot`: the span and the index of the allocated slot at an address. -/
def findSlot (g : Collector) (a : Nat) : Option (Nat × Nat × Slot) :=
  match g.cover a with
  | none => none
  | some off =>
    match g.span off with
    | none => none
    | some sp =>
      if (a - off) % sp.stride ≠ 0 then none
      else match sp.slots[(a - off) / sp.stride]? with
      | none => none
      | some s => if s.serial = 0 then none else some (off, (a - off) / sp.stride, s)

/-- Set the mark of a slot. -/
def setMark (g : Collector) (off i : Nat) : Collector :=
  g.update off fun sp => { sp with slots := sp.slots.modify i ({ · with marked := true }) }

/-- Clear every mark. -/
def clearMarks (g : Collector) : Collector :=
  { g with span := fun off => (g.span off).map fun sp =>
      { sp with slots := sp.slots.map ({ · with marked := false }) } }

end Collector

namespace Trace

/-- `trace_visit`; `none` where the source stops the program. -/
def visit (m : Memory) (tr : Trace) : Val → Option Trace
  | .atom => some tr
  | .ptr a =>
    -- an object of an actor heap is remembered, one of the store carries its mark
    if m.inHeap a then
      if a ∈ tr.seen then some tr else some { tr with seen := a :: tr.seen, todo := a :: tr.todo }
    else match tr.gc.findSlot a with
    -- an address that holds no object of the store
    | none => none
    | some (off, i, s) =>
      if s.marked then some tr
      else some { tr with gc := tr.gc.setMark off i, todo := a :: tr.todo }

def visitAll (m : Memory) (tr : Trace) (vs : List Val) : Option Trace :=
  vs.foldlM (visit m) tr

/-- `trace_code` -/
def visitCode (m : Memory) (tr : Trace) (c : Nat) : Option Trace :=
  if c ∈ tr.codes then some tr
  else visitAll m { tr with codes := c :: tr.codes } (m.codeVals c)

def visitRoot (m : Memory) (tr : Trace) : Root → Option Trace
  | .val v => visit m tr v
  | .code c => visitCode m tr c

/-- One round of `trace_drain`. -/
def drainStep (m : Memory) (tr : Trace) : Option Trace :=
  match tr.todo with
  | [] => some tr
  | a :: todo =>
    (visitAll m { tr with todo := todo } (m.obj a).first).bind fun tr =>
    (match (m.obj a).codeOf with
      | none => some tr
      | some c => visitCode m tr c).bind fun tr =>
    visitAll m tr (m.obj a).rest

/-- The trace of the roots, before anything is followed. -/
def start (m : Memory) (g : Collector) : Option Trace :=
  m.roots.foldlM (visitRoot m) ⟨g.clearMarks, [], [], []⟩

/-- The trace after some rounds. -/
inductive Drains (m : Memory) : Trace → Trace → Prop where
  | refl {tr} : Drains m tr tr
  | step {tr tr' tr''} : Drains m tr tr' → tr'.todo ≠ [] → drainStep m tr' = some tr'' →
      Drains m tr tr''

end Trace

/-- `mark_world`, once the trace has nothing left to do. -/
def Marks (m : Memory) (g g' : Collector) : Prop :=
  ∃ tr tr', Trace.start m g = some tr ∧ Trace.Drains m tr tr' ∧ tr'.todo = [] ∧ g' = tr'.gc

/-- The end of `collect`: every span loses its place on the lists and is queued. The
span queued last is swept first. -/
def Collector.queueAll (g : Collector) : Collector :=
  let g' := g.spans.foldl Collector.unavailable g
  { g' with work := g.spans.reverse }

/-! ## The step system -/

/-- An open checkpoint, and when it was taken. -/
structure Checkpoint where
  serial : Nat
  time : Nat

/-- The collector, the open checkpoints, and what must not be reclaimed: the objects
reachable at the last mark or allocated since, as addresses with their births. -/
structure World where
  gc : Collector
  checkpoints : List Checkpoint
  time : Nat
  kept : Set (Nat × Nat)

/-- The extent is apart from every span. -/
def Apart (g : Collector) (off bytes : Nat) : Prop :=
  0 < bytes ∧ ∀ off' sp, g.span off' = some sp → off + bytes ≤ off' ∨ off' + sp.bytes ≤ off

/-- What the buddy allocator answers: an extent that is large enough, apart from those
that are in use when it is asked. -/
def BuddyOK (g : Collector) (cells : Nat) : Option (Nat × Nat) → Prop
  | none => True
  | some (off, bytes) =>
    Collector.extentBytes (cells * 8) ≤ bytes ∧
      Apart (Collector.assist (Collector.classOf (cells * 8)) g.work.length g) off bytes

/-- Any of the steps, in any order. -/
inductive Step : World → World → Prop where
  | alloc {w : World} (cells : Nat) (block : Option (Nat × Nat)) {a g'} :
      BuddyOK w.gc cells block → w.gc.alloc cells (w.time + 1) block = (some a, g') →
      Step w { w with
        gc := g'
        time := w.time + 1
        kept := insert (a, w.time + 1) w.kept }
  | allocFails {w : World} (cells : Nat) (block : Option (Nat × Nat)) {g'} :
      BuddyOK w.gc cells block → w.gc.alloc cells (w.time + 1) block = (none, g') →
      Step w { w with gc := g' }
  /-- The background sweeper takes one span. -/
  | sweep {w : World} : Step w { w with gc := w.gc.sweepNext }
  /-- A mark starts when no sweep is pending and no checkpoint is open. -/
  | mark {w : World} (m : Memory) {g'} : w.gc.work = [] → w.checkpoints = [] →
      Marks m w.gc g' →
      Step w { w with
        gc := g'.queueAll
        kept := fun x => m.Reach x.1 ∧ m.inHeap x.1 = false ∧
          ∃ off i s, g'.findSlot x.1 = some (off, i, s) ∧ s.birth = x.2 }
  | checkpoint {w : World} :
      Step w { w with checkpoints := ⟨w.gc.serial, w.time⟩ :: w.checkpoints }
  /-- The transaction is kept. -/
  | release {w : World} (c : Checkpoint) :
      Step w { w with checkpoints := w.checkpoints.filter fun c' =>
        c'.serial ≠ c.serial ∨ c'.time ≠ c.time }
  | rollback {w : World} (c : Checkpoint) : c ∈ w.checkpoints → c.serial ≤ w.gc.serial →
      Step w { w with
        gc := w.gc.rollback c.serial
        kept := fun x => w.kept x ∧ x.2 ≤ c.time }

/-- Nothing was allocated yet. -/
def World.init : World := ⟨⟨fun _ => none, [], fun _ => [], [], 0⟩, [], 0, ∅⟩

end Enki.Gc2
