import Enki.Native.Checkpoint
import Enki.Native.IndexEmit

/-!
# The arena on a disk that can crash

`File` is `arena.dat` as the operating system has it: what a process reads, what the
last sync made durable, and the writes since then. A crash keeps any part of these.
`World` adds the process that has the store open, if there is one.

The checkpoints that a store went through form a lineage, newest first. `World` keeps
three of them for the statements: the one of the last call of `pl_native_checkpoint` that
returned true, the one that is known to be durable, and the one whose superblock is
being written.
-/

namespace Enki.Native

deriving instance DecidableEq for Super

/-! ## The file -/

/-- A write since the last sync: bytes of the data, a new length, or a superblock (`none`
if it could not be written whole). -/
inductive Write where
  | data (lo hi : Nat)
  | size (bytes : Nat)
  | super (slot : Bool) (sb : Option Super)

structure File where
  seen : Image
  synced : Image
  writes : List Write

/-- None of the writes reaches this record. -/
def File.Untouched (f : File) (off len : Nat) : Prop :=
  (∀ lo hi, .data lo hi ∈ f.writes → off < lo ∧ off + len ≤ lo ∨ hi ≤ off) ∧
  ∀ bytes, .size bytes ∈ f.writes → off + len ≤ bytes

/-- What a crash may leave: of a superblock the old one, a new one, or a torn one, any of
the lengths, and the records that were not written over; the bytes that were may be any. -/
structure File.Persists (f : File) (img : Image) : Prop where
  slots : ∀ s, img.slots s = f.synced.slots s ∨
    ∃ sb, .super s sb ∈ f.writes ∧ (img.slots s = sb ∨ img.slots s = none)
  size : img.size = f.synced.size ∨ .size img.size ∈ f.writes
  disk : ∀ off r, f.Untouched off r.len → (img.disk off = some r ↔ f.synced.disk off = some r)

/-- What a process wrote to the mapping while its store went from `n` to `n'`: it fills
the arena from `next` on, and the file grows with what is mapped. -/
def File.wrote (f : File) (n n' : Store) : File :=
  { f with
    seen := { f.seen with disk := n'.disk, size := n'.mapped }
    writes := (if n'.next = n.next then [] else [.data n.next n'.next]) ++
      (if n'.mapped = n.mapped then [] else [.size n'.mapped]) ++ f.writes }

/-- `nwrite` of a superblock. -/
def File.super (f : File) (slot : Bool) (sb : Option Super) : File :=
  { f with
    seen := { f.seen with slots := Function.update f.seen.slots slot sb }
    writes := .super slot sb :: f.writes }

/-- `nopen` cuts off what lies after the checkpoint. -/
def File.opened (f : File) (n : Store) : File :=
  { f with
    seen := { f.seen with disk := n.disk, size := n.next }
    writes := .size n.next :: f.writes }

/-! ## The world -/

structure World where
  file : File
  proc : Option Proc
  /-- The lineage of the last checkpoint that was confirmed. -/
  acked : List Super
  /-- The lineage of the checkpoint that the last sync has covered. -/
  last : List Super
  /-- The lineage whose superblock was written since. -/
  begun : Option (List Super)

/-- The lineage that a superblock belongs to. -/
def World.lineage (w : World) (sb : Super) : List Super :=
  match w.begun with
  | some h => if h.head? = some sb then h else w.last
  | none => w.last

/-- Only this image is left: after a sync, and after a crash. -/
def World.settle (w : World) (img : Image) : World :=
  { w with
    file := ⟨img, img, []⟩
    last := match img.select with
      | some (_, sb) => w.lineage sb
      | none => w.last
    begun := none }

/-- The process goes on with this store. -/
def World.keep (w : World) (p : Proc) (n : Store) : World :=
  { w with proc := some { p with store := { n with faults := [] } } }

/-- The superblock of `pl_native_checkpoint`. From here on a failure has an ambiguous
outcome, and the store is poisoned until all is done. -/
def World.writeSuper (w : World) (p : Proc) (n : Store) (sb : Super) : Bool × World :=
  let n := { n with poisoned := true }
  let (ok, n) := n.point
  let written := if ok then some sb else none
  let w := { w with
    file := w.file.super (!p.slot) written
    begun := written.map (· :: w.last) }
  if ok = false then (false, w.keep p n)
  else
    -- `after_superblock`, `nsync`
    let (ok, n) := n.points 2
    if ok = false then (false, w.keep p n)
    else
      let w := w.settle w.file.seen
      -- `after_superblock_sync`
      let (ok, n) := n.point
      if ok = false then (false, w.keep p n)
      else
        let n := { n with committed := sb, work := sb, nodes := [], poisoned := false }
        (true, { w with acked := w.last }.keep { p with slot := !p.slot } n)

/-- The second half of `pl_native_checkpoint`, from the first sync on. -/
def World.publish (w : World) (p : Proc) (n : Store) (sb : Super) : Bool × World :=
  -- `before_data_sync`, `msync`, `nsync`
  let (ok, n) := n.points 3
  if ok = false then (false, w.keep p n)
  else
    let w := w.settle w.file.seen
    -- `after_data_sync`, `flock`, `before_superblock`
    let (ok, n) := n.points 3
    if ok = false then (false, w.keep p n) else w.writeSuper p n sb

/-- `pl_native_checkpoint` -/
def World.checkpoint (w : World) (p : Proc) (n : Store) (hash : Key) : Bool × World :=
  match n.prepare hash with
  | (.failed, n') => (false, { w with file := w.file.wrote n n' }.keep p n')
  | (.settled, n') =>
    (true, { w with
      file := w.file.wrote n n'
      acked := w.lineage n'.committed }.keep p n')
  | (.candidate sb, n') => { w with file := w.file.wrote n n' }.publish p n' sb

/-- A call into the store, with the points at which it fails. -/
inductive Call where
  | stage (o : Object) (faults : List Bool)
  | put (key hash : Key) (faults : List Bool)
  | sealed (faults : List Bool)
  | checkpoint (hash : Key) (faults : List Bool)

/-- A call that only writes to the mapping. -/
def World.mapped (w : World) (p : Proc) (n : Store) (r : Bool × Store) : Bool × World :=
  (r.1, { w with file := w.file.wrote n r.2 }.keep p r.2)

def World.call (w : World) (p : Proc) : Call → Bool × World
  | .stage o fs =>
    let n := { p.store with faults := fs }
    w.mapped p n (n.stage o)
  | .put key hash fs =>
    let n := { p.store with faults := fs }
    w.mapped p n (n.put key hash)
  | .sealed fs =>
    let n := { p.store with faults := fs }
    w.mapped p n n.seal
  | .checkpoint hash fs => w.checkpoint p { p.store with faults := fs } hash

/-- One step, where only certain calls are made. -/
inductive Step (allowed : World → Proc → Call → Prop) : World → World → Prop where
  | call {w p c} : w.proc = some p → allowed w p c → Step allowed w (w.call p c).2
  /-- The process ends, by `nclose` or not. -/
  | close {w} : Step allowed w { w with proc := none }
  /-- The machine stops; what was written since the last sync may be lost. -/
  | crash {w img} : w.file.Persists img → Step allowed w { w.settle img with proc := none }
  | reopen {w p} : w.proc = none → w.file.seen.nopen = some p →
      Step allowed w { w with file := w.file.opened p.store, proc := some p }

/-- The file that `nopen` has created and synchronized. -/
def createdImage : Image where
  slots := fun s => if s then none else some emptySuper
  disk := fun _ => none
  size := start

def created : World where
  file := ⟨createdImage, createdImage, []⟩
  proc := none
  acked := [emptySuper]
  last := [emptySuper]
  begun := none

/-- The states that are reached. -/
inductive Reach (allowed : World → Proc → Call → Prop) : World → Prop where
  | created : Reach allowed created
  | step {w w'} : Reach allowed w → Step allowed w w' → Reach allowed w'

end Enki.Native
