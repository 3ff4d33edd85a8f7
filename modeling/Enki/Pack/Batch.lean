import Mathlib.Algebra.Ring.Nat
import Mathlib.Data.List.Basic
import Mathlib.Logic.Function.Basic
import Mathlib.Order.Nat

/-!
# Batches over the pack file

`pins.pack` is one growing file shared by all processes; the LMDB index says where
the bytes of a hash lie. A batch appends to the file while it holds the LMDB write
transaction, which is the only lock. Committing without a root (`Ice`) keeps the
extents in the memory of the process; committing with one (`Save`) publishes them
and every extent kept before.

Each call into the system takes one entry of a fault script: `none` succeeds, and
`some k` fails, a write after its first `k` bytes.
-/

namespace Enki.Pack

abbrev Byte := UInt8

/-- `PACK_BUFFER_BYTES` -/
def bufferBytes : Nat := 64 * 1024

/-- `INT64_MAX` -/
def int64Max : Nat := 2 ^ 63 - 1

/-- A range of the pack file. -/
structure Extent where
  off : Nat
  len : Nat
  deriving DecidableEq

/-- A root journal entry. -/
structure RootEntry (H : Type) where
  seq : Nat
  hash : H
  packBytes : Nat

/-- The file and the environment shared by all processes, with every pair of a hash
and bytes that was ever put. -/
structure Shared (H : Type) where
  pack : List Byte
  index : H → Option Extent
  root : Option H
  journal : List (RootEntry H)
  puts : List (H × List Byte)

/-- `pl_silo_batch` -/
structure Batch (H : Type) where
  packStart : Nat
  packFlushed : Nat
  packEnd : Nat
  buffer : List Byte
  changed : Bool
  packDirty : Bool
  pending : List (H × Extent)

/-- `silo_backend`: the extents staged by earlier batches, whether the side table has
staged entries, and the batch under way. -/
structure Proc (H : Type) where
  staged : List (H × Extent)
  stagedKv : Bool
  batch : Option (Batch H)

abbrev Faults := List (Option Nat)

/-- The outcome of the next call. -/
def Faults.next : Faults → Option Nat × Faults
  | [] => (none, [])
  | f :: fs => (f, fs)

/-- `pwrite` -/
def pwrite (pack bytes : List Byte) (start : Nat) : List Byte :=
  (pack ++ List.replicate (start - pack.length) 0).take start ++ bytes ++
    pack.drop (start + bytes.length)

variable {H : Type}

/-! ## Appending -/

/-- `batch_flush` -/
def batchFlush (b : Batch H) (pack : List Byte) (fs : Faults) :
    Bool × Batch H × List Byte × Faults :=
  if b.buffer = [] then (true, b, pack, fs)
  else match fs.next with
  -- a write that fails has written so much
  | (some k, fs) => (false, b, pwrite pack (b.buffer.take k) b.packFlushed, fs)
  | (none, fs) =>
    (true, { b with packFlushed := b.packFlushed + b.buffer.length, buffer := [], packDirty := true },
      pwrite pack b.buffer b.packFlushed, fs)

/-- Copy into the buffer. -/
def Batch.fill (b : Batch H) (bytes : List Byte) : Batch H :=
  { b with buffer := b.buffer ++ bytes, packEnd := b.packEnd + bytes.length }

/-- The loop of `batch_append`: fill the buffer, and flush it whenever it is full. -/
def appendLoop (b : Batch H) (bytes : List Byte) (pack : List Byte) (fs : Faults) :
    Bool × Batch H × List Byte × Faults :=
  if _h : bytes = [] then (true, b, pack, fs)
  else if _h' : bufferBytes ≤ b.buffer.length then
    match batchFlush b pack fs with
    | (false, r) => (false, r)
    | (true, b, pack, fs) =>
      appendLoop (b.fill (bytes.take bufferBytes)) (bytes.drop bufferBytes) pack fs
  else
    let room := bufferBytes - b.buffer.length
    appendLoop (b.fill (bytes.take room)) (bytes.drop room) pack fs
termination_by bytes.length
decreasing_by
  all_goals
    have := List.length_pos_iff.mpr _h
    simp only [List.length_drop]
    unfold bufferBytes at *
    omega

/-- `batch_append` -/
def batchAppend (b : Batch H) (bytes : List Byte) (pack : List Byte) (fs : Faults) :
    Bool × Batch H × List Byte × Faults :=
  if bytes.length > int64Max - b.packEnd then (false, b, pack, fs) else appendLoop b bytes pack fs

/-! ## The operations on a batch -/

section Operations

variable [DecidableEq H]

/-- Look a key up in a staging map. -/
def find (m : List (H × Extent)) (h : H) : Option Extent := (m.find? (·.1 = h)).map (·.2)

/-- The extent lies before `hi` and is one that `pwrite` can address. -/
def Extent.within (e : Extent) (hi : Nat) : Bool :=
  decide (e.len ≠ 0) && decide (e.off ≤ hi) && decide (e.len ≤ hi - e.off) &&
    decide (e.off ≤ int64Max) && decide (e.len ≤ int64Max - e.off)

/-- `pl_store_silo_batch_begin`: what the file size, once the transaction is held, makes
of a new batch. -/
def batchBegin (size : Nat) : Batch H := ⟨size, size, size, [], false, false, []⟩

/-- `pl_store_silo_batch_contains`: is the hash pending, staged or indexed? `none` is an
error. -/
def batchContains (b : Batch H) (staged : List (H × Extent)) (index : H → Option Extent)
    (hash : H) (fs : Faults) : Option Bool × Faults :=
  match find b.pending hash with
  -- its own extent may be in the buffer still
  | some e => (if e.within b.packEnd then some true else none, fs)
  | none =>
    match find staged hash with
    | some e => (if e.within b.packStart then some true else none, fs)
    | none =>
      -- only the index is read through the system
      match fs.next with
      | (some _, fs) => (none, fs)
      | (none, fs) =>
        match index hash with
        | some e => (if e.within b.packStart then some true else none, fs)
        | none => (some false, fs)

/-- `pl_store_silo_batch_put` -/
def batchPut (b : Batch H) (staged : List (H × Extent)) (index : H → Option Extent) (hash : H)
    (bytes : List Byte) (pack : List Byte) (fs : Faults) : Bool × Batch H × List Byte :=
  if bytes = [] then (false, b, pack)
  else match batchContains b staged index hash fs with
  | (none, _) => (false, b, pack)
  | (some true, _) => (true, b, pack)
  | (some false, fs) =>
    match batchAppend b bytes pack fs with
    | (false, b', pack, _) => (false, b', pack)
    | (true, b', pack, _) =>
      -- pending at the offset the batch had before the append
      (true, { b' with
        pending := b'.pending ++ [(hash, ⟨b.packEnd, bytes.length⟩)]
        changed := true }, pack)

/-- `pl_store_silo_batch_abort`, while the transaction is held: the file is cut back to
where the batch began, if that succeeds. -/
def batchAbort (b : Batch H) (pack : List Byte) (fs : Faults) : List Byte :=
  if b.packEnd > b.packStart then
    match fs.next with
    | (none, _) => pack.take b.packStart
    | (some _, _) => pack
  else pack

/-- `batch_index`: put every entry into the transaction, where it keeps what is there. -/
def batchIndex (b : Batch H) : List (H × Extent) → (H → Option Extent) → Faults →
    Option (H → Option Extent) × Faults
  | [], index, fs => (some index, fs)
  | (h, e) :: rest, index, fs =>
    if e.len = 0 ∨ e.off > b.packEnd ∨ e.len > b.packEnd - e.off then (none, fs)
    else match fs.next with
    | (some _, fs) => (none, fs)
    | (none, fs) =>
      match index h with
      -- another process indexed the hash meanwhile
      | some old =>
        if old.len = 0 ∨ old.off > b.packStart ∨ old.len > b.packStart - old.off then (none, fs)
        else batchIndex b rest index fs
      | none => batchIndex b rest (Function.update index h (some e)) fs

/-- `silo_journal_append` -/
def journalAppend (journal : List (RootEntry H)) (hash : H) (packBytes : Nat) :
    List (RootEntry H) :=
  journal ++ [⟨match journal.getLast? with | some e => e.seq + 1 | none => 1, hash, packBytes⟩]

/-- The transaction of `pl_store_silo_batch_commit` with a root: what it would leave in
the environment, or an error. -/
def batchTxn (s : Shared H) (p : Proc H) (b : Batch H) (root : H) (fs : Faults) :
    Option (Shared H) × Faults :=
  match batchIndex b p.staged s.index fs with
  | (none, fs) => (none, fs)
  | (some index, fs) =>
    match batchIndex b b.pending index fs with
    | (none, fs) => (none, fs)
    | (some index, fs) =>
      -- the staged side entries, and the root with its journal entry
      match if p.stagedKv then fs.next else (none, fs) with
      | (some _, fs) => (none, fs)
      | (none, fs) =>
        if s.root = some root then (some { s with index := index }, fs)
        else match fs.next with
        | (some _, fs) => (none, fs)
        | (none, fs) =>
          (some { s with
            index := index
            root := some root
            journal := journalAppend s.journal root b.packEnd }, fs)

/-- Drop the batch, cutting the file back. -/
def abandon (s : Shared H) (p : Proc H) (b : Batch H) (fs : Faults) : Bool × Shared H × Proc H :=
  (false, { s with pack := batchAbort b s.pack fs }, { p with batch := none })

/-- `pl_store_silo_batch_commit` without a root: keep the extents in memory. -/
def commitStaged (s : Shared H) (p : Proc H) (b : Batch H) (fs : Faults) :
    Bool × Shared H × Proc H :=
  match batchFlush b s.pack fs with
  | (false, b, pack, fs) => abandon { s with pack := pack } p b fs
  | (true, b, pack, _) =>
    (true, { s with pack := pack }, { p with staged := p.staged ++ b.pending, batch := none })

/-- `pl_store_silo_batch_commit` with a root. -/
def commitRoot (s : Shared H) (p : Proc H) (b : Batch H) (root : H) (fs : Faults) :
    Bool × Shared H × Proc H :=
  match batchContains b p.staged s.index root fs with
  | (none, fs) | (some false, fs) => abandon s p b fs
  | (some true, fs) =>
    match fs.next with
    | (some _, fs) => abandon s p b fs
    | (none, fs) =>
      -- nothing to publish: the transaction is dropped
      if b.changed = false ∧ p.staged = [] ∧ p.stagedKv = false ∧ s.root = some root then
        (true, (abandon s p b fs).2)
      else match batchFlush b s.pack fs with
      | (false, b, pack, fs) => abandon { s with pack := pack } p b fs
      | (true, b, pack, fs) =>
        let s := { s with pack := pack }
        -- the pack is synchronized before anything points at it
        match if b.packDirty ∨ p.staged ≠ [] then fs.next else (none, fs) with
        | (some _, fs) => abandon s p b fs
        | (none, fs) =>
          match batchTxn s p b root fs with
          | (none, fs) => abandon s p b fs
          | (some s', fs) =>
            match fs.next with
            -- the commit of the transaction failed, and the file is left as it is
            | (some _, _) => (false, s, { p with batch := none })
            | (none, _) => (true, s', ⟨[], false, none⟩)

end Operations

/-! ## Processes -/

/-- Any number of processes over one pack and one environment. -/
structure World (P H : Type) where
  shared : Shared H
  procs : P → Proc H

variable {P : Type} [DecidableEq P] [DecidableEq H]

def World.set (w : World P H) (p : P) (s : Shared H) (pr : Proc H) : World P H :=
  ⟨s, Function.update w.procs p pr⟩

/-- One process steps. A call that fails is a step whose script says where. A process
that dies inside a call leaves the file and the environment as if the next call into
the system had failed, and then dies. -/
inductive Step : World P H → World P H → Prop where
  /-- The write transaction is granted while no other process holds it. -/
  | begin {w : World P H} (p : P) : (∀ q, (w.procs q).batch = none) →
      w.shared.pack.length ≤ int64Max →
      Step w (w.set p w.shared
        { w.procs p with batch := some (batchBegin w.shared.pack.length) })
  | put {w : World P H} (p : P) {b} (hash : H) (bytes : List Byte) (fs : Faults) :
      (w.procs p).batch = some b →
      Step w (let r := batchPut b (w.procs p).staged w.shared.index hash bytes w.shared.pack fs
        w.set p { w.shared with pack := r.2.2, puts := w.shared.puts ++ [(hash, bytes)] }
          { w.procs p with batch := some r.2.1 })
  | commitStaged {w : World P H} (p : P) {b} (fs : Faults) : (w.procs p).batch = some b →
      Step w (let r := commitStaged w.shared (w.procs p) b fs
        w.set p r.2.1 r.2.2)
  | commitRoot {w : World P H} (p : P) {b} (root : H) (fs : Faults) :
      (w.procs p).batch = some b →
      Step w (let r := commitRoot w.shared (w.procs p) b root fs
        w.set p r.2.1 r.2.2)
  | abort {w : World P H} (p : P) {b} (fs : Faults) : (w.procs p).batch = some b →
      Step w (let r := abandon w.shared (w.procs p) b fs
        w.set p r.2.1 r.2.2)
  /-- `silo_kv_put` -/
  | kvPut {w : World P H} (p : P) :
      Step w (w.set p w.shared { w.procs p with stagedKv := true })
  /-- The process exits or is killed: the transaction is aborted, the file stays. -/
  | die {w : World P H} (p : P) : Step w (w.set p w.shared ⟨[], false, none⟩)

/-- A store just created, before any process has a batch. -/
def World.Fresh (w : World P H) : Prop :=
  w.shared.pack = [] ∧ (∀ h, w.shared.index h = none) ∧ w.shared.root = none ∧
  w.shared.journal = [] ∧ ∀ p, w.procs p = ⟨[], false, none⟩

end Enki.Pack
