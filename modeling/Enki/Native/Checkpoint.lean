import Enki.Native.Index

/-!
# Staging and checkpoints

What a process does to the arena between `nopen` and `nclose`: `pl_native_stage`
appends the record of a PIN, `nput` one of the compiler cache, `pl_native_seal`
write-protects what is there, and `pl_native_checkpoint` writes the working index
and a journal entry and then publishes a new superblock.

The body of a PIN is given by what the traversal of `pl_native_stage` makes of it:
the cells of its distinct nodes. The clock reading of a journal entry is left out.
-/

namespace Enki.Native

/-- `PL_PIN_CELLS` -/
def pinCells (npins : Nat) : Nat := 7 + npins

/-- `PL_HDR_META_MAX` -/
def hdrMetaMax : Nat := 0xFFFFF

/-- `N_SLOT_COUNT` -/
def slotCount : Nat := nativeBytes / (pinCells 0 * 8) + 1

/-- Where the body of a PIN may lie: a PIN in an earlier record, any other node in the
same one. -/
def Pin.bodyInside (p : Pin) (off : Nat) : Bool :=
  match p.body with
  | .nat _ => true
  | .pin at_ => at_ % 8 == 0 && decide (start + recordBytes ≤ at_) && decide (at_ < off)
  | .node at_ => at_ % 8 == 0 && decide (off + recordBytes + pinCells p.npins * 8 ≤ at_) &&
      decide (at_ ≤ off + p.len - 8)

/-- `npin`: the PIN of the record at an offset. -/
def Disk.pin (d : Disk) (off hi ids : Nat) : Option Pin :=
  match d off with
  | some (.object p) =>
    if nbound off recordBytes hi ∧ recordBytes ≤ p.len ∧ p.len % 8 = 0 ∧ nbound off p.len hi ∧
        recordBytes + pinCells 0 * 8 ≤ p.len ∧ pinCells p.npins * 8 ≤ p.len - recordBytes ∧
        p.id ≠ 0 ∧ p.id < ids ∧ ids ≤ slotCount ∧ p.bodyInside off
    then some p else none
  | _ => none

/-- `nrecord` of a journal entry. -/
def Disk.journal (d : Disk) (off hi : Nat) : Option Journal :=
  match d off with
  | some (.journal j) => if nbound off journalBytes hi then some j else none
  | _ => none

/-- `pl_native_load` of a writer: the offset of the record of a PIN. -/
def Store.load (n : Store) (hash : Key) : Option Nat :=
  match n.workingLookup n.work.objects hash with
  | none => none
  | some off =>
    -- no entry, and no record lies there
    if off = 0 then none
    else match n.disk.pin off n.next n.work.nextId with
    | none => none
    | some p => if p.hash = hash then some off else none

/-! ## Staging -/

/-- The body given to `pl_native_stage`. -/
inductive Content where
  | nat (n : Nat)
  | pin (at_ : Nat)
  | node

/-- The arguments of `pl_native_stage`: `native` says that every dependency has a native
address, and `cells` are those of the nodes of the body, the body itself first; there are
none if the traversal meets a transient PIN or a node that is not normal. -/
structure Object where
  hash : Key
  nsub : Nat
  native : Bool
  body : Content
  cells : Option (List Nat)

/-- The bytes of the record, as far as they fit the arena. -/
def extent : Nat → List Nat → Option Nat
  | size, [] => some size
  | size, cells :: rest =>
    -- a node has a header, and the sum stays within the arena
    if cells * 8 < 8 ∨ size > nativeBytes - cells * 8 then none
    else extent (size + cells * 8) rest

/-- The body as it is written, in the record at `off`. -/
def Object.bodyAt (o : Object) (off : Nat) : Body :=
  match o.body with
  | .nat n => .nat n
  | .pin at_ => .pin at_
  | .node => .node (off + recordBytes + pinCells o.nsub * 8)

/-- `pl_native_stage` -/
def Store.stage (n : Store) (o : Object) : Bool × Store :=
  if n.writable = false then (false, n)
  else match n.workingLookup n.work.objects o.hash with
  | none => (false, n)
  | some found =>
    -- staged or indexed before: nothing is written
    if found ≠ 0 then ((n.load o.hash).isSome, n)
    else if o.nsub > hdrMetaMax ∨ n.work.nextId ≥ slotCount then (false, n)
    else if o.native = false then (false, n)
    else match o.cells.bind (extent (recordBytes + pinCells o.nsub * 8)) with
    | none => (false, n)
    | some size =>
      match n.alloc size with
      | (none, n) => (false, n)
      | (some off, n) =>
        let pin : Pin := ⟨size, o.hash, o.nsub, o.bodyAt off, n.work.nextId⟩
        -- the record is there before the index points to it
        let n := { n with
          disk := n.disk.write off (.object pin)
          work := { n.work with nextId := n.work.nextId + 1 } }
        let (ok, n) := n.point
        if ok = false then (false, n)
        else
          let (ok, root, n) := n.insert n.work.objects o.hash off
          (ok, { n with work := { n.work with objects := root } })

/-- `nput`: the value under a key of the cache is the hash of a PIN. -/
def Store.put (n : Store) (key hash : Key) : Bool × Store :=
  if n.writable = false then (false, n)
  else match n.workingLookup n.work.objects hash with
  | none => (false, n)
  | some target =>
    if target = 0 then (false, n)
    else match n.alloc (recordBytes + 32) with
    | (none, n) => (false, n)
    | (some off, n) =>
      let n := { n with disk := n.disk.write off (.cache hash) }
      let (ok, root, n) := n.insert n.work.cache key off
      (ok, { n with work := { n.work with cache := root } })

/-- `pl_native_seal`: what comes next starts a new granule, even if the pages could not
be protected. -/
def Store.seal (n : Store) : Bool × Store :=
  if n.writable = false then (false, n)
  else
    let hi := nround n.next
    let n := { n with next := hi }
    if hi > n.sealed then
      let (ok, n) := n.point
      if ok = false then (false, n) else (true, { n with sealed := hi })
    else (true, { n with sealed := hi })

/-! ## Checkpoints -/

/-- Is the root another one than that of the last checkpoint? -/
def Store.changed (n : Store) (hash : Key) : Bool :=
  n.committed.root == 0 || hash != n.committed.rootHash

/-- Nothing to write: the same root, and nothing staged since the last checkpoint. -/
def Store.settled (n : Store) (hash : Key) : Bool :=
  !n.changed hash && n.next == n.committed.hi && n.work.objects == n.committed.objects &&
    n.work.cache == n.committed.cache

/-- The journal entry of a checkpoint whose root has changed, and the candidate with it. -/
def Store.enter (n : Store) (hash : Key) (candidate : Super) : Option Super × Store :=
  if n.changed hash = false then (some candidate, n)
  else if candidate.sequence = 2 ^ 64 - 1 then (none, n)
  else match n.alloc journalBytes with
  | (none, n) => (none, n)
  | (some off, n) =>
    let entry : Journal :=
      ⟨n.committed.journal, candidate.sequence + 1, hash, nround n.next, candidate.root⟩
    (some { candidate with sequence := candidate.sequence + 1, journal := off },
      { n with disk := n.disk.write off (.journal entry) })

/-- What `pl_native_checkpoint` has before it synchronizes the data. -/
inductive Prepared where
  | failed
  | settled
  | candidate (sb : Super)

/-- The first half of `pl_native_checkpoint`: write the index and the journal entry, and
seal them. -/
def Store.prepare (n : Store) (hash : Key) : Prepared × Store :=
  if n.writable = false then (.failed, n)
  else match n.load hash with
  | none => (.failed, n)
  | some root =>
    -- nothing is synchronized either, whatever has been written
    if n.settled hash then (.settled, n)
    else if n.work.generation = 2 ^ 64 - 1 then (.failed, n)
    else match n.emit n.work.objects 0 with
    | (none, n) => (.failed, n)
    | (some objects, n) =>
      match n.emit n.work.cache 0 with
      | (none, n) => (.failed, n)
      | (some cache, n) =>
        match n.enter hash { n.work with
          objects := objects
          cache := cache
          generation := n.work.generation + 1
          root := root
          rootHash := hash } with
        | (none, n) => (.failed, n)
        | (some sb, n) =>
          -- what the superblock will point to is protected first
          let (ok, n) := n.seal
          if ok = false then (.failed, n) else (.candidate { sb with hi := n.next }, n)

/-- Several points in a row. -/
def Store.points (n : Store) : Nat → Bool × Store
  | 0 => (true, n)
  | k + 1 =>
    let (ok, n) := n.point
    if ok = false then (false, n) else n.points k

/-! ## Reopening -/

/-- The contents of `arena.dat`: the superblock at 0 and the one at `granule`, unless its
checksum fails, the records, and the length. -/
structure Image where
  slots : Bool → Option Super
  disk : Disk
  size : Nat

/-- `nsb_valid` of a superblock whose checksum holds. -/
def Image.valid (img : Image) (sb : Super) : Bool :=
  decide (start ≤ sb.hi ∧ sb.hi ≤ img.size ∧ sb.hi ≤ nativeBytes ∧ sb.hi % granule = 0 ∧
    sb.nextId ≠ 0 ∧ sb.nextId ≤ slotCount) &&
  (sb.objects == 0 || (img.disk.node sb.objects sb.hi).isSome) &&
  (sb.cache == 0 || (img.disk.node sb.cache sb.hi).isSome) &&
  (sb.root == 0 || decide (start ≤ sb.root) &&
    ((img.disk.pin sb.root sb.hi sb.nextId).any fun p => p.hash == sb.rootHash) &&
    img.disk.lookup sb.objects sb.rootHash sb.hi == some sb.root) &&
  (if sb.journal = 0 then sb.sequence == 0 && sb.root == 0
    else (img.disk.journal sb.journal sb.hi).any fun j =>
      j.seq == sb.sequence && j.root == sb.root && j.hash == sb.rootHash &&
      decide (j.packBytes ≤ sb.hi) && decide (sb.journal + journalBytes ≤ j.packBytes) &&
      sb.sequence != 0)

/-- A superblock that can be used. -/
def Image.usable (img : Image) (slot : Bool) : Option Super := (img.slots slot).filter img.valid

/-- The superblock that `nopen` selects. -/
def Image.select (img : Image) : Option (Bool × Super) :=
  match img.usable false, img.usable true with
  | none, none => none
  | some a, none => some (false, a)
  | none, some b => some (true, b)
  | some a, some b => if b.generation > a.generation then some (true, b) else some (false, a)

/-- `ftruncate` to `hi`: a record that is cut off is none. -/
def Disk.truncate (d : Disk) (hi : Nat) : Disk := fun off =>
  match d off with
  | some r => if off + r.len ≤ hi then some r else none
  | none => none

/-- `native_store` together with its `slot`. -/
structure Proc where
  store : Store
  slot : Bool

/-- `nopen` of an existing arena by a writer. -/
def Image.nopen (img : Image) : Option Proc :=
  img.select.map fun (slot, sb) =>
    ⟨{ disk := img.disk.truncate sb.hi
       readonly := false
       poisoned := false
       mapped := sb.hi
       sealed := sb.hi
       next := sb.hi
       committed := sb
       work := sb
       nodes := []
       faults := [] }, slot⟩

/-! ## The root log -/

/-- The loop of `pl_native_log`: entries from `lo` on, at most `cap` of them, in order;
none at all if an entry is not what it should be. -/
def Disk.logFrom (d : Disk) (hi lo cap : Nat) : Nat → Nat → List Journal → List Journal
  | 0, _, out => out
  | seq + 1, off, out =>
    if off = 0 ∨ seq + 1 < lo then out
    else match d.journal off hi with
    | none => []
    | some j =>
      -- the chain must lead back, one number at a time
      if j.seq ≠ seq + 1 ∨ (j.previous ≠ 0 ∧ j.previous ≥ off) then []
      else d.logFrom hi lo cap seq j.previous (if seq + 1 - lo < cap then j :: out else out)

/-- `pl_native_log` of a writer. -/
def Store.log (n : Store) (lo cap : Nat) : List Journal :=
  if cap = 0 then []
  else n.disk.logFrom n.committed.hi (if lo = 0 then 1 else lo) cap n.committed.sequence
    n.committed.journal []

end Enki.Native
