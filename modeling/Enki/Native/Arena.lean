import Mathlib.Data.Nat.Bitwise
import Mathlib.Logic.Function.Basic
import Mathlib.Order.Nat

/-!
# The native arena

The file `arena.dat`: two superblocks, then checksummed records at offsets that
are multiples of 8. A record is identified by its offset; what is not a record
whose checksum holds is no record. `native_store` adds the process state: the
extent mapped and written so far, and the overlay of the working index.

Every fault point of the source (`npoint`), and every call into the system that
may fail, takes one entry of the script `faults`.
-/

namespace Enki.Native

/-- `PL_NATIVE_GRANULE` -/
def granule : Nat := 65536

/-- `PL_NATIVE_BYTES`, where the address space allows it. -/
def nativeBytes : Nat := 2 ^ 38

/-- `N_START`: the first byte after the two superblocks. -/
def start : Nat := 2 * granule

/-- `sizeof(native_record)` -/
def recordBytes : Nat := 48

/-- `sizeof(native_index)` -/
def indexBytes : Nat := 112

/-- `sizeof(native_journal)` -/
def journalBytes : Nat := 120

def nround (n : Nat) : Nat := (n + granule - 1) / granule * granule

def nbound (off bytes hi : Nat) : Bool :=
  decide (start ≤ off) && off % 8 == 0 && decide (off ≤ hi) && decide (bytes ≤ hi - off)

/-! ## Keys -/

/-- A hash. -/
abbrev Key := Vector UInt8 32

/-- The bits of a key, the most significant one of the first byte being bit 0. -/
def nbit (key : Key) (bit : Nat) : Bool := (key[bit / 8]?.getD 0).toNat.testBit (7 - bit % 8)

/-- The first bit in which two keys differ, or 256. -/
def nsplit (a b : Key) : Nat := ((List.range 256).find? fun i => nbit a i != nbit b i).getD 256

/-! ## Records -/

/-- `native_index`: a branch on `bit`, or a leaf if that is 256. -/
structure Index where
  bit : Nat
  key : Key
  child : Bool → Nat
  value : Nat

/-- The key of a branch is zero. -/
def zeroKey : Key := Vector.replicate 32 0

/-- The record of a leaf. -/
def Index.leaf (key : Key) (value : Nat) : Index := ⟨256, key, fun _ => 0, value⟩

/-- The body of a PIN: a small natural, or the offset of a PIN or of another node. -/
inductive Body where
  | nat (n : Nat)
  | pin (at_ : Nat)
  | node (at_ : Nat)

/-- What an object record says of its PIN. -/
structure Pin where
  len : Nat
  hash : Key
  npins : Nat
  body : Body
  id : Nat

/-- `native_journal` -/
structure Journal where
  previous : Nat
  seq : Nat
  hash : Key
  packBytes : Nat
  root : Nat

inductive Rec where
  | object (pin : Pin)
  | index (node : Index)
  | journal (entry : Journal)
  | cache (hash : Key)

/-- `r->len` -/
def Rec.len : Rec → Nat
  | .object pin => pin.len
  | .index _ => indexBytes
  | .journal _ => journalBytes
  | .cache _ => recordBytes + 32

/-- The records of the file, by offset. -/
abbrev Disk := Nat → Option Rec

/-- Bytes written over a range destroy every record that overlaps it. -/
def Disk.erase (d : Disk) (off len : Nat) : Disk := fun o =>
  match d o with
  | some r => if o < off + len ∧ off < o + r.len then none else some r
  | none => none

/-- Write a record. -/
def Disk.write (d : Disk) (off : Nat) (r : Rec) : Disk :=
  Function.update (d.erase off r.len) off (some r)

/-- `nnode`: the index node at an offset, within the bytes before `hi`. -/
def Disk.node (d : Disk) (off hi : Nat) : Option Index :=
  match d off with
  | some (.index p) =>
    if nbound off indexBytes hi ∧ p.bit ≤ 256 ∧
        (p.bit < 256 → nbound (p.child false) indexBytes hi ∧ nbound (p.child true) indexBytes hi)
    then some p else none
  | _ => none

/-! ## The store -/

/-- `native_super` -/
structure Super where
  generation : Nat
  hi : Nat
  objects : Nat
  cache : Nat
  journal : Nat
  sequence : Nat
  nextId : Nat
  root : Nat
  rootHash : Key

/-- `native_work_node`: a node of the overlay, and where it was last written. -/
structure WorkNode where
  node : Index
  emitted : Nat := 0

/-- `native_store` -/
structure Store where
  disk : Disk
  readonly : Bool
  poisoned : Bool
  mapped : Nat
  sealed : Nat
  next : Nat
  committed : Super
  work : Super
  nodes : List WorkNode
  faults : List Bool

/-- `npoint`, or a call that may fail: does it succeed? -/
def Store.point (n : Store) : Bool × Store :=
  match n.faults with
  | [] => (true, n)
  | fails :: rest => (!fails, { n with faults := rest })

def Store.writable (n : Store) : Bool := !n.readonly && !n.poisoned

/-- Where a record of this length is placed. -/
def Store.place (n : Store) (len : Nat) : Nat :=
  if len ≥ granule ∨ n.next % granule + len > granule then nround n.next else n.next

/-- Extend the file and its mapping, where a record leaves what is mapped. -/
def Store.grow (n : Store) (hi : Nat) : Bool × Store :=
  if nround hi > n.mapped then
    let r := n.point
    (r.1, if r.1 then { r.2 with mapped := nround hi } else r.2)
  else (true, n)

/-- `nalloc`: zeroed space for a record. -/
def Store.alloc (n : Store) (len : Nat) : Option Nat × Store :=
  if n.writable = false then (none, n)
  else if len > nativeBytes ∨ len < recordBytes then (none, n)
  else
    let len := (len + 7) / 8 * 8
    let at_ := n.place len
    if at_ > nativeBytes ∨ len > nativeBytes - at_ then (none, n)
    else
      let r := n.grow (at_ + len)
      if r.1 then (some at_, { r.2 with disk := n.disk.erase at_ len, next := at_ + len })
      else (none, r.2)

end Enki.Native
