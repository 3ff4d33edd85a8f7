import Enki.Log.Decode
import Enki.Silo.Format

/-!
# Legacy pin bytes

The first backend format of pins, `plan/src/pin.c`: a version, the hashes of the pins
directly in a body, and the body as tagged bytes in which a pin is an index. Pins are
references here (`α` where a body is written, `β` where it is loaded): the code
tells them apart by their pointers and never looks inside them but for `pl_arity`.
-/

namespace Enki.Legacy

open Bignum NatVal LittleEndian

/-- A value in normal form. -/
inductive Body (α : Type) where
  | nat (v : NatVal)
  | pin (p : α)
  | law (arity : UInt64) (name body : Body α)
  | app (need : Nat) (head : Body α) (args : List (Body α))

/-- `pl_arity`; that of a pin is given. -/
def arity {α : Type} (pinArity : α → UInt64) : Body α → UInt64
  | .nat _ => 0
  | .pin p => pinArity p
  | .law a _ _ => a
  | .app need _ _ => UInt64.ofNat need

/-! ## Writing -/

section Writing

variable {α : Type} [DecidableEq α]

mutual

/-- `collect_subpins`: first occurrences, left to right. -/
def collectSubpins (subpins : List α) : Body α → List α
  | .nat _ => subpins
  | .pin p => if p ∈ subpins then subpins else subpins ++ [p]
  | .law _ name body => collectSubpins (collectSubpins subpins name) body
  | .app _ head args => collectArgs (collectSubpins subpins head) args

/-- `collectSubpins` of arguments. -/
def collectArgs (subpins : List α) : List (Body α) → List α
  | [] => subpins
  | a :: as => collectArgs (collectSubpins subpins a) as

end

/-- `cput32` -/
def cput32 (n : Nat) : List UInt8 := bytes 4 n

/-- `cput64` -/
def cput64 (n : Nat) : List UInt8 := bytes 8 n

mutual

/-- `serialize` -/
def serialize (subpins : List α) : Body α → Except Stop (List UInt8)
  | .nat v => .ok ('n'.toUInt8 :: cput64 v.byteLen ++ Log.natBytes v)
  | .pin p => do
    assume (p ∈ subpins) "serialize: pin not collected"
    return 'p'.toUInt8 :: cput32 (subpins.idxOf p)
  | .law a name body => do
    let name ← serialize subpins name
    let body ← serialize subpins body
    return 'l'.toUInt8 :: cput64 a.toNat ++ name ++ body
  | .app _ head args => do
    let head ← serialize subpins head
    let rest ← serializeArgs subpins args
    return 'a'.toUInt8 :: cput32 args.length ++ head ++ rest

/-- `serialize` of arguments. -/
def serializeArgs (subpins : List α) : List (Body α) → Except Stop (List UInt8)
  | [] => .ok []
  | a :: as => do
    let a ← serialize subpins a
    let as ← serializeArgs subpins as
    return a ++ as

end

/-- `PL_CANON_VERSION` -/
def canonVersion : UInt8 := 1

/-- `save_legacy_put`: the bytes put under a hash. Every pin has a hash. -/
def saveLegacyPut (hash : α → Hash) (subpins : List α) (buf : List UInt8) : List UInt8 :=
  canonVersion :: cput64 subpins.length ++ subpins.flatMap (fun p => (hash p).bytes) ++ buf

end Writing

/-! ## Reading -/

section Reading

variable {β : Type} (pinArity : β → UInt64) (stale : Nat → UInt64)

/-- `deser_ctx`; its bytes are in memory, so a `size_t` counts them. -/
structure Deser (β : Type) where
  b : List UInt8
  subpins : List β
  size : b.length < 2 ^ 64

variable (d : Deser β)

/-- `dget` -/
def dget (off width : Nat) : Except Stop (Nat × Nat) := do
  assume (off + width ≤ d.b.length) "pin bytes truncated"
  return (toNat ((d.b.drop off).take width), off + width)

/-- The case `'n'` of `deser` for more than seven bytes: a fresh object is trimmed. -/
def deserLimbs (bytes : List UInt8) : Except Stop NatVal := do
  let limbs := (bytes.length + 7) / 8
  let np ← put ((List.range limbs).map stale) (limbs - 1) [0]
  let np ← putBytes np 0 bytes
  return natTrim (np.take (limbs % limbMax))

/-- The case `'n'` of `deser`. -/
def deserNat (off : Nat) : Except Stop (NatVal × Nat) := do
  let (len, off) ← dget d off 8
  assume ((off + len) % 2 ^ 64 ≤ d.b.length) "pin bytes truncated"
  let bytes ← Log.readAt d.b off len
  let off := off + len
  if len < 8 then return (.direct (UInt64.ofNat (toNat bytes)), off)
  if len = 8 ∧ UInt64.ofNat (toNat bytes) ≤ nat63Max then
    return (.direct (UInt64.ofNat (toNat bytes)), off)
  let v ← deserLimbs stale bytes
  return (v, off)

/-- The need an application gets once its head is there; its header has twenty bits for it. -/
def deserNeed (head : Body β) (n : Nat) : Nat :=
  let a := (arity pinArity head).toNat
  if a = 0 ∨ a ≤ n then 0 else (a - n) % 2 ^ 32 % 2 ^ 20

/-- The loop over arguments. -/
def deserArgs (deser : Nat → Except Stop (Body β × Nat)) : Nat → Nat →
    Except Stop (List (Body β) × Nat)
  | 0, off => .ok ([], off)
  | n + 1, off => do
    let (a, off) ← deser off
    let (as, off) ← deserArgs deser n off
    return (a :: as, off)

/-- `deser`: the value at an offset, and the offset behind it. Every call reads a byte, so
`fuel` for the bytes there are is enough. -/
def deser : Nat → Nat → Except Stop (Body β × Nat)
  | 0, _ => .error (.misuse "deser")
  | fuel + 1, off => do
    let (tag, off) ← dget d off 1
    if tag = 'n'.toNat then
      let (v, off) ← deserNat stale d off
      return (.nat v, off)
    else if tag = 'p'.toNat then
      let (i, off) ← dget d off 4
      match d.subpins[i]? with
      | some p => return (.pin p, off)
      | none => .error (.assume "pin index out of range")
    else if tag = 'l'.toNat then
      let (a, off) ← dget d off 8
      let (name, off) ← deser fuel off
      let (body, off) ← deser fuel off
      return (.law (UInt64.ofNat a) name body, off)
    else if tag = 'a'.toNat then
      let (n, off) ← dget d off 4
      assume (n ≥ 1) "empty app in pin bytes"
      assume ((2 + n) % 2 ^ 32 ≥ 3) "APP requires a head and at least one argument"
      let (head, off) ← deser fuel off
      let (args, off) ← deserArgs (deser fuel) n off
      return (.app (deserNeed pinArity head n) head args, off)
    else .error (.assume s!"bad tag in pin bytes: {tag}")

/-- The loop over the hashes of `load_legacy_pin`. -/
def loadSubpins (load : Hash → Except Stop β) : Nat → Nat → Except Stop (List β × Nat)
  | 0, off => .ok ([], off)
  | n + 1, off => do
    assume (off + 32 ≤ d.b.length) "pin bytes truncated"
    let child ← load (Hash.ofBytes ((d.b.drop off).take 32))
    let (subs, off) ← loadSubpins load n (off + 32)
    return (child :: subs, off)

/-- `load_legacy_pin` once the backend has found the bytes; `load` is the recursive call. -/
def loadLegacyPin (load : Hash → Except Stop β) : Except Stop (Body β × List β × Nat) := do
  let (ver, off) ← dget d 0 1
  assume (ver = canonVersion.toNat) s!"bad pin version {ver}"
  let (nsub, off) ← dget d off 8
  if nsub > Silo.maxPinCount then .error (.raise "PIN exceeds the direct PIN-table limit")
  let (subs, off) ← loadSubpins d load nsub off
  let d := { d with subpins := subs }
  let (body, off) ← deser pinArity stale d d.b.length off
  return (body, subs, off)

end Reading

end Enki.Legacy
