import Enki.Bignum.Mpn

/-!
# Natural numbers

The arithmetic of `plan/src/nat.c`. A natural is a direct word below `2 ^ 63` or a
heap object of limbs. Every operation has a fast path on direct words and a path
that allocates a result object, lets GMP write into it, and trims it
(`pl_nat_trim`). The cells of a fresh object hold whatever was there before, here a
parameter (`stale`), and a store outside of the object stops the model.

`pl_nat_cmp` first asks whether its operands are one object; the answer is then
the one the limbs give, so that question is left out.
-/

namespace Enki.Bignum

open Limbs

/-- `PL_NAT63_MAX` -/
def nat63Max : UInt64 := 0x7fffffffffffffff

/-- The limit on limb counts, `1u << 20`. -/
def limbMax : Nat := 2 ^ 20

/-- A `pl_val` that is a natural. -/
inductive NatVal where
  | direct (w : UInt64)
  | boxed (ls : List UInt64)
  deriving DecidableEq

namespace NatVal

/-- `pl_is_nat63` -/
def isNat63 : NatVal → Bool
  | .direct _ => true
  | .boxed _ => false

/-- `pl_limb_view` -/
def limbView : NatVal → List UInt64
  | .direct w => if w = 0 then [] else [w]
  | .boxed ls => ls

/-- The number it denotes. -/
def val (v : NatVal) : Nat := toNat v.limbView

/-- Direct below `2 ^ 63`, otherwise boxed with a nonzero top limb. -/
def Canonical : NatVal → Prop
  | .direct w => w ≤ nat63Max
  | .boxed ls => ls.getLast? ≠ some 0 ∧ 2 ^ 63 ≤ toNat ls ∧ ls.length < limbMax

/-- `pl_nat_limb_len` -/
def limbLen (v : NatVal) : Nat := v.limbView.length

/-- `pl_nat_limb_at` -/
def limbAt (v : NatVal) (i : Nat) : UInt64 :=
  match v with
  | .direct w => if i = 0 then w else 0
  | .boxed ls => ls.getD i 0

/-- `pl_nat_u64_clamp` -/
def u64Clamp : NatVal → UInt64
  | .direct w => w
  | .boxed [] => 0
  | .boxed [l] => l
  | .boxed _ => 0xffffffffffffffff

/-- `__builtin_clzll` -/
def clz (w : UInt64) : Nat := 63 - Nat.log2 w.toNat

/-- `pl_nat_bit_len` -/
def bitLen (v : NatVal) : Nat :=
  match v.limbView.getLast? with
  | none => 0
  | some top => (v.limbLen - 1) * 64 + (64 - clz top)

/-- `pl_nat_byte_len` -/
def byteLen (v : NatVal) : Nat := (v.bitLen + 7) / 8

/-- `pl_nat_byte_at` -/
def byteAt (v : NatVal) (i : Nat) : UInt8 :=
  (v.limbAt (i / 8) >>> UInt64.ofNat (i % 8 * 8)).toUInt8

/-- `op_load8` on naturals. -/
def load8 (i a : NatVal) : UInt8 := a.byteAt i.u64Clamp.toNat

/-- `pl_nat_test_bit` -/
def testBit (bit a : NatVal) : Bool :=
  let i := bit.u64Clamp
  if a.limbLen ≤ (i / 64).toNat then false
  else (a.limbAt (i / 64).toNat >>> (i % 64)) &&& 1 ≠ 0

end NatVal

open NatVal

/-! ## Result objects -/

/-- `pl_mk_nat_limbs`: the limbs of the fresh object. -/
def mkNatLimbs (stale : Nat → UInt64) (limbs : Nat) : Except Stop (List UInt64) :=
  if 1 ≤ limbs ∧ limbs < limbMax then .ok ((List.range limbs).map stale)
  else .error (.assume "nat limb count out of range")

/-- Store limbs at an index of the object. -/
def put (out : List UInt64) (i : Nat) (src : List UInt64) : Except Stop (List UInt64) :=
  guarded (i + src.length ≤ out.length) "store"
    (out.take i ++ src ++ out.drop (i + src.length))

/-- Store bytes at a byte offset of the object. -/
def putBytes (out : List UInt64) (i : Nat) (src : List UInt8) : Except Stop (List UInt64) :=
  guarded (i + src.length ≤ 8 * out.length) "store"
    (ofBytes out.length
      ((toBytes out).take i ++ src ++ (toBytes out).drop (i + src.length)))

/-- `pl_nat_trim` -/
def natTrim (out : List UInt64) : NatVal :=
  match trim out with
  | [] => .direct 0
  | [l] => if l ≤ nat63Max then .direct l else .boxed [l]
  | ls => .boxed ls

/-- The size asserts of the operations that grow a number. -/
def assume (c : Bool) (msg : String) : Except Stop Unit :=
  if c then .ok () else .error (.assume msg)

/-! ## Operations -/

variable (m : Mpn) (stale : Nat → UInt64)

/-- `pl_nat_cmp` on limb views. -/
def cmpSlow (a b : NatVal) : Except Stop Int :=
  if a.limbLen ≠ b.limbLen then .ok (if a.limbLen < b.limbLen then -1 else 1)
  else if a.limbLen = 0 then .ok 0
  else m.callCmp a.limbView b.limbView

/-- `pl_nat_cmp` -/
def cmp (a b : NatVal) : Except Stop Int :=
  match a, b with
  | .direct x, .direct y => .ok (if x < y then -1 else if x > y then 1 else 0)
  | a, b => cmpSlow m a b

/-- `pl_nat_eq` -/
def eq (a b : NatVal) : Except Stop Bool := do
  let c ← cmp m a b
  return c = 0

/-- `pl_nat_inc` past its fast path. -/
def incSlow (a : NatVal) : Except Stop NatVal := do
  let la := a.limbLen
  let out ← mkNatLimbs stale (la + 1)
  let (sum, carry) ← m.callAdd1 a.limbView 1
  let out ← put out 0 sum
  let out ← put out la [carry]
  return natTrim out

/-- `pl_nat_inc` -/
def inc (a : NatVal) : Except Stop NatVal :=
  match a with
  | .direct w => if w < nat63Max then .ok (.direct (w + 1)) else incSlow m stale a
  | a => incSlow m stale a

/-- `pl_nat_dec` -/
def dec (a : NatVal) : Except Stop NatVal :=
  match a with
  | .direct w => .ok (.direct (if w = 0 then 0 else w - 1))
  | a => do
    let out ← mkNatLimbs stale a.limbLen
    let (diff, _) ← m.callSub1 a.limbView 1
    let out ← put out 0 diff
    return natTrim out

/-- `pl_nat_add` past its fast path. -/
def addSlow (a b : NatVal) : Except Stop NatVal := do
  let la := a.limbLen
  let lb := b.limbLen
  let lr := (if la > lb then la else lb) + 1
  let out ← mkNatLimbs stale lr
  let (va, vb) :=
    if a.limbLen < b.limbLen then (b.limbView, a.limbView) else (a.limbView, b.limbView)
  let (sum, carry) ← if vb.length ≠ 0 then m.callAdd va vb else .ok (va, 0)
  let out ← put out 0 sum
  let out ← put out va.length [carry]
  let out ← put out (va.length + 1) (List.replicate (lr - (va.length + 1)) 0)
  return natTrim out

/-- `pl_nat_add` -/
def add (a b : NatVal) : Except Stop NatVal :=
  match a, b with
  | .direct x, .direct y =>
    if x.toNat + y.toNat < 2 ^ 64 ∧ x + y ≤ nat63Max then .ok (.direct (x + y))
    else addSlow m stale a b
  | a, b => addSlow m stale a b

/-- `pl_nat_sub` past its fast path. -/
def subSlow (a b : NatVal) : Except Stop NatVal := do
  let c ← cmp m b a
  if c ≥ 0 then return .direct 0
  let out ← mkNatLimbs stale a.limbLen
  let (diff, _) ← m.callSub a.limbView b.limbView
  let out ← put out 0 diff
  return natTrim out

/-- `pl_nat_sub` -/
def sub (a b : NatVal) : Except Stop NatVal :=
  match a, b with
  | .direct x, .direct y => .ok (.direct (if x > y then x - y else 0))
  | a, b => subSlow m stale a b

/-- `pl_nat_mul` past its fast path. -/
def mulSlow (a b : NatVal) : Except Stop NatVal := do
  if a = .direct 0 ∨ b = .direct 0 then return .direct 0
  let la := a.limbLen
  let lb := b.limbLen
  let out ← mkNatLimbs stale (la + lb)
  let prod ← if la ≥ lb then m.callMul a.limbView b.limbView else m.callMul b.limbView a.limbView
  let out ← put out 0 prod
  return natTrim out

/-- `pl_nat_mul` -/
def mul (a b : NatVal) : Except Stop NatVal :=
  match a, b with
  | .direct x, .direct y =>
    if x.toNat * y.toNat < 2 ^ 64 ∧ x * y ≤ nat63Max then .ok (.direct (x * y))
    else mulSlow m stale a b
  | a, b => mulSlow m stale a b

/-- `pl_nat_divmod` past its fast path. -/
def divmodSlow (a b : NatVal) (wantMod : Bool) : Except Stop NatVal := do
  let c ← cmp m a b
  if c < 0 then return if wantMod then a else .direct 0
  let la := a.limbLen
  let lb := b.limbLen
  let lq := la - lb + 1
  let qp ← mkNatLimbs stale lq
  let rp ← mkNatLimbs (fun i => stale (lq + i)) lb
  let (quot, rem) ← m.callTdivQr a.limbView b.limbView
  let qp ← put qp 0 quot
  let rp ← put rp 0 rem
  return if wantMod then natTrim rp else natTrim qp

/-- `pl_nat_divmod` -/
def divmod (a b : NatVal) (wantMod : Bool) : Except Stop NatVal :=
  if b = .direct 0 then .error (.raise "division by zero")
  else match a, b with
  | .direct x, .direct y => .ok (.direct (if wantMod then x % y else x / y))
  | a, b => divmodSlow m stale a b wantMod

/-- `pl_nat_div` -/
def div (a b : NatVal) : Except Stop NatVal := divmod m stale a b false

/-- `pl_nat_mod` -/
def mod (a b : NatVal) : Except Stop NatVal := divmod m stale a b true

/-- `pl_nat_lsh` -/
def lsh (a sh : NatVal) : Except Stop NatVal := do
  if a = .direct 0 then return .direct 0
  let cnt := sh.u64Clamp.toNat
  let limbShift := cnt / 64
  let bitShift := cnt % 64
  let lr := a.limbLen + limbShift + 1
  assume (lr < limbMax) "left shift result too large"
  let out ← mkNatLimbs stale lr
  let va := a.limbView
  let out ← put out 0 (List.replicate limbShift 0)
  let (shifted, carry) ← if bitShift = 0 then .ok (va, 0) else m.callLshift va bitShift
  let out ← put out limbShift shifted
  let out ← put out (limbShift + va.length) [carry]
  return natTrim out

/-- `pl_nat_rsh` -/
def rsh (a sh : NatVal) : Except Stop NatVal := do
  let cnt := sh.u64Clamp.toNat
  let la := a.limbLen
  let limbShift := cnt / 64
  let bitShift := cnt % 64
  if limbShift ≥ la then return .direct 0
  let lr := la - limbShift
  match a with
  | .direct w => return .direct (w >>> sh.u64Clamp)
  | a =>
    let out ← mkNatLimbs stale lr
    let va := a.limbView
    let (shifted, _) ← if bitShift = 0 then .ok ((va.drop limbShift).take lr, 0)
      else m.callRshift ((va.drop limbShift).take lr) bitShift
    let out ← put out 0 shifted
    return natTrim out

/-- `pl_nat_bex` -/
def bex (bits : NatVal) : Except Stop NatVal := do
  let n := bits.u64Clamp
  if n < 63 then return .direct (1 <<< n)
  let lr := n.toNat / 64 + 1
  assume (lr < limbMax) "bex result too large"
  let out ← mkNatLimbs stale lr
  let out ← put out 0 (List.replicate lr 0)
  let out ← put out (n.toNat / 64) [1 <<< (n % 64)]
  return natTrim out

/-- `pl_nat_set_bit` -/
def setBit (bit a : NatVal) : Except Stop NatVal := do
  let i := bit.u64Clamp
  match a, decide (i < 63) with
  | .direct w, true => return .direct (w ||| (1 <<< i))
  | a, _ =>
    let la := a.limbLen
    let lr := if i.toNat / 64 + 1 > la then i.toNat / 64 + 1 else la
    assume (lr < limbMax) "set-bit result too large"
    let out ← mkNatLimbs stale lr
    let out ← put out 0 (List.replicate lr 0)
    let out ← put out 0 a.limbView
    let out ← put out (i.toNat / 64) [out.getD (i.toNat / 64) 0 ||| (1 <<< (i % 64))]
    return natTrim out

/-- `pl_nat_clear_bit` -/
def clearBit (bit a : NatVal) : Except Stop NatVal := do
  let i := bit.u64Clamp
  match a with
  | .direct w => return .direct (if i < 63 then w &&& ~~~(1 <<< i) else w)
  | a =>
    let la := a.limbLen
    if i.toNat / 64 ≥ la then return a
    let out ← mkNatLimbs stale la
    let out ← put out 0 a.limbView
    let out ← put out (i.toNat / 64) [out.getD (i.toNat / 64) 0 &&& ~~~(1 <<< (i % 64))]
    return natTrim out

/-- `pl_nat_trunc` -/
def trunc (width a : NatVal) : Except Stop NatVal := do
  let w := width.u64Clamp
  if w = 0 then return .direct 0
  if a.bitLen ≤ w.toNat then return a
  match a with
  | .direct x => return .direct (if w ≥ 63 then x else x &&& ((1 <<< w) - 1))
  | a =>
    let lr := (w.toNat + 63) / 64
    let out ← mkNatLimbs stale lr
    let out ← put out 0 (a.limbView.take lr)
    let out ← if w.toNat % 64 ≠ 0 then
      put out (lr - 1) [out.getD (lr - 1) 0 &&& ((1 <<< (w % 64)) - 1)] else .ok out
    return natTrim out

/-- `clamp_to_width` -/
def clampToWidth (w a : UInt64) : UInt64 := if w ≥ 8 then a else a &&& ((1 <<< (w * 8)) - 1)

/-- `pl_nat_load_var` -/
def loadVar (off width a : NatVal) : Except Stop NatVal := do
  let w := width.u64Clamp
  let o := off.u64Clamp
  if w = 0 then return .direct 0
  match a with
  | .direct x => return .direct (if o ≥ 8 then 0 else clampToWidth w (x >>> (8 * o)))
  | a =>
    let avail := a.limbLen * 8
    if o.toNat ≥ avail then return .direct 0
    let n := if avail - o.toNat < w.toNat then avail - o.toNat else w.toNat
    let lr := (n + 7) / 8
    let out ← mkNatLimbs stale lr
    let out ← put out (lr - 1) [0]
    let out ← putBytes out 0 (((toBytes a.limbView).drop o.toNat).take n)
    return natTrim out

/-- `pl_nat_store_byte`. The byte is a natural, so that `pl_nat_coerce` leaves it
alone. -/
def storeByte (idx byte a : NatVal) : Except Stop NatVal := do
  let i := idx.u64Clamp
  let b := byte.u64Clamp.toUInt8
  let la := a.limbLen
  let lr := if i.toNat / 8 + 1 < la then la else i.toNat / 8 + 1
  assume (lr < limbMax) "store-byte result too large"
  let out ← mkNatLimbs stale lr
  let out ← put out 0 (List.replicate lr 0)
  let out ← put out 0 a.limbView
  let out ← putBytes out i.toNat [b]
  return natTrim out

/-- `pl_nat_from_bytes` -/
def fromBytes (b : List UInt8) : Except Stop NatVal := do
  let b := b.rdropWhile (· == 0)
  let n := b.length
  if n = 0 then return .direct 0
  if n < 8 then return .direct (UInt64.ofNat (LittleEndian.toNat b))
  let limbs := (n + 7) / 8
  let out ← mkNatLimbs stale limbs
  let out ← put out (limbs - 1) [0]
  let out ← putBytes out 0 b
  return natTrim out

end Enki.Bignum
