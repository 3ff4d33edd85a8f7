import Enki.Bignum.Bits
import Enki.Bignum.Exact

/-!
# Natural numbers: every call

The arithmetic as a whole. A call of one of the operations (`Call`) is exact if it
returns the number it stands for, in canonical form, and made every call of GMP inside
its contract. The one exception is a difference with zero: `pl_nat_sub` hands
`mpn_sub` an operand without limbs. `pl_nat_store_byte` comes last; it takes the byte
from the clamped operand, which is the operand's low byte only below `2 ^ 64`.
-/

namespace Enki.Bignum

open Limbs NatVal

/-- The calls of `plan/src/nat.c`. -/
inductive Call where
  | inc (a : NatVal)
  | dec (a : NatVal)
  | add (a b : NatVal)
  | sub (a b : NatVal)
  | mul (a b : NatVal)
  | div (a b : NatVal)
  | mod (a b : NatVal)
  | lsh (a sh : NatVal)
  | rsh (a sh : NatVal)
  | bex (bits : NatVal)
  | setBit (bit a : NatVal)
  | clearBit (bit a : NatVal)
  | trunc (width a : NatVal)
  | loadVar (off width a : NatVal)
  | fromBytes (bs : List UInt8)
  | cmp (a b : NatVal)
  | eq (a b : NatVal)
  | bitLen (a : NatVal)
  | byteLen (a : NatVal)
  | byteAt (a : NatVal) (i : Nat)
  | testBit (bit a : NatVal)

namespace Call

/-- The naturals a call is given. -/
def operands : Call → List NatVal
  | .inc a | .dec a | .bex a | .bitLen a | .byteLen a | .byteAt a _ => [a]
  | .add a b | .sub a b | .mul a b | .div a b | .mod a b | .lsh a b | .rsh a b | .setBit a b
  | .clearBit a b | .trunc a b | .cmp a b | .eq a b | .testBit a b => [a, b]
  | .loadVar off width a => [off, width, a]
  | .fromBytes _ => []

/-- The size asserts: the result object has fewer than `2 ^ 20` limbs. -/
def Fits : Call → Prop
  | .inc a => a.limbLen + 1 < limbMax
  | .add a b => max a.limbLen b.limbLen + 1 < limbMax
  | .mul a b => a.limbLen + b.limbLen < limbMax
  | .lsh a sh => a ≠ .direct 0 → a.limbLen + sh.u64Clamp.toNat / 64 + 1 < limbMax
  | .bex bits => 63 ≤ bits.u64Clamp.toNat → bits.u64Clamp.toNat / 64 + 1 < limbMax
  | .setBit bit a => max (bit.u64Clamp.toNat / 64 + 1) a.limbLen < limbMax
  | .fromBytes bs => ((bs.rdropWhile (· == 0)).length + 7) / 8 < limbMax
  | _ => True

/-- The call returns what it stands for. Division by zero raises. -/
def Exact (m : Mpn) (stale : Nat → UInt64) : Call → Prop
  | .inc a => Yields (Bignum.inc m stale a) (a.val + 1)
  | .dec a => Yields (Bignum.dec m stale a) (a.val - 1)
  | .add a b => Yields (Bignum.add m stale a b) (a.val + b.val)
  | .sub a b => Yields (Bignum.sub m stale a b) (a.val - b.val)
  | .mul a b => Yields (Bignum.mul m stale a b) (a.val * b.val)
  | .div a b =>
    if b.val = 0 then Bignum.div m stale a b = .error (.raise "division by zero")
    else Yields (Bignum.div m stale a b) (a.val / b.val)
  | .mod a b =>
    if b.val = 0 then Bignum.mod m stale a b = .error (.raise "division by zero")
    else Yields (Bignum.mod m stale a b) (a.val % b.val)
  | .lsh a sh => Yields (Bignum.lsh m stale a sh) (a.val * 2 ^ sh.val)
  | .rsh a sh => Yields (Bignum.rsh m stale a sh) (a.val / 2 ^ sh.val)
  | .bex bits => Yields (Bignum.bex stale bits) (2 ^ bits.val)
  | .setBit bit a => Yields (Bignum.setBit stale bit a) (a.val ||| 2 ^ bit.val)
  | .clearBit bit a => Yields (Bignum.clearBit stale bit a) (a.val.ldiff (2 ^ bit.val))
  | .trunc width a => Yields (Bignum.trunc stale width a) (a.val % 2 ^ width.val)
  | .loadVar off width a =>
    Yields (Bignum.loadVar stale off width a) (a.val / 2 ^ (8 * off.val) % 2 ^ (8 * width.val))
  | .fromBytes bs => Yields (Bignum.fromBytes stale bs) (LittleEndian.toNat bs)
  | .cmp a b => ∃ c, Bignum.cmp m a b = .ok c ∧ (c < 0 ↔ a.val < b.val) ∧ (c = 0 ↔ a.val = b.val)
  | .eq a b => Bignum.eq m a b = .ok (decide (a.val = b.val))
  | .bitLen a => a.bitLen = LittleEndian.bitLen a.val
  | .byteLen a => a.byteLen = LittleEndian.byteLen a.val
  | .byteAt a i => a.byteAt i = UInt8.ofNat (a.val / 256 ^ i)
  | .testBit bit a => NatVal.testBit bit a = a.val.testBit bit.val

/-- A boxed natural less zero. -/
def SubtractsZero : Call → Prop
  | .sub (.boxed _) (.direct w) => w = 0
  | _ => False

end Call

section

variable {m : Mpn} {stale : Nat → UInt64} {a b : NatVal}

/-- Division and remainder at once. -/
theorem divmod_exact (hm : m.Meets) (ha : a.Canonical) (hb : b.Canonical) (wantMod : Bool) :
    if b.val = 0 then divmod m stale a b wantMod = .error (.raise "division by zero")
    else Yields (divmod m stale a b wantMod) (if wantMod then a.val % b.val else a.val / b.val) := by
  split
  next hz =>
    unfold divmod
    rw [if_pos (hb.val_eq_zero.mp hz)]
  next hz => exact divmod_spec hm ha hb (fun h0 => hz (hb.val_eq_zero.mpr h0)) wantMod

/-- Every call is exact but a boxed natural less zero. -/
theorem Call.exact_iff_not_subtractsZero (hm : m.Meets) (c : Call)
    (hops : ∀ v ∈ c.operands, v.Canonical) (hfits : c.Fits) :
    c.Exact m stale ↔ ¬ c.SubtractsZero := by
  have hfine : ∀ {P : Prop}, P → (P ↔ ¬ False) := fun hp => iff_of_true hp not_false
  cases c with
  | inc a => exact hfine (inc_spec hm (hops a (by simp [operands])) hfits)
  | dec a => exact hfine (dec_spec hm (hops a (by simp [operands])))
  | add a b => exact hfine (add_spec hm hfits)
  | sub a b =>
    have ha := hops a (by simp [operands])
    have hb := hops b (by simp [operands])
    constructor
    · intro hexact hzero
      obtain ⟨v, hv, -⟩ := hexact
      match a, b, hzero with
      | .boxed ls, .direct w, hzero =>
        obtain rfl : w = 0 := hzero
        rw [sub_zero_misuse hm ha] at hv
        cases hv
    · intro hne
      refine sub_spec hm ha hb ?_
      cases a with
      | direct x => exact .inl rfl
      | boxed ls =>
        right
        rintro rfl
        exact absurd rfl hne
  | mul a b => exact hfine (mul_spec hm (hops a (by simp [operands])) (hops b (by simp [operands])) hfits)
  | div a b =>
    exact hfine (divmod_exact hm (hops a (by simp [operands])) (hops b (by simp [operands])) false)
  | mod a b =>
    exact hfine (divmod_exact hm (hops a (by simp [operands])) (hops b (by simp [operands])) true)
  | lsh a sh =>
    exact hfine (lsh_spec hm (hops a (by simp [operands])) (hops sh (by simp [operands])) hfits)
  | rsh a sh => exact hfine (rsh_spec hm (hops a (by simp [operands])) (hops sh (by simp [operands])))
  | bex bits => exact hfine (bex_spec (hops bits (by simp [operands])) hfits)
  | setBit bit a =>
    exact hfine (setBit_spec (hops bit (by simp [operands])) (hops a (by simp [operands])) hfits)
  | clearBit bit a =>
    exact hfine (clearBit_spec (hops bit (by simp [operands])) (hops a (by simp [operands])))
  | trunc width a =>
    exact hfine (trunc_spec (hops width (by simp [operands])) (hops a (by simp [operands])))
  | loadVar off width a =>
    exact hfine (loadVar_spec (hops off (by simp [operands])) (hops width (by simp [operands]))
      (hops a (by simp [operands])))
  | fromBytes bs => exact hfine (fromBytes_spec hfits)
  | cmp a b => exact hfine (cmp_spec hm (hops a (by simp [operands])) (hops b (by simp [operands])))
  | eq a b => exact hfine (eq_spec hm (hops a (by simp [operands])) (hops b (by simp [operands])))
  | bitLen a => exact hfine (bitLen_spec (hops a (by simp [operands])))
  | byteLen a => exact hfine (byteLen_spec (hops a (by simp [operands])))
  | byteAt a i => exact hfine (byteAt_spec a i)
  | testBit bit a =>
    exact hfine (testBit_spec (hops bit (by simp [operands])) (hops a (by simp [operands])))

end

/-- `2 ^ 63`, the least boxed natural. -/
def leastBoxed : NatVal := .boxed [0x8000000000000000]

theorem leastBoxed_canonical : leastBoxed.Canonical :=
  ⟨by decide, by simp, by decide⟩

/-- `(2 ^ 63 - 1) - 2 ^ 63`, on one direct and one boxed operand. -/
theorem Call.exact_mixed_sub : (Call.sub (.direct nat63Max) leastBoxed).Exact .schoolbook fun _ => 7 :=
  (Call.exact_iff_not_subtractsZero Mpn.schoolbook_meets (.sub (.direct nat63Max) leastBoxed)
    (by
      intro v hv
      simp only [Call.operands, List.mem_cons, List.not_mem_nil, or_false] at hv
      rcases hv with rfl | rfl
      · exact canonical_direct.2 (by decide)
      · exact leastBoxed_canonical)
    trivial).mpr fun h => h

/-- `2 ^ 63 - 0` calls `mpn_sub` without limbs to subtract. -/
theorem Call.not_exact_sub_zero : ¬ ∀ (m : Mpn) (stale : Nat → UInt64) (c : Call), m.Meets →
    (∀ v ∈ c.operands, v.Canonical) → c.Fits → c.Exact m stale := by
  intro hall
  have hexact := hall .schoolbook (fun _ => 0) (.sub leastBoxed (.direct 0)) Mpn.schoolbook_meets
    (by
      intro v hv
      simp only [Call.operands, List.mem_cons, List.not_mem_nil, or_false] at hv
      rcases hv with rfl | rfl
      · exact leastBoxed_canonical
      · exact canonical_direct.2 (by simp))
    trivial
  obtain ⟨v, hv, -⟩ := hexact
  rw [leastBoxed, sub_zero_misuse Mpn.schoolbook_meets leastBoxed_canonical] at hv
  cases hv

/-! ## Storing a byte -/

/-- The result of a store: byte `i` is the operand's low byte, every other byte is as it
was; and read back, `Load8` at `i` gives the byte, at any other place what it gave
before. -/
def Stores (x : Except Stop NatVal) (idx byte a : NatVal) : Prop :=
  ∃ v, x = .ok v ∧ v.Canonical ∧
    (∀ j, v.byteAt j = if j = idx.val then UInt8.ofNat byte.val else a.byteAt j) ∧
    load8 idx v = UInt8.ofNat byte.val ∧
    ∀ j : NatVal, j.Canonical → j.val ≠ idx.val → load8 j v = load8 j a

section

variable {stale : Nat → UInt64} {idx byte a : NatVal}

/-- The low byte of the clamped operand. -/
theorem toUInt8_u64Clamp (hb : byte.Canonical) :
    byte.u64Clamp.toUInt8 = UInt8.ofNat byte.val ↔ byte.val < 2 ^ 64 ∨ byte.val % 256 = 255 := by
  rw [← UInt8.toNat_inj, UInt64.toNat_toUInt8, UInt8.toNat_ofNat', hb.toNat_u64Clamp]
  omega

/-- The byte is stored exactly if the clamp leaves it alone. -/
theorem storeByte_stores_iff (hi : idx.Canonical) (hb : byte.Canonical)
    (hlen : max (idx.u64Clamp.toNat / 8 + 1) a.limbLen < limbMax) :
    Stores (storeByte stale idx byte a) idx byte a ↔ byte.val < 2 ^ 64 ∨ byte.val % 256 = 255 := by
  have hspec : ∃ v, storeByte stale idx byte a = .ok v ∧ v.Canonical ∧ _ := storeByte_spec hi hlen
  obtain ⟨v, hv, hc, hbytes⟩ := hspec
  have hexact : idx.u64Clamp.toNat = idx.val := (hi.val_of_clamp (n := 8 * limbMax) (by omega)
    (by decide)).symm
  rw [← toUInt8_u64Clamp hb]
  constructor
  · rintro ⟨v', hv', -, hbytes', -⟩
    obtain rfl : v = v' := Except.ok.inj (hv.symm.trans hv')
    have hthere := (hbytes idx.val).symm.trans (hbytes' idx.val)
    simpa using hthere
  · intro heq
    have hstored : ∀ j, v.byteAt j = if j = idx.val then UInt8.ofNat byte.val else a.byteAt j :=
      fun j => by rw [hbytes j, heq]
    refine ⟨v, hv, hc, hstored, ?_, fun j hj hne => ?_⟩
    · rw [load8, hstored, if_pos hexact]
    · -- The index is below the clamp, so a clamped place is still another one.
      have hclamp := hj.toNat_u64Clamp
      have hmax : limbMax = 2 ^ 20 := rfl
      rw [load8, hstored, if_neg (by omega), load8]

end

/-- Byte 9 of `2 ^ 63` becomes `0x107 mod 256`. -/
theorem storeByte_stores_past_top : Stores
    (storeByte (fun _ => 7) (.direct 9) (.direct 0x107) leastBoxed) (.direct 9) (.direct 0x107)
    leastBoxed :=
  (storeByte_stores_iff (canonical_direct.2 (by decide)) (canonical_direct.2 (by decide))
    (by decide)).mpr (.inl (by decide))

/-- `2 ^ 64` is stored as `0xff`. -/
theorem storeByte_saturates : ¬ ∀ (stale : Nat → UInt64) (idx byte a : NatVal), idx.Canonical →
    byte.Canonical → a.Canonical → max (idx.u64Clamp.toNat / 8 + 1) a.limbLen < limbMax →
    Stores (storeByte stale idx byte a) idx byte a := by
  intro hall
  have hbyte : (NatVal.boxed [0, 1]).Canonical := ⟨by decide, by decide, by decide⟩
  obtain ⟨v, hv, -, hbytes, -⟩ := hall (fun _ => 0) (.direct 0) (.boxed [0, 1]) (.direct 0)
    (canonical_direct.2 (by decide)) hbyte (canonical_direct.2 (by decide)) (by decide)
  have hrun : storeByte (fun _ => 0) (.direct 0) (.boxed [0, 1]) (.direct 0) = .ok (.direct 0xff) := by
    decide +kernel
  obtain rfl : NatVal.direct 0xff = v := Except.ok.inj (hrun.symm.trans hv)
  exact absurd (hbytes 0) (by decide)

end Enki.Bignum
