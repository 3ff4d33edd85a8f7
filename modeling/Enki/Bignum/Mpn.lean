import Enki.Lib.Limbs

/-!
# GMP's limb routines

`plan/src/nat.c` computes with the `mpn` layer of GMP. The routines are a
parameter (`Mpn`); what the manual promises of them is `Mpn.Meets`, each promise
under the conditions the manual sets: no size is zero, the first operand is not
the shorter one, a divisor's top limb is not zero, a shift is by 1 to 63 bits. A
call outside of these conditions stops the model (`Stop.misuse`), so that a result
is also a proof that the conditions were met.
-/

namespace Enki.Bignum

open Limbs

/-- Why a computation does not return. -/
inductive Stop where
  /-- `ax_assume` failed. -/
  | assume (msg : String)
  /-- `pl_raise_msg`. -/
  | raise (msg : String)
  /-- A routine was called outside of its contract, or a store was out of bounds. -/
  | misuse (name : String)
  deriving DecidableEq

/-- Go on only if the contract is kept. -/
def guarded {α : Type} (c : Bool) (name : String) (x : α) : Except Stop α :=
  if c then .ok x else .error (.misuse name)

/-- The routines; a carry or borrow is returned beside the limbs. -/
structure Mpn where
  cmp : List UInt64 → List UInt64 → Int
  add1 : List UInt64 → UInt64 → List UInt64 × UInt64
  sub1 : List UInt64 → UInt64 → List UInt64 × UInt64
  add : List UInt64 → List UInt64 → List UInt64 × UInt64
  sub : List UInt64 → List UInt64 → List UInt64 × UInt64
  mul : List UInt64 → List UInt64 → List UInt64
  tdivQr : List UInt64 → List UInt64 → List UInt64 × List UInt64
  lshift : List UInt64 → Nat → List UInt64 × UInt64
  rshift : List UInt64 → Nat → List UInt64 × UInt64

/-- What the manual promises. -/
structure Mpn.Meets (m : Mpn) : Prop where
  cmp : ∀ a b, a.length = b.length → a ≠ [] →
    (m.cmp a b < 0 ↔ toNat a < toNat b) ∧ (m.cmp a b = 0 ↔ toNat a = toNat b)
  add1 : ∀ a l, a ≠ [] → (m.add1 a l).1.length = a.length ∧
    toNat (m.add1 a l).1 + 2 ^ (64 * a.length) * (m.add1 a l).2.toNat = toNat a + l.toNat
  sub1 : ∀ a l, a ≠ [] → (m.sub1 a l).1.length = a.length ∧
    toNat (m.sub1 a l).1 + l.toNat = toNat a + 2 ^ (64 * a.length) * (m.sub1 a l).2.toNat
  add : ∀ a b, b.length ≤ a.length → b ≠ [] → (m.add a b).1.length = a.length ∧
    toNat (m.add a b).1 + 2 ^ (64 * a.length) * (m.add a b).2.toNat = toNat a + toNat b
  sub : ∀ a b, b.length ≤ a.length → b ≠ [] → (m.sub a b).1.length = a.length ∧
    toNat (m.sub a b).1 + toNat b = toNat a + 2 ^ (64 * a.length) * (m.sub a b).2.toNat
  mul : ∀ a b, b.length ≤ a.length → b ≠ [] → (m.mul a b).length = a.length + b.length ∧
    toNat (m.mul a b) = toNat a * toNat b
  tdivQr : ∀ a b, b.length ≤ a.length → b ≠ [] → b.getLast? ≠ some 0 →
    (m.tdivQr a b).1.length = a.length - b.length + 1 ∧
    (m.tdivQr a b).2.length = b.length ∧
    toNat (m.tdivQr a b).1 = toNat a / toNat b ∧ toNat (m.tdivQr a b).2 = toNat a % toNat b
  lshift : ∀ a c, a ≠ [] → 1 ≤ c → c ≤ 63 → (m.lshift a c).1.length = a.length ∧
    toNat (m.lshift a c).1 + 2 ^ (64 * a.length) * (m.lshift a c).2.toNat = toNat a * 2 ^ c
  rshift : ∀ a c, a ≠ [] → 1 ≤ c → c ≤ 63 → (m.rshift a c).1.length = a.length ∧
    toNat (m.rshift a c).1 = toNat a / 2 ^ c

namespace Mpn

variable (m : Mpn)

/-- `mpn_cmp` -/
def callCmp (a b : List UInt64) : Except Stop Int :=
  guarded (a.length = b.length ∧ a ≠ []) "mpn_cmp" (m.cmp a b)

/-- `mpn_add_1` -/
def callAdd1 (a : List UInt64) (l : UInt64) : Except Stop (List UInt64 × UInt64) :=
  guarded (a ≠ []) "mpn_add_1" (m.add1 a l)

/-- `mpn_sub_1` -/
def callSub1 (a : List UInt64) (l : UInt64) : Except Stop (List UInt64 × UInt64) :=
  guarded (a ≠ []) "mpn_sub_1" (m.sub1 a l)

/-- `mpn_add` -/
def callAdd (a b : List UInt64) : Except Stop (List UInt64 × UInt64) :=
  guarded (b.length ≤ a.length ∧ b ≠ []) "mpn_add" (m.add a b)

/-- `mpn_sub` -/
def callSub (a b : List UInt64) : Except Stop (List UInt64 × UInt64) :=
  guarded (b.length ≤ a.length ∧ b ≠ []) "mpn_sub" (m.sub a b)

/-- `mpn_mul` -/
def callMul (a b : List UInt64) : Except Stop (List UInt64) :=
  guarded (b.length ≤ a.length ∧ b ≠ []) "mpn_mul" (m.mul a b)

/-- `mpn_tdiv_qr` -/
def callTdivQr (a b : List UInt64) : Except Stop (List UInt64 × List UInt64) :=
  guarded (b.length ≤ a.length ∧ b ≠ [] ∧ b.getLast? ≠ some 0) "mpn_tdiv_qr" (m.tdivQr a b)

/-- `mpn_lshift` -/
def callLshift (a : List UInt64) (c : Nat) : Except Stop (List UInt64 × UInt64) :=
  guarded (a ≠ [] ∧ 1 ≤ c ∧ c ≤ 63) "mpn_lshift" (m.lshift a c)

/-- `mpn_rshift` -/
def callRshift (a : List UInt64) (c : Nat) : Except Stop (List UInt64 × UInt64) :=
  guarded (a ≠ [] ∧ 1 ≤ c ∧ c ≤ 63) "mpn_rshift" (m.rshift a c)

end Mpn

/-! ## Routines that keep the promises -/

/-- Low limbs and the limb above them. -/
def split (n v : Nat) : List UInt64 × UInt64 :=
  (limbs n v, UInt64.ofNat (v / 2 ^ (64 * n)))

/-- Low limbs of a difference, and whether it was negative. -/
def splitSub (n a b : Nat) : List UInt64 × UInt64 :=
  if b ≤ a then (limbs n (a - b), 0) else (limbs n (2 ^ (64 * n) + a - b), 1)

/-- Every routine through the numbers its operands denote. -/
def Mpn.schoolbook : Mpn where
  cmp a b := if toNat a < toNat b then -1 else if toNat a = toNat b then 0 else 1
  add1 a l := split a.length (toNat a + l.toNat)
  sub1 a l := splitSub a.length (toNat a) l.toNat
  add a b := split a.length (toNat a + toNat b)
  sub a b := splitSub a.length (toNat a) (toNat b)
  mul a b := limbs (a.length + b.length) (toNat a * toNat b)
  tdivQr a b :=
    (limbs (a.length - b.length + 1) (toNat a / toNat b), limbs b.length (toNat a % toNat b))
  lshift a c := split a.length (toNat a * 2 ^ c)
  rshift a c := (limbs a.length (toNat a / 2 ^ c), 0)

theorem split_spec {n v : Nat} (h : v < 2 ^ (64 * n) * 2 ^ 64) :
    (split n v).1.length = n ∧ toNat (split n v).1 + 2 ^ (64 * n) * (split n v).2.toNat = v := by
  have hq : v / 2 ^ (64 * n) < 2 ^ 64 := Nat.div_lt_of_lt_mul h
  refine ⟨length_limbs n v, ?_⟩
  rw [split, toNat_limbs, UInt64.toNat_ofNat_of_lt' hq]
  exact Nat.mod_add_div v _

theorem splitSub_spec {n a b : Nat} (ha : a < 2 ^ (64 * n)) (hb : b ≤ 2 ^ (64 * n)) :
    (splitSub n a b).1.length = n ∧
      toNat (splitSub n a b).1 + b = a + 2 ^ (64 * n) * (splitSub n a b).2.toNat := by
  unfold splitSub
  split
  next hle =>
    refine ⟨length_limbs _ _, ?_⟩
    rw [toNat_limbs, Nat.mod_eq_of_lt (by omega)]
    simp
    omega
  next hle =>
    refine ⟨length_limbs _ _, ?_⟩
    rw [toNat_limbs, Nat.mod_eq_of_lt (by omega)]
    simp
    omega

/-- A nonempty list has room for a limb. -/
theorem limb_le {a : List UInt64} (ha : a ≠ []) : 2 ^ 64 ≤ 2 ^ (64 * a.length) := by
  have := List.length_pos_iff.mpr ha
  exact Nat.pow_le_pow_right (by decide) (by omega)

theorem pow_le {a b : List UInt64} (h : b.length ≤ a.length) :
    2 ^ (64 * b.length) ≤ 2 ^ (64 * a.length) := Nat.pow_le_pow_right (by decide) (by omega)

theorem Mpn.schoolbook_meets : Mpn.schoolbook.Meets where
  cmp a b _ _ := by
    simp only [Mpn.schoolbook]
    split
    · exact ⟨by simp_all, by simp; omega⟩
    · split
      · exact ⟨by simp_all, by simp_all⟩
      · exact ⟨by simp_all, by simp_all⟩
  add1 a l ha := split_spec (by
    have := toNat_lt a
    have := l.toNat_lt
    have := limb_le ha
    omega)
  sub1 a l ha := splitSub_spec (toNat_lt a) (Nat.le_of_lt (Nat.lt_of_lt_of_le l.toNat_lt (limb_le ha)))
  add a b hab hb := split_spec (by
    have := toNat_lt a
    have := toNat_lt b
    have := pow_le hab
    have : 2 ^ (64 * a.length) * 2 ≤ 2 ^ (64 * a.length) * 2 ^ 64 :=
      Nat.mul_le_mul_left _ (by decide)
    omega)
  sub a b hab hb := splitSub_spec (toNat_lt a) (Nat.le_of_lt (Nat.lt_of_lt_of_le (toNat_lt b)
    (pow_le hab)))
  mul a b _ _ := by
    refine ⟨length_limbs _ _, ?_⟩
    simp only [Mpn.schoolbook]
    rw [toNat_limbs, Nat.mod_eq_of_lt]
    rw [Nat.mul_add, Nat.pow_add]
    exact Nat.mul_lt_mul'' (toNat_lt a) (toNat_lt b)
  tdivQr a b hab hb htop := by
    have hlow := le_toNat (fun l hl h0 => htop (by rw [← h0]; exact hl)) hb
    have hlen := List.length_pos_iff.mpr hb
    have hpos : 0 < toNat b := Nat.lt_of_lt_of_le (Nat.two_pow_pos _) hlow
    refine ⟨length_limbs _ _, length_limbs _ _, ?_, ?_⟩
    · simp only [Mpn.schoolbook]
      rw [toNat_limbs, Nat.mod_eq_of_lt]
      -- The quotient is below the dividend's bound over the divisor's.
      rw [Nat.div_lt_iff_lt_mul hpos]
      calc toNat a < 2 ^ (64 * a.length) := toNat_lt a
        _ = 2 ^ (64 * (a.length - b.length + 1)) * 2 ^ (64 * (b.length - 1)) := by
            rw [← Nat.pow_add]
            congr 1
            omega
        _ ≤ 2 ^ (64 * (a.length - b.length + 1)) * toNat b := Nat.mul_le_mul_left _ hlow
    · simp only [Mpn.schoolbook]
      rw [toNat_limbs, Nat.mod_eq_of_lt]
      exact Nat.lt_trans (Nat.mod_lt _ hpos) (toNat_lt b)
  lshift a c ha _ hc := split_spec (Nat.mul_lt_mul'' (toNat_lt a)
    (Nat.pow_lt_pow_right (by decide) (by omega)))
  rshift a c ha _ _ := by
    refine ⟨length_limbs _ _, ?_⟩
    simp only [Mpn.schoolbook]
    rw [toNat_limbs, Nat.mod_eq_of_lt]
    exact Nat.lt_of_le_of_lt (Nat.div_le_self _ _) (toNat_lt a)

end Enki.Bignum
