import Mathlib.Algebra.Ring.Nat
import Mathlib.Data.Nat.Digits.Defs

/-!
# Numbers as text

The digit loops of `axsys/sb.h`. One loop counts the digits of a number, another
emits them: it fills `tmp[64]` from the last digit and copies that backwards. Both
agree with `numeral`, the digits in a base from the most significant one on.

A destination is a list of bytes, and a write past its end is undefined: `none`.
-/

namespace Enki.Axsys.Sb

/-! ## What is written -/

/-- The character of a digit below 36. -/
def digitByte (uppercase : Bool) (d : Nat) : UInt8 :=
  if d < 10 then UInt8.ofNat (48 + d)
  else UInt8.ofNat ((if uppercase then 65 else 97) + (d - 10))

/-- A number in a base. -/
def numeral (base : Nat) (uppercase : Bool) (n : Nat) : List UInt8 :=
  if n = 0 then [digitByte uppercase 0]
  else (Nat.digits base n).reverse.map (digitByte uppercase)

/-- A signed number in base ten. -/
def signed (v : Int) : List UInt8 :=
  (if v < 0 then [45] else []) ++ numeral 10 false v.natAbs

/-! ## The loops -/

/-- `while (value >= base) { value /= base; ++n; }`, at most `fuel` times. -/
def u64LenLoop : Nat → Nat → Nat → Nat → Option Nat
  | 0, _, _, _ => none
  | fuel + 1, value, base, n =>
    if base ≤ value then u64LenLoop fuel (value / base) base (n + 1) else some n

/-- `ax_sb__u64_len`. -/
def u64Len (value : UInt64) (base : Nat) : Option Nat := u64LenLoop 64 value.toNat base 1

/-- The two digit strings. -/
def digits (uppercase : Bool) : List UInt8 :=
  (if uppercase then "0123456789ABCDEFGHIJKLMNOPQRSTUVWXYZ"
    else "0123456789abcdefghijklmnopqrstuvwxyz").toList.map fun c => UInt8.ofNat c.toNat

/-- `do { tmp[n++] = digits[value % base]; value /= base; } while (value);` where `tmp`
has room for `room` more. -/
def digitLoop : Nat → Nat → Nat → Bool → List UInt8 → Option (List UInt8)
  | 0, _, _, _, _ => none
  | room + 1, value, base, uppercase, tmp => do
    let c ← (digits uppercase)[value % base]?
    if value / base = 0 then some (tmp ++ [c])
    else digitLoop room (value / base) base uppercase (tmp ++ [c])

/-- `*p = c`. -/
def store (dst : List UInt8) (p : Nat) (c : UInt8) : Option (List UInt8) :=
  if p < dst.length then some (dst.set p c) else none

/-- `while (n) *dst++ = tmp[--n];` -/
def flush : List UInt8 → Nat → List UInt8 → Nat → Option (List UInt8 × Nat)
  | dst, p, _, 0 => some (dst, p)
  | dst, p, tmp, n + 1 => do
    let c ← tmp[n]?
    let dst ← store dst p c
    flush dst (p + 1) tmp n

/-- `ax_sb__emit_u64`. -/
def emitU64 (dst : List UInt8) (p : Nat) (value : UInt64) (base : Nat) (uppercase : Bool) :
    Option (List UInt8 × Nat) := do
  let tmp ← digitLoop 64 value.toNat base uppercase []
  flush dst p tmp tmp.length

/-- `ax_sb__abs_i64_to_u64`. -/
def absI64ToU64 (value : Int64) : UInt64 :=
  if value < 0 then (-(value + 1)).toUInt64 + 1 else value.toUInt64

/-- `ax_sb__i64_len`. -/
def i64Len (value : Int64) : Option Nat := do
  let n ← u64Len (absI64ToU64 value) 10
  return if value < 0 then n + 1 else n

/-- `ax_sb__emit_i64`. -/
def emitI64 (dst : List UInt8) (p : Nat) (value : Int64) : Option (List UInt8 × Nat) := do
  if value < 0 then
    let dst ← store dst p 45
    emitU64 dst (p + 1) (absI64ToU64 value) 10 false
  else emitU64 dst p (absI64ToU64 value) 10 false

/-! ## The loops agree with the numerals -/

theorem numeral_pos {base n : Nat} (hbase : 2 ≤ base) (uppercase : Bool) :
    numeral base uppercase n =
      (if n < base then [] else numeral base uppercase (n / base)) ++
        [digitByte uppercase (n % base)] := by
  unfold numeral
  rcases Nat.eq_zero_or_pos n with rfl | hn
  · rw [if_pos rfl, if_pos (by omega), Nat.zero_mod, List.nil_append]
  · rw [if_neg hn.ne', Nat.digits_def' (by omega) hn, List.reverse_cons, List.map_append]
    by_cases hlt : n < base
    · rw [if_pos hlt, Nat.div_eq_of_lt hlt, Nat.digits_zero]
      rfl
    · rw [if_neg hlt, if_neg (Nat.div_pos (Nat.not_lt.mp hlt) (by omega)).ne']
      rfl

theorem digits_get {d : Nat} (uppercase : Bool) (hd : d < 36) :
    (digits uppercase)[d]? = some (digitByte uppercase d) := by
  have h : ∀ u : Bool, ∀ d < 36, (digits u)[d]? = some (digitByte u d) := by decide
  exact h uppercase d hd

variable {base : Nat}

/-- The number of digits that are left bounds the rounds that are left. -/
theorem u64LenLoop_eq (hbase : 2 ≤ base) (uppercase : Bool) :
    ∀ {fuel value n : Nat}, value < base ^ (fuel + 1) →
      u64LenLoop (fuel + 1) value base n =
        some (n + (numeral base uppercase value).length - 1) := by
  intro fuel
  induction fuel with
  | zero =>
    intro value n hv
    rw [pow_one] at hv
    rw [u64LenLoop, if_neg (by omega), numeral_pos hbase, if_pos hv]
    simp
  | succ fuel ih =>
    intro value n hv
    rw [u64LenLoop]
    by_cases hle : base ≤ value
    · have hdiv : value / base < base ^ (fuel + 1) := by
        rw [Nat.div_lt_iff_lt_mul (by omega), ← pow_succ]
        exact hv
      rw [if_pos hle, ih hdiv, numeral_pos (n := value) hbase, if_neg (by omega)]
      simp
    · rw [if_neg hle, numeral_pos hbase, if_pos (by omega)]
      simp

theorem pow_bound (hbase : 2 ≤ base) (value : UInt64) : value.toNat < base ^ 64 :=
  value.toNat_lt.trans_le (Nat.pow_le_pow_left hbase 64)

theorem u64Len_eq (hbase : 2 ≤ base) (uppercase : Bool) (value : UInt64) :
    u64Len value base = some (numeral base uppercase value.toNat).length := by
  rw [u64Len, u64LenLoop_eq hbase uppercase (pow_bound hbase value)]
  congr 1
  omega

theorem digitLoop_eq (hbase : 2 ≤ base) (hmax : base ≤ 36) (uppercase : Bool) :
    ∀ {room value : Nat} {tmp : List UInt8}, value < base ^ (room + 1) →
      digitLoop (room + 1) value base uppercase tmp =
        some (tmp ++ (numeral base uppercase value).reverse) := by
  have hdigit (value : Nat) : (digits uppercase)[value % base]? =
      some (digitByte uppercase (value % base)) :=
    digits_get uppercase ((Nat.mod_lt value (by omega)).trans_le hmax)
  intro room
  induction room with
  | zero =>
    intro value tmp hv
    rw [pow_one] at hv
    rw [digitLoop, hdigit, Option.bind_eq_bind, Option.bind_some, if_pos (Nat.div_eq_of_lt hv),
      numeral_pos hbase, if_pos hv]
    rfl
  | succ room ih =>
    intro value tmp hv
    rw [digitLoop, hdigit, Option.bind_eq_bind, Option.bind_some, numeral_pos hbase]
    by_cases hlt : value < base
    · rw [if_pos (Nat.div_eq_of_lt hlt), if_pos hlt]
      rfl
    · have hdiv : value / base < base ^ (room + 1) := by
        rw [Nat.div_lt_iff_lt_mul (by omega), ← pow_succ]
        exact hv
      rw [if_neg (Nat.div_pos (Nat.not_lt.mp hlt) (by omega)).ne', if_neg hlt, ih hdiv]
      simp

/-! ## Writing -/

/-- `done` was written; a byte goes after it. -/
theorem store_append (done rest : List UInt8) (c d : UInt8) :
    store (done ++ d :: rest) done.length c = some (done ++ c :: rest) := by
  rw [store, if_pos (by simp), List.set_append_right _ _ le_rfl]
  simp

theorem flush_append (tmp : List UInt8) :
    ∀ {n : Nat} {done rest : List UInt8}, n ≤ tmp.length → n ≤ rest.length →
      flush (done ++ rest) done.length tmp n =
        some (done ++ (tmp.take n).reverse ++ rest.drop n, done.length + n) := by
  intro n
  induction n with
  | zero =>
    intro done rest _ _
    simp [flush]
  | succ n ih =>
    intro done rest htmp hrest
    obtain ⟨d, rest, rfl⟩ := List.exists_cons_of_length_pos (Nat.lt_of_lt_of_le n.succ_pos hrest)
    have hlt : n < tmp.length := htmp
    rw [flush, List.getElem?_eq_getElem hlt, Option.bind_eq_bind, Option.bind_some, store_append,
      Option.bind_eq_bind, Option.bind_some]
    have hstep := @ih (done ++ [tmp[n]]) rest hlt.le (Nat.le_of_succ_le_succ hrest)
    rw [List.append_assoc, List.length_append, List.length_singleton, List.singleton_append]
      at hstep
    rw [hstep, List.take_add_one, List.getElem?_eq_getElem hlt, Option.toList_some,
      List.reverse_append]
    simp [Nat.add_assoc, Nat.add_comm 1]

/-- The digits go after what was written. -/
theorem emitU64_append (hbase : 2 ≤ base) (hmax : base ≤ 36) (value : UInt64)
    (uppercase : Bool) {done rest : List UInt8}
    (hroom : (numeral base uppercase value.toNat).length ≤ rest.length) :
    emitU64 (done ++ rest) done.length value base uppercase =
      some (done ++ numeral base uppercase value.toNat ++
        rest.drop (numeral base uppercase value.toNat).length,
        done.length + (numeral base uppercase value.toNat).length) := by
  rw [emitU64, digitLoop_eq hbase hmax uppercase (pow_bound hbase value), Option.bind_eq_bind,
    Option.bind_some, List.nil_append, flush_append _ le_rfl (by rwa [List.length_reverse]),
    List.take_length, List.reverse_reverse, List.length_reverse]

theorem absI64ToU64_toNat (value : Int64) : (absI64ToU64 value).toNat = value.toInt.natAbs := by
  have hlo := value.le_toInt
  have hhi := value.toInt_lt
  have hbits : (value.toBitVec.toNat : Int) =
      if value.toInt < 0 then value.toInt + 2 ^ 64 else value.toInt := by
    have := BitVec.toInt_eq_toNat_cond value.toBitVec
    rw [Int64.toInt_toBitVec] at this
    split <;> split at this <;> omega
  rw [absI64ToU64]
  split
  · next h =>
    have h' : value.toInt < 0 := Int64.lt_iff_toInt_lt.mp h
    rw [if_pos h'] at hbits
    have hneg : (-(value + 1)).toUInt64.toBitVec = -(value.toBitVec + 1#64) := by
      rw [Int64.toBitVec_toUInt64, Int64.toBitVec_neg, Int64.toBitVec_add, Int64.toBitVec_one]
    rw [← UInt64.toNat_toBitVec, UInt64.toBitVec_add, hneg]
    simp
    bv_omega
  · next h =>
    have h' : ¬value.toInt < 0 := fun hn => h (Int64.lt_iff_toInt_lt.mpr hn)
    rw [if_neg h'] at hbits
    have hsame : value.toUInt64.toNat = value.toBitVec.toNat := rfl
    omega

theorem i64Len_eq (value : Int64) : i64Len value = some (signed value.toInt).length := by
  rw [i64Len, u64Len_eq (by decide) false, absI64ToU64_toNat, Option.bind_eq_bind,
    Option.bind_some, signed]
  by_cases h : value < 0
  · have h' : value.toInt < 0 := Int64.lt_iff_toInt_lt.mp h
    simp [h, h', Nat.add_comm]
  · have h' : ¬value.toInt < 0 := fun hn => h (Int64.lt_iff_toInt_lt.mpr hn)
    simp [h, h']

theorem emitI64_append (value : Int64) {done rest : List UInt8}
    (hroom : (signed value.toInt).length ≤ rest.length) :
    emitI64 (done ++ rest) done.length value =
      some (done ++ signed value.toInt ++ rest.drop (signed value.toInt).length,
        done.length + (signed value.toInt).length) := by
  rw [emitI64]
  by_cases h : value < 0
  · have h' : value.toInt < 0 := Int64.lt_iff_toInt_lt.mp h
    rw [signed, if_pos h', List.length_append, List.length_singleton] at *
    obtain ⟨d, rest, rfl⟩ := List.exists_cons_of_length_pos (l := rest) (by omega)
    rw [if_pos h, store_append, Option.bind_eq_bind, Option.bind_some]
    have hfits : (numeral 10 false (absI64ToU64 value).toNat).length ≤ rest.length := by
      rw [absI64ToU64_toNat]
      rw [List.length_cons] at hroom
      omega
    have hemit := @emitU64_append 10 (by decide) (by decide) (absI64ToU64 value) false
      (done ++ [45]) rest hfits
    rw [List.append_assoc, List.length_append, List.length_singleton, List.singleton_append,
      absI64ToU64_toNat] at hemit
    rw [hemit, Nat.add_assoc, Nat.add_comm 1, List.drop_succ_cons, List.append_assoc done]
  · have h' : ¬value.toInt < 0 := fun hn => h (Int64.lt_iff_toInt_lt.mpr hn)
    rw [signed, if_neg h', List.nil_append] at *
    rw [if_neg h, emitU64_append (by decide) (by decide) _ _ (by rwa [absI64ToU64_toNat]),
      absI64ToU64_toNat]

end Enki.Axsys.Sb
