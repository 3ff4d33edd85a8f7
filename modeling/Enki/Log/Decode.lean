import Enki.Bignum.Bits
import Enki.Log.Format

/-!
# Event log formats: reading

What the readers of the formats return: a position in the data is a prefix of it
(`At`), a word or a field is there or it is not, and naturals and values on the stack
come out as they were written. A computation that does not misuse its input
(`Checked`) returns or fails an assertion.
-/

namespace Enki.Log

open Bignum NatVal

/-! ## Outcomes -/

/-- An assertion failed. -/
def Refused {α : Type} (x : Except Stop α) : Prop := ∃ msg, x = .error (.assume msg)

section

variable {α β : Type} {x : Except Stop α} {f : α → Except Stop β}

theorem Refused.bind (h : Refused x) (f : α → Except Stop β) : Refused (x >>= f) := by
  obtain ⟨msg, rfl⟩ := h
  exact ⟨msg, rfl⟩

theorem Refused.not_ok {a : α} (h : Refused x) : x ≠ .ok a := by
  obtain ⟨msg, rfl⟩ := h
  exact fun hk => by cases hk

theorem Refused.not_misuse {name : String} (h : Refused x) : x ≠ .error (.misuse name) := by
  obtain ⟨msg, rfl⟩ := h
  exact fun hk => by cases hk

theorem assume_true {c : Bool} {msg : String} {k : Unit → Except Stop β} (hc : c = true) :
    (assume c msg >>= k) = k () := by
  rw [Bignum.assume, if_pos hc]
  rfl

theorem assume_false {c : Bool} {msg : String} {k : Unit → Except Stop β} (hc : c = false) :
    Refused (assume c msg >>= k) := by
  rw [Bignum.assume, if_neg (by simp [hc])]
  exact ⟨msg, rfl⟩

theorem bind_ok {a : α} (h : x = .ok a) : (x >>= f) = f a := by
  rw [h]
  rfl

theorem bind_misuse {name : String} (h : x = .error (.misuse name)) :
    (x >>= f) = .error (.misuse name) := by
  rw [h]
  rfl

end

/-! ## Words and fields -/

@[simp] theorem length_le64 (w : UInt64) : (le64 w).length = 8 := LittleEndian.length_bytes 8 _

@[simp] theorem length_field (b : List UInt8) : (field b).length = 8 + b.length := by simp [field]

theorem toNat_le64 (w : UInt64) : LittleEndian.toNat (le64 w) = w.toNat :=
  LittleEndian.toNat_bytes_of_lt w.toNat_lt

/-- Eight bytes are a word. -/
theorem eq_le64 {rest : List UInt8} (h : 8 ≤ rest.length) :
    rest = le64 (UInt64.ofNat (LittleEndian.toNat (rest.take 8))) ++ rest.drop 8 := by
  have hlen : (rest.take 8).length = 8 := by simp [h]
  have hlt := LittleEndian.toNat_lt (rest.take 8)
  rw [hlen] at hlt
  have hword : le64 (UInt64.ofNat (LittleEndian.toNat (rest.take 8))) = rest.take 8 := by
    rw [le64, UInt64.toNat_ofNat_of_lt' hlt]
    conv_rhs => rw [← LittleEndian.bytes_toNat (rest.take 8), hlen]
  rw [hword, List.take_append_drop]

/-- `rest` is what lies behind position `p` of `d`. -/
def At (d : List UInt8) (p : Nat) (rest : List UInt8) : Prop :=
  ∃ pre, d = pre ++ rest ∧ p = pre.length

namespace At

variable {d rest b : List UInt8} {p : Nat}

theorem length (h : At d p rest) : p + rest.length = d.length := by
  obtain ⟨pre, rfl, rfl⟩ := h
  simp

theorem start (d : List UInt8) : At d 0 d := ⟨[], rfl, rfl⟩

theorem skip (h : At d p (b ++ rest)) : At d (p + b.length) rest := by
  obtain ⟨pre, rfl, rfl⟩ := h
  exact ⟨pre ++ b, by simp, by simp⟩

theorem of_le (h : p ≤ d.length) : At d p (d.drop p) :=
  ⟨d.take p, (List.take_append_drop p d).symm, by simp [h]⟩

theorem read (h : At d p (b ++ rest)) : readAt d p b.length = .ok b := by
  obtain ⟨pre, rfl, rfl⟩ := h
  simp [readAt, guarded]

theorem word {w : UInt64} (h : At d p (le64 w ++ rest)) : wordAt d p = .ok w := by
  have hread := h.read
  rw [length_le64] at hread
  unfold wordAt
  rw [bind_ok hread, toNat_le64]
  exact congrArg Except.ok UInt64.ofNat_toNat

theorem byte {c : UInt8} (h : At d p (c :: rest)) : byteAt d p = .ok c := by
  have hread : readAt d p 1 = .ok [c] := At.read (b := [c]) h
  unfold byteAt
  rw [bind_ok hread]
  rfl

end At

/-! ## Naturals -/

/-- Canonical naturals with one value are equal. -/
theorem eq_of_val_eq {a b : NatVal} (ha : a.Canonical) (hb : b.Canonical) (h : a.val = b.val) :
    a = b := by
  have hkind : a.isNat63 = b.isNat63 := by
    rw [Bool.eq_iff_iff, ha.direct_iff, hb.direct_iff, h]
  cases a with
  | direct x =>
    cases b with
    | direct y => exact congrArg _ (UInt64.toNat_inj.mp (by simpa using h))
    | boxed ls => cases hkind
  | boxed ks =>
    cases b with
    | direct y => cases hkind
    | boxed ls =>
      -- Neither is longer than the other.
      have hlen : ks.length = ls.length := by
        by_contra hne
        rcases Nat.lt_or_gt_of_ne hne with hlt | hgt
        · exact absurd h (Nat.ne_of_lt (hb.lt_of_limbLen_lt (a := .boxed ks) hlt))
        · exact absurd h (Nat.ne_of_gt (ha.lt_of_limbLen_lt (a := .boxed ls) hgt))
      exact congrArg _ (Limbs.toNat_inj hlen h)

@[simp] theorem length_natBytes (v : NatVal) : (natBytes v).length = v.byteLen := by simp [natBytes]

theorem natBytes_eq {v : NatVal} (hv : v.Canonical) :
    natBytes v = LittleEndian.bytes (LittleEndian.byteLen v.val) v.val := by
  rw [LittleEndian.bytes_eq_map_range, natBytes, byteLen_spec hv]
  exact List.map_congr_left fun i _ => byteAt_spec v i

theorem toNat_natBytes {v : NatVal} (hv : v.Canonical) : LittleEndian.toNat (natBytes v) = v.val := by
  rw [natBytes_eq hv]
  exact LittleEndian.toNat_bytes_of_lt (LittleEndian.lt_pow_byteLen v.val)

theorem byteLen_le {v : NatVal} (hv : v.Canonical) : v.byteLen ≤ 8 * v.limbLen := by
  rw [byteLen_spec hv, LittleEndian.byteLen_le_iff, show (256 : Nat) = 2 ^ 8 from rfl, ← Nat.pow_mul,
    ← Nat.mul_assoc]
  exact val_lt v

/-- The longest byte string that `pl_nat_from_bytes` takes. -/
def natMax : Nat := 8 * (limbMax - 1)

section

variable {stale : Nat → UInt64} {b : List UInt8}

/-- The high zero bytes of a string do not count. -/
theorem fromBytes_cases (stale : Nat → UInt64) (b : List UInt8) :
    ((b.rdropWhile (· == 0)).length ≤ natMax ∧
      ∃ v : NatVal, fromBytes stale b = .ok v ∧ v.Canonical ∧ v.val = LittleEndian.toNat b) ∨
    (¬ (b.rdropWhile (· == 0)).length ≤ natMax ∧ Refused (fromBytes stale b)) := by
  have hmax : natMax = 8388600 := rfl
  have hlimb : limbMax = 1048576 := rfl
  by_cases h : (b.rdropWhile (· == 0)).length ≤ natMax
  · exact .inl ⟨h, fromBytes_spec (by omega)⟩
  · refine .inr ⟨h, ?_⟩
    unfold fromBytes
    dsimp only
    rw [if_neg (by omega), if_neg (by omega)]
    exact Refused.bind ⟨"nat limb count out of range", if_neg (by omega)⟩ _

end

/-! ## Well-formed values -/

/-- Naturals are canonical and applications have arguments, no more than fit in a header. -/
inductive Obj.WF : Obj → Prop
  | nat {v : NatVal} : v.Canonical → WF (.nat v)
  | pin {o : Obj} : WF o → WF (.pin o)
  | app {head : NatVal} {args : List Obj} : head.Canonical → args ≠ [] → args.length + 2 < 2 ^ 32 →
    (∀ a ∈ args, WF a) → WF (.app head args)

theorem canonical_zero : (NatVal.direct 0).Canonical := canonical_direct.2 (by simp)

/-- A row of a few well-formed values. -/
theorem Obj.WF.row {args : List Obj} (hne : args ≠ []) (hlen : args.length + 2 < 2 ^ 32)
    (h : ∀ a ∈ args, a.WF) : (Obj.app (.direct 0) args).WF := .app canonical_zero hne hlen h

/-! ## The stack -/

section

variable {room : Nat} {vs : List Obj} {v : Obj}

theorem vpush_ok (h : vs.length < room) : vpush room vs v = .ok (vs ++ [v]) := by
  have hroom : decide (vs.length + 1 ≤ room) = true := decide_eq_true h
  unfold vpush vroom
  rw [assume_true hroom]
  rfl

theorem vpush_full (h : ¬ vs.length < room) : Refused (vpush room vs v) :=
  assume_false (decide_eq_false h)

theorem vroom_ok {β : Type} {used n : Nat} {k : Unit → Except Stop β} (h : used + n ≤ room) :
    (vroom room used n >>= k) = k () := assume_true (decide_eq_true h)

theorem vroom_full {β : Type} {used n : Nat} {k : Unit → Except Stop β} (h : ¬ used + n ≤ room) :
    Refused (vroom room used n >>= k) := assume_false (decide_eq_false h)

theorem mkAppFrom_ok {head : NatVal} {args : List Obj} (h : args ≠ []) :
    mkAppFrom head args = .ok (.app head args) := by
  have hpos : decide (args.length ≥ 1) = true := decide_eq_true (List.length_pos_iff.mpr h)
  unfold mkAppFrom
  rw [assume_true hpos]
  rfl

end

end Enki.Log
