import Enki.Lib.LittleEndian
import Mathlib.Data.List.DropRight
import Mathlib.Data.Nat.Bitwise

/-!
# Limb lists

Lists of 64-bit words as numbers, least significant word first: the representation
multi-precision arithmetic works on. Besides the value of a list (`toNat`) there is
its view as bytes in memory order (`toBytes`, `ofBytes`), bit by bit access
(`testBit_toNat`), and the removal of high zero limbs (`trim`).
-/

namespace Limbs

/-- The number a limb list denotes. -/
def toNat : List UInt64 → Nat
  | [] => 0
  | l :: ls => l.toNat + 2 ^ 64 * toNat ls

@[simp] theorem toNat_nil : toNat [] = 0 := rfl

@[simp] theorem toNat_singleton (l : UInt64) : toNat [l] = l.toNat := by simp [toNat]

theorem toNat_lt : ∀ ls, toNat ls < 2 ^ (64 * ls.length)
  | [] => by simp [toNat]
  | l :: ls => by
    have hl := l.toNat_lt
    have ih := toNat_lt ls
    have hpow : 2 ^ (64 * (ls.length + 1)) = 2 ^ 64 * 2 ^ (64 * ls.length) := by
      rw [← Nat.pow_add]
      congr 1
      omega
    simp only [toNat, List.length_cons, hpow]
    omega

theorem toNat_append : ∀ as bs, toNat (as ++ bs) = toNat as + 2 ^ (64 * as.length) * toNat bs
  | [], bs => by simp
  | a :: as, bs => by
    have hpow : 2 ^ (64 * (as.length + 1)) = 2 ^ 64 * 2 ^ (64 * as.length) := by
      rw [← Nat.pow_add]
      congr 1
      omega
    simp only [List.cons_append, toNat, toNat_append as bs, List.length_cons, hpow]
    ring

@[simp] theorem toNat_replicate_zero : ∀ n, toNat (List.replicate n 0) = 0
  | 0 => rfl
  | n + 1 => by simp [List.replicate_succ, toNat, toNat_replicate_zero n]

/-- Lists of one length with one value are equal. -/
theorem toNat_inj : ∀ {as bs : List UInt64}, as.length = bs.length → toNat as = toNat bs → as = bs
  | [], [], _, _ => rfl
  | [], _ :: _, hlen, _ => by simp at hlen
  | _ :: _, [], hlen, _ => by simp at hlen
  | a :: as, b :: bs, hlen, h => by
    have ha := a.toNat_lt
    have hb := b.toNat_lt
    simp only [toNat] at h
    have hlow : a = b := UInt64.toNat_inj.mp (by omega)
    have hhigh : as = bs := toNat_inj (by simpa using hlen) (by omega)
    rw [hlow, hhigh]

/-- Bit `j` is bit `j % 64` of limb `j / 64`. -/
theorem testBit_toNat : ∀ (ls : List UInt64) (j : Nat),
    (toNat ls).testBit j = (ls.getD (j / 64) 0).toNat.testBit (j % 64)
  | [], j => by simp
  | l :: ls, j => by
    rw [toNat, Nat.add_comm, Nat.testBit_two_pow_mul_add _ l.toNat_lt]
    split
    next hj => simp [Nat.div_eq_of_lt hj, Nat.mod_eq_of_lt hj]
    next hj =>
      have hdiv : j / 64 = (j - 64) / 64 + 1 := by omega
      rw [testBit_toNat ls, hdiv, List.getD_cons_succ]
      congr 1
      omega

theorem toNat_take (ls : List UInt64) (k : Nat) :
    toNat (ls.take k) = toNat ls % 2 ^ (64 * k) := by
  by_cases hk : k ≤ ls.length
  · conv_rhs => rw [← List.take_append_drop k ls, toNat_append]
    have hlen : (ls.take k).length = k := by simp [hk]
    have hlt := toNat_lt (ls.take k)
    rw [hlen] at hlt ⊢
    rw [Nat.add_mul_mod_self_left, Nat.mod_eq_of_lt hlt]
  · have hlt := toNat_lt ls
    rw [List.take_of_length_le (by omega), Nat.mod_eq_of_lt]
    exact Nat.lt_of_lt_of_le hlt (Nat.pow_le_pow_right (by decide) (by omega))

theorem toNat_drop (ls : List UInt64) (k : Nat) :
    toNat (ls.drop k) = toNat ls / 2 ^ (64 * k) := by
  by_cases hk : k ≤ ls.length
  · conv_rhs => rw [← List.take_append_drop k ls, toNat_append]
    have hlen : (ls.take k).length = k := by simp [hk]
    have hlt := toNat_lt (ls.take k)
    rw [hlen] at hlt ⊢
    rw [Nat.add_mul_div_left _ _ (Nat.two_pow_pos _), Nat.div_eq_of_lt hlt, Nat.zero_add]
  · have hlt := toNat_lt ls
    rw [List.drop_of_length_le (by omega), toNat_nil, Nat.div_eq_of_lt]
    exact Nat.lt_of_lt_of_le hlt (Nat.pow_le_pow_right (by decide) (by omega))

/-- Limb `i` of the number is limb `i` of the list. -/
theorem getD_toNat (ls : List UInt64) (i : Nat) :
    (ls.getD i 0).toNat = toNat ls / 2 ^ (64 * i) % 2 ^ 64 := by
  have hhead : ∀ ks : List UInt64, (ks.getD 0 0).toNat = toNat ks % 2 ^ 64 := by
    rintro (_ | ⟨k, ks⟩)
    · rfl
    · have := k.toNat_lt
      simp only [toNat, List.getD_cons_zero]
      omega
  rw [← toNat_drop, ← hhead]
  simp

/-- One limb replaced, bit by bit. -/
theorem testBit_toNat_set {ls : List UInt64} {q : Nat} (hq : q < ls.length) (l : UInt64) (j : Nat) :
    (toNat (ls.set q l)).testBit j =
      if j / 64 = q then l.toNat.testBit (j % 64) else (toNat ls).testBit j := by
  rw [testBit_toNat]
  split
  next hj =>
    subst hj
    simp [List.getD_eq_getElem?_getD, List.getElem?_set_self hq]
  next hj => rw [testBit_toNat, List.getD_eq_getElem?_getD, List.getElem?_set_ne (Ne.symm hj),
      List.getD_eq_getElem?_getD]

/-- The last limb cleared. -/
theorem toNat_set_last_lt {ls : List UInt64} {k : Nat} (hk : ls.length = k + 1) :
    toNat (ls.set k 0) < 2 ^ (64 * k) := by
  have hlt := toNat_lt (ls.take k)
  rw [List.length_take, hk, Nat.min_eq_left (Nat.le_succ k)] at hlt
  rw [List.set_eq_take_append_cons_drop, if_pos (by omega), toNat_append,
    List.drop_of_length_le (by omega)]
  simpa using hlt

/-- A list with a nonzero top limb is as long as its value needs. -/
theorem le_toNat {ls : List UInt64} (h : ∀ l ∈ ls.getLast?, l ≠ 0) (hne : ls ≠ []) :
    2 ^ (64 * (ls.length - 1)) ≤ toNat ls := by
  rcases List.eq_nil_or_concat ls with rfl | ⟨init, l, rfl⟩
  · exact absurd rfl hne
  · have hl : l ≠ 0 := h l (by simp)
    have hpos : 0 < l.toNat := Nat.pos_of_ne_zero fun h0 => hl (UInt64.toNat_inj.mp (by simpa using h0))
    rw [List.concat_eq_append, toNat_append, toNat_singleton]
    simp only [List.length_append, List.length_singleton, Nat.add_sub_cancel]
    calc 2 ^ (64 * init.length) = 2 ^ (64 * init.length) * 1 := by rw [Nat.mul_one]
      _ ≤ 2 ^ (64 * init.length) * l.toNat := Nat.mul_le_mul_left _ hpos
      _ ≤ toNat init + 2 ^ (64 * init.length) * l.toNat := Nat.le_add_left _ _

/-- The `n` low limbs of a number. -/
def limbs : Nat → Nat → List UInt64
  | 0, _ => []
  | n + 1, v => UInt64.ofNat v :: limbs n (v / 2 ^ 64)

@[simp] theorem length_limbs : ∀ n v, (limbs n v).length = n
  | 0, _ => rfl
  | n + 1, v => by simp [limbs, length_limbs n]

theorem toNat_limbs : ∀ n v, toNat (limbs n v) = v % 2 ^ (64 * n)
  | 0, v => by simp [limbs, Nat.mod_one]
  | n + 1, v => by
    have hpow : 2 ^ (64 * (n + 1)) = 2 ^ 64 * 2 ^ (64 * n) := by
      rw [← Nat.pow_add]
      congr 1
      omega
    rw [limbs, toNat, toNat_limbs n, UInt64.toNat_ofNat', hpow, Nat.mod_mul]

/-! ## High zero limbs -/

/-- Without high zero limbs. -/
def trim (ls : List UInt64) : List UInt64 := ls.rdropWhile (· == 0)

theorem toNat_trim (ls : List UInt64) : toNat (trim ls) = toNat ls := by
  unfold trim
  induction ls using List.reverseRecOn with
  | nil => rfl
  | append_singleton ls l ih =>
    rw [List.rdropWhile_concat]
    split
    next hl =>
      have hz : l = 0 := by simpa using hl
      rw [ih, hz, toNat_append]
      simp
    next => rfl

theorem trim_top {ls : List UInt64} : ∀ l ∈ (trim ls).getLast?, l ≠ 0 := by
  intro l hl
  obtain ⟨hne, rfl⟩ := List.mem_getLast?_eq_getLast hl
  have hlast := List.rdropWhile_last_not _ _ hne
  simpa [trim] using hlast

theorem length_trim_le (ls : List UInt64) : (trim ls).length ≤ ls.length := by
  have hp := List.rdropWhile_prefix (fun x : UInt64 => x == 0) ls
  exact hp.length_le

/-! ## Bytes -/

/-- The bytes of a limb list in memory order. -/
def toBytes (ls : List UInt64) : List UInt8 := ls.flatMap fun l => LittleEndian.bytes 8 l.toNat

/-- The `n` limbs whose bytes in memory are `bs`. -/
def ofBytes : Nat → List UInt8 → List UInt64
  | 0, _ => []
  | n + 1, bs => UInt64.ofNat (LittleEndian.toNat (bs.take 8)) :: ofBytes n (bs.drop 8)

@[simp] theorem length_ofBytes : ∀ n bs, (ofBytes n bs).length = n
  | 0, _ => rfl
  | n + 1, bs => by simp [ofBytes, length_ofBytes n]

@[simp] theorem length_toBytes (ls : List UInt64) : (toBytes ls).length = 8 * ls.length := by
  induction ls with
  | nil => rfl
  | cons l ls ih =>
    simp only [toBytes, List.flatMap_cons, List.length_append, LittleEndian.length_bytes,
      List.length_cons] at ih ⊢
    omega

theorem toNat_toBytes (ls : List UInt64) : LittleEndian.toNat (toBytes ls) = toNat ls := by
  induction ls with
  | nil => rfl
  | cons l ls ih =>
    have hl : l.toNat < 256 ^ 8 := l.toNat_lt
    rw [toBytes] at ih
    rw [toBytes, List.flatMap_cons, LittleEndian.toNat_append, LittleEndian.length_bytes,
      LittleEndian.toNat_bytes_of_lt hl, ih, toNat]
    norm_num

/-- Limbs read back from memory. -/
theorem toNat_ofBytes : ∀ n bs, toNat (ofBytes n bs) = LittleEndian.toNat bs % 2 ^ (64 * n)
  | 0, bs => by simp [ofBytes, Nat.mod_one]
  | n + 1, bs => by
    have hlt : LittleEndian.toNat bs % 256 ^ 8 < 2 ^ 64 := Nat.mod_lt _ (by decide)
    have hpow : 2 ^ (64 * (n + 1)) = 256 ^ 8 * 2 ^ (64 * n) := by
      rw [Nat.mul_succ, Nat.pow_add, Nat.mul_comm]
      norm_num
    rw [ofBytes, toNat, toNat_ofBytes n, LittleEndian.toNat_drop, LittleEndian.toNat_take,
      UInt64.toNat_ofNat_of_lt' hlt, hpow, Nat.mod_mul]
    norm_num

end Limbs
