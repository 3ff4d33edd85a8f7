import Mathlib.Data.Nat.Log
import Mathlib.Data.List.DropRight
import Mathlib.Tactic.Ring

/-!
# Little-endian base-256 numerals

Byte strings as numbers, least significant byte first, at a fixed width
(`bytes`) and at the minimal width (`byteLen`). The two facts a codec needs
are the round trips `toNat_bytes`/`bytes_toNat` and the characterization of
minimality by the last byte (`byteLen_toNat`, `getLast_bytes_byteLen`).
-/

namespace LittleEndian

/-- The `w` low bytes of `n`, least significant first. -/
def bytes : Nat → Nat → List UInt8
  | 0, _ => []
  | w + 1, n => UInt8.ofNat n :: bytes w (n / 256)

/-- The number a little-endian byte string denotes. -/
def toNat : List UInt8 → Nat
  | [] => 0
  | b :: bs => b.toNat + 256 * toNat bs

@[simp] theorem length_bytes : ∀ w n, (bytes w n).length = w
  | 0, _ => rfl
  | w + 1, n => by simp [bytes, length_bytes w]

@[simp] theorem bytes_zero (n : Nat) : bytes 0 n = [] := rfl

@[simp] theorem toNat_nil : toNat [] = 0 := rfl

theorem toNat_lt : ∀ bs, toNat bs < 256 ^ bs.length
  | [] => by simp [toNat]
  | b :: bs => by
    have hb := b.toNat_lt
    have ih := toNat_lt bs
    simp only [toNat, List.length_cons, Nat.pow_succ]
    omega

theorem toNat_bytes : ∀ w n, toNat (bytes w n) = n % 256 ^ w
  | 0, n => by simp [Nat.mod_one]
  | w + 1, n => by
    have hbyte : (UInt8.ofNat n).toNat = n % 256 := UInt8.toNat_ofNat'
    simp only [bytes, toNat, toNat_bytes w, hbyte]
    rw [Nat.pow_succ 256 w, Nat.mul_comm (256 ^ w) 256, Nat.mod_mul]

theorem toNat_bytes_of_lt {w n : Nat} (h : n < 256 ^ w) : toNat (bytes w n) = n := by
  rw [toNat_bytes, Nat.mod_eq_of_lt h]

theorem bytes_toNat : ∀ bs, bytes bs.length (toNat bs) = bs
  | [] => rfl
  | b :: bs => by
    have hb := b.toNat_lt
    have hlow : UInt8.ofNat (b.toNat + 256 * toNat bs) = b := by
      apply UInt8.toNat_inj.mp
      rw [UInt8.toNat_ofNat']
      omega
    have hhigh : (b.toNat + 256 * toNat bs) / 256 = toNat bs := by omega
    simp only [List.length_cons, bytes, toNat, hlow, hhigh, bytes_toNat bs]

theorem toNat_append : ∀ as bs, toNat (as ++ bs) = toNat as + 256 ^ as.length * toNat bs
  | [], bs => by simp [toNat]
  | a :: as, bs => by
    simp only [List.cons_append, toNat, toNat_append as bs, List.length_cons, Nat.pow_succ]
    ring

theorem toNat_take (bs : List UInt8) (k : Nat) : toNat (bs.take k) = toNat bs % 256 ^ k := by
  by_cases hk : k ≤ bs.length
  · conv_rhs => rw [← List.take_append_drop k bs, toNat_append]
    have hlen : (bs.take k).length = k := by simp [hk]
    have hlt := toNat_lt (bs.take k)
    rw [hlen] at hlt ⊢
    rw [Nat.add_mul_mod_self_left, Nat.mod_eq_of_lt hlt]
  · have hlt := toNat_lt bs
    rw [List.take_of_length_le (by omega), Nat.mod_eq_of_lt]
    exact Nat.lt_of_lt_of_le hlt (Nat.pow_le_pow_right (by decide) (by omega))

theorem toNat_drop (bs : List UInt8) (k : Nat) : toNat (bs.drop k) = toNat bs / 256 ^ k := by
  by_cases hk : k ≤ bs.length
  · conv_rhs => rw [← List.take_append_drop k bs, toNat_append]
    have hlen : (bs.take k).length = k := by simp [hk]
    have hlt := toNat_lt (bs.take k)
    rw [hlen] at hlt ⊢
    rw [Nat.add_mul_div_left _ _ (Nat.pow_pos (by decide)), Nat.div_eq_of_lt hlt, Nat.zero_add]
  · have hlt := toNat_lt bs
    rw [List.drop_of_length_le (by omega), toNat_nil, Nat.div_eq_of_lt]
    exact Nat.lt_of_lt_of_le hlt (Nat.pow_le_pow_right (by decide) (by omega))

/-- Byte `i` of the number is byte `i` of the string. -/
theorem getD_eq (bs : List UInt8) (i : Nat) : bs.getD i 0 = UInt8.ofNat (toNat bs / 256 ^ i) := by
  have hhead : ∀ cs : List UInt8, cs.getD 0 0 = UInt8.ofNat (toNat cs) := by
    rintro (_ | ⟨c, cs⟩)
    · rfl
    · apply UInt8.toNat_inj.mp
      have := c.toNat_lt
      simp only [toNat, List.getD_cons_zero, UInt8.toNat_ofNat']
      omega
  rw [← toNat_drop, ← hhead]
  simp

/-- High zero bytes do not count. -/
theorem toNat_rdropWhile (bs : List UInt8) : toNat (bs.rdropWhile (· == 0)) = toNat bs := by
  induction bs using List.reverseRecOn with
  | nil => rfl
  | append_singleton bs b ih =>
    rw [List.rdropWhile_concat]
    split
    next hb =>
      have hz : b = 0 := by simpa using hb
      rw [ih, hz, toNat_append]
      simp [toNat]
    next => rfl

theorem bytes_add : ∀ a b n, bytes (a + b) n = bytes a n ++ bytes b (n / 256 ^ a)
  | 0, b, n => by simp
  | a + 1, b, n => by
    rw [show a + 1 + b = (a + b) + 1 from by omega]
    simp only [bytes, bytes_add a b, List.cons_append]
    rw [Nat.div_div_eq_div_mul, Nat.pow_succ, Nat.mul_comm 256]

theorem bytes_eq_map_range : ∀ w n,
    bytes w n = (List.range w).map fun i => UInt8.ofNat (n / 256 ^ i)
  | 0, _ => rfl
  | w + 1, n => by
    rw [bytes_add w 1, List.range_succ, List.map_append, bytes_eq_map_range w n]
    rfl

/-! ## Minimal width -/

/-- Number of significant bits. -/
def bitLen (n : Nat) : Nat := if n = 0 then 0 else n.log2 + 1

/-- Number of significant bytes; zero for zero. -/
def byteLen (n : Nat) : Nat := (bitLen n + 7) / 8

theorem bitLen_le_iff {n k : Nat} : bitLen n ≤ k ↔ n < 2 ^ k := by
  unfold bitLen
  split
  · next h => simp [h]
  · next h => rw [Nat.succ_le_iff, Nat.log2_lt h]

theorem byteLen_le_iff {n w : Nat} : byteLen n ≤ w ↔ n < 256 ^ w := by
  have h : (256 : Nat) ^ w = 2 ^ (8 * w) := by rw [Nat.pow_mul]
  rw [h, ← bitLen_le_iff, byteLen]
  omega

theorem lt_pow_byteLen (n : Nat) : n < 256 ^ byteLen n :=
  byteLen_le_iff.1 (Nat.le_refl _)

theorem byteLen_eq_zero_iff {n : Nat} : byteLen n = 0 ↔ n = 0 := by
  rw [← Nat.le_zero, byteLen_le_iff]
  simp

theorem byteLen_eq_succ_iff {n w : Nat} :
    byteLen n = w + 1 ↔ 256 ^ w ≤ n ∧ n < 256 ^ (w + 1) := by
  rw [← byteLen_le_iff]
  constructor
  · intro h
    refine ⟨?_, by omega⟩
    by_contra hlt
    have := byteLen_le_iff.2 (Nat.lt_of_not_le hlt)
    omega
  · rintro ⟨hlo, hhi⟩
    by_contra hne
    have hw : byteLen n ≤ w := by omega
    exact absurd (byteLen_le_iff.1 hw) (Nat.not_lt.mpr hlo)

/-- A byte string ending in a nonzero byte is the minimal numeral of its value. -/
theorem byteLen_toNat_concat (bs : List UInt8) (b : UInt8) (hb : b ≠ 0) :
    byteLen (toNat (bs ++ [b])) = (bs ++ [b]).length := by
  have hpos : 0 < b.toNat := by
    rcases Nat.eq_zero_or_pos b.toNat with h | h
    · exact absurd (UInt8.toNat_inj.mp (by simpa using h)) hb
    · exact h
  have hlt := toNat_lt (bs ++ [b])
  simp only [List.length_append, List.length_singleton] at hlt ⊢
  refine byteLen_eq_succ_iff.2 ⟨?_, hlt⟩
  rw [toNat_append]
  simp only [toNat, Nat.mul_zero, Nat.add_zero]
  calc 256 ^ bs.length = 256 ^ bs.length * 1 := by rw [Nat.mul_one]
    _ ≤ 256 ^ bs.length * b.toNat := Nat.mul_le_mul_left _ hpos
    _ ≤ toNat bs + 256 ^ bs.length * b.toNat := Nat.le_add_left _ _

theorem byteLen_toNat {bs : List UInt8} (h : bs.getLast? ≠ some 0) :
    byteLen (toNat bs) = bs.length := by
  rcases List.eq_nil_or_concat bs with rfl | ⟨init, b, rfl⟩
  · rfl
  · simp only [List.concat_eq_append] at h ⊢
    exact byteLen_toNat_concat init b (by simpa using h)

/-- The minimal numeral of a nonzero number ends in a nonzero byte. -/
theorem getLast_bytes_byteLen {n : Nat} (h : n ≠ 0) :
    ∃ b, (bytes (byteLen n) n).getLast? = some b ∧ b ≠ 0 := by
  obtain ⟨w, hw⟩ := Nat.exists_eq_succ_of_ne_zero (mt byteLen_eq_zero_iff.1 h)
  obtain ⟨hlo, hhi⟩ := byteLen_eq_succ_iff.1 hw
  have hq : n / 256 ^ w < 256 := by
    rw [Nat.div_lt_iff_lt_mul (Nat.pow_pos (by decide))]
    simpa [Nat.pow_succ, Nat.mul_comm] using hhi
  have hq0 : 0 < n / 256 ^ w := Nat.div_pos hlo (Nat.pow_pos (by decide))
  refine ⟨UInt8.ofNat (n / 256 ^ w), ?_, ?_⟩
  · rw [hw, Nat.succ_eq_add_one, bytes_add w 1]
    simp [bytes]
  · intro h0
    have := congrArg UInt8.toNat h0
    rw [UInt8.toNat_ofNat'] at this
    simp at this
    omega

end LittleEndian
