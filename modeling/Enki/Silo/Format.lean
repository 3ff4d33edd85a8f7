import Enki.Lib.LittleEndian
import Enki.Lib.OpeningSchedule
import Enki.Value

/-!
# The Silo wire format: scalars, hashes and the page tree

Constants and leaf functions of `silo.c` shared by the writer and the reader:
minimal widths, the split of the Merkle-paged natural (MNAT) into subtrees, the
three domain-separated hashes and the page checksum. SHA-256 is the parameter
`sha256`, a function from byte strings to 32-byte hashes.
-/

namespace Enki.Silo

open LittleEndian

/-- `PL_SILO_MAX_DEPTH`. -/
def maxDepth : Nat := 4096

/-- `PL_SILO_MAX_PIN_COUNT`, which is `PL_HDR_META_MAX`. -/
def maxPinCount : Nat := 0xFFFFF

/-- `PL_SILO_MAX_NAT_BYTES`. -/
def maxNatBytes : Nat := maxPinCount * 8

/-- `PL_SILO_LEAF_BYTES`. -/
def leafBytes : Nat := 1024

/-- `PL_SILO_PAGE_BYTES`. -/
def pageBytes : Nat := 65536

/-- `PL_SILO_NAT_CUTOVER`. -/
def natCutover : Nat := 8192

/-- `PL_NAT63_MAX`. -/
def nat63Max : Nat := 0x7fffffffffffffff

/-- `UINT64_MAX`. -/
def uint64Max : Nat := 0xffffffffffffffff

/-- `silo_magic`. -/
def siloMagic : List UInt8 := [0x53, 0x49, 0x4c, 0x4f, 1]

/-- `pl_nat_byte_at`. -/
def natByteAt (v i : Nat) : UInt8 := UInt8.ofNat (v / 256 ^ i)

/-- Bytes `off, …, off + n - 1` of a natural. -/
def natByteRange (v off n : Nat) : List UInt8 :=
  (List.range n).map fun i => natByteAt v (off + i)

/-- The `do … while` of `width_u64`; eight rounds exhaust a `uint64_t`. -/
def widthLoop : Nat → Nat → Nat
  | 0, _ => 0
  | fuel + 1, v => 1 + if v / 256 = 0 then 0 else widthLoop fuel (v / 256)

/-- `width_u64`: bytes of a minimal scalar, at least one. -/
def widthU64 (v : Nat) : Nat := widthLoop 8 v

/-- The loop of `split_power`. -/
def splitLoop (n k : Nat) : Nat :=
  if 0 < k ∧ k ≤ (n - 1) / 2 then splitLoop n (2 * k) else k
termination_by n - k

/-- `split_power`: the largest power of two below `n`. -/
def splitPower (n : Nat) : Nat := splitLoop n 1

/-- The bit loop of `nat_bit_length` on the top byte. -/
def topBits : Nat → Nat → Nat
  | 0, _ => 0
  | fuel + 1, top => if top = 0 then 0 else 1 + topBits fuel (top / 2)

/-- `nat_bit_length`. -/
def natBitLength (v byteLength : Nat) : Nat :=
  if byteLength = 0 then 0
  else (byteLength - 1) * 8 + topBits 8 (natByteAt v (byteLength - 1)).toNat

/-- One byte of `crc32c_update`. -/
def crc32cByte (crc : UInt32) (b : UInt8) : UInt32 :=
  (List.range 8).foldl
    (fun c _ => (c >>> 1) ^^^ (0x82f63b78 &&& (0 - (c &&& 1))))
    (crc ^^^ b.toUInt32)

/-- `crc32c_update`. -/
def crc32cUpdate (crc : UInt32) (bs : List UInt8) : UInt32 := bs.foldl crc32cByte crc

section Hashes

variable (sha256 : List UInt8 → Hash)

/-- `silo_leaf_hash`; the domain string includes its terminating zero. -/
def siloLeafHash (index : Nat) (bs : List UInt8) : Hash :=
  sha256 ("SILO-NAT-LEAF-v1".toUTF8.toList ++ [0] ++ bytes 8 index ++ bytes 2 bs.length ++ bs)

/-- `silo_node_hash`. -/
def siloNodeHash (start count : Nat) (left right : Hash) : Hash :=
  sha256 ("SILO-NAT-NODE-v1".toUTF8.toList ++ [0] ++ bytes 8 start ++ bytes 8 count ++
    left.bytes ++ right.bytes)

/-- `silo_nat_root_hash`. -/
def siloNatRootHash (bitLength : Nat) (tree : Hash) : Hash :=
  sha256 ("SILO-NAT-ROOT-v1".toUTF8.toList ++ [0] ++ bytes 8 bitLength ++ tree.bytes)

end Hashes

/-! ## Widths -/

theorem widthLoop_le_iff (fuel w v : Nat) (hv : v < 256 ^ (fuel + 1)) :
    widthLoop (fuel + 1) v ≤ w + 1 ↔ v < 256 ^ (w + 1) := by
  induction fuel generalizing w v with
  | zero =>
    have h0 : v / 256 = 0 := by omega
    have hpow : 256 ≤ 256 ^ (w + 1) := by
      rw [Nat.pow_succ]
      have := Nat.pow_pos (n := w) (show 0 < 256 by decide)
      omega
    simp only [widthLoop, h0, if_true]
    constructor
    · intro _
      omega
    · intro _
      omega
  | succ fuel ih =>
    rw [widthLoop]
    split
    · next h0 =>
      have hpow : 256 ≤ 256 ^ (w + 1) := by
        rw [Nat.pow_succ]
        have := Nat.pow_pos (n := w) (show 0 < 256 by decide)
        omega
      constructor <;> intro _ <;> omega
    · next h0 =>
      have hlt : v / 256 < 256 ^ (fuel + 1) := by
        rw [Nat.div_lt_iff_lt_mul (by decide)]
        rwa [← Nat.pow_succ]
      cases w with
      | zero =>
        have : 1 ≤ widthLoop (fuel + 1) (v / 256) := by
          rw [widthLoop]
          omega
        constructor
        · intro h
          omega
        · intro h
          omega
      | succ w =>
        have := ih w (v / 256) hlt
        rw [Nat.div_lt_iff_lt_mul (by decide), ← Nat.pow_succ] at this
        omega

/-- `width_u64` is the byte length, except that zero takes one byte. -/
theorem widthU64_eq {v : Nat} (hv : v ≤ uint64Max) :
    widthU64 v = if v = 0 then 1 else byteLen v := by
  have hlt : v < 256 ^ 8 := by
    unfold uint64Max at hv
    omega
  have hle : ∀ w, widthU64 v ≤ w + 1 ↔ v < 256 ^ (w + 1) := fun w =>
    widthLoop_le_iff 7 w v hlt
  have hpos : 1 ≤ widthU64 v := by
    unfold widthU64 widthLoop
    omega
  split
  · next h0 =>
    subst h0
    rfl
  · next h0 =>
    obtain ⟨w, hw⟩ := Nat.exists_eq_succ_of_ne_zero (mt byteLen_eq_zero_iff.1 h0)
    have h1 := (hle w).mpr (byteLen_le_iff.1 (Nat.le_of_eq hw))
    obtain ⟨u, hu⟩ : ∃ u, widthU64 v = u + 1 := ⟨widthU64 v - 1, by omega⟩
    have h2 := byteLen_le_iff.2 ((hle u).mp (Nat.le_of_eq hu))
    omega

theorem widthU64_pos (v : Nat) : 0 < widthU64 v := by
  unfold widthU64 widthLoop
  omega

theorem lt_pow_widthU64 {v : Nat} (hv : v ≤ uint64Max) : v < 256 ^ widthU64 v := by
  rw [widthU64_eq hv]
  split
  · next h => simp [h]
  · exact lt_pow_byteLen v

theorem widthU64_le {v : Nat} (hv : v ≤ uint64Max) : widthU64 v ≤ 8 := by
  rw [widthU64_eq hv]
  split
  · omega
  · refine byteLen_le_iff.2 ?_
    unfold uint64Max at hv
    omega

/-! ## Splits -/

theorem splitLoop_spec (n k : Nat) (hk : 0 < k) (hkn : k < n) (e : Nat) (he : k = 2 ^ e) :
    ∃ a, splitLoop n k = 2 ^ a ∧ 2 ^ a < n ∧ n ≤ 2 * 2 ^ a := by
  induction h : n - k using Nat.strongRecOn generalizing k e with
  | _ m ih =>
    rw [splitLoop]
    split
    · next hc =>
      exact ih (n - 2 * k) (by omega) (2 * k) (by omega) (by omega) (e + 1)
        (by rw [he, Nat.pow_succ, Nat.mul_comm]) rfl
    · next hc => exact ⟨e, he, by omega, by omega⟩

/-- The split point is a power of two, below `n` and at least half of it. -/
theorem splitPower_spec {n : Nat} (hn : 1 < n) :
    ∃ a, splitPower n = 2 ^ a ∧ 2 ^ a < n ∧ n ≤ 2 * 2 ^ a :=
  splitLoop_spec n 1 (by omega) hn 0 rfl

/-- The split of an MNAT interval. -/
def mnatSplit : OpeningSchedule.Split where
  left := splitPower
  pos h := by
    obtain ⟨a, ha, -, -⟩ := splitPower_spec h
    rw [ha]
    exact Nat.two_pow_pos a
  lt h := by
    obtain ⟨a, ha, hlt, -⟩ := splitPower_spec h
    rw [ha]
    exact hlt

theorem splitPower_pos {c : Nat} (h : 1 < c) : 0 < splitPower c := mnatSplit.pos h

theorem splitPower_lt {c : Nat} (h : 1 < c) : splitPower c < c := mnatSplit.lt h

theorem spineLen_le_of_le_two_pow :
    ∀ (a c : Nat), c ≤ 2 ^ a → OpeningSchedule.spineLen mnatSplit c ≤ a := by
  intro a
  induction a with
  | zero =>
    intro c hc
    rw [OpeningSchedule.spineLen, dif_neg (by simpa using hc)]
  | succ a ih =>
    intro c hc
    rw [OpeningSchedule.spineLen]
    split
    · next h =>
      obtain ⟨b, hb, hlt, -⟩ := splitPower_spec h
      have hba : b < a + 1 := (Nat.pow_lt_pow_iff_right (by decide)).mp (Nat.lt_of_lt_of_le hlt hc)
      refine Nat.succ_le_succ (ih _ ?_)
      show splitPower c ≤ 2 ^ a
      rw [hb]
      exact Nat.pow_le_pow_right (by decide) (by omega)
    · omega

theorem spineLen_two_pow :
    ∀ a : Nat, OpeningSchedule.spineLen mnatSplit (2 ^ a) = a := by
  intro a
  induction a with
  | zero => rw [OpeningSchedule.spineLen, dif_neg (by decide)]
  | succ a ih =>
    have h : 1 < 2 ^ (a + 1) := Nat.one_lt_two_pow (by omega)
    rw [OpeningSchedule.spineLen, dif_pos h]
    obtain ⟨b, hb, hlt, hle⟩ := splitPower_spec h
    have hba : b < a + 1 := (Nat.pow_lt_pow_iff_right (by decide)).mp hlt
    have hab : a + 1 ≤ b + 1 := by
      rw [← Nat.pow_le_pow_iff_right (show 1 < 2 by decide), Nat.pow_succ 2 b]
      omega
    have hleft : mnatSplit.left (2 ^ (a + 1)) = 2 ^ a := by
      show splitPower (2 ^ (a + 1)) = 2 ^ a
      rw [hb, show b = a from by omega]
    rw [hleft, ih]

/-- The MNAT tree meets the balance condition of the opening schedule. -/
theorem mnatSplit_balanced : mnatSplit.Balanced := by
  intro c hc
  obtain ⟨a, ha, hlt, hle⟩ := splitPower_spec hc
  have hleft : mnatSplit.left c = 2 ^ a := ha
  rw [hleft, spineLen_two_pow]
  exact Nat.le_succ_of_le (spineLen_le_of_le_two_pow a _ (by omega))

end Enki.Silo
