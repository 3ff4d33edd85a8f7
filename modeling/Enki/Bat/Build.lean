import Enki.Bat.Reading
import Enki.Log.Bat

/-!
# Building a byte tree

What `pl_bat_from_bytes` builds is a tree that denotes the bytes it was given, so a
cursor on it reads these bytes back. The value stack must have room for the chunks,
else the call stops at the assumption of `pl_vstack_grow`.
-/

namespace Enki.Bat

open LittleEndian Silo Bignum NatVal

mutual

/-- The value in normal form that an object is; what it pins has no hash yet. -/
def toVal : Log.Obj → Val
  | .nat v => .nat v.val
  | .pin body => .pin none (toVal body)
  | .app head args => .app (Val.needAfter (.nat head.val) args.length) (.nat head.val) (toVals args)

/-- `toVal` of arguments. -/
def toVals : List Log.Obj → List Val
  | [] => []
  | a :: as => toVal a :: toVals as

end

theorem tags_motes : toVal Log.moteBat = tag "bat" ∧ toVal Log.moteCat = tag "cat" ∧
    toVal Log.moteSlice = tag "slice" := by
  decide +kernel

/-- The trees `pl_bat_from_bytes` builds denote their bytes, and nothing on the way is longer. -/
theorem denotes_toVal {t : Log.Obj} {b : List UInt8} (h : Log.IsBat t b)
    (hlen : b.length ≤ uint64Max) : Denotes (toVal t) b b.length := by
  obtain ⟨hbat, hcat, hslice⟩ := tags_motes
  induction h with
  | @slice n len hn hmax =>
    have hd := @Denotes.slice 0 (.pin none (.nat n.val)) _ 0 _ rfl (Nat.zero_le _)
      (show len.toNat ≤ uint64Max by simpa using hlen)
    rw [natByteRange_eq_bytes, Nat.pow_zero, Nat.div_one] at hd
    simpa [toVal, toVals, hslice, row, Val.needAfter, Val.arity] using hd
  | @cat l r bl br hl hr ihl ihr =>
    rw [List.length_append] at hlen
    have hd := @Denotes.cat 0 _ _ _ _ _ _ (ihl (by omega)) (ihr (by omega))
    rw [Nat.max_eq_right (Nat.le_add_right _ _)] at hd
    simpa [toVal, toVals, hcat, row, Val.needAfter, Val.arity] using hd
  | @bat t size b ht hsize hval ih =>
    have hd := @Denotes.bat 0 _ _ _ _ (ih hlen) rfl hlen
    rw [← hval] at hd ⊢
    simpa [toVal, toVals, hbat, row, Val.needAfter, Val.arity] using hd

/-- The frames' stack offsets are 32 bits wide. -/
def vstackMax : Nat := 2 ^ 32 - 1

/-- Bytes for whose chunks the stack has room are far from the greatest length. -/
theorem length_le_of_fits {room used : Nat} {b : List UInt8} (hroom : room ≤ vstackMax)
    (hfits : Log.BatFits room used b) : b.length ≤ 2 ^ 52 := by
  obtain ⟨hflat, hall, -⟩ := Log.batSplit_spec _ b (Log.split_bound b)
  have hsum : ∀ cs : List (List UInt8), (∀ c ∈ cs, c.length ≤ Log.batChunkBytes) →
      cs.flatten.length ≤ cs.length * Log.batChunkBytes := by
    intro cs h
    induction cs with
    | nil => simp
    | cons c cs ih =>
      have hc := h c List.mem_cons_self
      have hcs := ih fun c hc => h c (List.mem_cons_of_mem _ hc)
      rw [List.flatten_cons, List.length_append, List.length_cons, Nat.succ_mul]
      omega
  have hle := hsum _ hall
  rw [hflat] at hle
  have hchunks : Log.batChunks b ≤ 2 ^ 32 := by
    have := hfits.1
    simp only [vstackMax] at hroom
    omega
  calc b.length ≤ Log.batChunks b * Log.batChunkBytes := hle
    _ ≤ 2 ^ 32 * 2 ^ 20 := Nat.mul_le_mul hchunks le_rfl
    _ = 2 ^ 52 := by decide

/-- What is built opens, its wrappers are right, and it reads as what it was built from;
where the value stack is too small for it, the call stops. -/
theorem batFromBytes_reads (stale : Nat → UInt64) {room : Nat} (hroom : room ≤ vstackMax)
    (used : Nat) (b : List UInt8) :
    (Log.BatFits room used b →
      ∃ t c, Log.batFromBytes stale room used b = .ok t ∧ Denotes (toVal t) b b.length ∧
        batOpen (toVal t) = some c ∧ c.length = b.length ∧ (read c b.length).2 = b ∧
        ∀ sizes, reads c sizes = cut b sizes) ∧
      (¬ Log.BatFits room used b → Log.Refused (Log.batFromBytes stale room used b)) := by
  refine ⟨?_, Log.batFromBytes_full⟩
  intro hfits
  have hfits' := length_le_of_fits hroom hfits
  have hlen : b.length < 2 ^ 63 := by omega
  have hmax : b.length ≤ uint64Max := by
    simp only [uint64Max]
    omega
  obtain ⟨t, ht, hbat⟩ := @Log.batFromBytes_ok stale room used b hlen hfits
  have hd := denotes_toVal hbat hmax
  obtain ⟨c, hopen, hc⟩ := batOpen_complete hd hmax
  have hread := (read_spec hc.at_start b.length).1
  rw [List.take_length] at hread
  exact ⟨t, c, ht, hd, hopen, hc.length, hread, reads_eq hc.at_start⟩

/-- A piece as long as what the bytes begin with. -/
theorem cut_append {a b : List UInt8} {n : Nat} (ha : a.length = n) (sizes : List Nat) :
    cut (a ++ b) (n :: sizes) = a :: cut b sizes := by
  rw [cut, List.take_left' ha, List.drop_left' ha]

/-- Two chunks; the second is of zeros only, and so is the end of the first. -/
def paddedChunks : List UInt8 := [1, 0, 2, 0, 0] ++ List.replicate (2 ^ 20) 0

theorem length_paddedChunks : paddedChunks.length = 2 ^ 20 + 5 := by
  rw [paddedChunks, List.length_append, List.length_replicate]
  rfl

theorem paddedChunks_chunks : Log.batChunks paddedChunks = 2 := by
  have hquot : paddedChunks.length / Log.batChunkBytes = 1 := by
    rw [length_paddedChunks]
    decide
  have hlong : ¬ paddedChunks.length ≤ Log.batChunkBytes := by
    rw [length_paddedChunks]
    decide
  rw [Log.batChunks, hquot, Log.batSplit, if_neg hlong]
  rfl

/-- On a stack with all its room the zeros at the end of both chunks are read back. -/
theorem batFromBytes_reads_padded : ∃ t c,
    Log.batFromBytes (fun _ => 0) (2 ^ 31) 0 paddedChunks = .ok t ∧
    batOpen (toVal t) = some c ∧ c.length = 2 ^ 20 + 5 ∧
    reads c [5, 2 ^ 20, 1] = [[1, 0, 2, 0, 0], List.replicate (2 ^ 20) 0, []] := by
  have hfits : Log.BatFits (2 ^ 31) 0 paddedChunks := by
    rw [Log.BatFits, paddedChunks_chunks]
    decide
  obtain ⟨t, c, ht, -, hopen, hlen, -, hreads⟩ :=
    (batFromBytes_reads (fun _ => 0) (show 2 ^ 31 ≤ vstackMax by decide) 0 paddedChunks).1 hfits
  refine ⟨t, c, ht, hopen, hlen.trans length_paddedChunks, ?_⟩
  have hzeros : cut (List.replicate (2 ^ 20) 0) [2 ^ 20, 1] = [List.replicate (2 ^ 20) 0, []] := by
    have hlen : (List.replicate (2 ^ 20) (0 : UInt8)).length = 2 ^ 20 := List.length_replicate
    have h := cut_append (b := []) hlen [1]
    rwa [List.append_nil] at h
  rw [hreads, paddedChunks, cut_append (show [1, 0, 2, 0, 0].length = 5 from rfl), hzeros]

/-- On a stack that is nearly full nothing is built, not even of the empty string. -/
theorem batFromBytes_stops : Log.batFromBytes (fun _ => 0) (2 ^ 31) (2 ^ 31 - 5) [] =
    .error (.assume "vstack exceeds u32 frame offsets") := rfl

end Enki.Bat
