import Enki.Log.Decode
import Mathlib.Data.List.Forall2

/-!
# Event log formats: byte trees

`pl_bat_from_bytes` cuts bytes into chunks and joins these, neighbour by neighbour, to
a tree (`IsBat`) that stands for the bytes it was given.
-/

namespace Enki.Log

open Bignum NatVal

/-- The bytes a tree stands for, as `pl_bat_open` lays them out: a slice is bytes of a
natural with zeros behind it, a wrapper gives the length. -/
inductive IsBat : Obj → List UInt8 → Prop
  | slice {n : NatVal} {len : UInt64} : n.Canonical → len.toNat < 2 ^ 63 →
    IsBat (.app (.direct 0) [moteSlice, .pin (.nat n), .nat (.direct 0), .nat (.direct len)])
      (LittleEndian.bytes len.toNat n.val)
  | cat {l r : Obj} {bl br : List UInt8} : IsBat l bl → IsBat r br →
    IsBat (.app (.direct 0) [moteCat, l, r]) (bl ++ br)
  | bat {t : Obj} {size : NatVal} {b : List UInt8} : IsBat t b → size.Canonical →
    size.val = b.length → IsBat (.app (.direct 0) [moteBat, .nat size, t]) b

/-- A tree is well formed. By induction on it, a slice from its four fields. -/
theorem IsBat.wf {t : Obj} {b : List UInt8} (h : IsBat t b) : t.WF := by
  have hmote : ∀ w : UInt64, w.toNat < 2 ^ 63 → (mote w).WF := fun w hw =>
    .nat (canonical_direct.2 hw)
  induction h with
  | slice hn hlen =>
    refine .row (by simp) (by simp) fun a ha => ?_
    simp only [List.mem_cons, List.not_mem_nil, or_false] at ha
    rcases ha with rfl | rfl | rfl | rfl
    · exact hmote _ (by decide)
    · exact .pin (.nat hn)
    · exact .nat canonical_zero
    · exact .nat (canonical_direct.2 hlen)
  | cat _ _ hl hr =>
    refine .row (by simp) (by simp) fun a ha => ?_
    simp only [List.mem_cons, List.not_mem_nil, or_false] at ha
    rcases ha with rfl | rfl | rfl
    · exact hmote _ (by decide)
    · exact hl
    · exact hr
  | bat _ hsize _ ht =>
    refine .row (by simp) (by simp) fun a ha => ?_
    simp only [List.mem_cons, List.not_mem_nil, or_false] at ha
    rcases ha with rfl | rfl | rfl
    · exact hmote _ (by decide)
    · exact .nat hsize
    · exact ht

/-- A tree under a wrapper: what the loops of `pl_bat_from_bytes` work on. -/
def IsTop (t : Obj) (b : List UInt8) : Prop := IsBat t b ∧ batLen t = some (UInt64.ofNat b.length)

section

variable {stale : Nat → UInt64} {room used : Nat}

/-- A chunk becomes a slice under its wrapper: zeros at its end are no part of the natural. -/
theorem batChunk_ok {b : List UInt8} (hlen : b.length ≤ batChunkBytes) (hroom : used + 6 ≤ room) :
    ∃ t, batChunk stale room used b = .ok t ∧ IsTop t b := by
  have hc : batChunkBytes = 2 ^ 20 := rfl
  have hmax : natMax = 8388600 := rfl
  have hp := List.rdropWhile_prefix (fun x : UInt8 => x == 0) b
  -- what is left after the zeros is still small enough for a natural
  have hdrop := hp.length_le
  have hn : (UInt64.ofNat b.length).toNat = b.length :=
    UInt64.toNat_ofNat_of_lt' (by simp only [UInt64.size]; omega)
  have hone : (NatVal.direct (UInt64.ofNat b.length)).limbLen ≤ 1 := by
    unfold limbLen
    rw [limbView_direct]
    split <;> simp
  rcases fromBytes_cases stale b with ⟨-, v, hv, hcanon, hval⟩ | ⟨hno, -⟩
  swap
  · exact absurd (show (b.rdropWhile _).length ≤ natMax by omega) hno
  refine ⟨.app (.direct 0) [moteBat, .nat (.direct (UInt64.ofNat b.length)),
    .app (.direct 0) [moteSlice, .pin (.nat v), .nat (.direct 0),
      .nat (.direct (UInt64.ofNat b.length))]], ?_, ?_, ?_⟩
  · unfold batChunk
    rw [assume_true (decide_eq_true hlen), vroom_ok hroom, bind_ok hv]
    rfl
  · -- the length in the wrapper brings the zeros back
    have hbytes : LittleEndian.bytes (UInt64.ofNat b.length).toNat v.val = b := by
      rw [hn, hval, LittleEndian.bytes_toNat]
    have hslice := @IsBat.slice v (UInt64.ofNat b.length) hcanon (by omega)
    rw [hbytes] at hslice
    exact .bat hslice (canonical_direct.2 (by omega)) (by rw [val_direct, hn])
  · show (if _ then none else some ((NatVal.direct (UInt64.ofNat b.length)).limbAt 0)) = _
    rw [if_neg (by omega)]
    rfl

/-- Without room on the value stack there is no chunk. -/
theorem batChunk_full {b : List UInt8} (hroom : ¬ used + 6 ≤ room) :
    Refused (batChunk stale room used b) := by
  unfold batChunk
  by_cases hlen : b.length ≤ batChunkBytes
  · rw [assume_true (decide_eq_true hlen)]
    exact vroom_full hroom
  · exact assume_false (decide_eq_false hlen)

/-- A length is a natural of one limb, direct or not, and reads back. -/
theorem mkNatU64_spec (w : UInt64) : (mkNatU64 w).Canonical ∧ (mkNatU64 w).val = w.toNat ∧
    batSize (.nat (mkNatU64 w)) = some w := by
  unfold mkNatU64
  split
  next hle =>
    refine ⟨hle, val_direct w, ?_⟩
    have hone : (NatVal.direct w).limbLen ≤ 1 := by
      unfold limbLen
      rw [limbView_direct]
      split <;> simp
    show (if _ then none else _) = _
    rw [if_neg (by omega)]
    rfl
  next hgt =>
    rw [UInt64.le_iff_toNat_le, toNat_nat63Max] at hgt
    refine ⟨⟨fun h0 => ?_, ?_, by simp [limbMax]⟩, by simp, rfl⟩
    · have hzero : w = 0 := by simpa using h0
      rw [hzero] at hgt
      simp at hgt
    · simp only [Limbs.toNat_singleton]
      omega

/-- Two trees next to each other. -/
theorem batJoin_ok {l r : Obj} {bl br : List UInt8} (hl : IsTop l bl) (hr : IsTop r br)
    (hlen : bl.length + br.length < 2 ^ 63) (hroom : used + 7 ≤ room) :
    ∃ t, batJoin room used l r = .ok t ∧ IsTop t (bl ++ br) := by
  have hnl : (UInt64.ofNat bl.length).toNat = bl.length :=
    UInt64.toNat_ofNat_of_lt' (by simp only [UInt64.size]; omega)
  have hnr : (UInt64.ofNat br.length).toNat = br.length :=
    UInt64.toNat_ofNat_of_lt' (by simp only [UInt64.size]; omega)
  have hmax : (0xffffffffffffffff : UInt64).toNat = 2 ^ 64 - 1 := rfl
  have hleft : (0xffffffffffffffff - UInt64.ofNat br.length).toNat = 2 ^ 64 - 1 - br.length := by
    rw [UInt64.toNat_sub_of_le _ _ (UInt64.le_iff_toNat_le.mpr (by omega)), hmax, hnr]
  -- the check of the sum passes, as lengths are below 2⁶³
  have hfits : decide (UInt64.ofNat bl.length ≤ 0xffffffffffffffff - UInt64.ofNat br.length) = true :=
    decide_eq_true (UInt64.le_iff_toNat_le.mpr (by omega))
  have hsum : UInt64.ofNat bl.length + UInt64.ofNat br.length = UInt64.ofNat (bl ++ br).length := by
    rw [List.length_append, UInt64.ofNat_add]
  obtain ⟨hcanon, hval, hsize⟩ := mkNatU64_spec (UInt64.ofNat (bl ++ br).length)
  refine ⟨.app (.direct 0) [moteBat, .nat (mkNatU64 (UInt64.ofNat (bl ++ br).length)),
    .app (.direct 0) [moteCat, l, r]], ?_, .bat (.cat hl.1 hr.1) hcanon ?_, hsize⟩
  · unfold batJoin
    rw [vroom_ok hroom, hl.2, hr.2]
    dsimp only
    rw [assume_true hfits, hsum]
    rfl
  · rw [hval, List.length_append, UInt64.toNat_ofNat_of_lt' (by simp only [UInt64.size]; omega)]

/-- Nor is there a join without room. -/
theorem batJoin_full {l r : Obj} (hroom : ¬ used + 7 ≤ room) : Refused (batJoin room used l r) :=
  vroom_full hroom

/-! ## Cutting -/

/-- The chunks put together are the bytes. By induction on how many there may be. -/
theorem batSplit_spec : ∀ (k : Nat) (b : List UInt8), b.length ≤ (k + 1) * batChunkBytes →
    (batSplit k b).flatten = b ∧ (∀ c ∈ batSplit k b, c.length ≤ batChunkBytes) ∧ batSplit k b ≠ []
  | 0, b, h => by
    have hle : b.length ≤ batChunkBytes := by omega
    simp [batSplit, hle]
  | k + 1, b, h => by
    have hc : batChunkBytes = 2 ^ 20 := rfl
    unfold batSplit
    split
    next hle => simp [hle]
    next hgt =>
      obtain ⟨hflat, hall, -⟩ := batSplit_spec k (b.drop batChunkBytes) (by
        rw [List.length_drop]
        rw [hc] at h ⊢
        omega)
      refine ⟨by simp [hflat], fun c hmem => ?_, by simp⟩
      rcases List.mem_cons.mp hmem with rfl | hmem
      · simp
      · exact hall c hmem

/-- One tree a chunk, each kept on the stack while the next one is made. -/
theorem batLeaves_ok : ∀ (cs : List (List UInt8)) (used : Nat),
    (∀ c ∈ cs, c.length ≤ batChunkBytes) → (cs ≠ [] → used + cs.length + 5 ≤ room) →
    ∃ ts, batLeaves stale room used cs = .ok ts ∧ List.Forall₂ IsTop ts cs
  | [], _, _, _ => ⟨[], rfl, .nil⟩
  | c :: cs, used, hlen, hroom => by
    have hr := hroom (by simp)
    simp only [List.length_cons] at hr
    obtain ⟨t, ht, htop⟩ := @batChunk_ok stale room used _ (hlen c (by simp)) (by omega)
    obtain ⟨ts, hts, htops⟩ := batLeaves_ok cs (used + 1) (fun c hc => hlen c (by simp [hc]))
      (fun _ => by omega)
    refine ⟨t :: ts, ?_, .cons htop htops⟩
    rw [batLeaves, bind_ok ht, vroom_ok (by omega), bind_ok hts]
    rfl

/-- The first chunk that does not fit ends it. -/
theorem batLeaves_full : ∀ (cs : List (List UInt8)) (used : Nat),
    (∀ c ∈ cs, c.length ≤ batChunkBytes) → cs ≠ [] → ¬ used + cs.length + 5 ≤ room →
    Refused (batLeaves stale room used cs)
  | c :: cs, used, hlen, _, hroom => by
    simp only [List.length_cons] at hroom
    rw [batLeaves]
    by_cases h6 : used + 6 ≤ room
    swap
    · exact (batChunk_full h6).bind _
    obtain ⟨t, ht, -⟩ := batChunk_ok (hlen c (by simp)) h6
    rw [bind_ok ht, vroom_ok (by omega)]
    have hne : cs ≠ [] := fun h0 => hroom (by simp [h0]; omega)
    exact (batLeaves_full cs (used + 1) (fun c hc => hlen c (by simp [hc])) hne (by omega)).bind _

/-! ## Joining -/

/-- The trees stand for consecutive parts of the bytes. -/
def Covers (ts : List Obj) (b : List UInt8) : Prop := ∃ bs, List.Forall₂ IsTop ts bs ∧ bs.flatten = b

/-- A pass halves the trees, an odd one at the end stays alone. -/
theorem batPass_ok (hroom : used + 7 ≤ room) : ∀ (ts : List Obj) (b : List UInt8), Covers ts b →
    b.length < 2 ^ 63 → ∃ ts', batPass room used ts = .ok ts' ∧ Covers ts' b ∧
      ts'.length = (ts.length + 1) / 2
  | [], b, h, _ => ⟨[], rfl, h, rfl⟩
  | [t], b, h, _ => ⟨[t], rfl, h, by simp⟩
  | l :: r :: ts, b, h, hlen => by
    obtain ⟨bs, hall, rfl⟩ := h
    rcases hall with _ | ⟨hl, _ | ⟨hr, hts⟩⟩
    rename_i bl br bs
    simp only [List.flatten_cons, List.length_append] at hlen
    obtain ⟨t, ht, htop⟩ := batJoin_ok hl hr (by omega) hroom
    obtain ⟨ts', hts', ⟨bs', hall', hflat⟩, hlen'⟩ := batPass_ok hroom ts bs.flatten ⟨bs, hts, rfl⟩
      (by omega)
    refine ⟨t :: ts', ?_, ⟨(bl ++ br) :: bs', .cons htop hall', by simp [hflat]⟩, ?_⟩
    · rw [batPass, bind_ok ht, bind_ok hts']
      rfl
    · simp only [List.length_cons, hlen']
      omega

/-- Passes until one tree is left. By induction on the trees there may be. -/
theorem batJoinAll_ok : ∀ (fuel : Nat) (ts : List Obj) (b : List UInt8), Covers ts b →
    b.length < 2 ^ 63 → ts ≠ [] → ts.length ≤ fuel + 1 →
    (2 ≤ ts.length → used + ts.length + 7 ≤ room) →
    ∃ t, batJoinAll room used fuel ts = .ok t ∧ IsBat t b
  | fuel, [t], b, h, _, _, _, _ => by
    obtain ⟨bs, hall, rfl⟩ := h
    rcases hall with _ | ⟨ht, _ | _⟩
    refine ⟨t, by cases fuel <;> rfl, ?_⟩
    simpa using ht.1
  | 0, l :: r :: ts, b, _, _, _, hfuel, _ => by
    simp at hfuel
  | fuel + 1, l :: r :: ts, b, h, hlen, _, hfuel, hroom => by
    have hr := hroom (by simp)
    simp only [List.length_cons] at hfuel hr
    obtain ⟨ts', hpass, hcov, hlen'⟩ := @batPass_ok room (used + (l :: r :: ts).length)
      (by simp only [List.length_cons]; omega) (l :: r :: ts) b h hlen
    simp only [List.length_cons] at hlen'
    -- half of at least two, rounded up, is at least one
    have hne : ts' ≠ [] := fun h0 => by
      rw [h0, List.length_nil] at hlen'
      omega
    obtain ⟨t, ht, hbat⟩ := batJoinAll_ok fuel ts' b hcov hlen hne (by omega) (fun _ => by omega)
    refine ⟨t, ?_, hbat⟩
    rw [batJoinAll, bind_ok hpass]
    · exact ht
    · simp

/-- How many chunks the bytes are cut into. -/
def batChunks (b : List UInt8) : Nat := (batSplit (b.length / batChunkBytes) b).length

/-- The stack holds what the loops of `pl_bat_from_bytes` put on it. -/
def BatFits (room used : Nat) (b : List UInt8) : Prop :=
  used + batChunks b + 5 ≤ room ∧ (2 ≤ batChunks b → used + batChunks b + 7 ≤ room)

/-- One chunk more than the quotient is enough. -/
theorem split_bound (b : List UInt8) : b.length ≤ (b.length / batChunkBytes + 1) * batChunkBytes := by
  rw [show batChunkBytes = 2 ^ 20 from rfl]
  omega

/-- Chunks, then joins. -/
theorem batFromBytes_ok {b : List UInt8} (hlen : b.length < 2 ^ 63) (hfits : BatFits room used b) :
    ∃ t, batFromBytes stale room used b = .ok t ∧ IsBat t b := by
  obtain ⟨hflat, hall, hne⟩ := batSplit_spec _ b (split_bound b)
  obtain ⟨ts, hts, htops⟩ := @batLeaves_ok stale room _ used hall (fun _ => hfits.1)
  have hl : ts.length = batChunks b := htops.length_eq
  have hpos : 0 < batChunks b := List.length_pos_iff.mpr hne
  obtain ⟨t, ht, hbat⟩ := @batJoinAll_ok room used ts.length ts b ⟨_, htops, hflat⟩ hlen
    (fun h0 => by simp [h0] at hl; omega) (by omega) (fun h2 => by have := hfits.2; omega)
  refine ⟨t, ?_, hbat⟩
  unfold batFromBytes
  rw [bind_ok hts]
  exact ht

/-- It fails at a chunk or at the first join. -/
theorem batFromBytes_full {b : List UInt8} (hfits : ¬ BatFits room used b) :
    Refused (batFromBytes stale room used b) := by
  obtain ⟨hflat, hall, hne⟩ := batSplit_spec _ b (split_bound b)
  unfold batFromBytes
  by_cases h5 : used + batChunks b + 5 ≤ room
  swap
  · exact (batLeaves_full _ used hall hne h5).bind _
  obtain ⟨ts, hts, htops⟩ := batLeaves_ok _ used hall (fun _ => h5)
  have hl : ts.length = batChunks b := htops.length_eq
  rw [bind_ok hts]
  -- The first join does not fit.
  have hjoin : 2 ≤ batChunks b ∧ ¬ used + batChunks b + 7 ≤ room := by
    unfold BatFits at hfits
    constructor <;> by_contra hno <;> exact hfits ⟨h5, fun _ => by omega⟩
  match ts, hl with
  | [], hl => simp at hl; omega
  | [t], hl => simp at hl; omega
  | l :: r :: rest, hl =>
    rw [List.length_cons, batJoinAll]
    · exact ((batJoin_full (by simp only [List.length_cons] at hl ⊢; omega)).bind _).bind _
    · simp

end

end Enki.Log
