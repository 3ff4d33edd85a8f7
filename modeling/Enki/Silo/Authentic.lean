import Mathlib.Data.List.Nodup
import Mathlib.Data.Set.Function
import Enki.Silo.MnatRead

/-!
# What the root of an MNAT commits to

`decode_mnat` outside the canonical mode: pages of any length, leaves that straddle
them, with or without page checksums. However the payload is cut up, every byte of it
goes into one leaf that is checked against the claim for that leaf, and every claim is
either checked against a leaf or opened into two claims it is the node hash of. So the
declared root is the root of the tree of the natural that is returned
(`decodeMnat_root`), and two naturals whose messages do not collide have different
roots (`mnatRoot_inj`).
-/

namespace Enki.Silo

open LittleEndian ExceptState StreamParser
open OpeningSchedule (Interval Tiles Forest openFirst opened spine afterLeaves)

variable (sha256 : List UInt8 → Hash)

/-! ## Payload in any pages -/

section Pages

variable (byteLength : Nat)

/-- A state of the payload loop: the leaves before `i` are in `pre`, the current one is
read up to `leaf`, and the claims `K` are about the rest. -/
structure Midway (d : DecCfg) (r : MnatRun) (i : Nat) (pre leaf : List UInt8) (K : List Claim) :
    Prop where
  state : ∃ maxPage, r = runLeaf byteLength d maxPage i pre leaf K
  index : i ≤ leafCountOf byteLength
  before : pre.length = min (i * leafBytes) byteLength
  partial_ : leaf = [] ∨ leaf.length < min (byteLength - i * leafBytes) leafBytes
  forest : Forest mnatSplit (leafCountOf byteLength) i (K.map Prod.fst)

/-- What has been read from one state to another: more bytes, and the former claims are
forced by the later ones. -/
structure Reads (pre leaf : List UInt8) (K : List Claim) (pre' leaf' : List UInt8)
    (K' : List Claim) (n : Nat) : Prop where
  done : ∃ mid, pre' = pre ++ mid
  count : pre'.length + leaf'.length = pre.length + leaf.length + n
  forced : ∀ v, natByteRange v 0 pre'.length = pre' → Holds sha256 v byteLength K' →
    Holds sha256 v byteLength K

variable {sha256 byteLength}

/-- A number with the bytes `pre ++ mid` has the bytes `pre`. -/
theorem natByteRange_front {v : Nat} {pre mid : List UInt8}
    (h : natByteRange v 0 (pre ++ mid).length = pre ++ mid) :
    natByteRange v 0 pre.length = pre ∧ natByteRange v pre.length mid.length = mid := by
  rw [List.length_append, natByteRange_add, Nat.zero_add] at h
  exact List.append_inj h (by simp)

theorem Reads.trans {pre leaf pre' leaf' pre'' leaf'' : List UInt8} {K K' K'' : List Claim}
    {m n : Nat} (h : Reads sha256 byteLength pre leaf K pre' leaf' K' m)
    (h' : Reads sha256 byteLength pre' leaf' K' pre'' leaf'' K'' n) :
    Reads sha256 byteLength pre leaf K pre'' leaf'' K'' (m + n) := by
  obtain ⟨mid, rfl⟩ := h.done
  obtain ⟨mid', rfl⟩ := h'.done
  have h₁ := h.count
  have h₂ := h'.count
  refine ⟨⟨mid ++ mid', List.append_assoc _ _ _⟩, by omega, fun v hv hK => ?_⟩
  exact h.forced v (natByteRange_front hv).1 (h'.forced v hv hK)

/-- One segment: some bytes of the current leaf, which is then complete or not. -/
theorem decodeSegments_more {d : DecCfg} {maxPage pageLen pageDone i n total : Nat}
    {crc crc' : UInt32} {r : MnatRun} {pre leaf : List UInt8} {K : List Claim}
    {s t : Stream PinTrack} (hlt : pageDone < pageLen)
    (htotal : total = min (byteLength - i * leafBytes) leafBytes)
    (hn : n = min (pageLen - pageDone) (total - leaf.length))
    (h : decodeSegments sha256 byteLength pageLen pageDone crc
      (runLeaf byteLength d maxPage i pre leaf K) s = .ok ((r, crc'), t)) :
    n ≠ 0 ∧ ∃ bs u, bs.length = n ∧
      ((leaf ++ bs).length = total ∧
          (completeLeaf sha256 (crc32cUpdate crc bs)
              (runLeaf byteLength d maxPage i pre (leaf ++ bs) K) >>= fun x =>
            decodeSegments sha256 byteLength pageLen (pageDone + n) x.2 x.1) u =
              .ok ((r, crc'), t) ∨
        (leaf ++ bs).length ≠ total ∧
          decodeSegments sha256 byteLength pageLen (pageDone + n) (crc32cUpdate crc bs)
            (runLeaf byteLength d maxPage i pre (leaf ++ bs) K) u = .ok ((r, crc'), t)) := by
  have htotal' : min (byteLength - (runLeaf byteLength d maxPage i pre leaf K).leafIndex * leafBytes)
      leafBytes = total := htotal.symm
  have hn' : min (pageLen - pageDone)
      (total - (runLeaf byteLength d maxPage i pre leaf K).leafBuf.length) = n := hn.symm
  rw [decodeSegments, dif_pos hlt] at h
  simp only [htotal', hn'] at h
  split at h
  · cases h
  · next hn0 =>
    obtain ⟨bs, u, hread, h₁⟩ := run_bind_ok.1 h
    obtain ⟨-, hlen, -⟩ := dread_ok hread
    have hnext : { runLeaf byteLength d maxPage i pre leaf K with
        accum := natAccumBytes (runLeaf byteLength d maxPage i pre leaf K).accum
          (runLeaf byteLength d maxPage i pre leaf K).payloadOff bs
        leafBuf := (runLeaf byteLength d maxPage i pre leaf K).leafBuf ++ bs
        payloadOff := (runLeaf byteLength d maxPage i pre leaf K).payloadOff + n } =
        runLeaf byteLength d maxPage i pre (leaf ++ bs) K := by
      simp only [runLeaf, ← List.length_append, natAccumBytes_accumOf, List.append_assoc]
      rw [List.length_append, List.length_append, List.length_append, hlen, Nat.add_assoc]
    rw [hnext] at h₁
    refine ⟨hn0, bs, u, hlen, ?_⟩
    split at h₁
    · next hfull => exact .inl ⟨hfull, h₁⟩
    · next hpart => exact .inr ⟨hpart, h₁⟩

/-- The segment loop of a page of any length. -/
theorem decodeSegments_reads {d : DecCfg} {pageLen pageDone i : Nat} {crc crc' : UInt32}
    {r r' : MnatRun} {pre leaf : List UInt8} {K : List Claim} {s t : Stream PinTrack}
    (hmid : Midway byteLength d r i pre leaf K)
    (hroom : pre.length + leaf.length + (pageLen - pageDone) ≤ byteLength)
    (h : decodeSegments sha256 byteLength pageLen pageDone crc r s = .ok ((r', crc'), t)) :
    ∃ i' pre' leaf' K', Midway byteLength d r' i' pre' leaf' K' ∧
      Reads sha256 byteLength pre leaf K pre' leaf' K' (pageLen - pageDone) := by
  induction hm : pageLen - pageDone using Nat.strongRecOn generalizing pageDone i crc r pre leaf K s with
  | _ m ih =>
    subst hm
    obtain ⟨⟨maxPage, rfl⟩, hi, hpre, hpart, hK⟩ := hmid
    by_cases hlt : pageDone < pageLen
    · obtain ⟨total, htotal⟩ : ∃ total, total = min (byteLength - i * leafBytes) leafBytes :=
        ⟨_, rfl⟩
      obtain ⟨n, hn⟩ : ∃ n, n = min (pageLen - pageDone) (total - leaf.length) := ⟨_, rfl⟩
      obtain ⟨hn0, bs, u, hlen, hcases⟩ := decodeSegments_more hlt htotal hn h
      -- a byte is still to come, so leaf `i` is one of the leaves
      have hbyte : i * leafBytes < byteLength := by omega
      have hlti : i < leafCountOf byteLength := lt_leafCountOf.2 hbyte
      have hpre' : pre.length = i * leafBytes := by omega
      have hsplit : pageLen - pageDone = n + (pageLen - (pageDone + n)) := by omega
      rcases hcases with ⟨hfull, h₁⟩ | ⟨hpart, h₁⟩
      · -- the leaf is complete and checked
        obtain ⟨⟨r₁, crc₁⟩, u₁, hcomplete, h₂⟩ := run_bind_ok.1 h₁
        obtain ⟨G, hKG, hG⟩ := hK.step hlti
        obtain ⟨c, K₁, rfl, hc, rfl⟩ := List.map_eq_cons_iff.mp hKG
        obtain ⟨_, hash⟩ := c
        simp only at hc
        subst hc
        obtain ⟨K', _, rfl, hmap, -, -, hback⟩ :=
          completeLeaf_ok sha256 byteLength hK.tiles.2.2 hcomplete
        have hlen' : (pre ++ (leaf ++ bs)).length = min ((i + 1) * leafBytes) byteLength := by
          rw [List.length_append, hfull, hpre, htotal, min_leaf_succ hbyte]
        have hstep : Reads sha256 byteLength pre leaf (((i, 1), hash) :: K₁)
            (pre ++ (leaf ++ bs)) [] K' n := by
          refine ⟨⟨leaf ++ bs, rfl⟩, by simp [hlen]; omega, fun v hv hK' => ?_⟩
          refine (hback v ?_ hK').1
          rw [mnatLeaf, ← htotal, ← hfull, ← hpre']
          exact (natByteRange_front hv).2
        have hnext : Midway byteLength d (runOf byteLength d maxPage (i + 1) (pre ++ (leaf ++ bs)) K')
            (i + 1) (pre ++ (leaf ++ bs)) [] K' :=
          ⟨⟨maxPage, by simp [runOf, runLeaf]⟩, hlti, hlen', .inl rfl, hmap ▸ hG⟩
        obtain ⟨i', pre', leaf', K'', hmid', hreads⟩ :=
          ih _ (by omega) hnext (by rw [List.length_nil, List.length_append, hfull]; omega) h₂ rfl
        exact ⟨i', pre', leaf', K'', hmid', hsplit ▸ hstep.trans hreads⟩
      · -- the page ends inside the leaf
        have hlen' : (leaf ++ bs).length < total := by
          rw [List.length_append] at hpart ⊢
          omega
        have hstep : Reads sha256 byteLength pre leaf K pre (leaf ++ bs) K n :=
          ⟨⟨[], by simp⟩, by simp [hlen]; omega, fun v _ hv => hv⟩
        have hnext : Midway byteLength d (runLeaf byteLength d maxPage i pre (leaf ++ bs) K)
            i pre (leaf ++ bs) K := ⟨⟨maxPage, rfl⟩, hi, hpre, .inr (htotal ▸ hlen'), hK⟩
        obtain ⟨i', pre', leaf', K'', hmid', hreads⟩ :=
          ih _ (by omega) hnext (by rw [List.length_append]; omega) h₁ rfl
        exact ⟨i', pre', leaf', K'', hmid', hsplit ▸ hstep.trans hreads⟩
    · rw [decodeSegments, dif_neg hlt] at h
      cases h
      exact ⟨i, pre, leaf, K, ⟨⟨maxPage, rfl⟩, hi, hpre, hpart, hK⟩, ⟨[], by simp⟩, by omega,
        fun v _ hv => hv⟩

/-- The payload pages, whatever their lengths and whether or not they carry checksums. -/
theorem decodePages_reads {d : DecCfg} {flags : UInt8} {pageWidth fuel i : Nat} {r r' : MnatRun}
    {pre leaf : List UInt8} {K : List Claim} {s t : Stream PinTrack}
    (hmid : Midway byteLength d r i pre leaf K)
    (h : decodePages sha256 d flags pageWidth byteLength fuel r s = .ok (r', t)) :
    ∃ i' pre' leaf' K' n, Midway byteLength d r' i' pre' leaf' K' ∧
      Reads sha256 byteLength pre leaf K pre' leaf' K' n := by
  induction fuel generalizing i r pre leaf K s with
  | zero =>
    cases h
    exact ⟨i, pre, leaf, K, 0, hmid, ⟨[], by simp⟩, rfl, fun v _ hv => hv⟩
  | succ fuel ih =>
    rw [decodePages] at h
    split at h
    · next hlt =>
      obtain ⟨pbuf, u, -, h₁⟩ := run_bind_ok.1 h
      obtain ⟨hpage, h₂⟩ := run_reject_bind_ok.1 h₁
      obtain ⟨-, h₃⟩ := run_reject_bind_ok.1 h₂
      obtain ⟨⟨r₁, crc⟩, u₁, hseg, h₄⟩ := run_bind_ok.1 h₃
      obtain ⟨⟨⟩, u₂, -, h₅⟩ := run_bind_ok.1 h₄
      obtain ⟨maxPage, rfl⟩ := hmid.state
      have hmid' : Midway byteLength d
          { runLeaf byteLength d maxPage i pre leaf K with maxPage := max maxPage (getle pbuf) }
          i pre leaf K := ⟨⟨_, rfl⟩, hmid.index, hmid.before, hmid.partial_, hmid.forest⟩
      have hroom : pre.length + leaf.length + (getle pbuf - 0) ≤ byteLength := by
        simp only [runLeaf, not_or] at hlt hpage
        omega
      obtain ⟨i₁, pre₁, leaf₁, K₁, hmid₁, hreads₁⟩ := decodeSegments_reads hmid' hroom hseg
      obtain ⟨i₂, pre₂, leaf₂, K₂, n, hmid₂, hreads₂⟩ := ih hmid₁ h₅
      exact ⟨i₂, pre₂, leaf₂, K₂, _, hmid₂, hreads₁.trans hreads₂⟩
    · next hge =>
      cases h
      exact ⟨i, pre, leaf, K, 0, hmid, ⟨[], by simp⟩, rfl, fun v _ hv => hv⟩

/-- Claims without an interval left. -/
theorem eq_nil_of_knownOf {K : List Claim} (hu : (knownOf K).unopened.isEmpty)
    (he : (knownOf K).expected.isEmpty) : K = [] := by
  cases K with
  | nil => rfl
  | cons c K =>
    by_cases hc : 1 < c.1.2
    · rw [unopened_knownOf_cons hc] at hu
      cases hu
    · rw [expected_knownOf_cons (not_lt.mp hc)] at he
      cases he

end Pages

/-! ## The root -/

/-- The root hash of a natural. -/
def mnatRoot (n : Nat) : Hash :=
  siloNatRootHash sha256 (natBitLength n (byteLen n))
    (treeHash sha256 n (byteLen n) (0, leafCountOf (byteLen n)))

variable {sha256}

theorem decodeMnatHeader_bits {d : DecCfg} {h : MnatHeader} {s t : Stream PinTrack}
    (hrun : decodeMnatHeader d s = .ok (h, t)) : h.bitLength ≠ 0 ∧ h.bitLength ≤ uint64Max := by
  unfold decodeMnatHeader at hrun
  obtain ⟨_, _, -, h₁⟩ := run_bind_ok.1 hrun
  obtain ⟨-, h₂⟩ := run_reject_bind_ok.1 h₁
  obtain ⟨-, h₃⟩ := run_reject_bind_ok.1 h₂
  obtain ⟨-, h₄⟩ := run_reject_bind_ok.1 h₃
  obtain ⟨lenbuf, _, -, h₅⟩ := run_bind_ok.1 h₄
  obtain ⟨_, _, -, h₆⟩ := run_bind_ok.1 h₅
  obtain ⟨hbits, h₇⟩ := run_reject_bind_ok.1 h₆
  obtain ⟨-, h₈⟩ := run_reject_bind_ok.1 h₇
  cases h₈
  exact ⟨hbits, getle_lt⟩

/-- **The declared root is the root of the natural that is returned.** -/
theorem decodeMnat_root {d : DecCfg} {s t u : Stream PinTrack} {r : Val × NodeInfo} {h : MnatHeader}
    (hrun : decodeMnat sha256 d s = .ok (r, t)) (hhead : decodeMnatHeader d s = .ok (h, u)) :
    ∃ n, n ≠ 0 ∧ natBitLength n (byteLen n) ≤ uint64Max ∧ r = natResult d n ∧
      h.declaredRoot = mnatRoot sha256 n := by
  unfold decodeMnat at hrun
  rw [run_bind_eq hhead] at hrun
  obtain ⟨hbits0, hbits64⟩ := decodeMnatHeader_bits hhead
  obtain ⟨B, hB⟩ : ∃ B, B = h.bitLength / 8 + if h.bitLength % 8 ≠ 0 then 1 else 0 := ⟨_, rfl⟩
  dsimp only at hrun
  rw [← hB] at hrun
  obtain ⟨-, h₂⟩ := run_reject_bind_ok.1 hrun
  obtain ⟨-, h₃⟩ := run_reject_bind_ok.1 h₂
  have hB0 : B ≠ 0 := by
    rw [hB]
    split <;> omega
  have hcount : 0 < leafCountOf B := lt_leafCountOf.2 (by simp; omega)
  obtain ⟨f, u₁, hproof, h₄⟩ := run_bind_ok.1 h₃
  obtain ⟨K, bs, rfl, hmap, -, -, hproof'⟩ := decodeMnatProof_ok sha256 hcount hproof
  obtain ⟨a, u₂, hinit, h₅⟩ := run_bind_ok.1 h₄
  obtain ⟨-, rfl, rfl⟩ := natAccumInit_ok hinit
  obtain ⟨run, u₃, hpages, h₆⟩ := run_bind_ok.1 h₅
  have hstart : Midway B d (runOf B d 0 0 [] K) 0 [] [] K := by
    refine ⟨⟨0, by simp [runOf, runLeaf]⟩, Nat.zero_le _, by simp, .inl rfl, ?_⟩
    exact hmap ▸ OpeningSchedule.forest_spine mnatSplit_balanced hcount
  obtain ⟨i, pre, leaf, K', n, hmid, hreads⟩ := decodePages_reads hstart hpages
  obtain ⟨maxPage, rfl⟩ := hmid.state
  -- the closing checks: every leaf is complete, and no claim is left
  unfold decodeMnatClose at h₆
  obtain ⟨hclosed, h₇⟩ := run_reject_bind_ok.1 h₆
  obtain ⟨hbit, h₈⟩ := run_reject_bind_ok.1 h₇
  obtain ⟨-, h₉⟩ := run_reject_bind_ok.1 h₈
  simp only [runLeaf, not_or, not_not] at hclosed
  obtain ⟨rfl, hindex, hunopened, hexpected⟩ := hclosed
  obtain rfl := eq_nil_of_knownOf hunopened hexpected
  obtain rfl : i = leafCountOf B := hindex
  have hlen : pre.length = B := by
    have hge := leafCountOf_mul_ge B
    have := hmid.before
    omega
  have hne : pre ≠ [] := fun hnil => hB0 (by rw [← hlen, hnil]; rfl)
  have haccum : (runLeaf B d maxPage (leafCountOf B) pre [] []).accum = accumOf d pre.length pre := by
    simp [runLeaf, hlen]
  rw [haccum] at h₉
  obtain ⟨hz, hr⟩ := (natAccumFinish_ok hne).mp h₉
  cases hr
  have hbyte : byteLen (toNat pre) = B := by rw [byteLen_toNat hz, hlen]
  have hrange : natByteRange (toNat pre) 0 pre.length = pre := by
    rw [natByteRange_eq_bytes, Nat.pow_zero, Nat.div_one, bytes_toNat]
  have hbits : natBitLength (toNat pre) B = h.bitLength := by
    have hlast : (runLeaf B d maxPage (leafCountOf B) pre [] []).accum.last =
        natByteAt (toNat pre) (B - 1) := by
      rw [haccum, ← getLastD_natByteRange hB0, ← hlen, hrange]
      rfl
    obtain ⟨hlo, hhi⟩ := top_bit_bounds hbit
    rw [hlast] at hlo hhi
    rw [natBitLength, if_neg hB0, topBits_eq (UInt8.toNat_lt _) hlo hhi, hB]
    split <;> omega
  obtain ⟨-, hroot⟩ := hproof' (toNat pre) B rfl
    (hreads.forced (toNat pre) hrange (by simp [Holds]))
  refine ⟨toNat pre, ?_, by rwa [hbyte, hbits], rfl, by rw [mnatRoot, hbyte, hbits, hroot]⟩
  intro hzero
  rw [hzero] at hbyte
  exact hB0 (hbyte.symm.trans (byteLen_eq_zero_iff.2 rfl))

/-! ## The messages -/

/-- What `silo_leaf_hash` hashes. -/
def leafMessage (index : Nat) (bs : List UInt8) : List UInt8 :=
  "SILO-NAT-LEAF-v1".toUTF8.toList ++ [0] ++ bytes 8 index ++ bytes 2 bs.length ++ bs

/-- What `silo_node_hash` hashes. -/
def nodeMessage (start count : Nat) (left right : Hash) : List UInt8 :=
  "SILO-NAT-NODE-v1".toUTF8.toList ++ [0] ++ bytes 8 start ++ bytes 8 count ++
    left.bytes ++ right.bytes

/-- What `silo_nat_root_hash` hashes. -/
def rootMessage (bitLength : Nat) (tree : Hash) : List UInt8 :=
  "SILO-NAT-ROOT-v1".toUTF8.toList ++ [0] ++ bytes 8 bitLength ++ tree.bytes

theorem Hash.bytes_inj {a c : Hash} (h : a.bytes = c.bytes) : a = c := by
  cases a
  cases c
  simpa using h

theorem leafMessage_inj {index : Nat} {bs cs : List UInt8}
    (h : leafMessage index bs = leafMessage index cs) : bs = cs :=
  List.append_inj_right h (by simp)

theorem nodeMessage_inj {start count : Nat} {l r l' r' : Hash}
    (h : nodeMessage start count l r = nodeMessage start count l' r') : l = l' ∧ r = r' := by
  obtain ⟨h₁, hr⟩ := List.append_inj h (by simp [Hash.length_eq])
  exact ⟨Hash.bytes_inj (List.append_cancel_left h₁), Hash.bytes_inj hr⟩

theorem rootMessage_inj {bits bits' : Nat} {t t' : Hash} (hb : bits ≤ uint64Max)
    (hb' : bits' ≤ uint64Max) (h : rootMessage bits t = rootMessage bits' t') :
    bits = bits' ∧ t = t' := by
  obtain ⟨h₁, ht⟩ := List.append_inj h (by simp)
  refine ⟨?_, Hash.bytes_inj ht⟩
  have hbits := congrArg getle (List.append_cancel_left h₁)
  unfold uint64Max at hb hb'
  rwa [getle_bytes (le_refl 8) (by omega), getle_bytes (le_refl 8) (by omega)] at hbits

variable (sha256)

/-- The intervals of a tree of `c` leaves. -/
inductive InTree (c : Nat) : Interval → Prop where
  | root : InTree c (0, c)
  | left {i} : InTree c i → 1 < i.2 → InTree c (i.1, splitPower i.2)
  | right {i} : InTree c i → 1 < i.2 → InTree c (i.1 + splitPower i.2, i.2 - splitPower i.2)

/-- What is hashed for one interval. -/
def treeMessage (v byteLength : Nat) (i : Interval) : List UInt8 :=
  if 1 < i.2 then
    nodeMessage i.1 i.2 (treeHash sha256 v byteLength (i.1, splitPower i.2))
      (treeHash sha256 v byteLength (i.1 + splitPower i.2, i.2 - splitPower i.2))
  else leafMessage i.1 (mnatLeaf v byteLength i.1)

theorem treeHash_eq (v byteLength : Nat) (i : Interval) :
    treeHash sha256 v byteLength i = sha256 (treeMessage sha256 v byteLength i) := by
  unfold treeMessage
  split
  · next hi => exact treeHash_node sha256 v byteLength hi
  · next hi => exact treeHash_leaf sha256 v byteLength hi

/-- All that is hashed for the root of a natural. -/
def mnatMessages (n : Nat) : Set (List UInt8) :=
  {m | ∃ i, InTree (leafCountOf (byteLen n)) i ∧ m = treeMessage sha256 n (byteLen n) i} ∪
    {rootMessage (natBitLength n (byteLen n))
      (treeHash sha256 n (byteLen n) (0, leafCountOf (byteLen n)))}

variable {sha256}

/-- Equal hashes of an interval are hashes of equal bytes. -/
theorem treeHash_inj {n n' B : Nat} (hB : byteLen n = B) (hB' : byteLen n' = B)
    (hinj : Set.InjOn sha256 (mnatMessages sha256 n ∪ mnatMessages sha256 n')) {s c : Nat}
    (hc : 0 < c) (hmem : InTree (leafCountOf B) (s, c))
    (h : treeHash sha256 n B (s, c) = treeHash sha256 n' B (s, c)) :
    natByteRange n (s * leafBytes) (min (B - s * leafBytes) (c * leafBytes)) =
      natByteRange n' (s * leafBytes) (min (B - s * leafBytes) (c * leafBytes)) := by
  induction c using Nat.strongRecOn generalizing s with
  | _ c ih =>
    rw [treeHash_eq, treeHash_eq] at h
    have hmessage := hinj (.inl (.inl ⟨_, hB ▸ hmem, by rw [hB]⟩))
      (.inr (.inl ⟨_, hB' ▸ hmem, by rw [hB']⟩)) h
    unfold treeMessage at hmessage
    by_cases hc1 : 1 < c
    · rw [if_pos hc1, if_pos hc1] at hmessage
      obtain ⟨hl, hr⟩ := nodeMessage_inj hmessage
      have hpos := splitPower_pos hc1
      have hlt := splitPower_lt hc1
      have hleft := ih _ hlt hpos (hmem.left hc1) hl
      have hright := ih (c - splitPower c) (by omega) (by omega) (hmem.right hc1) hr
      -- the bytes of both halves, one after the other
      obtain ⟨k, hk⟩ : ∃ k, k = splitPower c := ⟨_, rfl⟩
      simp only [← hk] at hleft hright hlt hpos
      have hlen : min (B - s * leafBytes) (c * leafBytes) =
          min (B - s * leafBytes) (k * leafBytes) +
            min (B - (s + k) * leafBytes) ((c - k) * leafBytes) := by
        unfold leafBytes
        omega
      rw [hlen, natByteRange_add, natByteRange_add, hleft]
      refine congrArg (_ ++ ·) ?_
      by_cases hend : B ≤ (s + k) * leafBytes
      · rw [Nat.sub_eq_zero_of_le hend, Nat.zero_min]
        simp [natByteRange]
      · have hoff : s * leafBytes + min (B - s * leafBytes) (k * leafBytes) =
            (s + k) * leafBytes := by
          unfold leafBytes at *
          omega
        rw [hoff]
        exact hright
    · rw [if_neg hc1, if_neg hc1] at hmessage
      obtain rfl : c = 1 := by omega
      rw [one_mul]
      exact leafMessage_inj hmessage

/-- The root determines the natural. -/
theorem mnatRoot_inj {n n' : Nat} (hn : n ≠ 0) (hn' : n' ≠ 0)
    (hb : natBitLength n (byteLen n) ≤ uint64Max) (hb' : natBitLength n' (byteLen n') ≤ uint64Max)
    (hinj : Set.InjOn sha256 (mnatMessages sha256 n ∪ mnatMessages sha256 n'))
    (h : mnatRoot sha256 n = mnatRoot sha256 n') : n = n' := by
  obtain ⟨hbits, htree⟩ := rootMessage_inj hb hb' (hinj (.inl (.inr rfl)) (.inr (.inr rfl)) h)
  obtain ⟨k, hk, hbits₁, -, -⟩ := natBitLength_spec hn
  obtain ⟨k', hk', hbits₂, -, -⟩ := natBitLength_spec hn'
  have hlen : byteLen n = byteLen n' := by
    have := mt byteLen_eq_zero_iff.1 hn
    have := mt byteLen_eq_zero_iff.1 hn'
    omega
  rw [← hlen] at htree
  have hcount : 0 < leafCountOf (byteLen n) :=
    lt_leafCountOf.2 (by have := mt byteLen_eq_zero_iff.1 hn; simp; omega)
  have hrange := treeHash_inj rfl hlen.symm hinj hcount .root htree
  have hge := leafCountOf_mul_ge (byteLen n)
  rw [Nat.zero_mul, Nat.sub_zero, Nat.min_eq_left hge, ← natPayload_eq_range] at hrange
  rw [hlen, ← natPayload_eq_range] at hrange
  rw [← toNat_natPayload n, hrange, toNat_natPayload]

/-- **MNAT authentication.** An accepted stream declares the root of the natural it builds.
Two accepted streams with the same declared root build the same natural, unless two messages
that are hashed for it collide. -/
theorem mnat_authentic {d d' : DecCfg} (hbuild : d.build) (hbuild' : d'.build) {n n' : Nat}
    {info info' : NodeInfo} {h h' : MnatHeader} {s t u s' t' u' : Stream PinTrack}
    (hhead : decodeMnatHeader d s = .ok (h, u)) (hhead' : decodeMnatHeader d' s' = .ok (h', u'))
    (hrun : decodeMnat sha256 d s = .ok ((.nat n, info), t))
    (hrun' : decodeMnat sha256 d' s' = .ok ((.nat n', info'), t')) :
    h.declaredRoot = mnatRoot sha256 n ∧ h'.declaredRoot = mnatRoot sha256 n' ∧
      (h.declaredRoot = h'.declaredRoot →
        Set.InjOn sha256 (mnatMessages sha256 n ∪ mnatMessages sha256 n') → n = n') := by
  obtain ⟨m, hm, hbits, hr, hdeclared⟩ := decodeMnat_root hrun hhead
  obtain ⟨m', hm', hbits', hr', hdeclared'⟩ := decodeMnat_root hrun' hhead'
  obtain rfl : n = m := by simpa [natResult, hbuild] using congrArg Prod.fst hr
  obtain rfl : n' = m' := by simpa [natResult, hbuild'] using congrArg Prod.fst hr'
  refine ⟨hdeclared, hdeclared', fun hroot hinj => ?_⟩
  rw [hdeclared, hdeclared'] at hroot
  exact mnatRoot_inj hm hm' hbits hbits' hinj hroot

/-- The bytes of two leaves. -/
def twoLeaves : List UInt8 := List.replicate 1024 0 ++ [1]

/-- SHA-256 on the messages that are hashed for them: the leaves, their node and the root. -/
def sha256Two (m : List UInt8) : Hash :=
  if m.take 17 = "SILO-NAT-LEAF-v1".toUTF8.toList ++ [0] then
    if m.length = 1051 then
      ⟨[139, 34, 172, 239, 193, 106, 241, 55, 104, 216, 50, 28, 203, 23, 112, 241,
        95, 40, 203, 158, 109, 101, 232, 223, 82, 193, 242, 66, 253, 127, 7, 124], rfl⟩
    else
      ⟨[61, 100, 8, 78, 229, 86, 145, 35, 85, 214, 225, 117, 89, 188, 19, 200,
        85, 227, 151, 81, 143, 218, 26, 203, 26, 58, 83, 229, 191, 23, 100, 188], rfl⟩
  else if m.take 17 = "SILO-NAT-NODE-v1".toUTF8.toList ++ [0] then
    ⟨[15, 255, 61, 179, 93, 8, 255, 124, 203, 123, 159, 17, 37, 224, 116, 125,
      185, 78, 14, 76, 145, 31, 46, 9, 230, 236, 254, 250, 224, 42, 121, 157], rfl⟩
  else
    ⟨[82, 183, 104, 240, 114, 78, 90, 109, 188, 108, 60, 53, 120, 157, 200, 17,
      17, 111, 224, 206, 194, 143, 247, 170, 80, 84, 51, 95, 50, 46, 127, 219], rfl⟩

/-- The stream of two leaves: in one page, or in two pages with checksums and the first leaf
across them. -/
def streamTwo (split : Bool) : Stream PinTrack where
  rest := [if split then 1 else 0, 1, 1, 1, 32] ++ (sha256Two []).bytes ++
    (sha256Two (leafMessage 0 (twoLeaves.take 1024))).bytes ++
    (sha256Two (leafMessage 1 (twoLeaves.drop 1024))).bytes ++
    if split then
      [232, 3] ++ twoLeaves.take 1000 ++ [19, 110, 39, 29] ++
        [25, 0] ++ twoLeaves.drop 1000 ++ [3, 48, 105, 65]
    else [1, 4] ++ twoLeaves
  pos := 0
  aux := ⟨[], 0, []⟩

/-- The building mode, which does not insist on canonical streams. -/
def looseCfg : DecCfg :=
  { build := true, canonical := false, captureHeader := false, pins := [], resolved := [] }

/-- What a run returns, if it is a natural. -/
def natOf : Except String ((Val × NodeInfo) × Stream PinTrack) → Option Nat
  | .ok ((.nat n, _), _) => some n
  | _ => none

theorem natOf_eq {x : Except String ((Val × NodeInfo) × Stream PinTrack)} {n : Nat}
    (h : natOf x = some n) : ∃ info t, x = .ok ((.nat n, info), t) := by
  match x, h with
  | .ok ((.nat _, info), t), rfl => exact ⟨info, t, rfl⟩

/-- The declared root of a header that was read. -/
def rootOf : Except String (MnatHeader × Stream PinTrack) → Option Hash
  | .ok (h, _) => some h.declaredRoot
  | _ => none

theorem rootOf_eq {x : Except String (MnatHeader × Stream PinTrack)} {h : Hash}
    (hx : rootOf x = some h) : ∃ m t, x = .ok (m, t) ∧ m.declaredRoot = h := by
  match x, hx with
  | .ok (m, t), rfl => exact ⟨m, t, rfl, rfl⟩

theorem byteLen_twoLeaves : byteLen (toNat twoLeaves) = 1025 := by
  rw [byteLen_toNat (by decide +kernel), twoLeaves, List.length_append, List.length_replicate,
    List.length_singleton]

/-- The tree of two leaves has a node and the leaves. -/
theorem inTree_two {i : Interval} (hi : InTree 2 i) : i = (0, 2) ∨ i = (0, 1) ∨ i = (1, 1) := by
  have hsplit : splitPower 2 = 1 := by decide +kernel
  induction hi with
  | root => exact .inl rfl
  | left _ h ih =>
    rcases ih with rfl | rfl | rfl
    · exact .inr (.inl (by rw [hsplit]))
    · exact absurd h (by decide)
    · exact absurd h (by decide)
  | right _ h ih =>
    rcases ih with rfl | rfl | rfl
    · exact .inr (.inr (by simp only [hsplit]))
    · exact absurd h (by decide)
    · exact absurd h (by decide)

/-- No two of the four messages collide. -/
theorem sha256Two_injOn : Set.InjOn sha256Two (mnatMessages sha256Two (toNat twoLeaves)) := by
  have hcount : leafCountOf 1025 = 2 := rfl
  -- the messages in order, whose hashes differ
  obtain ⟨ms, hms⟩ : ∃ ms, ms =
      [treeMessage sha256Two (toNat twoLeaves) 1025 (0, 2),
        treeMessage sha256Two (toNat twoLeaves) 1025 (0, 1),
        treeMessage sha256Two (toNat twoLeaves) 1025 (1, 1),
        rootMessage (natBitLength (toNat twoLeaves) 1025)
          (treeHash sha256Two (toNat twoLeaves) 1025 (0, 2))] := ⟨_, rfl⟩
  have hnodup : (ms.map sha256Two).Nodup := by
    subst hms
    decide +kernel
  have hmem : mnatMessages sha256Two (toNat twoLeaves) ⊆ {m | m ∈ ms} := by
    rintro m (⟨i, hi, rfl⟩ | rfl)
    · rw [byteLen_twoLeaves, hcount] at hi
      rcases inTree_two hi with rfl | rfl | rfl <;> simp [hms, byteLen_twoLeaves]
    · simp [hms, hcount, byteLen_twoLeaves]
  exact fun x hx y hy => List.inj_on_of_nodup_map hnodup (hmem hx) (hmem hy)

/-- In one page, and with the first leaf across two pages with checksums. -/
theorem mnat_authentic_pages : ∃ n n' info info' t t',
    decodeMnat sha256Two looseCfg (streamTwo false) = .ok ((.nat n, info), t) ∧
      decodeMnat sha256Two looseCfg (streamTwo true) = .ok ((.nat n', info'), t') ∧
      n = n' ∧ mnatRoot sha256Two n = sha256Two [] := by
  obtain ⟨info, t, hrun⟩ := natOf_eq (n := toNat twoLeaves)
    (x := decodeMnat sha256Two looseCfg (streamTwo false)) (by decide +kernel)
  obtain ⟨info', t', hrun'⟩ := natOf_eq (n := toNat twoLeaves)
    (x := decodeMnat sha256Two looseCfg (streamTwo true)) (by decide +kernel)
  obtain ⟨h, u, hhead, hroot⟩ := rootOf_eq (h := sha256Two [])
    (x := decodeMnatHeader looseCfg (streamTwo false)) (by decide +kernel)
  obtain ⟨h', u', hhead', hroot'⟩ := rootOf_eq (h := sha256Two [])
    (x := decodeMnatHeader looseCfg (streamTwo true)) (by decide +kernel)
  obtain ⟨hdeclared, -, hsame⟩ := mnat_authentic rfl rfl hhead hhead' hrun hrun'
  refine ⟨_, _, info, info', t, t', hrun, hrun', hsame (hroot.trans hroot'.symm) ?_,
    hdeclared.symm.trans hroot⟩
  rw [Set.union_self]
  exact sha256Two_injOn

end Enki.Silo
