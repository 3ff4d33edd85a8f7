import Enki.Silo.Natural

/-!
# Merkle-paged naturals

`mnatBytes` is the canonical stream of a natural above the cutover: its header,
the initial proof, and per page the leaves, each followed by the two child
hashes of the interval opened after it. The schedule of openings is
`OpeningSchedule`; `treeHash` is the hash of an interval in the tree the writer
builds. The writer emits exactly `mnatBytes`.
-/

namespace Enki.Silo

open LittleEndian ExceptState StreamParser BoundedWriter
open OpeningSchedule (Interval Tiles Forest openFirst opened inners leaves spine afterLeaves)

/-- Leaves of a natural of `byteLength` bytes. -/
def leafCountOf (byteLength : Nat) : Nat := (byteLength + leafBytes - 1) / leafBytes

theorem lt_leafCountOf {byteLength i : Nat} :
    i < leafCountOf byteLength ↔ i * leafBytes < byteLength := by
  unfold leafCountOf leafBytes
  omega

/-- Leaves of a full page. -/
def pageLeaves : Nat := 64

/-- Pages end at leaf boundaries. -/
theorem page_end {byteLength i m : Nat} (hi : i * leafBytes < byteLength)
    (hm : m = min (leafCountOf byteLength - i) pageLeaves) :
    i * leafBytes + min (byteLength - i * leafBytes) pageBytes
      = min ((i + m) * leafBytes) byteLength := by
  unfold leafCountOf leafBytes pageLeaves at hm
  unfold leafBytes at hi
  show i * 1024 + min (byteLength - i * 1024) 65536 = min ((i + m) * 1024) byteLength
  omega

/-- A page has at least one leaf. -/
theorem page_leaves {byteLength i m : Nat} (hi : i < leafCountOf byteLength)
    (hm : m = min (leafCountOf byteLength - i) pageLeaves) :
    0 < m ∧ i + m ≤ leafCountOf byteLength := by
  unfold pageLeaves at hm
  omega

variable (sha256 : List UInt8 → Hash) (v byteLength : Nat)

/-! ## The stream -/

/-- The hash of an interval of leaves. -/
def treeHash (i : Interval) : Hash := (mnatBuild sha256 v byteLength i.1 i.2).hash

/-- The child hashes written when the leftmost inner interval of `F` opens. -/
def openingBytes (F : List Interval) : List UInt8 :=
  match openFirst mnatSplit F with
  | none => []
  | some (i, _) => (mnatSplit.halves i).flatMap fun j => (treeHash sha256 v byteLength j).bytes

/-- `m` leaves from leaf `i` on, with the openings between them. -/
def leafRun : Nat → Nat → List Interval → List UInt8
  | 0, _, _ => []
  | m + 1, i, F =>
    mnatLeaf v byteLength i ++ openingBytes sha256 v byteLength F.tail ++
      leafRun m (i + 1) (opened mnatSplit F.tail)

/-- The pages from leaf `i` on. -/
def pagesRun (pageWidth i : Nat) (F : List Interval) : List UInt8 :=
  if _h : i < leafCountOf byteLength then
    let m := min (leafCountOf byteLength - i) pageLeaves
    bytes pageWidth (min (byteLength - i * leafBytes) pageBytes) ++
      leafRun sha256 v byteLength m i F ++
      pagesRun pageWidth (i + m) (afterLeaves mnatSplit m F)
  else []
termination_by leafCountOf byteLength - i
decreasing_by
  unfold pageLeaves
  omega

/-- The siblings down the left spine, root first, as `(start, count)`. -/
def spineSiblings (count : Nat) : List Interval :=
  if _h : 1 < count then
    (splitPower count, count - splitPower count) :: spineSiblings (splitPower count)
  else []
termination_by count
decreasing_by exact mnatSplit.lt _h

/-- The canonical stream after the opcode. -/
def mnatPayload (n : Nat) : List UInt8 :=
  let byteLength := byteLen n
  let leafCount := leafCountOf byteLength
  let bitLength := natBitLength n byteLength
  let pageWidth := widthU64 (if byteLength < pageBytes then byteLength else pageBytes)
  [0, UInt8.ofNat (widthU64 bitLength - 1), UInt8.ofNat (pageWidth - 1)] ++
    bytes (widthU64 bitLength) bitLength ++
    (siloNatRootHash sha256 bitLength (treeHash sha256 n byteLength (0, leafCount))).bytes ++
    (treeHash sha256 n byteLength (0, 1)).bytes ++
    ((spineSiblings leafCount).flatMap fun i => (treeHash sha256 n byteLength i).bytes) ++
    pagesRun sha256 n byteLength pageWidth 0 (spine mnatSplit 0 leafCount)

/-! ## The tree -/

theorem treeHash_leaf {i : Interval} (hi : ¬ 1 < i.2) :
    treeHash sha256 v byteLength i
      = siloLeafHash sha256 i.1 (mnatLeaf v byteLength i.1) := by
  rw [treeHash, mnatBuild, dif_neg hi]
  rfl

theorem mnatBuild_node {i : Interval} (hi : 1 < i.2) :
    mnatBuild sha256 v byteLength i.1 i.2 = .node i.1 i.2
      (siloNodeHash sha256 i.1 i.2 (treeHash sha256 v byteLength (i.1, splitPower i.2))
        (treeHash sha256 v byteLength (i.1 + splitPower i.2, i.2 - splitPower i.2)))
      (mnatBuild sha256 v byteLength i.1 (splitPower i.2))
      (mnatBuild sha256 v byteLength (i.1 + splitPower i.2) (i.2 - splitPower i.2)) := by
  rw [mnatBuild, dif_pos hi]
  rfl

theorem treeHash_node {i : Interval} (hi : 1 < i.2) :
    treeHash sha256 v byteLength i
      = siloNodeHash sha256 i.1 i.2 (treeHash sha256 v byteLength (i.1, splitPower i.2))
          (treeHash sha256 v byteLength (i.1 + splitPower i.2, i.2 - splitPower i.2)) := by
  rw [treeHash, mnatBuild_node sha256 v byteLength hi]
  rfl

theorem start_mnatBuild (s c : Nat) : (mnatBuild sha256 v byteLength s c).start = s := by
  rw [mnatBuild]
  split <;> rfl

theorem count_mnatBuild {s c : Nat} (hc : 0 < c) :
    (mnatBuild sha256 v byteLength s c).count = c := by
  rw [mnatBuild]
  split
  · rfl
  · show 1 = c
    omega

/-- `nodes[0]` is the leaf at the start. -/
theorem firstHash_mnatBuild {s c : Nat} (hc : 0 < c) :
    (mnatBuild sha256 v byteLength s c).firstHash = treeHash sha256 v byteLength (s, 1) := by
  induction c using Nat.strongRecOn with
  | _ c ih =>
    by_cases h : 1 < c
    · rw [mnatBuild_node sha256 v byteLength (i := (s, c)) h]
      exact ih _ (splitPower_lt h) (splitPower_pos h)
    · obtain rfl : c = 1 := by omega
      rw [treeHash_leaf sha256 v byteLength (by simp), mnatBuild, dif_neg h]
      rfl

/-- Siblings along the left spine are the rest of the starting forest. -/
theorem spine_eq (c : Nat) (hc : 0 < c) :
    spine mnatSplit 0 c = (0, 1) :: (spineSiblings c).reverse := by
  induction c using Nat.strongRecOn with
  | _ c ih =>
    rw [spine, spineSiblings]
    by_cases h : 1 < c
    · have hleft : mnatSplit.left c = splitPower c := rfl
      rw [dif_pos h, dif_pos h, hleft, ih _ (splitPower_lt h) (splitPower_pos h)]
      simp
    · obtain rfl : c = 1 := by omega
      rfl

/-! ## The writer -/

/-- The frontier of the writer: the trees of the inner intervals. -/
def nodeFrontier (F : List Interval) : List MnatTree :=
  (inners F).map fun i => mnatBuild sha256 v byteLength i.1 i.2

theorem queueInner_front {i : Interval} {F : List Interval} (hi : 0 < i.2)
    (hF : ∀ j ∈ F, i.1 < j.1) :
    queueInner (mnatBuild sha256 v byteLength i.1 i.2) (nodeFrontier sha256 v byteLength F)
      = nodeFrontier sha256 v byteLength (i :: F) := by
  unfold queueInner
  rw [count_mnatBuild sha256 v byteLength hi]
  by_cases h : 1 < i.2
  · rw [if_pos h]
    have hcons : nodeFrontier sha256 v byteLength (i :: F)
        = mnatBuild sha256 v byteLength i.1 i.2 :: nodeFrontier sha256 v byteLength F := by
      simp [nodeFrontier, inners, h]
    rw [hcons]
    cases hfr : nodeFrontier sha256 v byteLength F with
    | nil => rfl
    | cons t ts =>
      have ht : t ∈ nodeFrontier sha256 v byteLength F := by simp [hfr]
      obtain ⟨j, hj, rfl⟩ := List.mem_map.mp ht
      have hlt := hF j (List.mem_filter.mp hj).1
      rw [nodeQueueInsert, start_mnatBuild, start_mnatBuild, if_neg (by omega)]
  · rw [if_neg h]
    simp [nodeFrontier, inners, h]

theorem queueInner_second {i j : Interval} {F : List Interval} (hj : 0 < j.2)
    (hij : i.1 < j.1) (hF : ∀ k ∈ F, j.1 < k.1) :
    queueInner (mnatBuild sha256 v byteLength j.1 j.2) (nodeFrontier sha256 v byteLength (i :: F))
      = nodeFrontier sha256 v byteLength (i :: j :: F) := by
  have hfront := queueInner_front sha256 v byteLength hj hF
  by_cases h : 1 < i.2
  · have hcons : ∀ G, nodeFrontier sha256 v byteLength (i :: G)
        = mnatBuild sha256 v byteLength i.1 i.2 :: nodeFrontier sha256 v byteLength G := by
      intro G
      simp [nodeFrontier, inners, h]
    rw [hcons, hcons, ← hfront]
    unfold queueInner
    split
    · rw [nodeQueueInsert, start_mnatBuild, start_mnatBuild, if_pos hij]
    · rfl
  · have hcons : ∀ G, nodeFrontier sha256 v byteLength (i :: G)
        = nodeFrontier sha256 v byteLength G := by
      intro G
      simp [nodeFrontier, inners, h]
    rw [hcons, hcons, hfront]

/-- The initial proof is the sibling hashes; the frontier is the inner part of
the starting forest. -/
theorem emits_encodeSpine (c : Nat) (hc : 0 < c) (F : List Interval) (hF : Tiles c F) :
    SiloEmits
      (encodeSpine (mnatBuild sha256 v byteLength 0 c) (nodeFrontier sha256 v byteLength F))
      ((spineSiblings c).flatMap fun i => (treeHash sha256 v byteLength i).bytes)
      (nodeFrontier sha256 v byteLength (spine mnatSplit 0 c ++ F)) := by
  induction c using Nat.strongRecOn generalizing F with
  | _ c ih =>
    by_cases h : 1 < c
    · have hk := splitPower_pos h
      have hkc := splitPower_lt h
      have hstart := hF.start_le
      rw [mnatBuild_node sha256 v byteLength (i := (0, c)) h, spineSiblings, dif_pos h,
        List.flatMap_cons]
      simp only [encodeSpine, Nat.zero_add]
      refine Emits.bind (emits_swrite _) ?_
      rw [queueInner_front sha256 v byteLength (i := (splitPower c, c - splitPower c))
        (by show 0 < c - splitPower c; omega)
        (fun j hj => by have := hstart j hj; show splitPower c < j.1; omega)]
      rw [spine, dif_pos h, Nat.zero_add, List.append_assoc]
      refine ih _ hkc hk _ ⟨rfl, by show 0 < c - splitPower c; omega, ?_⟩
      rwa [show splitPower c + (c - splitPower c) = c by omega]
    · obtain rfl : c = 1 := by omega
      have hspine : nodeFrontier sha256 v byteLength (spine mnatSplit 0 1 ++ F)
          = nodeFrontier sha256 v byteLength F := by
        rw [spine, dif_neg h]
        simp [nodeFrontier, inners]
      rw [hspine, mnatBuild, dif_neg h, spineSiblings, dif_neg h]
      exact Emits.pure _

/-- One opening. -/
theorem emits_encodeOpening {s : Nat} {F : List Interval} (hF : Tiles s F) :
    SiloEmits (encodeOpening (nodeFrontier sha256 v byteLength F))
      (openingBytes sha256 v byteLength F)
      (nodeFrontier sha256 v byteLength (opened mnatSplit F)) := by
  unfold openingBytes opened
  cases ho : openFirst mnatSplit F with
  | none =>
    have hnil : nodeFrontier sha256 v byteLength F = [] := by
      rw [nodeFrontier, OpeningSchedule.openFirst_none mnatSplit ho, List.map_nil]
    simp only [Option.map_none, Option.getD_none, hnil]
    exact Emits.pure []
  | some r =>
    obtain ⟨A, B, rfl, hG, hi, hA⟩ := OpeningSchedule.openFirst_some mnatSplit ho
    obtain ⟨⟨a, c⟩, G⟩ := r
    have hk := splitPower_pos hi
    have hkc := splitPower_lt hi
    have hend := hF.end_le
    have hskip : ∀ H, nodeFrontier sha256 v byteLength (A ++ H)
        = nodeFrontier sha256 v byteLength H := by
      intro H
      simp only [nodeFrontier, inners] at hA ⊢
      rw [List.filter_append, hA, List.nil_append]
    have hcons : nodeFrontier sha256 v byteLength ((a, c) :: B)
        = mnatBuild sha256 v byteLength a c :: nodeFrontier sha256 v byteLength B := by
      simp only at hi
      simp [nodeFrontier, inners, hi]
    simp only at hG hk hkc
    subst hG
    have hqueue : queueInner (mnatBuild sha256 v byteLength (a + splitPower c) (c - splitPower c))
        (queueInner (mnatBuild sha256 v byteLength a (splitPower c))
          (nodeFrontier sha256 v byteLength B))
        = nodeFrontier sha256 v byteLength (mnatSplit.halves (a, c) ++ B) := by
      rw [queueInner_front sha256 v byteLength (i := (a, splitPower c)) hk
        (fun j hj => by have := hend j hj; simp only at this ⊢; omega)]
      exact queueInner_second sha256 v byteLength (i := (a, splitPower c))
        (j := (a + splitPower c, c - splitPower c)) (by simp only; omega) (by simp only; omega)
        (fun j hj => by have := hend j hj; simp only at this ⊢; omega)
    rw [hskip, hcons, mnatBuild_node sha256 v byteLength (i := (a, c)) hi]
    simp only [encodeOpening, Option.map_some, Option.getD_some, List.append_assoc, hskip]
    rw [hqueue]
    show SiloEmits _ ((treeHash sha256 v byteLength (a, splitPower c)).bytes ++
      ((treeHash sha256 v byteLength (a + splitPower c, c - splitPower c)).bytes ++ [])) _
    refine Emits.bind (emits_swrite _) ?_
    refine Emits.bind (emits_swrite _) ?_
    exact Emits.pure _

/-- The segments of a page from a leaf boundary on are its leaves. -/
theorem emits_encodeSegments {pageOff pageLen : Nat} (m : Nat) {i inPage : Nat}
    {F : List Interval} (hm : i + m ≤ leafCountOf byteLength)
    (hend : pageOff + pageLen = min ((i + m) * leafBytes) byteLength)
    (hoff : pageOff + inPage = min (i * leafBytes) byteLength)
    (hF : Forest mnatSplit (leafCountOf byteLength) i F) :
    SiloEmits
      (encodeSegments v byteLength pageOff pageLen inPage ⟨0, by decide⟩
        (nodeFrontier sha256 v byteLength F))
      (leafRun sha256 v byteLength m i F)
      (nodeFrontier sha256 v byteLength (afterLeaves mnatSplit m F), ⟨0, by decide⟩) := by
  induction m generalizing i inPage F with
  | zero =>
    rw [encodeSegments, dif_neg (by rw [Nat.add_zero] at hend; omega)]
    exact Emits.pure _
  | succ m ih =>
    obtain ⟨G, rfl, hG⟩ := hF.step (by omega)
    have hi : i * leafBytes < byteLength := lt_leafCountOf.1 (by omega)
    -- the segment is the whole leaf, because pages end at leaf boundaries
    have hseg : min (pageLen - inPage) (leafBytes - 0)
        = min (byteLength - i * leafBytes) leafBytes := by
      unfold leafBytes at *
      omega
    have hfront : nodeFrontier sha256 v byteLength ((i, 1) :: G)
        = nodeFrontier sha256 v byteLength G := by
      simp [nodeFrontier, inners]
    rw [encodeSegments, dif_pos (by unfold leafBytes at *; omega), hfront]
    have hstart : pageOff + inPage = i * leafBytes := by omega
    simp only [hseg, hstart, leafRun, afterLeaves, List.tail_cons, List.append_assoc]
    have hleaf := emits_encodeNatRange v (i * leafBytes)
      (i * leafBytes + min (byteLength - i * leafBytes) leafBytes)
    rw [Nat.add_sub_cancel_left] at hleaf
    refine Emits.bind hleaf ?_
    rw [dif_neg (by omega)]
    refine Emits.bind (emits_encodeOpening sha256 v byteLength hF.tiles.2.2) ?_
    refine ih (by omega) ?_ ?_ hG
    · rw [show i + 1 + m = i + (m + 1) by omega]
      exact hend
    · unfold leafBytes at *
      omega

theorem emits_encodePages (pageWidth : Nat) {i payloadOff : Nat} {F : List Interval}
    (hi : i ≤ leafCountOf byteLength) (hoff : payloadOff = min (i * leafBytes) byteLength)
    (hF : Forest mnatSplit (leafCountOf byteLength) i F) :
    SiloEmits
      (encodePages v byteLength pageWidth payloadOff ⟨0, by decide⟩
        (nodeFrontier sha256 v byteLength F))
      (pagesRun sha256 v byteLength pageWidth i F) [] := by
  induction hk : leafCountOf byteLength - i using Nat.strongRecOn generalizing i payloadOff F with
  | _ k ih =>
    subst hk
    rw [pagesRun]
    split
    · next h =>
      have hlt := lt_leafCountOf.1 h
      rw [encodePages, dif_pos (by omega)]
      have hoff' : payloadOff = i * leafBytes := by omega
      subst hoff'
      obtain ⟨m, hm⟩ : ∃ m, m = min (leafCountOf byteLength - i) pageLeaves := ⟨_, rfl⟩
      have hpage := page_end hlt hm
      obtain ⟨hm0, hmle⟩ := page_leaves h hm
      simp only [← hm]
      rw [List.append_assoc]
      refine Emits.bind (emits_swriteLe _ _) ?_
      refine Emits.bind (emits_encodeSegments sha256 v byteLength m hmle hpage
        (by rw [Nat.add_zero]; exact hoff) hF) ?_
      exact ih (leafCountOf byteLength - (i + m)) (by omega) hmle hpage
        (hF.afterLeaves m hmle) rfl
    · next h =>
      have hge := mt lt_leafCountOf.2 h
      obtain rfl : i = leafCountOf byteLength := by omega
      rw [hF.eq_nil, encodePages, dif_neg (by omega)]
      exact Emits.pure _

/-- **The writer emits the canonical stream** of a nonzero natural. -/
theorem emits_encodeMnat {n : Nat} (hn : n ≠ 0) :
    SiloEmits (encodeMnat sha256 n (byteLen n)) (0xf9 :: mnatPayload sha256 n) () := by
  have hlen : byteLen n ≠ 0 := mt byteLen_eq_zero_iff.1 hn
  have hcount : 0 < leafCountOf (byteLen n) := lt_leafCountOf.2 (by simp; omega)
  have hF := OpeningSchedule.forest_spine mnatSplit_balanced hcount
  have hspine := emits_encodeSpine sha256 n (byteLen n) _ hcount [] trivial
  rw [List.append_nil] at hspine
  unfold encodeMnat mnatPayload
  simp only [List.append_assoc, ← leafCountOf.eq_1]
  rw [firstHash_mnatBuild sha256 n (byteLen n) hcount]
  refine Emits.bind (emits_swriteU8 0xf9) ?_
  refine Emits.bind (emits_swriteU8 0) ?_
  refine Emits.bind (emits_swriteU8 _) ?_
  refine Emits.bind (emits_swriteU8 _) ?_
  refine Emits.bind (emits_swriteLe _ _) ?_
  refine Emits.bind (emits_swrite _) ?_
  refine Emits.bind (emits_swrite _) ?_
  refine Emits.bind hspine ?_
  rw [← List.append_nil (pagesRun _ _ _ _ _ _)]
  refine Emits.bind (emits_encodePages sha256 n (byteLen n) _ (Nat.zero_le _) (by simp) hF) ?_
  exact Emits.pure ()

end Enki.Silo
