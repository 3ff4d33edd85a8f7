import Enki.Silo.MnatRead

/-!
# The schedule of an MNAT

The writer and the reader open one interval after each completed leaf, the leftmost
that is known and not a leaf. `known n i` are the intervals known before leaf `i` of
`n`. The hash of leaf `i` is then always among them, an opened interval starts behind
the completed leaf, and after the last leaf none is left. So neither side gets stuck:
the errors in `starved` and the writer's are never seen.
-/

namespace Enki.Silo

open LittleEndian ExceptState StreamParser BoundedWriter OpeningSchedule

variable (sha256 : List UInt8 → Hash)

/-- The intervals known before leaf `i` of `n`: at first those of the initial proof. -/
def known (n i : Nat) : List Interval := afterLeaves mnatSplit i (spine mnatSplit 0 n)

theorem forest_known {n i : Nat} (hn : 0 < n) (hi : i ≤ n) : Forest mnatSplit n i (known n i) := by
  have h := (forest_spine mnatSplit_balanced hn).afterLeaves i (by omega)
  rwa [Nat.zero_add] at h

/-- After a leaf, one interval is opened. -/
theorem known_succ (n i : Nat) : known n (i + 1) = opened mnatSplit (known n i).tail := by
  unfold known
  generalize spine mnatSplit 0 n = F
  induction i generalizing F with
  | zero => rfl
  | succ i ih => exact ih _

/-- What `decode_mnat` reports when the schedule leaves it without a hash, with an
interval behind the leaf or twice, or with something left. -/
def starved : List String :=
  ["MNAT leaf completed without an expected hash", "MNAT expansion points behind completed leaf",
    "duplicate MNAT expected leaf", "duplicate MNAT unopened interval",
    "inconsistent MNAT initial frontier", "MNAT traversal did not close"]

/-- A natural past the limit of the runtime is turned away at once. -/
theorem decodeMnat_large (d : DecCfg) (p : PinTrack) {n : Nat} (hmax : maxNatBytes < byteLen n)
    (hbits : natBitLength n (byteLen n) ≤ uint64Max) (rest : List UInt8) (pos : Nat) :
    decodeMnat sha256 d ⟨mnatPayload sha256 n ++ rest, pos, p⟩ =
      .error "MNAT natural exceeds runtime limit" := by
  have hlen : byteLen n ≠ 0 := by omega
  obtain ⟨k, hk, hbits', -, -⟩ := natBitLength_spec (mt byteLen_eq_zero_iff.2 hlen)
  obtain ⟨hbits0, hbyte, -⟩ := byteLength_of_bits hk hlen hbits'
  have hpage : min (byteLen n) pageBytes ≤ uint64Max :=
    le_trans (Nat.min_le_right _ _) (by decide)
  have hheader := parses_decodeMnatHeader d p (h := mnatHeader sha256 n) rfl hbits0 hbits
    (widthU64_pos _) (widthU64_le hpage)
  rw [mnatPayload_eq, List.append_assoc, List.append_assoc, decodeMnat,
    run_bind_eq (hheader _ _)]
  have hbyte' : ((mnatHeader sha256 n).bitLength / 8
      + if (mnatHeader sha256 n).bitLength % 8 ≠ 0 then 1 else 0) = byteLen n := hbyte
  dsimp only
  rw [hbyte']
  refine run_bind_error ?_
  rw [reject, if_pos hmax]
  rfl

/-- What holds of the schedule, the writer and the reader. -/
structure NeverStarves : Prop where
  /-- The front of what is known before leaf `i` is that leaf. -/
  available : ∀ n i, i < n → ∃ later, known n i = (i, 1) :: later
  /-- The interval that is opened after leaf `i` starts behind it. -/
  behind : ∀ n i, i < n → ∀ node rest,
    openFirst mnatSplit (known n i).tail = some (node, rest) → i < node.1
  closes : ∀ n, 0 < n → known n n = []
  /-- The writer starts with the inner intervals that are known at first. -/
  starts : ∀ v byteLength, 0 < leafCountOf byteLength →
    SiloEmits (encodeSpine (mnatBuild sha256 v byteLength 0 (leafCountOf byteLength)) [])
      ((spineSiblings (leafCountOf byteLength)).flatMap fun i => (treeHash sha256 v byteLength i).bytes)
      (nodeFrontier sha256 v byteLength (known (leafCountOf byteLength) 0))
  /-- After leaf `i` it goes on to those that are known next. -/
  opens : ∀ v byteLength i, i < leafCountOf byteLength →
    SiloEmits (encodeOpening (nodeFrontier sha256 v byteLength (known (leafCountOf byteLength) i)))
      (openingBytes sha256 v byteLength (known (leafCountOf byteLength) i).tail)
      (nodeFrontier sha256 v byteLength (known (leafCountOf byteLength) (i + 1)))
  /-- The reader starts with the hashes of what is known at first. -/
  proves : ∀ v byteLength h p, 0 < leafCountOf byteLength →
    h.declaredRoot = siloNatRootHash sha256 h.bitLength
      (treeHash sha256 v byteLength (0, leafCountOf byteLength)) →
    Parses (decodeMnatProof sha256 h (leafCountOf byteLength)) p (proofBytes sha256 v byteLength)
      (knownOf (trueClaims sha256 v byteLength (known (leafCountOf byteLength) 0))) p
  /-- Leaf `i` is checked against its hash there, and the reader goes on to the hashes of
  what is known next. -/
  completes : ∀ v byteLength d maxPage crc p i, i < leafCountOf byteLength →
    Parses (completeLeaf sha256 crc
        (runLeaf byteLength d maxPage i (natByteRange v 0 (min (i * leafBytes) byteLength))
          (mnatLeaf v byteLength i)
          (trueClaims sha256 v byteLength (known (leafCountOf byteLength) i)))) p
      (openingBytes sha256 v byteLength (known (leafCountOf byteLength) i).tail)
      (runAt sha256 v byteLength d maxPage (i + 1) (known (leafCountOf byteLength) (i + 1)),
        crc32cUpdate crc (openingBytes sha256 v byteLength (known (leafCountOf byteLength) i).tail)) p
  /-- Where there is room, the writer succeeds. -/
  writes : ∀ n, natCutover < byteLen n → ∀ w : List UInt8,
    w.length + (mnatPayload sha256 n).length < uint64Max →
    encodeMnat sha256 n (byteLen n) w = .ok ((), w ++ 0xf9 :: mnatPayload sha256 n)
  writer : ∀ n, natCutover < byteLen n → ∀ w : List UInt8, w.length ≤ uint64Max →
    encodeMnat sha256 n (byteLen n) w ≠ .error "internal MNAT frontier did not close"
  reader : ∀ n, natCutover < byteLen n → natBitLength n (byteLen n) ≤ uint64Max →
    ∀ w out : List UInt8, w.length ≤ uint64Max →
      encodeMnat sha256 n (byteLen n) w = .ok ((), w ++ 0xf9 :: out) →
      ∀ d rest pos p e, decodeMnat sha256 d ⟨out ++ rest, pos, p⟩ = .error e → e ∉ starved
  accepts : ∀ n, natCutover < byteLen n → byteLen n ≤ maxNatBytes →
    ∀ w out : List UInt8, w.length ≤ uint64Max →
      encodeMnat sha256 n (byteLen n) w = .ok ((), w ++ 0xf9 :: out) →
      ∀ d rest pos p, ∃ r s, decodeMnat sha256 d ⟨out ++ rest, pos, p⟩ = .ok (r, s) ∧ s.rest = rest

/-- The writer's output is the canonical stream. -/
theorem encodeMnat_out {n : Nat} (hn : natCutover < byteLen n) {w out : List UInt8}
    (hw : w.length ≤ uint64Max)
    (h : encodeMnat sha256 n (byteLen n) w = .ok ((), w ++ 0xf9 :: out)) :
    out = mnatPayload sha256 n := by
  have hlen : byteLen n ≠ 0 := by omega
  have hemits := emits_encodeMnat sha256 (mt byteLen_eq_zero_iff.2 hlen)
  exact (List.cons.inj (List.append_cancel_left (hemits.run hw h).2.1)).2

/-- **The MNAT schedule never starves.** -/
theorem mnat_never_starves : NeverStarves sha256 where
  available n i hi := by
    obtain ⟨later, h, -⟩ := (forest_known (by omega) hi.le).step hi
    exact ⟨later, h⟩
  behind n i hi node rest hopen := by
    have hF := forest_known (by omega) hi.le
    obtain ⟨later, h, -⟩ := hF.step hi
    rw [h, List.tail_cons] at hopen
    obtain ⟨A, B, rfl, -⟩ := openFirst_some mnatSplit hopen
    have htiles := hF.tiles
    rw [h] at htiles
    have hbound := htiles.2.2
    have := (tiles_append.1 hbound).2.1
    omega
  closes n hn := (forest_known hn le_rfl).eq_nil
  starts v byteLength hcount := by
    have h := emits_encodeSpine sha256 v byteLength _ hcount [] trivial
    rw [List.append_nil] at h
    exact h
  opens v byteLength i hi := by
    have hF := forest_known (by omega) hi.le
    obtain ⟨later, h, -⟩ := hF.step hi
    have htiles := hF.tiles
    rw [h] at htiles
    have hfront : nodeFrontier sha256 v byteLength ((i, 1) :: later)
        = nodeFrontier sha256 v byteLength later := by
      simp [nodeFrontier, inners]
    rw [known_succ, h, hfront, List.tail_cons]
    exact emits_encodeOpening sha256 v byteLength htiles.2.2
  proves v byteLength h p hcount hroot := parses_decodeMnatProof sha256 p hcount hroot
  completes v byteLength d maxPage crc p i hi := by
    have hF := forest_known (by omega) hi.le
    obtain ⟨later, h, -⟩ := hF.step hi
    have htiles := hF.tiles
    rw [h] at htiles
    rw [known_succ, h, List.tail_cons]
    exact parses_completeLeaf sha256 v byteLength d maxPage crc p (lt_leafCountOf.1 hi) htiles.2.2
  writes n hn w hroom := by
    have hlen : byteLen n ≠ 0 := by omega
    have hemits := emits_encodeMnat sha256 (mt byteLen_eq_zero_iff.2 hlen)
    refine hemits.run_of_fits ?_
    rw [List.length_cons]
    omega
  writer n hn w hw herr := by
    have hlen : byteLen n ≠ 0 := by omega
    rw [emits_encodeMnat sha256 (mt byteLen_eq_zero_iff.2 hlen) w hw] at herr
    split at herr
    · cases herr
    · exact absurd (Except.error.inj herr) (by decide)
  reader n hn hbits w out hw h d rest pos p e herr := by
    rw [encodeMnat_out sha256 hn hw h] at herr
    by_cases hmax : byteLen n ≤ maxNatBytes
    · rw [parses_decodeMnat sha256 d p hn hmax rest pos] at herr
      cases herr
    · rw [decodeMnat_large sha256 d p (not_le.mp hmax) hbits rest pos] at herr
      cases herr
      decide
  accepts n hn hmax w out hw h d rest pos p := by
    rw [encodeMnat_out sha256 hn hw h]
    exact ⟨_, _, parses_decodeMnat sha256 d p hn hmax rest pos, rfl⟩

end Enki.Silo
