import Enki.Silo.Mnat

/-!
# Reading Merkle-paged naturals

The reader's frontier is the forest of `OpeningSchedule` with a claimed hash on
every interval (`knownOf`). Forwards, the claims are those of the tree and the
reader consumes exactly the canonical stream. Backwards, in the canonical scan,
every claim is forced by the leaves: a claim is either checked against a leaf,
or opened into two claims it is the node hash of, so once the claims after a
round are true so were those before it. No property of the hash is used.
-/

namespace Enki.Silo

open LittleEndian ExceptState StreamParser
open OpeningSchedule (Interval Tiles Forest openFirst opened spine afterLeaves insertBy_between)

/-- An interval with the hash the stream claims for it. -/
abbrev Claim := Interval × Hash

/-- The frontier that knows the claims `K`. -/
def knownOf (K : List Claim) : Frontier where
  unopened := (K.filter fun c => 1 < c.1.2).map fun c => ⟨c.1.1, c.1.2, c.2⟩
  expected := (K.filter fun c => c.1.2 ≤ 1).map fun c => ⟨c.1.1, c.2⟩

section KnownOf

variable {A B : List Claim} {c : Claim}

@[simp] theorem unopened_knownOf_append :
    (knownOf (A ++ B)).unopened = (knownOf A).unopened ++ (knownOf B).unopened := by
  simp [knownOf]

@[simp] theorem expected_knownOf_append :
    (knownOf (A ++ B)).expected = (knownOf A).expected ++ (knownOf B).expected := by
  simp [knownOf]

theorem unopened_knownOf_cons (hc : 1 < c.1.2) :
    (knownOf (c :: B)).unopened = ⟨c.1.1, c.1.2, c.2⟩ :: (knownOf B).unopened := by
  simp [knownOf, hc]

theorem expected_knownOf_cons (hc : c.1.2 ≤ 1) :
    (knownOf (c :: B)).expected = ⟨c.1.1, c.2⟩ :: (knownOf B).expected := by
  simp [knownOf, hc]

theorem unopened_knownOf_leaf (hc : c.1.2 ≤ 1) :
    (knownOf (c :: B)).unopened = (knownOf B).unopened := by
  simp [knownOf, Nat.not_lt.mpr hc]

theorem expected_knownOf_inner (hc : 1 < c.1.2) :
    (knownOf (c :: B)).expected = (knownOf B).expected := by
  simp [knownOf, Nat.not_le.mpr hc]

/-- With leaves only there is nothing to open. -/
theorem unopened_knownOf_leaves (hA : ∀ a ∈ A, a.1.2 ≤ 1) : (knownOf A).unopened = [] := by
  rw [knownOf, List.map_eq_nil_iff, List.filter_eq_nil_iff]
  intro a ha
  simpa using hA a ha

theorem mem_unopened_knownOf {x : UnopenedNode} (hx : x ∈ (knownOf A).unopened) :
    ∃ a ∈ A, a.1.1 = x.start := by
  obtain ⟨a, ha, rfl⟩ := List.mem_map.mp hx
  exact ⟨a, (List.mem_filter.mp ha).1, rfl⟩

theorem mem_expected_knownOf {x : ExpectedLeaf} (hx : x ∈ (knownOf A).expected) :
    ∃ a ∈ A, a.1.1 = x.index := by
  obtain ⟨a, ha, rfl⟩ := List.mem_map.mp hx
  exact ⟨a, (List.mem_filter.mp ha).1, rfl⟩

end KnownOf

/-- A claim is put between those to the left of it and those to the right, in whichever list of
the frontier it belongs to. -/
theorem insert_knownOf {A B : List Claim} {s c : Nat} (h : Hash) (hc : 0 < c)
    (hA : ∀ a ∈ A, a.1.1 < s) (hB : ∀ b ∈ B, s < b.1.1) :
    (knownOf (A ++ B)).insert s c h = some (knownOf (A ++ ((s, c), h) :: B)) := by
  have hext : ∀ {f g : Frontier}, f.unopened = g.unopened → f.expected = g.expected → f = g := by
    rintro ⟨_, _⟩ ⟨_, _⟩ rfl rfl
    rfl
  unfold Frontier.insert
  -- a single leaf is expected, anything larger is to be opened
  by_cases h1 : c = 1
  · subst h1
    have hins : expectedInsert ⟨s, h⟩ (knownOf (A ++ B)).expected
        = some ((knownOf A).expected ++ ⟨s, h⟩ :: (knownOf B).expected) := by
      rw [expected_knownOf_append]
      refine insertBy_between ?_ ?_
      · intro x hx
        obtain ⟨a, ha, hax⟩ := mem_expected_knownOf hx
        exact hax ▸ hA a ha
      · intro x hx
        obtain ⟨b, hb, hbx⟩ := mem_expected_knownOf hx
        exact hbx ▸ hB b hb
    rw [if_pos rfl, hins, Option.map_some]
    refine congrArg some (hext ?_ ?_)
    · simp [unopened_knownOf_leaf]
    · simp [expected_knownOf_cons]
  · have hc1 : 1 < c := by omega
    have hins : unopenedInsert ⟨s, c, h⟩ (knownOf (A ++ B)).unopened
        = some ((knownOf A).unopened ++ ⟨s, c, h⟩ :: (knownOf B).unopened) := by
      rw [unopened_knownOf_append]
      refine insertBy_between ?_ ?_
      · intro x hx
        obtain ⟨a, ha, hax⟩ := mem_unopened_knownOf hx
        exact hax ▸ hA a ha
      · intro x hx
        obtain ⟨b, hb, hbx⟩ := mem_unopened_knownOf hx
        exact hbx ▸ hB b hb
    rw [if_neg h1, hins, Option.map_some]
    refine congrArg some (hext ?_ ?_)
    · simp [unopened_knownOf_cons, hc1]
    · simp [expected_knownOf_inner, hc1]

/-- The reader's insertion does not fail behind the leaf it is at. -/
theorem insertChild_knownOf {A B : List Claim} {leafIndex s c : Nat} (h : Hash) (hc : 0 < c)
    (hi : leafIndex < s) (hA : ∀ a ∈ A, a.1.1 < s) (hB : ∀ b ∈ B, s < b.1.1) :
    insertChild leafIndex s c h (knownOf (A ++ B)) = pure (knownOf (A ++ ((s, c), h) :: B)) := by
  funext st
  unfold insertChild
  rw [run_bind_eq (run_reject_ok.2 ⟨by omega, rfl⟩), insert_knownOf h hc hA hB]

/-- Either nothing is left to open, or the leftmost inner claim is. -/
theorem claims_split (K : List Claim) :
    (∀ c ∈ K, c.1.2 ≤ 1) ∨
      ∃ A c B, K = A ++ c :: B ∧ (∀ a ∈ A, a.1.2 ≤ 1) ∧ 1 < c.1.2 := by
  induction K with
  | nil => exact .inl (by simp)
  | cons c K ih =>
    by_cases hc : 1 < c.1.2
    · exact .inr ⟨[], c, K, rfl, by simp, hc⟩
    · rcases ih with hK | ⟨A, d, B, rfl, hA, hd⟩
      · exact .inl (List.forall_mem_cons.mpr ⟨by omega, hK⟩)
      · exact .inr ⟨c :: A, d, B, rfl, List.forall_mem_cons.mpr ⟨by omega, hA⟩, hd⟩

/-- The claims after `c` is opened into children with hashes `l` and `r`. -/
def openClaim (A : List Claim) (c : Claim) (B : List Claim) (l r : Hash) : List Claim :=
  A ++ ((c.1.1, splitPower c.1.2), l) ::
    ((c.1.1 + splitPower c.1.2, c.1.2 - splitPower c.1.2), r) :: B

variable (sha256 : List UInt8 → Hash)

/-- With leaves only nothing is read. -/
theorem openInterval_closed {K : List Claim} (hK : ∀ c ∈ K, c.1.2 ≤ 1) (leafIndex : Nat)
    (crc : UInt32) :
    openInterval sha256 leafIndex crc (knownOf K) = pure (knownOf K, crc) := by
  unfold openInterval
  rw [unopened_knownOf_leaves hK]

/-- Otherwise the two children of the leftmost inner claim are read, checked against it and put
in its place. -/
theorem openInterval_open {A B : List Claim} {c : Claim} {leafIndex s : Nat}
    (hA : ∀ a ∈ A, a.1.2 ≤ 1) (hc : 1 < c.1.2)
    (htiles : Tiles s ((A ++ c :: B).map Prod.fst)) (hs : leafIndex < s) (crc : UInt32) :
    openInterval sha256 leafIndex crc (knownOf (A ++ c :: B)) = (do
      let children ← dread 64
      let left := Hash.ofBytes (children.take 32)
      let right := Hash.ofBytes (children.drop 32)
      reject (siloNodeHash sha256 c.1.1 c.1.2 left right ≠ c.2)
        "MNAT expansion does not match parent hash"
      pure (knownOf (openClaim A c B left right), crc32cUpdate crc children)) := by
  have hpos := splitPower_pos hc
  have hlt := splitPower_lt hc
  have hstart := htiles.start_le c.1 (by simp)
  rw [List.map_append, List.map_cons] at htiles
  -- a claim is disjoint from those on either side
  have hbefore : ∀ a ∈ A, a.1.1 < c.1.1 := fun a ha =>
    htiles.start_lt a.1 (List.mem_map_of_mem ha)
  have hafter : ∀ b ∈ B, c.1.1 + c.1.2 ≤ b.1.1 := fun b hb =>
    htiles.end_le b.1 (List.mem_map_of_mem hb)
  have hunopened : (knownOf (A ++ c :: B)).unopened
      = ⟨c.1.1, c.1.2, c.2⟩ :: (knownOf (A ++ B)).unopened := by
    simp [unopened_knownOf_leaves hA, unopened_knownOf_cons hc]
  have hexpected : (knownOf (A ++ c :: B)).expected = (knownOf (A ++ B)).expected := by
    simp [expected_knownOf_inner hc]
  unfold openInterval
  rw [hunopened]
  simp only [hexpected]
  congr 1
  funext children
  congr 1
  funext _
  rw [show ({ unopened := (knownOf (A ++ B)).unopened, expected := (knownOf (A ++ B)).expected }
    : Frontier) = knownOf (A ++ B) from rfl]
  rw [insertChild_knownOf _ hpos (by omega) hbefore (fun b hb => by have := hafter b hb; omega)]
  rw [pure_bind]
  -- the right child is inserted behind the left one
  have hsnoc : ∀ x, A ++ x :: B = (A ++ [x]) ++ B := by simp
  rw [hsnoc, insertChild_knownOf _ (by omega) (by omega) ?_ ?_, pure_bind]
  · simp [openClaim]
  · intro a ha
    rcases List.mem_append.mp ha with ha | ha
    · have := hbefore a ha
      omega
    · rw [List.mem_singleton.mp ha]
      simp only
      omega
  · intro b hb
    have := hafter b hb
    omega

/-- Opening a claim opens its interval. -/
theorem openFirst_claims {A B : List Claim} {c : Claim} (l r : Hash)
    (hA : ∀ a ∈ A, a.1.2 ≤ 1) (hc : 1 < c.1.2) :
    openFirst mnatSplit ((A ++ c :: B).map Prod.fst)
      = some (c.1, (openClaim A c B l r).map Prod.fst) := by
  rw [List.map_append, List.map_cons, OpeningSchedule.openFirst_append mnatSplit ?_ hc]
  · simp [openClaim, OpeningSchedule.Split.halves, mnatSplit]
  · intro a ha
    obtain ⟨x, hx, rfl⟩ := List.mem_map.mp ha
    exact Nat.not_lt.mpr (hA x hx)

/-- A frontier of leaves opens nothing. -/
theorem openFirst_leaves {K : List Claim} (hK : ∀ c ∈ K, c.1.2 ≤ 1) :
    openFirst mnatSplit (K.map Prod.fst) = none := by
  cases h : openFirst mnatSplit (K.map Prod.fst) with
  | none => rfl
  | some x =>
    obtain ⟨A, B, hAB, -, hi, -⟩ := OpeningSchedule.openFirst_some mnatSplit h
    have hmem : x.1 ∈ K.map Prod.fst := by simp [hAB]
    obtain ⟨c, hc, hcx⟩ := List.mem_map.mp hmem
    exact absurd hi (Nat.not_lt.mpr (hcx ▸ hK c hc))

/-! ## True claims -/

section Truth

variable (v byteLength : Nat)

/-- Every claim is the hash of its interval in the tree of `v`. -/
def Holds (K : List Claim) : Prop := ∀ c ∈ K, c.2 = treeHash sha256 v byteLength c.1

/-- The intervals of a forest with their hashes. -/
def trueClaims (F : List Interval) : List Claim :=
  F.map fun i => (i, treeHash sha256 v byteLength i)

@[simp] theorem map_fst_trueClaims (F : List Interval) :
    (trueClaims sha256 v byteLength F).map Prod.fst = F := by
  rw [trueClaims, List.map_map]
  exact List.map_id F

/-- True claims are the tree's own, interval by interval. -/
theorem holds_iff {K : List Claim} :
    Holds sha256 v byteLength K ↔ K = trueClaims sha256 v byteLength (K.map Prod.fst) := by
  induction K with
  | nil => simp [Holds, trueClaims]
  | cons c K ih =>
    obtain ⟨i, h⟩ := c
    simp only [Holds, List.forall_mem_cons] at ih ⊢
    rw [ih]
    simp [trueClaims]

/-- A claim holds when its children do and it is their node hash. -/
theorem holds_of_openClaim {A B : List Claim} {c : Claim} {l r : Hash} (hc : 1 < c.1.2)
    (hnode : siloNodeHash sha256 c.1.1 c.1.2 l r = c.2)
    (h : Holds sha256 v byteLength (openClaim A c B l r)) :
    Holds sha256 v byteLength (A ++ c :: B) ∧
      l = treeHash sha256 v byteLength (c.1.1, splitPower c.1.2) ∧
      r = treeHash sha256 v byteLength
        (c.1.1 + splitPower c.1.2, c.1.2 - splitPower c.1.2) := by
  have hl := h ((c.1.1, splitPower c.1.2), l) (by simp [openClaim])
  have hr := h ((c.1.1 + splitPower c.1.2, c.1.2 - splitPower c.1.2), r) (by simp [openClaim])
  refine ⟨?_, hl, hr⟩
  intro x hx
  simp only [List.mem_append, List.mem_cons] at hx
  rcases hx with hx | rfl | hx
  · exact h x (by simp [openClaim, hx])
  · rw [treeHash_node sha256 v byteLength hc, ← hnode]
    rw [show l = _ from hl, show r = _ from hr]
  · exact h x (by simp [openClaim, hx])

/-- The children of a true claim are true. -/
theorem holds_openClaim {A B : List Claim} {c : Claim}
    (h : Holds sha256 v byteLength (A ++ c :: B)) :
    Holds sha256 v byteLength (openClaim A c B
      (treeHash sha256 v byteLength (c.1.1, splitPower c.1.2))
      (treeHash sha256 v byteLength (c.1.1 + splitPower c.1.2, c.1.2 - splitPower c.1.2))) := by
  intro x hx
  simp only [openClaim, List.mem_append, List.mem_cons] at hx
  rcases hx with hx | rfl | rfl | hx
  · exact h x (by simp [hx])
  · rfl
  · rfl
  · exact h x (by simp [hx])

/-- The bytes of an opening are the two child hashes. -/
theorem openingBytes_claims {A B : List Claim} {c : Claim} (hA : ∀ a ∈ A, a.1.2 ≤ 1)
    (hc : 1 < c.1.2) :
    openingBytes sha256 v byteLength ((A ++ c :: B).map Prod.fst)
      = (treeHash sha256 v byteLength (c.1.1, splitPower c.1.2)).bytes ++
        (treeHash sha256 v byteLength
          (c.1.1 + splitPower c.1.2, c.1.2 - splitPower c.1.2)).bytes := by
  unfold openingBytes
  rw [openFirst_claims (treeHash sha256 v byteLength c.1) (treeHash sha256 v byteLength c.1) hA hc]
  simp [OpeningSchedule.Split.halves, mnatSplit]

/-- As intervals, opening a claim is opening the frontier. -/
theorem opened_claims {A B : List Claim} {c : Claim} (l r : Hash) (hA : ∀ a ∈ A, a.1.2 ≤ 1)
    (hc : 1 < c.1.2) :
    opened mnatSplit ((A ++ c :: B).map Prod.fst) = (openClaim A c B l r).map Prod.fst := by
  rw [opened, openFirst_claims l r hA hc]
  rfl

/-! ## One leaf -/

/-- Forwards: from the true claims the canonical bytes of an opening lead to the true claims of
the opened forest. -/
theorem parses_openInterval {s leafIndex : Nat} {G : List Interval} (hG : Tiles s G)
    (hs : leafIndex < s) (crc : UInt32) (p : PinTrack) :
    Parses (openInterval sha256 leafIndex crc (knownOf (trueClaims sha256 v byteLength G))) p
      (openingBytes sha256 v byteLength G)
      (knownOf (trueClaims sha256 v byteLength (opened mnatSplit G)),
        crc32cUpdate crc (openingBytes sha256 v byteLength G)) p := by
  have hmap := map_fst_trueClaims sha256 v byteLength G
  have hholds := (holds_iff sha256 v byteLength
    (K := trueClaims sha256 v byteLength G)).mpr (by rw [hmap])
  rcases claims_split (trueClaims sha256 v byteLength G) with hK | ⟨A, c, B, hK, hA, hc⟩
  · have hnone := openFirst_leaves hK
    rw [hmap] at hnone
    rw [openInterval_closed sha256 hK]
    simp only [openingBytes, opened, hnone]
    exact Parses.pure _ p
  · rw [hK] at hmap hholds ⊢
    subst hmap
    have hlen : ((treeHash sha256 v byteLength (c.1.1, splitPower c.1.2)).bytes ++
        (treeHash sha256 v byteLength
          (c.1.1 + splitPower c.1.2, c.1.2 - splitPower c.1.2)).bytes).length = 64 := by
      rw [List.length_append, Hash.length_eq, Hash.length_eq]
    rw [openInterval_open sha256 hA hc hG hs, openingBytes_claims sha256 v byteLength hA hc]
    have hread := parses_dread p hlen
    refine Parses.bind_nil hread ?_
    dsimp only
    rw [List.take_left' (Hash.length_eq _), List.drop_left' (Hash.length_eq _),
      Hash.ofBytes_bytes, Hash.ofBytes_bytes]
    -- the check of the parent's hash passes, as the claim is true
    refine Parses.reject_bind ?_ ?_
    · rw [← treeHash_node sha256 v byteLength hc, hholds c (by simp)]
      simp
    · rw [(holds_iff sha256 v byteLength).mp (holds_openClaim sha256 v byteLength hholds),
        ← opened_claims _ _ hA hc]
      exact Parses.pure _ p

/-- An accepted opening turns the claims into claims for the opened forest; if
those hold, so did the former, and the bytes read are the canonical ones. -/
theorem openInterval_ok {s leafIndex : Nat} {K : List Claim} {crc crc' : UInt32}
    {st t : Stream PinTrack} {f : Frontier} (hK : Tiles s (K.map Prod.fst)) (hs : leafIndex < s)
    (h : openInterval sha256 leafIndex crc (knownOf K) st = .ok ((f, crc'), t)) :
    ∃ K' bs, f = knownOf K' ∧ K'.map Prod.fst = opened mnatSplit (K.map Prod.fst) ∧
      st.rest = bs ++ t.rest ∧ t.aux = st.aux ∧
      ∀ v, Holds sha256 v byteLength K' →
        Holds sha256 v byteLength K ∧ bs = openingBytes sha256 v byteLength (K.map Prod.fst) := by
  rcases claims_split K with hleaves | ⟨A, c, B, rfl, hA, hc⟩
  · rw [openInterval_closed sha256 hleaves] at h
    cases h
    refine ⟨K, [], rfl, ?_, rfl, rfl, fun v hv => ⟨hv, ?_⟩⟩
    · simp [opened, openFirst_leaves hleaves]
    · simp [openingBytes, openFirst_leaves hleaves]
  · rw [openInterval_open sha256 hA hc hK hs] at h
    obtain ⟨children, u, hread, h₁⟩ := run_bind_ok.1 h
    obtain ⟨hrest, hlen, haux⟩ := dread_ok hread
    obtain ⟨hnode, h₂⟩ := run_reject_bind_ok.1 h₁
    cases h₂
    -- what was read has the hash that was claimed
    rw [ne_eq, not_not] at hnode
    refine ⟨_, children, rfl, (opened_claims _ _ hA hc).symm, hrest, haux, fun v hv => ?_⟩
    obtain ⟨hold, hl, hr⟩ := holds_of_openClaim sha256 v byteLength hc hnode hv
    refine ⟨hold, ?_⟩
    rw [openingBytes_claims sha256 v byteLength hA hc, ← hl, ← hr,
      Hash.bytes_ofBytes (by simp [hlen]), Hash.bytes_ofBytes (by simp [hlen]),
      List.take_append_drop]

/-- The loop state at a leaf boundary: leaf `i`, payload `pre`, claims `K`. -/
def runOf (d : DecCfg) (maxPage i : Nat) (pre : List UInt8) (K : List Claim) : MnatRun where
  accum := accumOf d byteLength pre
  payloadOff := pre.length
  leafIndex := i
  leafBuf := []
  maxPage := maxPage
  frontier := knownOf K

/-- The loop state once leaf `i` has been read but not checked. -/
def runLeaf (d : DecCfg) (maxPage i : Nat) (pre leaf : List UInt8) (K : List Claim) : MnatRun where
  accum := accumOf d byteLength (pre ++ leaf)
  payloadOff := pre.length + leaf.length
  leafIndex := i
  leafBuf := leaf
  maxPage := maxPage
  frontier := knownOf K

/-- Completing a leaf checks its hash against the claim for it, and opens the next interval. -/
theorem completeLeaf_eq (d : DecCfg) (maxPage i : Nat) (pre leaf : List UInt8) (h : Hash)
    (K : List Claim) (crc : UInt32) :
    completeLeaf sha256 crc (runLeaf byteLength d maxPage i pre leaf (((i, 1), h) :: K)) = (do
      reject (siloLeafHash sha256 i leaf ≠ h) s!"MNAT leaf {i} hash mismatch"
      let (frontier, crc) ← openInterval sha256 i crc (knownOf K)
      pure ({ runLeaf byteLength d maxPage i pre leaf K with
        frontier, leafIndex := i + 1, leafBuf := [] }, crc)) := by
  have htake : expectedTake i (knownOf (((i, 1), h) :: K)).expected
      = some (h, (knownOf K).expected) := by
    simp [expected_knownOf_cons, expectedTake]
  have hrest : ({ unopened := (knownOf (((i, 1), h) :: K)).unopened,
                  expected := (knownOf K).expected } : Frontier) = knownOf K := by
    rw [unopened_knownOf_leaf (Nat.le_refl 1)]
  unfold completeLeaf
  simp only [runLeaf, htake, hrest]
  rfl

section Segments

variable {byteLength} {d : DecCfg} {maxPage i pageLen pageDone : Nat} {pre : List UInt8}
  {K : List Claim} {crc : UInt32}

/-- Entered at a leaf boundary of a canonical page, the segment loop reads a
whole leaf, checks it and goes on. -/
theorem decodeSegments_leaf {leaf : List UInt8} {s u : Stream PinTrack}
    (hi : i * leafBytes < byteLength)
    (hfit : pageDone + min (byteLength - i * leafBytes) leafBytes ≤ pageLen)
    (hread : dread (min (byteLength - i * leafBytes) leafBytes) s = .ok (leaf, u)) :
    decodeSegments sha256 byteLength pageLen pageDone crc (runOf byteLength d maxPage i pre K) s =
      (completeLeaf sha256 (crc32cUpdate crc leaf) (runLeaf byteLength d maxPage i pre leaf K) >>=
        fun x => decodeSegments sha256 byteLength pageLen (pageDone + leaf.length) x.2 x.1) u := by
  obtain ⟨-, hlen, -⟩ := dread_ok hread
  have hpos : 0 < min (byteLength - i * leafBytes) leafBytes := by
    unfold leafBytes at *
    omega
  have hn : min (pageLen - pageDone) (min (byteLength - i * leafBytes) leafBytes)
      = min (byteLength - i * leafBytes) leafBytes := by omega
  rw [decodeSegments, dif_pos (by omega)]
  simp only [runOf, List.length_nil, Nat.sub_zero, hn, List.nil_append]
  rw [dif_neg (by omega), run_bind_eq hread, if_pos hlen, natAccumBytes_accumOf, ← hlen]
  rfl

/-- If the loop ends well, its first leaf was there to be read. -/
theorem decodeSegments_leaf_read {s : Stream PinTrack} {x : (MnatRun × UInt32) × Stream PinTrack}
    (hi : i * leafBytes < byteLength)
    (hfit : pageDone + min (byteLength - i * leafBytes) leafBytes ≤ pageLen)
    (h : decodeSegments sha256 byteLength pageLen pageDone crc
      (runOf byteLength d maxPage i pre K) s = .ok x) :
    ∃ leaf u, dread (min (byteLength - i * leafBytes) leafBytes) s = .ok (leaf, u) := by
  have hpos : 0 < min (byteLength - i * leafBytes) leafBytes := by
    unfold leafBytes at *
    omega
  have hn : min (pageLen - pageDone) (min (byteLength - i * leafBytes) leafBytes)
      = min (byteLength - i * leafBytes) leafBytes := by omega
  rw [decodeSegments, dif_pos (by omega)] at h
  simp only [runOf, List.length_nil, Nat.sub_zero, hn, List.nil_append] at h
  rw [dif_neg (by omega)] at h
  obtain ⟨leaf, u, hread, -⟩ := run_bind_ok.1 h
  exact ⟨leaf, u, hread⟩

end Segments

/-! ## Pages -/

/-- The loop state at leaf `i` of the canonical stream of `v`. -/
def runAt (d : DecCfg) (maxPage i : Nat) (F : List Interval) : MnatRun :=
  runOf byteLength d maxPage i (natByteRange v 0 (min (i * leafBytes) byteLength))
    (trueClaims sha256 v byteLength F)

/-- Arithmetic of one leaf inside a page ending at a leaf boundary. -/
theorem leaf_in_page {byteLength pageOff pageLen pageDone i m : Nat}
    (hi : i * leafBytes < byteLength)
    (hend : pageOff + pageLen = min ((i + (m + 1)) * leafBytes) byteLength)
    (hoff : pageOff + pageDone = min (i * leafBytes) byteLength) :
    pageDone + min (byteLength - i * leafBytes) leafBytes ≤ pageLen ∧
      pageOff + (pageDone + min (byteLength - i * leafBytes) leafBytes)
        = min ((i + 1) * leafBytes) byteLength := by
  unfold leafBytes at *
  omega

/-- The payload after one leaf more. -/
theorem min_leaf_succ {byteLength i : Nat} (hi : i * leafBytes < byteLength) :
    min ((i + 1) * leafBytes) byteLength
      = min (i * leafBytes) byteLength + min (byteLength - i * leafBytes) leafBytes := by
  unfold leafBytes at *
  omega

theorem crc32cUpdate_append (crc : UInt32) (as bs : List UInt8) :
    crc32cUpdate crc (as ++ bs) = crc32cUpdate (crc32cUpdate crc as) bs :=
  List.foldl_append

/-- Forwards: a leaf of the number passes its check, and what is opened next is canonical. -/
theorem parses_completeLeaf (d : DecCfg) (maxPage : Nat) {i : Nat} {G : List Interval}
    (crc : UInt32) (p : PinTrack) (hi : i * leafBytes < byteLength) (hG : Tiles (i + 1) G) :
    Parses
      (completeLeaf sha256 crc
        (runLeaf byteLength d maxPage i (natByteRange v 0 (min (i * leafBytes) byteLength))
          (mnatLeaf v byteLength i) (trueClaims sha256 v byteLength ((i, 1) :: G)))) p
      (openingBytes sha256 v byteLength G)
      (runAt sha256 v byteLength d maxPage (i + 1) (opened mnatSplit G),
        crc32cUpdate crc (openingBytes sha256 v byteLength G)) p := by
  have hbytes : natByteRange v 0 (min (i * leafBytes) byteLength) ++ mnatLeaf v byteLength i
      = natByteRange v 0 (min ((i + 1) * leafBytes) byteLength) := by
    rw [min_leaf_succ hi, natByteRange_add, Nat.zero_add, min_eq_left (Nat.le_of_lt hi)]
    rfl
  have hlen := congrArg List.length hbytes
  rw [List.length_append] at hlen
  rw [trueClaims, List.map_cons, completeLeaf_eq]
  refine Parses.reject_bind ?_ ?_
  · rw [treeHash_leaf sha256 v byteLength (Nat.not_lt.mpr (Nat.le_refl 1))]
    exact not_not.mpr rfl
  · refine Parses.bind_nil (parses_openInterval sha256 v byteLength hG (Nat.lt_succ_self i) crc p) ?_
    have hrun : ({ runLeaf byteLength d maxPage i
          (natByteRange v 0 (min (i * leafBytes) byteLength)) (mnatLeaf v byteLength i)
          (trueClaims sha256 v byteLength G) with
          frontier := knownOf (trueClaims sha256 v byteLength (opened mnatSplit G)),
          leafIndex := i + 1, leafBuf := [] } : MnatRun)
        = runAt sha256 v byteLength d maxPage (i + 1) (opened mnatSplit G) := by
      simp only [runLeaf, runAt, runOf, hbytes, hlen]
    rw [← hrun]
    exact Parses.pure _ p

/-- Forwards: the loop reads `m` leaves of the number and the openings between them. By
induction on `m`. -/
theorem parses_decodeSegments (d : DecCfg) (maxPage : Nat) {pageOff pageLen : Nat} (m : Nat)
    {i pageDone : Nat} {F : List Interval} (crc : UInt32) (p : PinTrack)
    (hm : i + m ≤ leafCountOf byteLength)
    (hend : pageOff + pageLen = min ((i + m) * leafBytes) byteLength)
    (hoff : pageOff + pageDone = min (i * leafBytes) byteLength)
    (hF : Forest mnatSplit (leafCountOf byteLength) i F) :
    Parses
      (decodeSegments sha256 byteLength pageLen pageDone crc
        (runAt sha256 v byteLength d maxPage i F)) p
      (leafRun sha256 v byteLength m i F)
      (runAt sha256 v byteLength d maxPage (i + m) (afterLeaves mnatSplit m F),
        crc32cUpdate crc (leafRun sha256 v byteLength m i F)) p := by
  induction m generalizing i pageDone F crc with
  -- the page is full
  | zero =>
    rw [decodeSegments, dif_neg (by rw [Nat.add_zero] at hend; omega)]
    exact Parses.pure _ p
  | succ m ih =>
    obtain ⟨G, rfl, hG⟩ := hF.step (by omega)
    have hi : i * leafBytes < byteLength := lt_leafCountOf.1 (by omega)
    obtain ⟨hfit, hnext⟩ := leaf_in_page hi hend hoff
    have hleaf : (mnatLeaf v byteLength i).length
        = min (byteLength - i * leafBytes) leafBytes := length_natByteRange _ _ _
    have hcomplete := parses_completeLeaf sha256 v byteLength d maxPage
      (crc32cUpdate crc (mnatLeaf v byteLength i)) p hi hF.tiles.2.2
    have hrest := ih (crc32cUpdate crc (mnatLeaf v byteLength i ++
      openingBytes sha256 v byteLength G)) (by omega) (by rw [hend]; congr 2; omega) hnext hG
    rw [crc32cUpdate_append] at hrest
    intro rest pos
    simp only [leafRun, List.tail_cons, List.append_assoc]
    unfold runAt
    rw [decodeSegments_leaf sha256 hi hfit (parses_dread p hleaf _ _), hleaf]
    have h := (hcomplete.bind (f := fun x => decodeSegments sha256 byteLength pageLen
      (pageDone + min (byteLength - i * leafBytes) leafBytes) x.2 x.1) hrest) rest
        (pos + min (byteLength - i * leafBytes) leafBytes)
    rw [List.append_assoc] at h
    rw [h]
    simp only [crc32cUpdate_append, List.length_append, hleaf, Nat.add_assoc, Nat.add_comm 1 m]
    rfl

/-- Backwards: a leaf that was accepted has the hash that was claimed for it. -/
theorem completeLeaf_ok {d : DecCfg} {maxPage i : Nat} {pre leaf : List UInt8} {h : Hash}
    {K : List Claim} {crc crc' : UInt32} {s t : Stream PinTrack} {r : MnatRun}
    (hK : Tiles (i + 1) (K.map Prod.fst))
    (hrun : completeLeaf sha256 crc
      (runLeaf byteLength d maxPage i pre leaf (((i, 1), h) :: K)) s = .ok ((r, crc'), t)) :
    ∃ K' bs, r = runOf byteLength d maxPage (i + 1) (pre ++ leaf) K' ∧
      K'.map Prod.fst = opened mnatSplit (K.map Prod.fst) ∧
      s.rest = bs ++ t.rest ∧ t.aux = s.aux ∧
      ∀ v, mnatLeaf v byteLength i = leaf → Holds sha256 v byteLength K' →
        Holds sha256 v byteLength (((i, 1), h) :: K) ∧
          bs = openingBytes sha256 v byteLength (K.map Prod.fst) := by
  rw [completeLeaf_eq] at hrun
  obtain ⟨hleaf, h₁⟩ := run_reject_bind_ok.1 hrun
  obtain ⟨⟨f, crc₁⟩, u, hopen, h₂⟩ := run_bind_ok.1 h₁
  obtain ⟨K', bs, rfl, hmap, hrest, haux, hback⟩ :=
    openInterval_ok sha256 byteLength hK (Nat.lt_succ_self i) hopen
  cases h₂
  rw [ne_eq, not_not] at hleaf
  refine ⟨K', bs, ?_, hmap, hrest, haux, fun v hv hK' => ?_⟩
  · simp [runLeaf, runOf]
  · obtain ⟨hold, hbs⟩ := hback v hK'
    refine ⟨List.forall_mem_cons.mpr ⟨?_, hold⟩, hbs⟩
    rw [treeHash_leaf sha256 v byteLength (Nat.not_lt.mpr (Nat.le_refl 1)), hv, hleaf]

/-- Accepted leaves of a canonical page are the canonical stream of any number
that has their bytes, provided the claims left over hold of it. -/
theorem decodeSegments_ok {d : DecCfg} (maxPage : Nat) {pageOff pageLen : Nat} (m : Nat)
    {i pageDone : Nat} {pre : List UInt8} {K : List Claim} {crc crc' : UInt32}
    {s t : Stream PinTrack} {r : MnatRun}
    (hm : i + m ≤ leafCountOf byteLength)
    (hend : pageOff + pageLen = min ((i + m) * leafBytes) byteLength)
    (hoff : pageOff + pageDone = min (i * leafBytes) byteLength)
    (hpre : pre.length = min (i * leafBytes) byteLength)
    (hK : Forest mnatSplit (leafCountOf byteLength) i (K.map Prod.fst))
    (h : decodeSegments sha256 byteLength pageLen pageDone crc
      (runOf byteLength d maxPage i pre K) s = .ok ((r, crc'), t)) :
    ∃ data K' bs, r = runOf byteLength d maxPage (i + m) (pre ++ data) K' ∧
      (pre ++ data).length = min ((i + m) * leafBytes) byteLength ∧
      K'.map Prod.fst = afterLeaves mnatSplit m (K.map Prod.fst) ∧
      s.rest = bs ++ t.rest ∧ t.aux = s.aux ∧
      ∀ v, natByteRange v pre.length data.length = data → Holds sha256 v byteLength K' →
        Holds sha256 v byteLength K ∧ bs = leafRun sha256 v byteLength m i (K.map Prod.fst) := by
  induction m generalizing i pageDone pre K crc s with
  | zero =>
    rw [decodeSegments, dif_neg (by rw [Nat.add_zero] at hend; omega)] at h
    cases h
    exact ⟨[], K, [], by simp, by simpa using hpre, rfl, rfl, rfl, fun v _ hv => ⟨hv, rfl⟩⟩
  | succ m ih =>
    obtain ⟨G, hKG, hG⟩ := hK.step (by omega)
    obtain ⟨c, K₁, rfl, hc, hK₁⟩ := List.map_eq_cons_iff.mp hKG
    obtain ⟨_, hash⟩ := c
    simp only at hc
    subst hc hK₁
    have hi : i * leafBytes < byteLength := lt_leafCountOf.1 (by omega)
    obtain ⟨hfit, hnext⟩ := leaf_in_page hi hend hoff
    -- one leaf is read and completed, the rest is the induction's
    obtain ⟨leaf, u, hread⟩ := decodeSegments_leaf_read sha256 hi hfit h
    rw [decodeSegments_leaf sha256 hi hfit hread] at h
    obtain ⟨hrest, hlen, haux⟩ := dread_ok hread
    obtain ⟨⟨r₁, crc₁⟩, u₁, hcomplete, h₁⟩ := run_bind_ok.1 h
    obtain ⟨K', bs, rfl, hmap, hrest₁, haux₁, hback⟩ :=
      completeLeaf_ok sha256 byteLength hK.tiles.2.2 hcomplete
    have hpre' : (pre ++ leaf).length = min ((i + 1) * leafBytes) byteLength := by
      rw [List.length_append, hpre, hlen, min_leaf_succ hi]
    obtain ⟨data, K'', bs', rfl, hlen', hmap', hrest₂, haux₂, hback'⟩ :=
      ih (by omega) (by rw [hend]; congr 2; omega) (by rw [hlen]; exact hnext) hpre'
        (hmap ▸ hG) h₁
    refine ⟨leaf ++ data, K'', leaf ++ bs ++ bs', ?_, ?_, ?_, ?_, ?_, ?_⟩
    · rw [List.append_assoc, show i + 1 + m = i + (m + 1) by omega]
    · rw [← List.append_assoc, hlen', show i + 1 + m = i + (m + 1) by omega]
    · rw [hmap', hmap]
      rfl
    · rw [hrest, hrest₁, hrest₂]
      simp
    · rw [haux₂, haux₁, haux]
    · -- from the claims at the end back to those at the start: the rest of the page first, then
      -- this leaf
      intro v hv hK''
      rw [List.length_append, natByteRange_add] at hv
      obtain ⟨hvl, hvd⟩ := List.append_inj hv (by simp)
      rw [← List.length_append] at hvd
      have hleaf : mnatLeaf v byteLength i = leaf := by
        rw [mnatLeaf, ← hlen, show i * leafBytes = pre.length by omega, hvl]
      obtain ⟨hK', hbs'⟩ := hback' v hvd hK''
      obtain ⟨hKt, hbs⟩ := hback v hleaf hK'
      refine ⟨hKt, ?_⟩
      rw [hbs, hbs', hmap, List.map_cons, leafRun, hleaf]
      rfl

/-! ## Pages -/

/-- The canonical stream has no checksum to check. -/
theorem checkPageCrc_zero (crc : UInt32) : checkPageCrc 0 crc = pure () := rfl

theorem pagesRun_end {pageWidth : Nat} {F : List Interval} :
    pagesRun sha256 v byteLength pageWidth (leafCountOf byteLength) F = [] := by
  rw [pagesRun, dif_neg (Nat.lt_irrefl _)]

/-- The page lengths a canonical stream declares. -/
theorem canonical_page {byteLength pageWidth i : Nat} (hmax : byteLength ≤ maxNatBytes)
    (hw : pageWidth ≤ 8) (hpage : min byteLength pageBytes < 256 ^ pageWidth)
    (hi : i * leafBytes < byteLength) :
    getle (bytes pageWidth (min (byteLength - i * leafBytes) pageBytes))
        = min (byteLength - i * leafBytes) pageBytes ∧
      min (byteLength - i * leafBytes) pageBytes ≠ 0 ∧
      min (byteLength - i * leafBytes) pageBytes ≤ maxNatBytes := by
  have hpos : 0 < pageBytes := by decide
  refine ⟨getle_bytes hw (by omega), by omega, by omega⟩

/-- The length of the longest page from leaf `i` on is that of the first. -/
theorem maxPage_step {byteLength maxPage i m : Nat} :
    max (max maxPage (min (byteLength - i * leafBytes) pageBytes))
        (min (byteLength - (i + m) * leafBytes) pageBytes)
      = max maxPage (min (byteLength - i * leafBytes) pageBytes) := by
  have hle : i * leafBytes ≤ (i + m) * leafBytes := Nat.mul_le_mul_right _ (by omega)
  omega

/-- At the end of the payload no page is read, whatever fuel is left. -/
theorem decodePages_end {d : DecCfg} {flags : UInt8} {pageWidth fuel : Nat} {r : MnatRun}
    (h : byteLength ≤ r.payloadOff) :
    decodePages sha256 d flags pageWidth byteLength fuel r = pure r := by
  cases fuel with
  | zero => rfl
  | succ fuel => rw [decodePages, if_neg (Nat.not_lt.mpr h)]

theorem leafCountOf_mul_ge (byteLength : Nat) :
    byteLength ≤ leafCountOf byteLength * leafBytes := by
  unfold leafCountOf leafBytes
  omega

/-- Forwards: page after page is read, with the length of the longest one kept. By induction on
the fuel, of which each page takes one. -/
theorem parses_decodePages (d : DecCfg) (maxPage : Nat) {pageWidth fuel i : Nat}
    {F : List Interval} (p : PinTrack) (hmax : byteLength ≤ maxNatBytes) (hw : pageWidth ≤ 8)
    (hpage : min byteLength pageBytes < 256 ^ pageWidth)
    (hi : i ≤ leafCountOf byteLength) (hfuel : leafCountOf byteLength - i ≤ fuel)
    (hF : Forest mnatSplit (leafCountOf byteLength) i F) :
    Parses
      (decodePages sha256 d 0 pageWidth byteLength fuel (runAt sha256 v byteLength d maxPage i F)) p
      (pagesRun sha256 v byteLength pageWidth i F)
      (runAt sha256 v byteLength d (max maxPage (min (byteLength - i * leafBytes) pageBytes))
        (leafCountOf byteLength) []) p := by
  have hoff : ∀ {mp j : Nat} {F}, (runAt sha256 v byteLength d mp j F).payloadOff
      = min (j * leafBytes) byteLength := fun {_ _ _} => length_natByteRange _ _ _
  have hge := leafCountOf_mul_ge byteLength
  induction fuel generalizing maxPage i F with
  | zero =>
    obtain rfl : i = leafCountOf byteLength := by omega
    rw [decodePages_end sha256 byteLength (by rw [hoff]; omega), pagesRun_end, hF.eq_nil,
      show max maxPage (min (byteLength - leafCountOf byteLength * leafBytes) pageBytes) = maxPage
        by omega]
    exact Parses.pure _ p
  | succ fuel ih =>
    rcases Nat.eq_or_lt_of_le hi with rfl | hlt
    · rw [decodePages_end sha256 byteLength (by rw [hoff]; omega), pagesRun_end, hF.eq_nil,
        show max maxPage (min (byteLength - leafCountOf byteLength * leafBytes) pageBytes) = maxPage
          by omega]
      exact Parses.pure _ p
    · have hlt' := lt_leafCountOf.1 hlt
      have hoff' : ∀ {mp : Nat}, (runAt sha256 v byteLength d mp i F).payloadOff
          = i * leafBytes := fun {_} => hoff.trans (min_eq_left (Nat.le_of_lt hlt'))
      obtain ⟨m, hm⟩ : ∃ m, m = min (leafCountOf byteLength - i) pageLeaves := ⟨_, rfl⟩
      obtain ⟨hm0, hmle⟩ := page_leaves hlt hm
      obtain ⟨hget, hne, hle⟩ := canonical_page hmax hw hpage hlt'
      rw [decodePages, if_pos (by rw [hoff']; exact hlt'), pagesRun, dif_pos hlt]
      simp only [← hm, List.append_assoc]
      refine Parses.bind (parses_dread p (length_bytes _ _)) ?_
      rw [hget]
      -- the length is positive, within the payload, and the canonical one
      refine Parses.reject_bind (by rw [hoff']; omega)
        (Parses.reject_bind (by rw [hoff']; exact fun h => h.2 rfl) ?_)
      have hseg := parses_decodeSegments sha256 v byteLength d
        (max maxPage (min (byteLength - i * leafBytes) pageBytes)) m
        (crc32cUpdate 0xffffffff (bytes pageWidth (min (byteLength - i * leafBytes) pageBytes))) p
        hmle (page_end hlt' hm) (show i * leafBytes + 0 = _ by omega) hF
      refine Parses.bind hseg ?_
      have hrest := ih (max maxPage (min (byteLength - i * leafBytes) pageBytes))
        hmle (by omega) (hF.afterLeaves m hmle)
      rw [maxPage_step] at hrest
      rw [checkPageCrc_zero, pure_bind]
      exact hrest

/-- What an accepted canonical payload from leaf `i` on amounts to: the pages
of any number with its bytes, with every claim forced. -/
def PagesRead (d : DecCfg) (pageWidth i : Nat) (pre : List UInt8) (K : List Claim)
    (s t : Stream PinTrack) (r : MnatRun) : Prop :=
  ∃ data bs, r.accum = accumOf d byteLength (pre ++ data) ∧
    (pre ++ data).length = byteLength ∧ s.rest = bs ++ t.rest ∧ t.aux = s.aux ∧
    ∀ v, natByteRange v pre.length data.length = data →
      Holds sha256 v byteLength K ∧
        bs = pagesRun sha256 v byteLength pageWidth i (K.map Prod.fst)

/-- At the end the number is complete, and no claim is left. -/
theorem pagesRead_end {d : DecCfg} {pageWidth maxPage : Nat} {pre : List UInt8} {K : List Claim}
    (s : Stream PinTrack)
    (hpre : pre.length = min (leafCountOf byteLength * leafBytes) byteLength)
    (hK : Forest mnatSplit (leafCountOf byteLength) (leafCountOf byteLength) (K.map Prod.fst)) :
    PagesRead sha256 byteLength d pageWidth (leafCountOf byteLength) pre K s s
      (runOf byteLength d maxPage (leafCountOf byteLength) pre K) := by
  have hge := leafCountOf_mul_ge byteLength
  have hnil := List.map_eq_nil_iff.mp hK.eq_nil
  subst hnil
  refine ⟨[], [], by rw [List.append_nil]; rfl, by rw [List.append_nil]; omega, rfl, rfl, ?_⟩
  intro v _
  exact ⟨by simp [Holds], by rw [pagesRun_end]⟩

/-- Backwards: the canonical scan fixes the length of every page, and each page forces the
claims before it. -/
theorem decodePages_ok {d : DecCfg} (maxPage : Nat) {pageWidth fuel i : Nat} (pre : List UInt8)
    {K : List Claim} {s t : Stream PinTrack} {r : MnatRun} (hd : d.canonical)
    (hw : pageWidth ≤ 8) (hi : i ≤ leafCountOf byteLength)
    (hfuel : leafCountOf byteLength - i ≤ fuel)
    (hpre : pre.length = min (i * leafBytes) byteLength)
    (hK : Forest mnatSplit (leafCountOf byteLength) i (K.map Prod.fst))
    (h : decodePages sha256 d 0 pageWidth byteLength fuel (runOf byteLength d maxPage i pre K) s
      = .ok (r, t)) :
    PagesRead sha256 byteLength d pageWidth i pre K s t r := by
  induction fuel generalizing maxPage i pre K s with
  | zero =>
    obtain rfl : i = leafCountOf byteLength := by omega
    cases h
    exact pagesRead_end sha256 byteLength _ hpre hK
  | succ fuel ih =>
    rcases Nat.eq_or_lt_of_le hi with rfl | hlt
    · have hge := leafCountOf_mul_ge byteLength
      rw [decodePages_end sha256 byteLength (show byteLength ≤ pre.length by omega)] at h
      cases h
      exact pagesRead_end sha256 byteLength _ hpre hK
    · have hlt' := lt_leafCountOf.1 hlt
      have hpre' : pre.length = i * leafBytes := by omega
      have hoff : ∀ {mp : Nat}, (runOf byteLength d mp i pre K).payloadOff = i * leafBytes :=
        fun {_} => hpre'
      obtain ⟨m, hm⟩ : ∃ m, m = min (leafCountOf byteLength - i) pageLeaves := ⟨_, rfl⟩
      obtain ⟨hm0, hmle⟩ := page_leaves hlt hm
      rw [decodePages, if_pos (by rw [hoff]; exact hlt')] at h
      obtain ⟨pbuf, u, hread, h₁⟩ := run_bind_ok.1 h
      obtain ⟨hrest, hlen, haux⟩ := dread_ok hread
      obtain ⟨-, h₂⟩ := run_reject_bind_ok.1 h₁
      obtain ⟨hcanon, h₃⟩ := run_reject_bind_ok.1 h₂
      obtain ⟨⟨r₁, crc⟩, u₁, hseg, h₄⟩ := run_bind_ok.1 h₃
      have hget : getle pbuf = min (byteLength - i * leafBytes) pageBytes := by
        rw [hoff] at hcanon
        exact Decidable.not_not.mp fun hne => hcanon ⟨hd, hne⟩
      -- the length as it is written is the canonical one
      have hpbuf : pbuf = bytes pageWidth (min (byteLength - i * leafBytes) pageBytes) := by
        rw [← hget, ← hlen, bytes_getle (by omega)]
      rw [hget] at hseg
      obtain ⟨data, K', bs, rfl, hlen', hmap, hrest₁, haux₁, hback⟩ :=
        decodeSegments_ok sha256 byteLength
          (max maxPage (min (byteLength - i * leafBytes) pageBytes)) m hmle (page_end hlt' hm)
          (show i * leafBytes + 0 = _ by omega) hpre hK hseg
      dsimp only at h₄
      rw [checkPageCrc_zero, pure_bind] at h₄
      obtain ⟨data', bs', haccum, hlen'', hrest₂, haux₂, hback'⟩ :=
        ih _ _ hmle (by omega) hlen' (hmap ▸ hK.afterLeaves m hmle) h₄
      refine ⟨data ++ data', pbuf ++ bs ++ bs', ?_, ?_, ?_, ?_, ?_⟩
      · rw [← List.append_assoc, haccum]
      · rw [← List.append_assoc, hlen'']
      · rw [hrest, hrest₁, hrest₂]
        simp
      · rw [haux₂, haux₁, haux]
      · -- the pages behind this one force the claims after it, and those force the ones before
        intro v hv
        rw [List.length_append, natByteRange_add] at hv
        obtain ⟨hv₁, hv₂⟩ := List.append_inj hv (by simp)
        rw [← List.length_append] at hv₂
        obtain ⟨hK', hbs'⟩ := hback' v hv₂
        obtain ⟨hKt, hbs⟩ := hback v hv₁ hK'
        refine ⟨hKt, ?_⟩
        rw [hbs, hbs', hmap, pagesRun.eq_def _ _ _ _ i, dif_pos hlt, hpbuf]
        simp only [← hm]

/-! ## The initial proof -/

/-- A path read for a tree of `c` leaves: one sibling per level. -/
def PathFor : Nat → List ProofSibling → Prop
  | c, [] => ¬ 1 < c
  | c, s :: path =>
    1 < c ∧ s.start = splitPower c ∧ s.count = c - splitPower c ∧ s.parentCount = c ∧
      PathFor (splitPower c) path

/-- The claims a path makes. -/
def claimsOf (path : List ProofSibling) : List Claim :=
  path.map fun s => ((s.start, s.count), s.hash)

/-- Forwards: the hashes of a path are read back. -/
theorem parses_readPath (p : PinTrack) {c : Nat} {path : List ProofSibling} (h : PathFor c path) :
    Parses (readPath c) p (path.flatMap fun s => s.hash.bytes) path p := by
  induction path generalizing c with
  | nil =>
    rw [readPath, dif_neg h]
    exact Parses.pure _ p
  | cons s path ih =>
    obtain ⟨hc, hstart, hcount, hparent, hpath⟩ := h
    rw [readPath, dif_pos hc, List.flatMap_cons]
    refine Parses.bind (parses_dreadHash s.hash p) (Parses.bind_nil (ih hpath) ?_)
    have hs : ({ start := splitPower c, count := c - splitPower c, parentCount := c,
                 hash := s.hash } : ProofSibling) = s := by
      obtain ⟨_, _, _, _⟩ := s
      simp only at hstart hcount hparent
      rw [hstart, hcount, hparent]
    rw [hs]
    exact Parses.pure _ p

/-- Backwards: what is read is a path for that many leaves. -/
theorem readPath_ok {c : Nat} {s t : Stream PinTrack} {path : List ProofSibling}
    (h : readPath c s = .ok (path, t)) :
    PathFor c path ∧ s.rest = (path.flatMap fun s => s.hash.bytes) ++ t.rest ∧ t.aux = s.aux := by
  induction c using Nat.strongRecOn generalizing path s t with
  | _ c ih =>
    rw [readPath] at h
    split at h
    · next hc =>
      obtain ⟨hash, u, hread, h₁⟩ := run_bind_ok.1 h
      obtain ⟨path', u', hpath, h₂⟩ := run_bind_ok.1 h₁
      obtain ⟨hrest, haux⟩ := dreadHash_ok hread
      obtain ⟨hfor, hrest', haux'⟩ := ih _ (splitPower_lt hc) hpath
      cases h₂
      refine ⟨⟨hc, rfl, rfl, rfl, hfor⟩, ?_, haux'.trans haux⟩
      rw [hrest, hrest', List.flatMap_cons, List.append_assoc]
    · next hc =>
      cases h
      exact ⟨hc, rfl, rfl⟩

/-- The intervals of a path are the siblings of the left spine. -/
theorem PathFor.map_fst {c : Nat} {path : List ProofSibling} (h : PathFor c path) :
    (claimsOf path).map Prod.fst = spineSiblings c := by
  induction path generalizing c with
  | nil =>
    rw [spineSiblings, dif_neg h]
    rfl
  | cons s path ih =>
    obtain ⟨hc, hstart, hcount, -, hpath⟩ := h
    rw [spineSiblings, dif_pos hc, ← ih hpath, ← hcount, ← hstart]
    rfl

/-- The tree of a number has a path, with true claims. -/
theorem exists_pathFor (c : Nat) :
    ∃ path, PathFor c path ∧ Holds sha256 v byteLength (claimsOf path) := by
  induction c using Nat.strongRecOn with
  | _ c ih =>
    by_cases hc : 1 < c
    · obtain ⟨path, hpath, hholds⟩ := ih _ (splitPower_lt hc)
      refine ⟨⟨splitPower c, c - splitPower c, c,
        treeHash sha256 v byteLength (splitPower c, c - splitPower c)⟩ :: path,
        ⟨hc, rfl, rfl, rfl, hpath⟩, ?_⟩
      exact List.forall_mem_cons.mpr ⟨rfl, hholds⟩
    · exact ⟨[], hc, by simp [Holds, claimsOf]⟩

/-- The bytes of a path are the hashes of those siblings. -/
theorem flatMap_path {c : Nat} {path : List ProofSibling} (h : PathFor c path)
    (hholds : Holds sha256 v byteLength (claimsOf path)) :
    (path.flatMap fun s => s.hash.bytes)
      = (spineSiblings c).flatMap fun i => (treeHash sha256 v byteLength i).bytes := by
  rw [← h.map_fst, claimsOf, List.map_map, List.flatMap_map]
  refine List.flatMap_congr fun s hs => ?_
  exact congrArg Hash.bytes (hholds ((s.start, s.count), s.hash)
    (List.mem_map.mpr ⟨s, hs, rfl⟩))

/-- A true path folds to the root of the tree. -/
theorem foldPath_eq {c : Nat} (hc : 0 < c) {path : List ProofSibling} (h : PathFor c path)
    (hholds : Holds sha256 v byteLength (claimsOf path)) :
    foldPath sha256 (treeHash sha256 v byteLength (0, 1)) path
      = treeHash sha256 v byteLength (0, c) := by
  induction path generalizing c with
  | nil =>
    have h1 : ¬ 1 < c := h
    obtain rfl : c = 1 := by omega
    rfl
  | cons s path ih =>
    obtain ⟨hc1, hstart, hcount, hparent, hpath⟩ := h
    obtain ⟨hs, hrest⟩ := List.forall_mem_cons.mp hholds
    have hfold := ih (splitPower_pos hc1) hpath hrest
    unfold foldPath at hfold ⊢
    dsimp only at hs
    -- the sibling's hash and the fold so far make the node above
    rw [List.foldr_cons, hfold, hs, treeHash_node sha256 v byteLength (i := (0, c)) hc1]
    simp only [hparent, hstart, hcount, Nat.zero_add]

/-- The frontier the reader starts with is the left spine of the tree. -/
theorem initialFrontier_eq {c : Nat} {path : List ProofSibling} {B : List Claim} (first : Hash)
    (hc : 0 < c) (h : PathFor c path) (hB : ∀ b ∈ B, c ≤ b.1.1) :
    initialFrontier path (knownOf (((0, 1), first) :: B))
      = some (knownOf (((0, 1), first) :: ((claimsOf path).reverse ++ B))) := by
  induction path generalizing c B with
  | nil => rfl
  | cons s path ih =>
    obtain ⟨hc1, hstart, hcount, -, hpath⟩ := h
    have hpos := splitPower_pos hc1
    have hlt := splitPower_lt hc1
    have hins := insert_knownOf (A := [((0, 1), first)]) (B := B) (s := s.start) (c := s.count)
      s.hash (by omega) (by simp; omega) (fun b hb => by have := hB b hb; omega)
    rw [initialFrontier, show ((0, 1), first) :: B = [((0, 1), first)] ++ B from rfl, hins,
      Option.bind_some]
    -- the deeper siblings go in front of this one
    have hrec := ih (B := ((s.start, s.count), s.hash) :: B) hpos hpath
      (List.forall_mem_cons.mpr ⟨by simp only; omega, fun b hb => by have := hB b hb; omega⟩)
    rw [show [((0, 1), first)] ++ ((s.start, s.count), s.hash) :: B
      = ((0, 1), first) :: ((s.start, s.count), s.hash) :: B from rfl, hrec]
    simp [claimsOf]

end Truth

/-! ## Bit lengths -/

/-- The number of bits of `t`, with `fuel` halvings at most. -/
theorem topBits_spec {fuel t : Nat} (ht : t < 2 ^ fuel) (h0 : t ≠ 0) :
    ∃ k, topBits fuel t = k + 1 ∧ k < fuel ∧ 2 ^ k ≤ t ∧ t < 2 ^ (k + 1) := by
  induction fuel generalizing t with
  | zero => simp at ht; omega
  | succ fuel ih =>
    rw [topBits, if_neg h0]
    by_cases h1 : t / 2 = 0
    · refine ⟨0, ?_, by omega, by omega, by omega⟩
      cases fuel with
      | zero => rfl
      | succ fuel => rw [topBits, if_pos h1]
    · obtain ⟨k, hk, hlt, hlo, hhi⟩ := ih (by rw [Nat.pow_succ] at ht; omega) h1
      refine ⟨k + 1, by omega, by omega, ?_, ?_⟩
      · rw [Nat.pow_succ]
        omega
      · rw [Nat.pow_succ]
        omega

/-- It is the one `k + 1` with `t` between `2 ^ k` and `2 ^ (k + 1)`. -/
theorem topBits_eq {fuel t k : Nat} (ht : t < 2 ^ fuel) (hlo : 2 ^ k ≤ t) (hhi : t < 2 ^ (k + 1)) :
    topBits fuel t = k + 1 := by
  have hpos := Nat.two_pow_pos k
  obtain ⟨j, hj, -, hlo', hhi'⟩ := topBits_spec ht (by omega)
  have h1 : k < j + 1 := (Nat.pow_lt_pow_iff_right (by decide)).mp (Nat.lt_of_le_of_lt hlo hhi')
  have h2 : j < k + 1 := (Nat.pow_lt_pow_iff_right (by decide)).mp (Nat.lt_of_le_of_lt hlo' hhi)
  omega

/-- The bit length of a nonzero natural: whole bytes below the top one, then
the bits of the top byte. -/
theorem natBitLength_spec {n : Nat} (hn : n ≠ 0) :
    ∃ k, k < 8 ∧ natBitLength n (byteLen n) = (byteLen n - 1) * 8 + (k + 1) ∧
      2 ^ k ≤ (natByteAt n (byteLen n - 1)).toNat ∧
      (natByteAt n (byteLen n - 1)).toNat < 2 ^ (k + 1) := by
  have hlen : byteLen n ≠ 0 := mt byteLen_eq_zero_iff.1 hn
  obtain ⟨w, hw⟩ := Nat.exists_eq_succ_of_ne_zero hlen
  obtain ⟨hlo, hhi⟩ := byteLen_eq_succ_iff.1 hw
  have htop : (natByteAt n (byteLen n - 1)).toNat ≠ 0 := by
    rw [hw, Nat.succ_sub_one, natByteAt, UInt8.toNat_ofNat']
    have h1 : n / 256 ^ w < 256 := by
      rwa [Nat.div_lt_iff_lt_mul (Nat.pow_pos (by decide)), Nat.mul_comm, ← Nat.pow_succ]
    have h2 : 0 < n / 256 ^ w := Nat.div_pos hlo (Nat.pow_pos (by decide))
    rw [Nat.mod_eq_of_lt h1]
    omega
  obtain ⟨k, hk, hk8, hklo, hkhi⟩ := topBits_spec (UInt8.toNat_lt (natByteAt n (byteLen n - 1))) htop
  refine ⟨k, hk8, ?_, hklo, hkhi⟩
  rw [natBitLength, if_neg hlen, hk]

theorem getLastD_natByteRange {n len : Nat} (h : len ≠ 0) :
    (natByteRange n 0 len).getLastD 0 = natByteAt n (len - 1) := by
  obtain ⟨w, rfl⟩ := Nat.exists_eq_succ_of_ne_zero h
  rw [natByteRange, List.range_succ, List.map_append]
  simp

/-- From the bits back to the bytes, and to the top bit of the last one. -/
theorem byteLength_of_bits {bits byteLength k : Nat} (hk : k < 8) (hb : byteLength ≠ 0)
    (h : bits = (byteLength - 1) * 8 + (k + 1)) :
    bits ≠ 0 ∧ (bits / 8 + if bits % 8 ≠ 0 then 1 else 0) = byteLength ∧ (bits - 1) % 8 = k := by
  refine ⟨by omega, ?_, by omega⟩
  split <;> omega

/-- The reader's test for the top bit passes where it is set. -/
theorem top_bit_set {t k : Nat} (hlo : 2 ^ k ≤ t) (hhi : t < 2 ^ (k + 1)) :
    ¬ (t ≥ 2 ^ (k + 1) ∨ t / 2 ^ k % 2 = 0) := by
  have hpos := Nat.two_pow_pos k
  have hdiv : t / 2 ^ k = 1 := by
    refine Nat.div_eq_of_lt_le (by omega) ?_
    rw [Nat.pow_succ] at hhi
    omega
  rw [hdiv]
  omega

/-- And only there. -/
theorem top_bit_bounds {t k : Nat} (h : ¬ (t ≥ 2 ^ (k + 1) ∨ t / 2 ^ k % 2 = 0)) :
    2 ^ k ≤ t ∧ t < 2 ^ (k + 1) := by
  rw [not_or] at h
  refine ⟨?_, by omega⟩
  by_contra hlt
  exact h.2 (by rw [Nat.div_eq_of_lt (by omega)])

/-! ## The whole natural -/

theorem toNat_ofNat_pred {w : Nat} (h0 : 0 < w) (h8 : w ≤ 8) :
    (UInt8.ofNat (w - 1) + 1).toNat = w := by
  have h : ∀ w < 9, 0 < w → (UInt8.ofNat (w - 1) + 1).toNat = w := by decide
  exact h w (by omega) h0

theorem ofNat_toNat_succ {x : UInt8} (h : 0 < (x + 1).toNat) : UInt8.ofNat ((x + 1).toNat - 1) = x := by
  have hlt := x.toNat_lt
  rw [UInt8.toNat_add] at h
  rw [← UInt8.toNat_inj, UInt8.toNat_ofNat', UInt8.toNat_add]
  simp only [UInt8.reduceToNat] at h ⊢
  omega

theorem pageMax_eq (byteLength : Nat) :
    (if byteLength < pageBytes then byteLength else pageBytes) = min byteLength pageBytes := by
  split <;> omega

/-- The numbers of a header fit their fields. -/
theorem mnat_bounds {byteLength bits k : Nat} (hmax : byteLength ≤ maxNatBytes)
    (hbits : bits = (byteLength - 1) * 8 + (k + 1)) (hk : k < 8) :
    bits ≤ uint64Max ∧ min byteLength pageBytes ≤ uint64Max ∧ leafCountOf byteLength ≤ byteLength := by
  unfold maxNatBytes maxPinCount at hmax
  unfold uint64Max leafCountOf leafBytes
  omega

/-- The header a canonical stream starts with. -/
def mnatHeader (n : Nat) : MnatHeader where
  flags := 0
  pageWidth := widthU64 (min (byteLen n) pageBytes)
  bitLength := natBitLength n (byteLen n)
  declaredRoot := siloNatRootHash sha256 (natBitLength n (byteLen n))
    (treeHash sha256 n (byteLen n) (0, leafCountOf (byteLen n)))

/-- The bytes of a header. -/
def headerBytes (h : MnatHeader) : List UInt8 :=
  [h.flags, UInt8.ofNat (widthU64 h.bitLength - 1), UInt8.ofNat (h.pageWidth - 1)] ++
    bytes (widthU64 h.bitLength) h.bitLength ++ h.declaredRoot.bytes

/-- Forwards: a canonical header is read back. -/
theorem parses_decodeMnatHeader (d : DecCfg) (p : PinTrack) {h : MnatHeader} (hflags : h.flags = 0)
    (hbits : h.bitLength ≠ 0) (hbits64 : h.bitLength ≤ uint64Max) (hpos : 0 < h.pageWidth)
    (h8 : h.pageWidth ≤ 8) : Parses (decodeMnatHeader d) p (headerBytes h) h p := by
  have hw := widthU64_le hbits64
  have hlw : (([h.flags, UInt8.ofNat (widthU64 h.bitLength - 1), UInt8.ofNat (h.pageWidth - 1)]
      : List UInt8).getD 1 0 + 1).toNat = widthU64 h.bitLength :=
    toNat_ofNat_pred (widthU64_pos _) hw
  have hpw : (([h.flags, UInt8.ofNat (widthU64 h.bitLength - 1), UInt8.ofNat (h.pageWidth - 1)]
      : List UInt8).getD 2 0 + 1).toNat = h.pageWidth :=
    toNat_ofNat_pred hpos h8
  have hfl : ([h.flags, UInt8.ofNat (widthU64 h.bitLength - 1), UInt8.ofNat (h.pageWidth - 1)]
      : List UInt8).getD 0 0 = 0 := hflags
  have hget := getle_bytes hw (lt_pow_widthU64 hbits64)
  unfold decodeMnatHeader headerBytes
  rw [List.append_assoc]
  refine Parses.bind (parses_dread p rfl) ?_
  dsimp only
  rw [hlw, hpw, hfl]
  refine Parses.reject_bind (by decide) (Parses.reject_bind (by omega)
    (Parses.reject_bind (fun hc => hc.2 rfl) ?_))
  refine Parses.bind (parses_dread p (length_bytes _ _)) ?_
  refine Parses.bind_nil (parses_dreadHash _ p) ?_
  rw [hget]
  refine Parses.reject_bind hbits (Parses.reject_bind (fun hc => hc rfl) ?_)
  rw [← hflags]
  exact Parses.pure _ p

/-- Backwards: in the canonical scan the fields fix the bytes, as their widths have to be the
least ones. -/
theorem decodeMnatHeader_ok {d : DecCfg} {h : MnatHeader} {s t : Stream PinTrack}
    (hd : d.canonical) (hrun : decodeMnatHeader d s = .ok (h, t)) :
    (0 < h.pageWidth → s.rest = headerBytes h ++ t.rest) ∧ t.aux = s.aux ∧ h.flags = 0 ∧
      h.bitLength ≠ 0 ∧ h.bitLength ≤ uint64Max ∧ h.pageWidth ≤ 8 := by
  unfold decodeMnatHeader at hrun
  obtain ⟨fixed, u, hread, h₁⟩ := run_bind_ok.1 hrun
  obtain ⟨hrest, hlen, haux⟩ := dread_ok hread
  obtain ⟨-, h₂⟩ := run_reject_bind_ok.1 h₁
  obtain ⟨hwidth, h₃⟩ := run_reject_bind_ok.1 h₂
  obtain ⟨hflags, h₄⟩ := run_reject_bind_ok.1 h₃
  obtain ⟨lenbuf, u₁, hread₁, h₅⟩ := run_bind_ok.1 h₄
  obtain ⟨hrest₁, hlen₁, haux₁⟩ := dread_ok hread₁
  obtain ⟨root, u₂, hread₂, h₆⟩ := run_bind_ok.1 h₅
  obtain ⟨hrest₂, haux₂⟩ := dreadHash_ok hread₂
  obtain ⟨hbits, h₇⟩ := run_reject_bind_ok.1 h₆
  obtain ⟨hmin, h₈⟩ := run_reject_bind_ok.1 h₇
  cases h₈
  rw [ne_eq, not_not] at hmin
  have hzero : fixed.getD 0 0 = 0 := Decidable.not_not.mp fun hne => hflags ⟨hd, hne⟩
  refine ⟨?_, haux₂.trans (haux₁.trans haux), hzero, hbits, getle_lt, by dsimp only; omega⟩
  intro hpos
  obtain ⟨a, b, c, rfl⟩ := List.length_eq_three.mp hlen
  -- the length has been read at its least width
  have hbytes : bytes (widthU64 (getle lenbuf)) (getle lenbuf) = lenbuf := by
    rw [← hmin, ← hlen₁, bytes_getle (by rw [hlen₁, hmin]; exact widthU64_le getle_lt)]
  have hmin' : (b + 1).toNat = widthU64 (getle lenbuf) := hmin
  have hb : UInt8.ofNat (widthU64 (getle lenbuf) - 1) = b := by
    rw [← hmin']
    exact ofNat_toNat_succ (hmin' ▸ widthU64_pos _)
  have hc : UInt8.ofNat ((c + 1).toNat - 1) = c := ofNat_toNat_succ hpos
  rw [hrest, hrest₁, hrest₂]
  unfold headerBytes
  simp only [hbytes, hb, List.append_assoc]
  show _ = [a, b, UInt8.ofNat ((c + 1).toNat - 1)] ++ _
  rw [hc]

theorem knownOf_first (first : Hash) :
    ({ unopened := [], expected := [⟨0, first⟩] } : Frontier) = knownOf [((0, 1), first)] := rfl

/-- The hashes of the initial proof. -/
def proofBytes (v byteLength : Nat) : List UInt8 :=
  (treeHash sha256 v byteLength (0, 1)).bytes ++
    (spineSiblings (leafCountOf byteLength)).flatMap fun i => (treeHash sha256 v byteLength i).bytes

/-- The first leaf and the path are the claims of the left spine. -/
theorem holds_spine (v byteLength : Nat) {c : Nat} {path : List ProofSibling} (first : Hash)
    (hc : 0 < c) (hpath : PathFor c path) :
    (((0, 1), first) :: (claimsOf path).reverse).map Prod.fst = spine mnatSplit 0 c ∧
      (Holds sha256 v byteLength (((0, 1), first) :: (claimsOf path).reverse) ↔
        first = treeHash sha256 v byteLength (0, 1) ∧
          Holds sha256 v byteLength (claimsOf path)) := by
  refine ⟨?_, ?_⟩
  · rw [spine_eq _ hc, ← hpath.map_fst, List.map_cons, List.map_reverse]
  · simp only [Holds, List.forall_mem_cons, List.mem_reverse]

/-- Forwards: the proof of the number folds to its root. -/
theorem parses_decodeMnatProof (p : PinTrack) {h : MnatHeader} {v byteLength : Nat}
    (hcount : 0 < leafCountOf byteLength)
    (hroot : h.declaredRoot = siloNatRootHash sha256 h.bitLength
      (treeHash sha256 v byteLength (0, leafCountOf byteLength))) :
    Parses (decodeMnatProof sha256 h (leafCountOf byteLength)) p (proofBytes sha256 v byteLength)
      (knownOf (trueClaims sha256 v byteLength (spine mnatSplit 0 (leafCountOf byteLength)))) p := by
  obtain ⟨path, hpath, hholds⟩ := exists_pathFor sha256 v byteLength (leafCountOf byteLength)
  have hinit := initialFrontier_eq (treeHash sha256 v byteLength (0, 1)) hcount hpath
    (B := []) (by simp)
  obtain ⟨hmap, hiff⟩ := holds_spine sha256 v byteLength (treeHash sha256 v byteLength (0, 1))
    hcount hpath
  have hK := (holds_iff sha256 v byteLength).mp (hiff.mpr ⟨rfl, hholds⟩)
  rw [List.append_nil] at hinit
  unfold decodeMnatProof proofBytes
  refine Parses.bind (parses_dreadHash _ p) ?_
  rw [← flatMap_path sha256 v byteLength hpath hholds]
  refine Parses.bind_nil (parses_readPath p hpath) ?_
  refine Parses.reject_bind ?_ ?_
  · rw [foldPath_eq sha256 v byteLength hcount hpath hholds, hroot]
    exact not_not.mpr rfl
  · rw [knownOf_first, hinit, hK, hmap]
    exact Parses.pure _ p

/-- Backwards: an accepted proof makes claims for the left spine, and the root is forced by
them. -/
theorem decodeMnatProof_ok {h : MnatHeader} {c : Nat} {s t : Stream PinTrack} {f : Frontier}
    (hc : 0 < c) (hrun : decodeMnatProof sha256 h c s = .ok (f, t)) :
    ∃ K bs, f = knownOf K ∧ K.map Prod.fst = spine mnatSplit 0 c ∧ s.rest = bs ++ t.rest ∧
      t.aux = s.aux ∧ ∀ v byteLength, leafCountOf byteLength = c → Holds sha256 v byteLength K →
        bs = proofBytes sha256 v byteLength ∧
          h.declaredRoot = siloNatRootHash sha256 h.bitLength
            (treeHash sha256 v byteLength (0, c)) := by
  unfold decodeMnatProof at hrun
  obtain ⟨first, u, hread, h₁⟩ := run_bind_ok.1 hrun
  obtain ⟨hrest, haux⟩ := dreadHash_ok hread
  obtain ⟨path, u₁, hread₁, h₂⟩ := run_bind_ok.1 h₁
  obtain ⟨hpath, hrest₁, haux₁⟩ := readPath_ok hread₁
  obtain ⟨hroot, h₃⟩ := run_reject_bind_ok.1 h₂
  have hinit := initialFrontier_eq first hc hpath (B := []) (by simp)
  rw [knownOf_first, hinit, List.append_nil] at h₃
  cases h₃
  rw [ne_eq, not_not] at hroot
  refine ⟨_, first.bytes ++ path.flatMap fun s => s.hash.bytes, rfl,
    (holds_spine sha256 0 0 first hc hpath).1, ?_, haux₁.trans haux, ?_⟩
  · rw [hrest, hrest₁, List.append_assoc]
  · -- true claims fold to the root of the tree, which is the declared one
    intro v byteLength hcount hK
    obtain ⟨hfirst, hholds⟩ := (holds_spine sha256 v byteLength first hc hpath).2.mp hK
    refine ⟨?_, ?_⟩
    · rw [proofBytes, hcount, hfirst, flatMap_path sha256 v byteLength hpath hholds]
    · rw [← hroot, hfirst, foldPath_eq sha256 v byteLength hc hpath hholds]

theorem mnatPayload_eq (n : Nat) :
    mnatPayload sha256 n = headerBytes (mnatHeader sha256 n) ++ proofBytes sha256 n (byteLen n) ++
      pagesRun sha256 n (byteLen n) (widthU64 (min (byteLen n) pageBytes)) 0
        (spine mnatSplit 0 (leafCountOf (byteLen n))) := by
  simp only [mnatPayload, headerBytes, proofBytes, mnatHeader, pageMax_eq, List.append_assoc]

theorem natByteRange_all (n : Nat) :
    natByteRange n 0 (min (leafCountOf (byteLen n) * leafBytes) (byteLen n)) = natPayload n := by
  rw [min_eq_right (leafCountOf_mul_ge _), natPayload_eq_range]

/-- The closing checks pass for the number itself: no claim is left, the top bit is set, the
width is canonical. -/
theorem decodeMnatClose_eq (d : DecCfg) {n : Nat} (hn : n ≠ 0) (s : Stream PinTrack) :
    decodeMnatClose d (mnatHeader sha256 n) (byteLen n) (leafCountOf (byteLen n))
        (runAt sha256 n (byteLen n) d (min (byteLen n) pageBytes) (leafCountOf (byteLen n)) []) s
      = .ok (natResult d n, s) := by
  have hlen : byteLen n ≠ 0 := mt byteLen_eq_zero_iff.1 hn
  obtain ⟨k, hk, hbits, hklo, hkhi⟩ := natBitLength_spec hn
  obtain ⟨-, -, htop⟩ := byteLength_of_bits hk hlen hbits
  have htop' : ((mnatHeader sha256 n).bitLength - 1) % 8 = k := htop
  have haccum : (runAt sha256 n (byteLen n) d (min (byteLen n) pageBytes)
      (leafCountOf (byteLen n)) []).accum = accumOf d (natPayload n).length (natPayload n) := by
    rw [runAt, natByteRange_all, length_natPayload]
    rfl
  have hlast : (accumOf d (natPayload n).length (natPayload n)).last
      = natByteAt n (byteLen n - 1) := by
    rw [← getLastD_natByteRange hlen, ← natPayload_eq_range]
    rfl
  unfold decodeMnatClose
  rw [run_reject_bind_ok]
  refine ⟨?_, ?_⟩
  · simp [runAt, runOf, trueClaims, knownOf]
  · rw [haccum, htop', hlast, run_reject_bind_ok]
    refine ⟨top_bit_set hklo hkhi, ?_⟩
    rw [pageMax_eq, run_reject_bind_ok]
    refine ⟨?_, ?_⟩
    · rintro ⟨-, h | h⟩
      · exact h rfl
      · exact h rfl
    · rw [natAccumFinish_ok (natPayload_ne_nil hn), toNat_natPayload]
      exact ⟨getLast_natPayload n, rfl⟩

/-- The reader takes back exactly the canonical stream. -/
theorem parses_decodeMnat (d : DecCfg) (p : PinTrack) {n : Nat} (hcut : natCutover < byteLen n)
    (hmax : byteLen n ≤ maxNatBytes) :
    Parses (decodeMnat sha256 d) p (mnatPayload sha256 n) (natResult d n) p := by
  have hlen : byteLen n ≠ 0 := by omega
  have hn : n ≠ 0 := mt byteLen_eq_zero_iff.2 hlen
  have hcount : 0 < leafCountOf (byteLen n) := lt_leafCountOf.2 (by simp; omega)
  obtain ⟨k, hk, hbits, hklo, hkhi⟩ := natBitLength_spec hn
  obtain ⟨hbits0, hbyte, htop⟩ := byteLength_of_bits hk hlen hbits
  obtain ⟨hbits64, hpage64, hfuel⟩ := mnat_bounds hmax hbits hk
  have hF := OpeningSchedule.forest_spine mnatSplit_balanced hcount
  have hpages := parses_decodePages sha256 n (byteLen n) d 0 p hmax
    (widthU64_le hpage64) (lt_pow_widthU64 hpage64) (Nat.zero_le _)
    (Nat.le_trans (Nat.sub_le _ _) hfuel) hF
  rw [mnatPayload_eq]
  unfold decodeMnat
  rw [List.append_assoc]
  refine Parses.bind (parses_decodeMnatHeader d p rfl hbits0 hbits64 (widthU64_pos _)
    (widthU64_le hpage64)) ?_
  have hbyte' : ((mnatHeader sha256 n).bitLength / 8
      + if (mnatHeader sha256 n).bitLength % 8 ≠ 0 then 1 else 0) = byteLen n := hbyte
  dsimp only
  rw [hbyte']
  refine Parses.reject_bind (by omega) (Parses.reject_bind (fun h => by omega) ?_)
  refine Parses.bind (parses_decodeMnatProof sha256 p hcount rfl) ?_
  intro rest pos
  -- the run starts with no payload and the claims of the left spine
  have hstart : runAt sha256 n (byteLen n) d 0 0 (spine mnatSplit 0 (leafCountOf (byteLen n)))
      = { accum := accumOf d (byteLen n) [], payloadOff := 0, leafIndex := 0, leafBuf := [],
          maxPage := 0, frontier := knownOf (trueClaims sha256 n (byteLen n)
            (spine mnatSplit 0 (leafCountOf (byteLen n)))) } := by
    simp [runAt, runOf, natByteRange]
  rw [Nat.zero_mul, Nat.sub_zero, Nat.zero_max, hstart] at hpages
  rw [run_bind_eq (natAccumInit_eq d hmax _)]
  refine (run_bind_eq (hpages rest pos)).trans ?_
  exact decodeMnatClose_eq sha256 d hn _

/-- **Canonical MNATs are forced**: the canonical scan accepts only the stream
of the natural it denotes. -/
theorem decodeMnat_ok {d : DecCfg} {s t : Stream PinTrack} {r : Val × NodeInfo}
    (hd : d.canonical) (hrun : decodeMnat sha256 d s = .ok (r, t)) :
    ∃ n, natCutover < byteLen n ∧ byteLen n ≤ maxNatBytes ∧
      s.rest = mnatPayload sha256 n ++ t.rest ∧ r = natResult d n ∧ t.aux = s.aux := by
  unfold decodeMnat at hrun
  obtain ⟨h, u, hheader, h₁⟩ := run_bind_ok.1 hrun
  obtain ⟨hhead, haux, hflags, hbits0, hbits64, hw8⟩ := decodeMnatHeader_ok hd hheader
  obtain ⟨B, hB⟩ : ∃ B, B = h.bitLength / 8 + if h.bitLength % 8 ≠ 0 then 1 else 0 := ⟨_, rfl⟩
  dsimp only at h₁
  rw [← hB] at h₁
  obtain ⟨hmax, h₂⟩ := run_reject_bind_ok.1 h₁
  obtain ⟨hcut, h₃⟩ := run_reject_bind_ok.1 h₂
  have hcut' : natCutover < B := Nat.lt_of_not_le fun hle => hcut ⟨hd, hle⟩
  have hB0 : B ≠ 0 := by omega
  have hcount : 0 < leafCountOf B := lt_leafCountOf.2 (by simp; omega)
  obtain ⟨f, u₁, hproof, h₄⟩ := run_bind_ok.1 h₃
  obtain ⟨K, bs, rfl, hmap, hrest₁, haux₁, hproof'⟩ := decodeMnatProof_ok sha256 hcount hproof
  obtain ⟨a, u₂, hinit, h₅⟩ := run_bind_ok.1 h₄
  obtain ⟨-, rfl, rfl⟩ := natAccumInit_ok hinit
  obtain ⟨run, u₃, hpages, h₆⟩ := run_bind_ok.1 h₅
  have hF : Forest mnatSplit (leafCountOf B) 0 (K.map Prod.fst) :=
    hmap ▸ OpeningSchedule.forest_spine mnatSplit_balanced hcount
  have hfuel : leafCountOf B ≤ B := by
    unfold leafCountOf leafBytes
    omega
  rw [hflags] at hpages
  obtain ⟨data, bs', haccum, hlen, hrest₂, haux₂, hforced⟩ :=
    decodePages_ok sha256 B 0 [] hd hw8 (Nat.zero_le _)
      (Nat.le_trans (Nat.sub_le _ _) hfuel) (by simp) hF hpages
  rw [List.nil_append] at haccum hlen
  -- the closing checks fix the number, the bit length and the page width
  unfold decodeMnatClose at h₆
  obtain ⟨-, h₇⟩ := run_reject_bind_ok.1 h₆
  obtain ⟨hbit, h₈⟩ := run_reject_bind_ok.1 h₇
  obtain ⟨hcanon, h₉⟩ := run_reject_bind_ok.1 h₈
  have hne : data ≠ [] := fun hnil => hB0 (by rw [← hlen, hnil]; rfl)
  rw [haccum, ← hlen] at h₉
  obtain ⟨hz, hr⟩ := (natAccumFinish_ok hne).mp h₉
  cases hr
  have hbyte : byteLen (toNat data) = B := by rw [byteLen_toNat hz, hlen]
  have hrange : natByteRange (toNat data) 0 data.length = data := by
    rw [natByteRange_eq_bytes, Nat.pow_zero, Nat.div_one, bytes_toNat]
  have hwidth : h.pageWidth = widthU64 (min B pageBytes) := by
    rw [← pageMax_eq]
    exact Decidable.not_not.mp fun hne => hcanon ⟨hd, .inl hne⟩
  have hbits : natBitLength (toNat data) B = h.bitLength := by
    have hlast : run.accum.last = natByteAt (toNat data) (B - 1) := by
      rw [haccum, ← getLastD_natByteRange hB0, ← hlen, hrange]
      rfl
    obtain ⟨hlo, hhi⟩ := top_bit_bounds hbit
    rw [hlast] at hlo hhi
    rw [natBitLength, if_neg hB0, topBits_eq (UInt8.toNat_lt _) hlo hhi, hB]
    split <;> omega
  -- The number that was read has the bytes, so all the claims hold of its tree.
  obtain ⟨hK, hbs'⟩ := hforced (toNat data) hrange
  obtain ⟨hbs, hroot⟩ := hproof' (toNat data) B rfl hK
  have hheq : h = mnatHeader sha256 (toNat data) := by
    obtain ⟨flags, pageWidth, bitLength, declaredRoot⟩ := h
    simp only at hflags hwidth hbits hroot
    rw [mnatHeader, hbyte, hbits, ← hroot, ← hwidth, hflags]
  refine ⟨toNat data, by rw [hbyte]; exact hcut', by rw [hbyte]; omega, ?_, rfl, ?_⟩
  · rw [hhead (hwidth ▸ widthU64_pos _), hrest₁, hrest₂, mnatPayload_eq, hbyte, ← hheq, hbs, hbs',
      hmap, hwidth]
    simp
  · rw [haux₂, haux₁, haux]

end Enki.Silo
