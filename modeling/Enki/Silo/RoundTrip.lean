import Enki.Silo.Reader

/-!
# Round trip and uniqueness of canonical Silo streams

A canonical stream is a header (magic, pin count, pin table) followed by one
node of the grammar. `scan_iff` says what the canonical scan accepts,
`build_eq` what the second pass makes of it. From these:

- `round_trip_iff`: what the writer wrote is accepted with its own pin table
  and built back to the value written, exactly when no partial application
  the reader assembles on the way needs `2^20` arguments or more;
- `canonical_unique`: what the scan accepts and the second pass builds is what
  the writer writes for the value built.
-/

namespace Enki.Silo

open LittleEndian ExceptState StreamParser BoundedWriter

variable (sha256 : List UInt8 → Hash)

/-! ## Headers -/

/-- Bytes of a `varnat`. -/
def varnatBytes (v : Nat) : List UInt8 :=
  UInt8.ofNat (if v = 0 then 0 else widthU64 v) :: bytes (if v = 0 then 0 else widthU64 v) v

/-- The header of a stream with pin table `table`. -/
def tableBytes (table : List Hash) : List UInt8 :=
  siloMagic ++ varnatBytes table.length ++ table.flatMap Hash.bytes

theorem emits_encodeHeader (table : List Hash) :
    SiloEmits (encodeHeader table table.length) (tableBytes table) () := by
  have htable : SiloEmits (table.forM fun h => swrite h.bytes) (table.flatMap Hash.bytes) () := by
    induction table with
    | nil => exact Emits.pure ()
    | cons h table ih => exact Emits.bind (emits_swrite _) ih
  have hvarnat : SiloEmits (swriteVarnat table.length) (varnatBytes table.length) () :=
    Emits.bind (emits_swriteU8 _) (emits_swriteLe _ _)
  unfold tableBytes
  rw [List.append_assoc]
  exact Emits.bind (emits_swrite _) (Emits.bind hvarnat htable)

theorem varnat_width {v : Nat} (hv : v ≤ uint64Max) :
    (if v = 0 then 0 else widthU64 v) ≤ 8 ∧ v < 256 ^ (if v = 0 then 0 else widthU64 v) := by
  split
  · next h => simp [h]
  · exact ⟨widthU64_le hv, lt_pow_widthU64 hv⟩

theorem parses_decodeVarnat {v : Nat} (hv : v ≤ uint64Max) (p : PinTrack) :
    Parses decodeVarnat p (varnatBytes v) v p := by
  obtain ⟨hw, hlt⟩ := varnat_width hv
  unfold decodeVarnat varnatBytes
  refine Parses.bind (parses_dreadByte _ p) ?_
  rw [toNat_ofNat_u8 (by omega)]
  refine Parses.reject_bind (by omega) (Parses.bind_nil (parses_dread p (length_bytes _ _)) ?_)
  rw [getle_bytes hw hlt]
  refine Parses.reject_bind ?_ (Parses.pure _ p)
  by_cases h : v = 0
  · simp [h]
  · simp [h]

theorem decodeVarnat_ok {s t : Stream PinTrack} {v : Nat} (h : decodeVarnat s = .ok (v, t)) :
    s.rest = varnatBytes v ++ t.rest ∧ t.aux = s.aux := by
  unfold decodeVarnat at h
  obtain ⟨w, u, hread, h₁⟩ := run_bind_ok.1 h
  obtain ⟨hrest, haux⟩ := dreadByte_ok hread
  obtain ⟨hw, h₂⟩ := run_reject_bind_ok.1 h₁
  obtain ⟨b, u₁, hread₁, h₃⟩ := run_bind_ok.1 h₂
  obtain ⟨hrest₁, hlen, haux₁⟩ := dread_ok hread₁
  obtain ⟨hmin, h₄⟩ := run_reject_bind_ok.1 h₃
  cases h₄
  have hwidth : (if getle b = 0 then 0 else widthU64 (getle b)) = w.toNat := by
    split <;> omega
  refine ⟨?_, haux₁.trans haux⟩
  rw [varnatBytes, hwidth, ofNat_toNat_u8, ← hlen, bytes_getle (by omega), hrest, hrest₁]
  rfl

theorem parses_decodeCount {c : Nat} (hc : c ≤ maxPinCount) (p : PinTrack) :
    Parses decodeCount p (siloMagic ++ varnatBytes c) c p := by
  have hc64 : c ≤ uint64Max := by
    unfold maxPinCount at hc
    unfold uint64Max
    omega
  unfold decodeCount
  refine Parses.bind (Parses.take p rfl) (Parses.reject_bind (fun h => h rfl) ?_)
  exact Parses.bind_nil (parses_decodeVarnat hc64 p)
    (Parses.reject_bind (by omega) (Parses.pure _ p))

theorem decodeCount_ok {s t : Stream PinTrack} {c : Nat} (h : decodeCount s = .ok (c, t)) :
    c ≤ maxPinCount ∧ s.rest = siloMagic ++ varnatBytes c ++ t.rest ∧ t.aux = s.aux := by
  unfold decodeCount at h
  obtain ⟨magic, u, hread, h₁⟩ := run_bind_ok.1 h
  obtain ⟨hrest, -, haux⟩ := run_take_ok hread
  obtain ⟨hmagic, h₂⟩ := run_reject_bind_ok.1 h₁
  obtain ⟨c', u₁, hvar, h₃⟩ := run_bind_ok.1 h₂
  obtain ⟨hrest₁, haux₁⟩ := decodeVarnat_ok hvar
  obtain ⟨hmax, h₄⟩ := run_reject_bind_ok.1 h₃
  cases h₄
  rw [ne_eq, not_not] at hmagic
  exact ⟨by omega, by rw [hrest, hrest₁, hmagic, List.append_assoc], haux₁.trans haux⟩

theorem parses_captureTable (p : PinTrack) (acc hs : List Hash) (hnodup : (acc ++ hs).Nodup) :
    Parses (captureTable hs.length acc) p (hs.flatMap Hash.bytes) (acc ++ hs) p := by
  induction hs generalizing acc with
  | nil =>
    rw [List.append_nil]
    exact Parses.pure _ p
  | cons h hs ih =>
    have hmem : h ∉ acc := by
      intro hmem
      exact (List.nodup_append.mp hnodup).2.2 h hmem h (by simp) rfl
    rw [List.flatMap_cons]
    refine Parses.bind (parses_dreadHash h p) (Parses.reject_bind hmem ?_)
    have hrec := ih (acc ++ [h]) (by simpa using hnodup)
    simpa using hrec

theorem captureTable_ok {n : Nat} {acc r : List Hash} {s t : Stream PinTrack}
    (hacc : acc.Nodup) (h : captureTable n acc s = .ok (r, t)) :
    ∃ hs, hs.length = n ∧ r = acc ++ hs ∧ r.Nodup ∧ s.rest = hs.flatMap Hash.bytes ++ t.rest := by
  induction n generalizing acc s with
  | zero =>
    cases h
    exact ⟨[], rfl, by simp, hacc, rfl⟩
  | succ n ih =>
    obtain ⟨hash, u, hread, h₁⟩ := run_bind_ok.1 h
    obtain ⟨hrest, -⟩ := dreadHash_ok hread
    obtain ⟨hmem, h₂⟩ := run_reject_bind_ok.1 h₁
    have hacc' : (acc ++ [hash]).Nodup := by
      rw [List.nodup_append]
      refine ⟨hacc, by simp, ?_⟩
      rintro a ha b hb rfl
      exact hmem (List.mem_singleton.mp hb ▸ ha)
    obtain ⟨hs, hlen, rfl, hnodup, hrest'⟩ := ih hacc' h₂
    refine ⟨hash :: hs, by rw [List.length_cons, hlen], by simp, hnodup, ?_⟩
    rw [hrest, hrest', List.flatMap_cons, List.append_assoc]

theorem parses_recheckTable (p : PinTrack) (hs : List Hash) :
    Parses (recheckTable hs) p (hs.flatMap Hash.bytes) () p := by
  induction hs with
  | nil => exact Parses.pure _ p
  | cons h hs ih =>
    exact Parses.bind (parses_dreadHash h p) (Parses.reject_bind (fun hne => hne rfl) ih)

theorem encodeTable_ok {subpins : List Val} {acc table : List Hash} (hacc : acc.Nodup)
    (h : encodeTable Val.pinHash subpins acc = .ok table) :
    ∃ hs, table = acc ++ hs ∧ subpins.map Val.pinHash = hs.map some ∧ table.Nodup := by
  induction subpins generalizing acc with
  | nil =>
    cases h
    exact ⟨[], by simp, rfl, hacc⟩
  | cons p subpins ih =>
    unfold encodeTable at h
    split at h
    · split at h
      · cases h
      · next hash hhash =>
        split at h
        · cases h
        · next hmem =>
          have hacc' : (acc ++ [hash]).Nodup := by
            rw [List.nodup_append]
            refine ⟨hacc, by simp, ?_⟩
            rintro a ha b hb rfl
            exact hmem (List.mem_singleton.mp hb ▸ ha)
          obtain ⟨hs, rfl, hmap, hnodup⟩ := ih hacc' h
          exact ⟨hash :: hs, by simp, by simp [hhash, hmap], hnodup⟩
    · cases h

theorem encodeTable_eq {subpins : List Val} (acc : List Hash) {hs : List Hash}
    (hpins : ∀ p ∈ subpins, p.isPin) (hmap : subpins.map Val.pinHash = hs.map some)
    (hnodup : (acc ++ hs).Nodup) :
    encodeTable Val.pinHash subpins acc = .ok (acc ++ hs) := by
  induction subpins generalizing acc hs with
  | nil =>
    obtain rfl : hs = [] := by simpa using hmap.symm
    simp [encodeTable]
  | cons p subpins ih =>
    cases hs with
    | nil => simp at hmap
    | cons h hs =>
      simp only [List.map_cons, List.cons.injEq] at hmap
      have hmem : h ∉ acc := fun hmem => (List.nodup_append.mp hnodup).2.2 h hmem h (by simp) rfl
      rw [encodeTable, if_pos (hpins p (by simp)), hmap.1]
      simp only [hmem, if_false]
      rw [ih _ (fun q hq => hpins q (by simp [hq])) hmap.2 (by simpa using hnodup)]
      simp

/-! ## Streams -/

section Streams

variable {sha256} {resolved : List Val} {table : List Hash} {v : Val} {bs : List UInt8}

/-- A canonical stream: a pin table of distinct hashes, and a node that uses
all of it. -/
structure Canonical (sha256 : List UInt8 → Hash) (resolved : List Val) (table : List Hash) (v : Val)
    (bytes : List UInt8) : Prop where
  intro ::
  tableFor : TableFor resolved table
  count : table.length ≤ maxPinCount
  wire : ∃ bs, bytes = tableBytes table ++ bs ∧
    Wire sha256 resolved (maxDepth + 1) (.node v) 0 bs table.length

theorem TableFor.length_eq (ht : TableFor resolved table) : table.length = resolved.length := by
  have h := congrArg List.length ht.hashes
  simpa using h.symm

theorem Canonical.count64 {bytes : List UInt8} (h : Canonical sha256 resolved table v bytes) :
    resolved.length ≤ uint64Max := by
  have hcount := h.count
  rw [h.tableFor.length_eq] at hcount
  unfold maxPinCount at hcount
  unfold uint64Max
  omega

/-- The writer writes a canonical stream of its value. -/
theorem encode_canonical (hnf : NormalForm v) {bytes : List UInt8}
    (h : plSiloEncode sha256 v (firstOccurrences v.directPins) = .ok bytes) :
    bytes.length ≤ uint64Max ∧
      ∃ table, Canonical sha256 (firstOccurrences v.directPins) table v bytes := by
  unfold plSiloEncode plSiloEncodeResolved at h
  split at h
  · cases h
  · next hcount =>
    split at h
    · cases h
    · next table htable =>
      obtain ⟨hs, heq, hmap, hnodup⟩ := encodeTable_ok List.nodup_nil htable
      rw [List.nil_append] at heq
      subst heq
      have ht : TableFor (firstOccurrences v.directPins) table := ⟨hmap, hnodup⟩
      rw [← ht.length_eq] at h hcount
      obtain ⟨⟨⟨⟩, w⟩, hrun, rfl⟩ := map_ok.1 h
      obtain ⟨⟨⟩, u, hhead, hnode⟩ := run_bind_ok.1 hrun
      obtain ⟨-, rfl, hu⟩ := (emits_encodeHeader table).run (Nat.zero_le _) hhead
      obtain ⟨bs, rfl, hlen, hwire⟩ := (encode_wrote ht (maxDepth + 1)).1 v [] _ w hnf
        (by simp) hu hnode
      refine ⟨hlen, table, ht, by omega, bs, rfl, ?_⟩
      rw [ht.length_eq]
      exact hwire

/-- The writer writes exactly the canonical stream. -/
theorem Canonical.encode (hpins : ∀ p ∈ resolved, p.isPin) {bytes : List UInt8}
    (h : Canonical sha256 resolved table v bytes) (hlen : bytes.length ≤ uint64Max) :
    plSiloEncode sha256 v resolved = .ok bytes := by
  obtain ⟨ht, hcount, bs, rfl, hwire⟩ := h
  have hnode : SiloEmits (encodeNode sha256 Val.pinHash table (maxDepth + 1) v) bs () :=
    hwire.emits ht
  have hemits := Emits.bind (emits_encodeHeader table) (f := fun _ => _) hnode
  have htable := encodeTable_eq [] hpins ht.hashes (by simpa using ht.nodup)
  have hrun := hemits.run_of_fits (w := []) (by simpa using hlen)
  unfold plSiloEncode plSiloEncodeResolved
  rw [if_neg (by rw [← ht.length_eq]; omega), htable, ← ht.length_eq, List.nil_append]
  dsimp only
  rw [hrun]
  rfl

/-- The configuration of a scan. -/
def scanCfg (canonical : Bool) (pins : List Hash) : DecCfg :=
  { build := false, canonical, captureHeader := true, pins, resolved := [] }

/-- The configuration of the second pass. -/
def buildCfg (pins : List Hash) (resolved : List Val) : DecCfg :=
  { build := true, canonical := false, captureHeader := false, pins, resolved }

theorem trackAt_zero (n : Nat) : (⟨List.replicate n false, 0, []⟩ : PinTrack) = trackAt n 0 := by
  simp [trackAt]

/-- **The canonical scan** accepts a canonical stream and reports its table. -/
theorem Canonical.scan {b : Source} (h : Canonical sha256 resolved table v b.bytes) :
    plSiloScanStream sha256 b true = .ok { pins := table, used := List.range table.length } := by
  have hlen64 := h.count64
  obtain ⟨ht, hcount, bs, hbytes, hwire⟩ := h
  have hlen := ht.length_eq
  have hd : ReaderFor resolved (scanCfg true table) := ⟨hlen, by simp [scanCfg]⟩
  obtain ⟨info, -, hnode⟩ := hwire.reads hd hlen64 (Nat.le_refl _) (by simp [scanCfg])
  have h₁ := parses_decodeCount hcount ⟨[], 0, []⟩ (table.flatMap Hash.bytes ++ bs) 0
  have h₂ := parses_captureTable ⟨[], 0, []⟩ [] table (by simpa using ht.nodup) bs
    (0 + (siloMagic ++ varnatBytes table.length).length)
  have h₃ := hnode [] (0 + (siloMagic ++ varnatBytes table.length).length +
    (table.flatMap Hash.bytes).length)
  have haux : trackOf (scanCfg true table) resolved.length 0
      = ⟨List.replicate table.length false, 0, []⟩ := by
    rw [trackAt_zero, hlen]
    rfl
  rw [List.append_nil, haux] at h₃
  rw [List.nil_append] at h₂
  unfold plSiloScanStream
  rw [hbytes, tableBytes, List.append_assoc]
  refine bind_ok.2 ⟨_, h₁, bind_ok.2 ⟨_, h₂, bind_ok.2 ⟨_, h₃, ?_⟩⟩⟩
  simp [trackOf, scanCfg, trackAt]

/-- The canonical scan accepts only canonical streams. -/
theorem scan_canonical {b : Source} {scan : Scan} (hpins : ∀ p ∈ resolved, p.isPin)
    (hhash : resolved.map Val.pinHash = scan.pins.map some)
    (h : plSiloScanStream sha256 b true = .ok scan) :
    ∃ v, Canonical sha256 resolved scan.pins v b.bytes := by
  unfold plSiloScanStream at h
  obtain ⟨⟨count, s₁⟩, hcount, h₁⟩ := bind_ok.1 h
  obtain ⟨hmax, hrest₁, -⟩ := decodeCount_ok hcount
  obtain ⟨⟨pins, s₂⟩, htable, h₂⟩ := bind_ok.1 h₁
  obtain ⟨hs, hlen, heq, hnodup, hrest₂⟩ := captureTable_ok List.nodup_nil htable
  rw [List.nil_append] at heq
  subst heq hlen
  obtain ⟨⟨r, s₃⟩, hnode, h₃⟩ := bind_ok.1 h₂
  dsimp only at h₃
  split at h₃
  · cases h₃
  · next hempty =>
    split at h₃
    · cases h₃
    · next hused =>
      cases h₃
      have ht : TableFor resolved pins := ⟨hhash, hnodup⟩
      have hd : ScanFor resolved (scanCfg true pins) := ⟨ht.length_eq, hpins, rfl, rfl, rfl⟩
      obtain ⟨v, -, k, bs, hwire, hrest₃, haux⟩ := scan_wire hd (maxDepth + 1)
        (k := 0) (by rw [trackAt_zero, ht.length_eq]) hnode
      have hk : k = pins.length := by
        simpa [haux, trackAt] using hused
      have hnil : s₃.rest = [] := by simpa using hempty
      refine ⟨v, ht, hmax, bs, ?_, hk ▸ hwire⟩
      rw [hnil, List.append_nil] at hrest₃
      rw [tableBytes, show b.bytes = _ from hrest₁, hrest₂, show s₂.rest = bs from hrest₃]
      simp

/-- **The second pass** builds the value, unless a partial application needs too
much. -/
theorem Canonical.build {b : Source} (used : List Nat)
    (h : Canonical sha256 resolved table v b.bytes) :
    (NeedFits v → plSiloBuildStream sha256 b ⟨table, used⟩ resolved = .ok v) ∧
      (¬ NeedFits v → ∃ e, plSiloBuildStream sha256 b ⟨table, used⟩ resolved = .error e) := by
  have hlen64 := h.count64
  obtain ⟨ht, hcount, bs, hbytes, hwire⟩ := h
  have hlen := ht.length_eq
  have hd : ReaderFor resolved (buildCfg table resolved) := ⟨hlen, fun _ => rfl⟩
  have h₁ := parses_decodeCount hcount ⟨[], 0, []⟩ (table.flatMap Hash.bytes ++ bs) 0
  have h₂ := parses_recheckTable ⟨[], 0, []⟩ table bs
    (0 + (siloMagic ++ varnatBytes table.length).length)
  have hstart : plSiloBuildStream sha256 b ⟨table, used⟩ resolved = (do
      let node ← decodeNode sha256 (buildCfg table resolved) (maxDepth + 1)
        ⟨bs, 0 + (siloMagic ++ varnatBytes table.length).length +
          (table.flatMap Hash.bytes).length, ⟨[], 0, []⟩⟩
      if ¬ node.2.rest.isEmpty then .error "trailing bytes after Silo root node"
      else .ok node.1.1) := by
    unfold plSiloBuildStream
    rw [hbytes, tableBytes, List.append_assoc, h₁, ok_bind]
    dsimp only
    rw [if_neg (by simp), h₂]
    rfl
  rw [hstart]
  refine ⟨fun hfits => ?_, fun hfits => ?_⟩
  · obtain ⟨info, -, hnode⟩ := hwire.reads hd hlen64 (Nat.le_refl _) fun _ => hfits
    have h₃ := hnode [] (0 + (siloMagic ++ varnatBytes table.length).length +
      (table.flatMap Hash.bytes).length)
    rw [List.append_nil] at h₃
    exact bind_ok.2 ⟨_, h₃, rfl⟩
  · have hnode := hwire.rejects hd rfl hlen64 (Nat.le_refl _) hfits
    obtain ⟨e, he⟩ := hnode [] (0 + (siloMagic ++ varnatBytes table.length).length +
      (table.flatMap Hash.bytes).length)
    rw [List.append_nil] at he
    refine ⟨e, ?_⟩
    rw [show decodeNode sha256 (buildCfg table resolved) (maxDepth + 1) ⟨bs, _, ⟨[], 0, []⟩⟩ = _
      from he, error_bind]

/-! ## Round trip -/

/-- The stream is accepted by the canonical scan with the hashes of `subpins`
as its pin table, all used in order, and the second pass builds `v` from it,
which it does only when it has consumed the whole stream. -/
def RoundTrips (sha256 : List UInt8 → Hash) (v : Val) (subpins : List Val) (b : Source) : Prop :=
  ∃ scan, plSiloScanStream sha256 b true = .ok scan ∧
    scan.pins.map some = subpins.map Val.pinHash ∧
    scan.used = List.range subpins.length ∧
    plSiloBuildStream sha256 b scan subpins = .ok v

end Streams

/-- **Silo round trip**, exactly: what the writer wrote for a normal form comes
back if and only if every partial application the reader assembles fits. -/
theorem round_trip_iff (v : Val) (hnf : NormalForm v) (bytes : List UInt8)
    (henc : plSiloEncode sha256 v (firstOccurrences v.directPins) = .ok bytes) :
    ∃ hlen : bytes.length ≤ uint64Max,
      RoundTrips sha256 v (firstOccurrences v.directPins) ⟨bytes, hlen⟩ ↔ NeedFits v := by
  obtain ⟨hlen, table, hcanon⟩ := encode_canonical hnf henc
  refine ⟨hlen, ?_⟩
  have hscan := Canonical.scan (b := ⟨bytes, hlen⟩) hcanon
  have hbuild := Canonical.build (b := ⟨bytes, hlen⟩) (List.range table.length) hcanon
  constructor
  · rintro ⟨scan, hscan', -, -, hbuild'⟩
    rw [hscan] at hscan'
    cases hscan'
    by_contra hfits
    obtain ⟨e, he⟩ := hbuild.2 hfits
    rw [he] at hbuild'
    cases hbuild'
  · intro hfits
    refine ⟨_, hscan, hcanon.tableFor.hashes.symm, ?_, hbuild.1 hfits⟩
    rw [hcanon.tableFor.length_eq]

/-- A law of arity `2^20 + 16` applied to twenty arguments: its own need is
`2^20 - 4`, but that of its first fifteen arguments is `2^20 + 1`. -/
def wideApp : Val :=
  .app (2 ^ 20 - 4) (.law (2 ^ 20 + 16) (.nat 0) (.nat 0)) (List.replicate 20 (.nat 0))

/-- The stream of `wideApp`. -/
def wideAppBytes : List UInt8 :=
  siloMagic ++ [0, 0x28, 0x78, 0xf0, 0x80, 0xc3, 0x10, 0, 0x10, 0x80] ++ List.replicate 20 0x80

theorem wideApp_normalForm : NormalForm wideApp := by
  simp only [wideApp, NormalForm, List.replicate, NormalForms]
  decide

theorem wideApp_encode (sha256 : List UInt8 → Hash) :
    plSiloEncode sha256 wideApp (firstOccurrences wideApp.directPins) = .ok wideAppBytes := by
  rfl

theorem wideApp_needFits : ¬ NeedFits wideApp := by
  rintro ⟨-, -, h⟩
  exact absurd h (by decide)

/-- Not every stream the writer writes for a normal form comes back: the second
pass rejects that of `wideApp`. -/
theorem wideApp_does_not_round_trip :
    ¬ ∀ (sha256 : List UInt8 → Hash) (v : Val) (bytes : List UInt8), NormalForm v →
      plSiloEncode sha256 v (firstOccurrences v.directPins) = .ok bytes →
      ∃ hlen : bytes.length ≤ uint64Max,
        RoundTrips sha256 v (firstOccurrences v.directPins) ⟨bytes, hlen⟩ := by
  intro h
  have sha : List UInt8 → Hash := fun _ => ⟨List.replicate 32 0, rfl⟩
  obtain ⟨hlen, scan, hscan, -, -, hbuild⟩ :=
    h sha wideApp wideAppBytes wideApp_normalForm (wideApp_encode sha)
  obtain ⟨-, table, hcanon⟩ := encode_canonical wideApp_normalForm (wideApp_encode sha)
  obtain ⟨e, he⟩ := (Canonical.build (b := ⟨wideAppBytes, hlen⟩) scan.used hcanon).2
    wideApp_needFits
  have hpins := (Canonical.scan (b := ⟨wideAppBytes, hlen⟩) hcanon).symm.trans hscan
  cases hpins
  exact absurd (he.symm.trans hbuild) (by simp)

/-- A pin applied to a small natural. -/
def pinApp : Val :=
  .app 0 (.pin (some ⟨List.replicate 32 7, rfl⟩) (.law 1 (.nat 0) (.nat 1))) [.nat 5]

/-- The stream of `pinApp`. -/
def pinAppBytes : List UInt8 :=
  siloMagic ++ [1, 1] ++ List.replicate 32 7 ++ [0x08, 0xf1, 0, 0x85]

theorem pinApp_normalForm : NormalForm pinApp := by
  simp only [pinApp, NormalForm, NormalForms]
  decide

theorem pinApp_needFits : NeedFits pinApp := by
  simp only [pinApp, NeedFits, NeedFitsAll]
  decide

theorem pinApp_encode (sha256 : List UInt8 → Hash) :
    plSiloEncode sha256 pinApp (firstOccurrences pinApp.directPins) = .ok pinAppBytes := by
  rfl

theorem pinApp_round_trips :
    RoundTrips (fun _ => ⟨List.replicate 32 0, rfl⟩) pinApp (firstOccurrences pinApp.directPins)
      ⟨pinAppBytes, by decide⟩ := by
  obtain ⟨hlen, hiff⟩ := round_trip_iff (fun _ => ⟨List.replicate 32 0, rfl⟩) pinApp
    pinApp_normalForm pinAppBytes (pinApp_encode _)
  exact hiff.mpr pinApp_needFits

/-! ## Uniqueness -/

/-- An accepted canonical stream, pins for its table, and the value built. -/
structure Decodes (b : Source) (scan : Scan) (resolved : List Val) (v : Val) : Prop where
  accepted : plSiloScanStream sha256 b true = .ok scan
  isPin : ∀ p ∈ resolved, p.isPin
  hashes : resolved.map Val.pinHash = scan.pins.map some
  build : plSiloBuildStream sha256 b scan resolved = .ok v

theorem Decodes.canonical {b : Source} {scan : Scan} {resolved : List Val} {v : Val}
    (h : Decodes sha256 b scan resolved v) : Canonical sha256 resolved scan.pins v b.bytes := by
  obtain ⟨v', hcanon⟩ := scan_canonical h.isPin h.hashes h.accepted
  have hbuild := hcanon.build scan.used
  by_cases hfits : NeedFits v'
  · have heq := (hbuild.1 hfits).symm.trans h.build
    cases heq
    exact hcanon
  · obtain ⟨e, he⟩ := hbuild.2 hfits
    have heq := he.symm.trans h.build
    cases heq

/-- The writer sees its pins only through their hashes. -/
theorem encode_congr {v : Val} {resolved₁ resolved₂ : List Val} {table : List Hash}
    (h₁ : TableFor resolved₁ table) (h₂ : TableFor resolved₂ table)
    (hp₁ : ∀ p ∈ resolved₁, p.isPin) (hp₂ : ∀ p ∈ resolved₂, p.isPin) :
    plSiloEncode sha256 v resolved₁ = plSiloEncode sha256 v resolved₂ := by
  unfold plSiloEncode plSiloEncodeResolved
  rw [encodeTable_eq [] hp₁ h₁.hashes (by simpa using h₁.nodup),
    encodeTable_eq [] hp₂ h₂.hashes (by simpa using h₂.nodup),
    ← h₁.length_eq, ← h₂.length_eq]

/-- **Canonical form is unique**: the writer writes back exactly the stream that
was decoded, so two canonical streams over the same pin hashes that decode to
one value are the same stream. -/
theorem canonical_unique :
    (∀ b scan resolved v, Decodes sha256 b scan resolved v →
      plSiloEncode sha256 v resolved = .ok b.bytes) ∧
    (∀ b₁ b₂ scan₁ scan₂ resolved₁ resolved₂ v, Decodes sha256 b₁ scan₁ resolved₁ v →
      Decodes sha256 b₂ scan₂ resolved₂ v → scan₁.pins = scan₂.pins → b₁.bytes = b₂.bytes) := by
  have hencode : ∀ b scan resolved v, Decodes sha256 b scan resolved v →
      plSiloEncode sha256 v resolved = .ok b.bytes := fun b scan resolved v h =>
    (h.canonical).encode h.isPin b.length_le
  refine ⟨hencode, ?_⟩
  intro b₁ b₂ scan₁ scan₂ resolved₁ resolved₂ v h₁ h₂ hpins
  have ht₁ := h₁.canonical.tableFor
  have ht₂ := h₂.canonical.tableFor
  rw [hpins] at ht₁
  have hcongr := encode_congr sha256 (v := v) ht₁ ht₂ h₁.isPin h₂.isPin
  rw [hencode _ _ _ _ h₁, hencode _ _ _ _ h₂] at hcongr
  exact Except.ok.inj hcongr

/-- The stream of `pinApp` is decoded to it and written back. -/
theorem pinApp_written_back :
    ∃ scan, Decodes (fun _ => ⟨List.replicate 32 0, rfl⟩) ⟨pinAppBytes, by decide⟩ scan
        (firstOccurrences pinApp.directPins) pinApp ∧
      plSiloEncode (fun _ => ⟨List.replicate 32 0, rfl⟩) pinApp (firstOccurrences pinApp.directPins)
        = .ok pinAppBytes := by
  obtain ⟨hlen, table, hcanon⟩ := encode_canonical pinApp_normalForm
    (pinApp_encode fun _ => ⟨List.replicate 32 0, rfl⟩)
  have hdec : Decodes (fun _ => ⟨List.replicate 32 0, rfl⟩) ⟨pinAppBytes, hlen⟩ _
      (firstOccurrences pinApp.directPins) pinApp :=
    ⟨hcanon.scan, by decide, hcanon.tableFor.hashes, (hcanon.build _).1 pinApp_needFits⟩
  exact ⟨_, hdec, (canonical_unique _).1 _ _ _ _ hdec⟩

end Enki.Silo
