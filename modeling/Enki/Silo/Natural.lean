import Enki.Silo.Decode
import Enki.Silo.Encode

/-!
# Contiguous naturals

What the writer emits for a natural up to the cutover, and that the reader
takes exactly those bytes back: `Parses` for both modes of the reader, and for
the canonical scan the converse, that an accepted payload is the canonical one.
The accumulator of the reader is followed through its chunks by `accumOf`, the
accumulator after the bytes read so far.
-/

namespace Enki.Silo

open LittleEndian ExceptState StreamParser BoundedWriter

/-- `Emits` at the limit of a Silo writer. -/
abbrev SiloEmits {α : Type} (x : Enc α) (out : List UInt8) (a : α) : Prop :=
  Emits uint64Max "Silo output length overflow" x out a

/-! ## Byte ranges -/

theorem natByteRange_eq_bytes (v off n : Nat) :
    natByteRange v off n = bytes n (v / 256 ^ off) := by
  rw [natByteRange, bytes_eq_map_range]
  refine List.map_congr_left fun i _ => ?_
  rw [natByteAt, Nat.pow_add, Nat.div_div_eq_div_mul]

@[simp] theorem length_natByteRange (v off n : Nat) : (natByteRange v off n).length = n := by
  simp [natByteRange]

theorem natByteRange_add (v off a b : Nat) :
    natByteRange v off (a + b) = natByteRange v off a ++ natByteRange v (off + a) b := by
  rw [natByteRange_eq_bytes, bytes_add, natByteRange_eq_bytes, natByteRange_eq_bytes,
    Nat.div_div_eq_div_mul, Nat.pow_add]

/-- The bytes a natural occupies. -/
def natPayload (n : Nat) : List UInt8 := bytes (byteLen n) n

theorem natPayload_eq_range (n : Nat) : natPayload n = natByteRange n 0 (byteLen n) := by
  rw [natByteRange_eq_bytes, Nat.pow_zero, Nat.div_one, natPayload]

@[simp] theorem length_natPayload (n : Nat) : (natPayload n).length = byteLen n := by
  simp [natPayload]

@[simp] theorem toNat_natPayload (n : Nat) : toNat (natPayload n) = n :=
  toNat_bytes_of_lt (lt_pow_byteLen n)

theorem natPayload_toNat {bs : List UInt8} (h : bs.getLast? ≠ some 0) :
    natPayload (toNat bs) = bs := by
  rw [natPayload, byteLen_toNat h, bytes_toNat]

theorem getLast_natPayload (n : Nat) : (natPayload n).getLast? ≠ some 0 := by
  by_cases h : n = 0
  · subst h
    decide
  · obtain ⟨b, hb, hne⟩ := getLast_bytes_byteLen h
    rw [natPayload, hb]
    simpa using hne

/-! ## The writer -/

theorem emits_swrite (bs : List UInt8) : SiloEmits (swrite bs) bs () := Emits.write bs

theorem emits_swriteU8 (v : Nat) : SiloEmits (swriteU8 v) [UInt8.ofNat v] () := Emits.write _

theorem emits_swriteLe (v width : Nat) : SiloEmits (swriteLe v width) (bytes width v) () :=
  Emits.write _

theorem emits_encodeNatRange (v off len : Nat) :
    SiloEmits (encodeNatRange v off len) (natByteRange v off (len - off)) () := by
  induction h : len - off using Nat.strongRecOn generalizing off with
  | _ m ih =>
    subst h
    rw [encodeNatRange]
    split
    · next hlt =>
      have hsplit : natByteRange v off (len - off)
          = natByteRange v off (min (len - off) 4096) ++ natByteRange v
              (off + min (len - off) 4096) (len - (off + min (len - off) 4096)) := by
        rw [← natByteRange_add]
        congr 1
        omega
      rw [hsplit]
      refine Emits.bind (emits_swrite _) ?_
      exact ih (len - (off + min (len - off) 4096)) (by omega) _ rfl
    · next hge =>
      rw [show len - off = 0 by omega]
      exact Emits.pure ()

theorem emits_encodeNatBytes (v : Nat) :
    SiloEmits (encodeNatBytes v (byteLen v)) (natPayload v) () := by
  have h := emits_encodeNatRange v 0 (byteLen v)
  rwa [Nat.sub_zero, ← natPayload_eq_range] at h

/-! ## Reading scalars -/

theorem parses_dread {bs : List UInt8} {n : Nat} (p : PinTrack) (h : bs.length = n) :
    Parses (dread n) p bs bs p :=
  Parses.take p h

theorem parses_dreadByte (b : UInt8) (p : PinTrack) : Parses dreadByte p [b] b p := by
  unfold dreadByte
  rw [← List.append_nil [b]]
  refine Parses.bind (parses_dread p rfl) ?_
  exact Parses.pure b p

theorem parses_dreadHash (h : Hash) (p : PinTrack) : Parses dreadHash p h.bytes h p := by
  unfold dreadHash
  rw [← List.append_nil h.bytes]
  refine Parses.bind (parses_dread p h.length_eq) ?_
  rw [Hash.ofBytes_bytes]
  exact Parses.pure h p

theorem dread_ok {n : Nat} {s t : Stream PinTrack} {bs : List UInt8}
    (h : dread n s = .ok (bs, t)) : s.rest = bs ++ t.rest ∧ bs.length = n ∧ t.aux = s.aux :=
  run_take_ok h

theorem dreadByte_ok {s t : Stream PinTrack} {b : UInt8} (h : dreadByte s = .ok (b, t)) :
    s.rest = b :: t.rest ∧ t.aux = s.aux := by
  obtain ⟨bs, u, hd, hp⟩ := run_bind_ok.1 h
  obtain ⟨hrest, hlen, haux⟩ := dread_ok hd
  obtain ⟨x, rfl⟩ := List.length_eq_one_iff.mp hlen
  cases hp
  exact ⟨hrest, haux⟩

theorem dreadHash_ok {s t : Stream PinTrack} {h : Hash} (hr : dreadHash s = .ok (h, t)) :
    s.rest = h.bytes ++ t.rest ∧ t.aux = s.aux := by
  obtain ⟨bs, u, hd, hp⟩ := run_bind_ok.1 hr
  obtain ⟨hrest, hlen, haux⟩ := dread_ok hd
  cases hp
  rw [Hash.bytes_ofBytes hlen]
  exact ⟨hrest, haux⟩

theorem getle_bytes {w n : Nat} (hw : w ≤ 8) (hn : n < 256 ^ w) : getle (bytes w n) = n := by
  rw [getle, List.take_of_length_le (by simpa using hw), toNat_bytes_of_lt hn]

theorem bytes_getle {bs : List UInt8} (h : bs.length ≤ 8) : bytes bs.length (getle bs) = bs := by
  rw [getle, List.take_of_length_le h, bytes_toNat]

theorem getle_lt {bs : List UInt8} : getle bs ≤ uint64Max := by
  have h := toNat_lt (bs.take 8)
  have hle : 256 ^ (bs.take 8).length ≤ 256 ^ 8 :=
    Nat.pow_le_pow_right (by decide) (by simp)
  unfold getle uint64Max
  omega

/-! ## The accumulator -/

/-- The accumulator of a natural of `len` bytes after the bytes `pre`. -/
def accumOf (d : DecCfg) (len : Nat) (pre : List UInt8) : NatAccum where
  len := len
  low := toNat (pre.take 8)
  last := pre.getLastD 0
  cells := if d.build ∧ len > 8 then some pre else none

/-- What a reader in mode `d` returns for the natural `n`. -/
def natResult (d : DecCfg) (n : Nat) : Val × NodeInfo :=
  (.nat (if d.build then n else 0),
    { kind := .nat, natFits := byteLen n ≤ 8, natU64 := n % 256 ^ 8 })

theorem or_shift {a b k : Nat} (h : a < 256 ^ k) : a ||| b * 256 ^ k = a + 256 ^ k * b := by
  have hp : (256 : Nat) ^ k = 2 ^ (8 * k) := by rw [Nat.pow_mul]
  rw [hp] at h ⊢
  rw [Nat.mul_comm b, Nat.or_comm, ← Nat.two_pow_add_eq_or_of_lt h, Nat.add_comm]

theorem natAccumBytes_accumOf (d : DecCfg) (len : Nat) (pre bs : List UInt8) :
    natAccumBytes (accumOf d len pre) pre.length bs = accumOf d len (pre ++ bs) := by
  have hlow : toNat (pre.take 8) ||| toNat (bs.take (8 - pre.length)) * 256 ^ pre.length
      = toNat ((pre ++ bs).take 8) := by
    rw [List.take_append, toNat_append]
    by_cases hp : pre.length ≤ 8
    · have hlen : (pre.take 8).length = pre.length := by simp [hp]
      rw [← hlen]
      exact or_shift (toNat_lt _)
    · rw [show 8 - pre.length = 0 by omega]
      simp
  have hlast : bs.getLastD (pre.getLastD 0) = (pre ++ bs).getLastD 0 := by
    simp only [List.getLastD_eq_getLast?, List.getLast?_append]
    cases bs.getLast? <;> simp
  have hcells : (if d.build ∧ len > 8 then some pre else none).map (· ++ bs)
      = if d.build ∧ len > 8 then some (pre ++ bs) else none := by
    split <;> rfl
  simp only [natAccumBytes, accumOf, hlow, hlast, hcells]

theorem natAccumInit_eq (d : DecCfg) {len : Nat} (hlen : len ≤ maxNatBytes)
    (s : Stream PinTrack) : natAccumInit d len s = .ok (accumOf d len [], s) := by
  unfold natAccumInit
  rw [run_bind_eq (run_reject_ok.2 ⟨by omega, rfl⟩)]
  by_cases hb : d.build ∧ len > 8
  · rw [if_pos hb, run_bind_eq (run_reject_ok.2 ⟨by unfold maxNatBytes at hlen; omega, rfl⟩)]
    simp [accumOf, hb]
  · rw [if_neg hb]
    simp [accumOf, hb]

theorem natAccumInit_ok {d : DecCfg} {len : Nat} {s t : Stream PinTrack} {a : NatAccum}
    (h : natAccumInit d len s = .ok (a, t)) : len ≤ maxNatBytes ∧ a = accumOf d len [] ∧ t = s := by
  have hle : len ≤ maxNatBytes := by
    unfold natAccumInit at h
    have := (run_reject_bind_ok.1 h).1
    omega
  rw [natAccumInit_eq d hle] at h
  cases h
  exact ⟨hle, rfl, rfl⟩

/-- `nat_accum_finish` accepts exactly the payloads without a trailing zero. -/
theorem natAccumFinish_ok {d : DecCfg} {bs : List UInt8} {s : Stream PinTrack}
    {r : (Val × NodeInfo) × Stream PinTrack} (hne : bs ≠ []) :
    natAccumFinish d (accumOf d bs.length bs) s = .ok r ↔
      bs.getLast? ≠ some 0 ∧ r = (natResult d (toNat bs), s) := by
  have hlast : (bs.length ≠ 0 ∧ bs.getLastD 0 = 0) ↔ bs.getLast? = some 0 := by
    obtain ⟨init, b, rfl⟩ := (List.eq_nil_or_concat bs).resolve_left hne
    simp [List.getLastD_eq_getLast?]
  have hlen0 : bs.length ≠ 0 := fun h => hne (List.eq_nil_of_length_eq_zero h)
  unfold natAccumFinish
  rw [run_reject_bind_ok]
  refine (and_congr_left' (not_congr hlast)).trans (and_congr_right fun hnz => ?_)
  have hres : natResult d (toNat bs) = (.nat (if d.build then toNat bs else 0),
      { kind := .nat, natFits := bs.length ≤ 8, natU64 := toNat (bs.take 8) }) := by
    rw [natResult, byteLen_toNat hnz, toNat_take]
  have hlow : bs.length ≤ 8 → toNat (bs.take 8) = toNat bs := fun h => by
    rw [List.take_of_length_le h]
  rw [show ∀ {x : Except String ((Val × NodeInfo) × Stream PinTrack)} {y},
    x = .ok y → (x = .ok r ↔ r = y) from fun h => by rw [h, Except.ok.injEq, eq_comm]]
  simp only [accumOf, hres]
  cases hb : d.build with
  | false => rfl
  | true =>
    by_cases h8 : bs.length ≤ 8
    · simp only [hlow h8, h8, not_true_eq_false, if_false, true_and, if_true,
        show ¬ bs.length > 8 by omega]
      split <;> rfl
    · simp only [h8, hlen0, not_true_eq_false, if_false, true_and, false_and, or_false, if_true,
        show bs.length > 8 by omega]
      rfl

/-! ## Contiguous payloads -/

theorem parses_readNatChunks (d : DecCfg) (len : Nat) (p : PinTrack) (pre bs : List UInt8)
    (h : pre.length + bs.length = len) :
    Parses (readNatChunks len pre.length (accumOf d len pre)) p bs
      (accumOf d len (pre ++ bs)) p := by
  induction hm : bs.length using Nat.strongRecOn generalizing pre bs with
  | _ m ih =>
    subst hm
    rw [readNatChunks]
    split
    · next hlt =>
      -- the next chunk and the rest
      have hsplit := List.take_append_drop (min (len - pre.length) 4096) bs
      have htake : (bs.take (min (len - pre.length) 4096)).length = min (len - pre.length) 4096 := by
        rw [List.length_take]
        omega
      rw [← hsplit]
      refine Parses.bind (parses_dread p htake) ?_
      rw [natAccumBytes_accumOf, ← List.append_assoc, ← htake, ← List.length_append, htake]
      refine ih _ ?_ _ _ ?_ rfl
      · rw [List.length_drop]
        omega
      · rw [List.length_append, List.length_take, List.length_drop]
        omega
    · next hge =>
      have hnil : bs = [] := List.eq_nil_of_length_eq_zero (by omega)
      subst hnil
      rw [List.append_nil]
      exact Parses.pure _ p

theorem readNatChunks_ok {d : DecCfg} {len : Nat} {s t : Stream PinTrack} {a : NatAccum}
    (pre : List UInt8) (hpre : pre.length ≤ len)
    (h : readNatChunks len pre.length (accumOf d len pre) s = .ok (a, t)) :
    ∃ bs, s.rest = bs ++ t.rest ∧ pre.length + bs.length = len ∧
      a = accumOf d len (pre ++ bs) ∧ t.aux = s.aux := by
  induction hm : len - pre.length using Nat.strongRecOn generalizing pre s with
  | _ m ih =>
    subst hm
    rw [readNatChunks] at h
    split at h
    · next hlt =>
      obtain ⟨buf, u, hd, hrec⟩ := run_bind_ok.1 h
      obtain ⟨hrest, hlen, haux⟩ := dread_ok hd
      rw [natAccumBytes_accumOf, ← hlen, ← List.length_append] at hrec
      obtain ⟨bs, hrest', hlen', ha, haux'⟩ :=
        ih _ (by rw [List.length_append]; omega) _ (by rw [List.length_append]; omega) hrec rfl
      rw [List.length_append] at hlen'
      refine ⟨buf ++ bs, ?_, ?_, ?_, haux'.trans haux⟩
      · rw [hrest, hrest', List.append_assoc]
      · rw [List.length_append]
        omega
      · rw [ha, List.append_assoc]
    · next hge =>
      cases h
      exact ⟨[], rfl, by simp; omega, by rw [List.append_nil], rfl⟩

/-- A payload without a trailing zero is read back as its number. -/
theorem parses_decodeContiguousNat (d : DecCfg) (p : PinTrack) {bs : List UInt8} (hne : bs ≠ [])
    (hmax : bs.length ≤ maxNatBytes) (hz : bs.getLast? ≠ some 0) :
    Parses (decodeContiguousNat d bs.length) p bs (natResult d (toNat bs)) p := by
  unfold decodeContiguousNat
  refine Parses.reject_bind (by simpa using hne) ?_
  intro rest pos
  rw [run_bind_eq (natAccumInit_eq d hmax _)]
  have hr : readNatChunks bs.length 0 (accumOf d bs.length []) ⟨bs ++ rest, pos, p⟩ = _ :=
    parses_readNatChunks d bs.length p [] bs (by simp) rest pos
  rw [run_bind_eq hr, List.nil_append]
  exact (natAccumFinish_ok hne).mpr ⟨hz, rfl⟩

theorem decodeContiguousNat_ok {d : DecCfg} {len : Nat} {s t : Stream PinTrack}
    {r : Val × NodeInfo} (h : decodeContiguousNat d len s = .ok (r, t)) :
    ∃ bs, s.rest = bs ++ t.rest ∧ bs.length = len ∧ bs ≠ [] ∧ len ≤ maxNatBytes ∧
      bs.getLast? ≠ some 0 ∧ r = natResult d (toNat bs) ∧ t.aux = s.aux := by
  unfold decodeContiguousNat at h
  obtain ⟨h0, h₁⟩ := run_reject_bind_ok.1 h
  obtain ⟨a, u, hinit, h₂⟩ := run_bind_ok.1 h₁
  obtain ⟨hmax, rfl, rfl⟩ := natAccumInit_ok hinit
  obtain ⟨a, u', hread, h₃⟩ := run_bind_ok.1 h₂
  obtain ⟨bs, hrest, hlen, rfl, haux⟩ := readNatChunks_ok [] (Nat.zero_le len) hread
  rw [List.length_nil, Nat.zero_add] at hlen
  have hne : bs ≠ [] := by
    rintro rfl
    exact h0 hlen.symm
  rw [List.nil_append, ← hlen] at h₃
  obtain ⟨hz, hr⟩ := (natAccumFinish_ok hne).mp h₃
  cases hr
  exact ⟨bs, hrest, hlen, hne, hmax, hz, rfl, haux⟩

theorem natPayload_ne_nil {n : Nat} (h : n ≠ 0) : natPayload n ≠ [] := by
  intro hnil
  have hlen := congrArg List.length hnil
  rw [length_natPayload] at hlen
  exact h (byteLen_eq_zero_iff.1 hlen)

theorem parses_natPayload (d : DecCfg) (p : PinTrack) {n : Nat} (h0 : n ≠ 0)
    (hmax : byteLen n ≤ maxNatBytes) :
    Parses (decodeContiguousNat d (byteLen n)) p (natPayload n) (natResult d n) p := by
  have h := parses_decodeContiguousNat d p (natPayload_ne_nil h0) (by simpa using hmax)
    (getLast_natPayload n)
  rwa [length_natPayload, toNat_natPayload] at h

theorem natPayload_of_ok {d : DecCfg} {len : Nat} {s t : Stream PinTrack}
    {r : Val × NodeInfo} (h : decodeContiguousNat d len s = .ok (r, t)) :
    ∃ n, s.rest = natPayload n ++ t.rest ∧ byteLen n = len ∧ len ≤ maxNatBytes ∧
      r = natResult d n ∧ t.aux = s.aux := by
  obtain ⟨bs, hrest, hlen, hne, hmax, hz, hr, haux⟩ := decodeContiguousNat_ok h
  refine ⟨toNat bs, ?_, ?_, hmax, hr, haux⟩
  · rw [natPayload_toNat hz, hrest]
  · rw [byteLen_toNat hz, hlen]

/-- Small enough for a direct opcode: one byte, at most 63. -/
theorem natResult_small {d : DecCfg} {n : Nat} (h : n ≤ 63) :
    natResult d n = (.nat (if d.build then n else 0),
      { kind := .nat, natFits := true, natU64 := n }) := by
  have h8 : byteLen n ≤ 8 := byteLen_le_iff.2 (by omega)
  rw [natResult, Nat.mod_eq_of_lt (by omega), decide_eq_true h8]

theorem natResult_not_small {d : DecCfg} {n : Nat} (h : 63 < n) :
    ¬ (((natResult d n).2.natFits : Prop) ∧ (natResult d n).2.natU64 ≤ 63) := by
  rintro ⟨hfits, hle⟩
  simp only [natResult, decide_eq_true_eq] at hfits hle
  rw [Nat.mod_eq_of_lt (byteLen_le_iff.1 hfits)] at hle
  omega

theorem parses_decodeMedium (d : DecCfg) (p : PinTrack) {n : Nat} (h63 : 63 < n)
    (h31 : byteLen n ≤ 31) :
    Parses (decodeMedium d (byteLen n)) p (natPayload n) (natResult d n) p := by
  unfold decodeMedium
  have h0 : byteLen n ≠ 0 := mt byteLen_eq_zero_iff.1 (by omega)
  refine Parses.reject_bind (by omega) ?_
  rw [← List.append_nil (natPayload n)]
  refine Parses.bind (parses_natPayload d p (by omega) (by unfold maxNatBytes maxPinCount; omega)) ?_
  refine Parses.reject_bind ?_ (Parses.pure _ p)
  exact fun h => natResult_not_small (d := d) h63 h.2

theorem decodeMedium_ok {d : DecCfg} {w : Nat} {s t : Stream PinTrack} {r : Val × NodeInfo}
    (hd : d.canonical) (h : decodeMedium d w s = .ok (r, t)) :
    ∃ n, s.rest = natPayload n ++ t.rest ∧ byteLen n = w ∧ w ≤ 31 ∧ 63 < n ∧
      r = natResult d n ∧ t.aux = s.aux := by
  unfold decodeMedium at h
  obtain ⟨hw, h₁⟩ := run_reject_bind_ok.1 h
  obtain ⟨⟨v, info⟩, u, hc, h₂⟩ := run_bind_ok.1 h₁
  obtain ⟨n, hrest, hlen, -, hr, haux⟩ := natPayload_of_ok hc
  obtain ⟨hsmall, h₃⟩ := run_reject_bind_ok.1 h₂
  cases h₃
  refine ⟨n, hrest, hlen, by omega, ?_, hr, haux⟩
  by_contra hle
  have hinfo : info = { kind := .nat, natFits := true, natU64 := n } := by
    rw [natResult_small (by omega)] at hr
    exact (Prod.ext_iff.mp hr).2
  exact hsmall ⟨hd, by rw [hinfo], by rw [hinfo]; show n ≤ 63; omega⟩

/-- The length and payload of a natural of more than 31 bytes. -/
def bigPayload (n : Nat) : List UInt8 :=
  bytes (widthU64 (byteLen n)) (byteLen n) ++ natPayload n

theorem parses_decodeBig (d : DecCfg) (p : PinTrack) {n : Nat} (h31 : 31 < byteLen n)
    (hcut : byteLen n ≤ natCutover) :
    Parses (decodeBig d (widthU64 (byteLen n))) p (bigPayload n) (natResult d n) p := by
  have h64 : byteLen n ≤ uint64Max := by unfold natCutover at hcut; unfold uint64Max; omega
  have hw := widthU64_le h64
  have hget := getle_bytes hw (lt_pow_widthU64 h64)
  have hn0 : n ≠ 0 := fun h => by simp [h, byteLen_eq_zero_iff.2] at h31
  unfold decodeBig bigPayload
  refine Parses.reject_bind ?_ ?_
  · have := widthU64_pos (byteLen n)
    omega
  refine Parses.bind (parses_dread p (length_bytes _ _)) ?_
  refine Parses.reject_bind ?_ ?_
  · rw [List.drop_of_length_le (by simpa using hw)]
    simp
  rw [hget]
  refine Parses.reject_bind (by omega) (Parses.reject_bind ?_ (Parses.reject_bind (by omega) ?_))
  · exact fun h => h.2 rfl
  · exact parses_natPayload d p hn0 (by unfold natCutover at hcut; unfold maxNatBytes maxPinCount; omega)

theorem decodeBig_ok {d : DecCfg} {w : Nat} {s t : Stream PinTrack} {r : Val × NodeInfo}
    (hd : d.canonical) (h : decodeBig d w s = .ok (r, t)) :
    ∃ n, s.rest = bigPayload n ++ t.rest ∧ w = widthU64 (byteLen n) ∧ 31 < byteLen n ∧
      byteLen n ≤ natCutover ∧ r = natResult d n ∧ t.aux = s.aux := by
  unfold decodeBig at h
  obtain ⟨-, h₁⟩ := run_reject_bind_ok.1 h
  obtain ⟨b, u, hread, h₂⟩ := run_bind_ok.1 h₁
  obtain ⟨hrest, hlen, haux⟩ := dread_ok hread
  obtain ⟨-, h₃⟩ := run_reject_bind_ok.1 h₂
  obtain ⟨-, h₄⟩ := run_reject_bind_ok.1 h₃
  obtain ⟨hwidth, h₅⟩ := run_reject_bind_ok.1 h₄
  obtain ⟨hrange, h₆⟩ := run_reject_bind_ok.1 h₅
  obtain ⟨n, hrest', hn, -, hr, haux'⟩ := natPayload_of_ok h₆
  have hw : w = widthU64 (byteLen n) := by
    rw [hn]
    exact Decidable.not_not.mp fun hne => hwidth ⟨hd, hne⟩
  have hcut : ¬ (byteLen n < 32 ∨ byteLen n > natCutover) := by
    rw [hn]
    exact fun hbad => hrange ⟨hd, hbad⟩
  have h64 : byteLen n ≤ uint64Max := by
    unfold natCutover at hcut
    unfold uint64Max
    omega
  refine ⟨n, ?_, hw, by omega, by omega, hr, haux'.trans haux⟩
  have hb : bytes (widthU64 (byteLen n)) (byteLen n) = b := by
    rw [← hw, hn, ← hlen]
    refine bytes_getle ?_
    rw [hlen, hw]
    exact widthU64_le h64
  rw [hrest, hrest', bigPayload, hb, List.append_assoc]

end Enki.Silo
