import Enki.Bignum.Rules

/-!
# Natural numbers: bits and bytes

The operations of `plan/src/nat.c` that shift, set, cut and copy: each yields the
number it stands for, on every mix of direct and boxed operands and for counts that
were clamped to 64 bits.
-/

namespace Enki.Bignum

open Limbs NatVal

section

variable {m : Mpn} {stale : Nat → UInt64} {a b sh : NatVal}

/-! ## Clamped counts -/

/-- A count below the clamp is exact. -/
theorem NatVal.Canonical.val_of_clamp (h : a.Canonical) {n : Nat} (hn : a.u64Clamp.toNat < n)
    (hmax : n < 2 ^ 64) : a.val = a.u64Clamp.toNat := by
  have := h.toNat_u64Clamp
  omega

/-- Clamping makes a count smaller, if anything. -/
theorem NatVal.Canonical.clamp_le (h : a.Canonical) : a.u64Clamp.toNat ≤ a.val := by
  have := h.toNat_u64Clamp
  omega

/-! ## Lengths and single bits -/

/-- The length of a natural is that of its limbs but the top one, and what the top limb has. -/
theorem bitLen_spec (ha : a.Canonical) : a.bitLen = LittleEndian.bitLen a.val := by
  unfold NatVal.bitLen
  have htop := ha.top
  -- The top limb is not zero, as the natural is canonical.
  rcases hv : a.limbView.eq_nil_or_concat with h0 | ⟨init, top, hcat⟩
  · simp [h0, val, LittleEndian.bitLen]
  · rw [List.concat_eq_append] at hcat
    have hne : top ≠ 0 := htop top (by simp [hcat])
    have hpos : top.toNat ≠ 0 := fun h0 => hne (UInt64.toNat_inj.mp (by simpa using h0))
    have hlog : top.toNat.log2 < 64 := (Nat.log2_lt hpos).mpr top.toNat_lt
    have hval : a.val = toNat init + 2 ^ (64 * init.length) * top.toNat := by
      simp [val, hcat, toNat_append]
    have hlt := toNat_lt init
    -- The top bit is the top limb's.
    have hlog2 : a.val.log2 = 64 * init.length + top.toNat.log2 := by
      have hself := Nat.log2_self_le hpos
      have hup : top.toNat < 2 ^ (top.toNat.log2 + 1) := Nat.lt_log2_self
      have hvne : a.val ≠ 0 := by
        have := Nat.mul_le_mul_left (2 ^ (64 * init.length)) (Nat.pos_of_ne_zero hpos)
        have := Nat.two_pow_pos (64 * init.length)
        omega
      refine (Nat.log2_eq_iff hvne).mpr ⟨?_, ?_⟩
      · rw [Nat.pow_add, hval]
        exact Nat.le_trans (Nat.mul_le_mul_left _ hself) (Nat.le_add_left _ _)
      · rw [Nat.add_assoc, Nat.pow_add, hval]
        -- the limbs below make less than one of the top limb
        calc toNat init + 2 ^ (64 * init.length) * top.toNat
            < 2 ^ (64 * init.length) + 2 ^ (64 * init.length) * top.toNat := Nat.add_lt_add_right hlt _
          _ = 2 ^ (64 * init.length) * (top.toNat + 1) := by ring
          _ ≤ 2 ^ (64 * init.length) * 2 ^ (top.toNat.log2 + 1) := Nat.mul_le_mul_left _ hup
    have hvne : a.val ≠ 0 := by
      intro h0
      have := Nat.mul_le_mul_left (2 ^ (64 * init.length)) (Nat.pos_of_ne_zero hpos)
      have := Nat.two_pow_pos (64 * init.length)
      omega
    simp only [hcat, List.getLast?_append, List.getLast?_singleton, Option.some_or, limbLen,
      List.length_append, List.length_singleton, Nat.add_sub_cancel, clz]
    rw [LittleEndian.bitLen, if_neg hvne, hlog2]
    omega

/-- The length in bytes, from that in bits. -/
theorem byteLen_spec (ha : a.Canonical) : a.byteLen = LittleEndian.byteLen a.val := by
  unfold NatVal.byteLen LittleEndian.byteLen
  rw [bitLen_spec ha]

/-- Byte `i` of the number. -/
theorem byteAt_spec (a : NatVal) (i : Nat) : a.byteAt i = UInt8.ofNat (a.val / 256 ^ i) := by
  apply UInt8.toNat_inj.mp
  have hr : i % 8 * 8 < 64 := by omega
  have hsh : (UInt64.ofNat (i % 8 * 8)).toNat % 64 = i % 8 * 8 := by
    rw [UInt64.toNat_ofNat_of_lt' (by simp only [UInt64.size]; omega)]
    omega
  -- byte `i` lies in limb `i / 8`, at a multiple of eight bits
  have hpow : (256 : Nat) ^ i = 2 ^ (64 * (i / 8)) * 2 ^ (i % 8 * 8) := by
    rw [← Nat.pow_add, show (256 : Nat) = 2 ^ 8 from rfl, ← Nat.pow_mul]
    congr 1
    omega
  unfold NatVal.byteAt
  rw [UInt64.toNat_toUInt8, UInt64.toNat_shiftRight, hsh, limbAt_eq, getD_toNat, UInt8.toNat_ofNat',
    hpow, ← Nat.div_div_eq_div_mul, Nat.shiftRight_eq_div_pow, val]
  -- Of the limb only bits below 64 are looked at.
  generalize toNat a.limbView / 2 ^ (64 * (i / 8)) = x
  have h64 : (2 : Nat) ^ 64 = 2 ^ (i % 8 * 8) * 2 ^ (64 - i % 8 * 8) := by
    rw [← Nat.pow_add]
    congr 1
    omega
  rw [h64, Nat.mod_mul_right_div_self, Nat.mod_mod_of_dvd]
  exact (Nat.pow_dvd_pow 2 (show 8 ≤ 64 - i % 8 * 8 by omega))

/-- A single bit of a limb. -/
theorem shift_and_one (x : UInt64) {k : UInt64} (hk : k.toNat < 64) :
    decide ((x >>> k) &&& 1 ≠ 0) = x.toNat.testBit k.toNat := by
  have hval : ((x >>> k) &&& 1).toNat = x.toNat / 2 ^ k.toNat % 2 := by
    rw [UInt64.toNat_and, UInt64.toNat_shiftRight, Nat.mod_eq_of_lt hk, Nat.shiftRight_eq_div_pow]
    exact Nat.and_one_is_mod _
  rw [Nat.testBit_eq_decide_div_mod_eq, decide_eq_decide, ne_eq, ← UInt64.toNat_inj, hval]
  simp

theorem toNat_div64 (i : UInt64) : (i / 64).toNat = i.toNat / 64 := UInt64.toNat_div i 64

theorem toNat_mod64 (i : UInt64) : (i % 64).toNat = i.toNat % 64 := UInt64.toNat_mod i 64

/-- A bit of the number. A count that was clamped is above every limb. -/
theorem testBit_spec (hb : b.Canonical) (ha : a.Canonical) :
    NatVal.testBit b a = a.val.testBit b.val := by
  have hclamp := hb.clamp_le
  have hlen := ha.limbLen_lt
  unfold NatVal.testBit
  dsimp only
  rw [toNat_div64]
  split
  -- past the limbs every bit is clear
  next hge =>
    refine (Nat.testBit_lt_two_pow (Nat.lt_of_lt_of_le (val_lt a) ?_)).symm
    exact Nat.pow_le_pow_right (by decide) (by omega)
  next hlt =>
    have hexact : b.val = b.u64Clamp.toNat := hb.val_of_clamp (n := 64 * limbMax) (by omega)
      (by decide)
    have hmod := Nat.mod_lt b.u64Clamp.toNat (show 0 < 64 by decide)
    rw [shift_and_one _ (by rw [toNat_mod64]; exact hmod), toNat_mod64, hexact, testBit_val]

/-! ## Shifts -/

/-- A left shift moves by whole limbs, and by what is left with `mpn_lshift`. -/
theorem lsh_spec (hm : m.Meets) (ha : a.Canonical) (hs : sh.Canonical)
    (hlen : a ≠ .direct 0 → a.limbLen + sh.u64Clamp.toNat / 64 + 1 < limbMax) :
    Yields (lsh m stale a sh) (a.val * 2 ^ sh.val) := by
  unfold lsh
  by_cases hz : a = .direct 0
  · rw [if_pos hz]
    exact .direct (by simp) (by simp [hz])
  rw [if_neg hz]
  have hlen := hlen hz
  have hexact : sh.val = sh.u64Clamp.toNat := hs.val_of_clamp (n := 64 * limbMax) (by omega)
    (by decide)
  rw [hexact]
  generalize sh.u64Clamp.toNat = cnt at hlen ⊢
  have hne : a.limbView ≠ [] := fun h0 => hz (ha.limbLen_eq_zero.mp (by simp [limbLen, h0]))
  have hpow : 2 ^ cnt = 2 ^ (64 * (cnt / 64)) * 2 ^ (cnt % 64) := by
    rw [← Nat.pow_add]
    congr 1
    omega
  refine .assume (by simpa using hlen) (.alloc (by omega) hlen fun out hout => ?_)
  refine .start (by simp only [List.length_replicate, hout]; omega) ?_
  -- Both ways write the shifted limbs behind zeros and a carry on top.
  have hstore : ∀ shifted : List UInt64, ∀ carry : UInt64, shifted.length = a.limbLen →
      toNat shifted + 2 ^ (64 * a.limbLen) * carry.toNat = a.val * 2 ^ (cnt % 64) →
      Yields (do
        let out ← put (List.replicate (cnt / 64) 0 ++
          out.drop (List.replicate (cnt / 64) (0 : UInt64)).length) (cnt / 64) shifted
        let out ← put out (cnt / 64 + a.limbView.length) [carry]
        return natTrim out) (a.val * 2 ^ cnt) := by
    intro shifted carry hl hv
    refine .put (by simp) (by simp only [hl, List.length_drop, List.length_replicate, hout]; omega) ?_
    refine .fill (by simp [hl, limbLen])
      (by simp only [List.length_singleton, List.length_drop, List.length_replicate, hout, hl]; omega) ?_
    refine .trim ?_ ?_
    · simp only [List.length_append, List.length_replicate, hl, List.length_singleton]
      omega
    · rw [List.append_assoc, toNat_append, toNat_replicate_zero, toNat_append, hl, toNat_singleton, hv,
        List.length_replicate, hpow]
      ring
  -- `mpn_lshift` must not be called with a count of zero
  by_cases hbit : cnt % 64 = 0
  · rw [if_pos hbit]
    exact hstore a.limbView 0 rfl (by simp [hbit, val])
  · rw [if_neg hbit]
    obtain ⟨hl, hv⟩ := hm.lshift a.limbView (cnt % 64) hne (by omega) (by omega)
    refine .guarded (decide_eq_true ⟨hne, by omega, by omega⟩) ?_
    exact hstore _ _ hl hv

/-- A right shift: nothing is left of a count past the limbs. -/
theorem rsh_spec (hm : m.Meets) (ha : a.Canonical) (hs : sh.Canonical) :
    Yields (rsh m stale a sh) (a.val / 2 ^ sh.val) := by
  have hclamp := hs.clamp_le
  have hlen := ha.limbLen_lt
  unfold rsh
  dsimp only
  split
  next hge =>
    refine .direct (by simp) ?_
    rw [Nat.div_eq_of_lt (Nat.lt_of_lt_of_le (val_lt a) (Nat.pow_le_pow_right (by decide) (by omega)))]
    rfl
  next hlt =>
    have hexact : sh.val = sh.u64Clamp.toNat := hs.val_of_clamp (n := 64 * limbMax) (by omega)
      (by decide)
    rw [hexact]
    cases a with
    | direct w =>
      have hw := canonical_direct.1 ha
      have hone : (direct w).limbLen ≤ 1 := by
        unfold limbLen
        rw [limbView_direct]
        split <;> simp
      have hshift : (w >>> sh.u64Clamp).toNat = w.toNat / 2 ^ sh.u64Clamp.toNat := by
        rw [UInt64.toNat_shiftRight, Nat.mod_eq_of_lt (by omega), Nat.shiftRight_eq_div_pow]
      have hle := Nat.div_le_self w.toNat (2 ^ sh.u64Clamp.toNat)
      exact .direct (by omega) (by rw [hshift, val_direct])
    | boxed ls =>
      simp only [limbLen, limbView] at hlt hlen ⊢
      generalize sh.u64Clamp.toNat = cnt at hlt ⊢
      have hpow : 2 ^ cnt = 2 ^ (64 * (cnt / 64)) * 2 ^ (cnt % 64) := by
        rw [← Nat.pow_add]
        congr 1
        omega
      -- what is moved down are the limbs from the first whole one on
      have htake : (ls.drop (cnt / 64)).take (ls.length - cnt / 64) = ls.drop (cnt / 64) :=
        List.take_of_length_le (by simp)
      have hdlen : (ls.drop (cnt / 64)).length = ls.length - cnt / 64 := List.length_drop
      have hne : ls.drop (cnt / 64) ≠ [] := fun h0 => by simp [h0] at hdlen; omega
      rw [htake]
      refine .alloc (by omega) (by omega) fun out hout => ?_
      have hstore : ∀ shifted : List UInt64, ∀ low : UInt64,
          shifted.length = ls.length - cnt / 64 →
          toNat shifted = toNat (ls.drop (cnt / 64)) / 2 ^ (cnt % 64) → Yields (do
            let out ← put out 0 shifted
            return natTrim out) ((boxed ls).val / 2 ^ cnt) := by
        intro shifted low hl hv
        refine .cover (hl.trans hout.symm) (.trim (by omega) ?_)
        rw [hv, toNat_drop, Nat.div_div_eq_div_mul, ← hpow, val_boxed]
      by_cases hbit : cnt % 64 = 0
      · rw [if_pos hbit]
        exact hstore _ 0 hdlen (by simp [hbit])
      · rw [if_neg hbit]
        obtain ⟨hl, hv⟩ := hm.rshift (ls.drop (cnt / 64)) (cnt % 64) hne (by omega) (by omega)
        refine .guarded (decide_eq_true ⟨hne, by omega, by omega⟩) ?_
        exact hstore _ (m.rshift (ls.drop (cnt / 64)) (cnt % 64)).2 (hl.trans hdlen) hv

/-! ## Setting, clearing and cutting -/

/-- A single bit of a limb as a number. -/
theorem toNat_one_shift {k : UInt64} (hk : k.toNat < 64) : ((1 : UInt64) <<< k).toNat = 2 ^ k.toNat := by
  rw [UInt64.toNat_shiftLeft, Nat.mod_eq_of_lt hk, UInt64.toNat_one, Nat.one_shiftLeft,
    Nat.mod_eq_of_lt (Nat.pow_lt_pow_right (by decide) hk)]

/-- The bits below `k`. -/
theorem mask_toNat {k : UInt64} (hk : k.toNat < 64) :
    (((1 : UInt64) <<< k) - 1).toNat = 2 ^ k.toNat - 1 := by
  have hone := toNat_one_shift hk
  have hpos := Nat.two_pow_pos k.toNat
  rw [UInt64.toNat_sub_of_le _ _ (UInt64.le_iff_toNat_le.mpr (by simp [hone]; omega)), hone]
  rfl

/-- Bits of the complement of a limb. -/
theorem testBit_not (x : UInt64) {j : Nat} (hj : j < 64) :
    (~~~x).toNat.testBit j = !x.toNat.testBit j := by
  have hx := x.toNat_lt
  rw [UInt64.toNat_not, show UInt64.size - 1 - x.toNat = 2 ^ 64 - (x.toNat + 1) from by
    simp only [UInt64.size]; omega, Nat.testBit_two_pow_sub_succ hx]
  simp [hj]

/-- A power of two is direct below `2 ^ 63`, and one limb behind zeros above. -/
theorem bex_spec (hb : b.Canonical)
    (hlen : 63 ≤ b.u64Clamp.toNat → b.u64Clamp.toNat / 64 + 1 < limbMax) :
    Yields (bex stale b) (2 ^ b.val) := by
  unfold bex
  dsimp only
  split
  next hlt =>
    have hlt : b.u64Clamp.toNat < 63 := UInt64.lt_iff_toNat_lt.mp hlt
    have hone := toNat_one_shift (k := b.u64Clamp) (by omega)
    have hexact : b.val = b.u64Clamp.toNat := hb.val_of_clamp hlt (by decide)
    refine .direct ?_ (by rw [hone, hexact])
    rw [hone]
    exact Nat.pow_lt_pow_right (by decide) hlt
  next hge =>
    have hge : 63 ≤ b.u64Clamp.toNat := by
      rw [UInt64.lt_iff_toNat_lt] at hge
      exact Nat.not_lt.mp hge
    have hlen := hlen hge
    have hexact : b.val = b.u64Clamp.toNat := hb.val_of_clamp (n := 64 * limbMax) (by omega)
      (by decide)
    have hone := toNat_one_shift (k := b.u64Clamp % 64) (by
      rw [toNat_mod64]
      exact Nat.mod_lt _ (by decide))
    rw [hexact]
    refine .assume (decide_eq_true hlen) (.alloc (by omega) hlen fun out hout => ?_)
    refine .cover (by simp [hout]) ?_
    rw [List.replicate_succ']
    refine .fill (by simp) (by simp) (.trim (by simpa using hlen) ?_)
    rw [toNat_append, toNat_replicate_zero, toNat_singleton, hone, List.length_replicate, toNat_mod64,
      Nat.zero_add, ← Nat.pow_add]
    congr 1
    omega

/-- Setting a bit in its limb sets it in the number. -/
theorem toNat_set_or {ls : List UInt64} {i : UInt64} (hi : i.toNat / 64 < ls.length) :
    toNat (ls.set (i.toNat / 64) (ls.getD (i.toNat / 64) 0 ||| (1 <<< (i % 64)))) =
      toNat ls ||| 2 ^ i.toNat := by
  have hmod : (i % 64).toNat < 64 := by
    rw [toNat_mod64]
    exact Nat.mod_lt _ (by decide)
  apply Nat.eq_of_testBit_eq
  intro j
  rw [testBit_toNat_set hi, Nat.testBit_or, Nat.testBit_two_pow]
  split
  next hj =>
    rw [UInt64.toNat_or, toNat_one_shift hmod, Nat.testBit_or, Nat.testBit_two_pow, toNat_mod64,
      ← hj, ← testBit_toNat]
    congr 1
    rw [decide_eq_decide]
    omega
  -- another limb: the bit that is set is not there
  next hj =>
    have hne : i.toNat ≠ j := fun h => hj (by rw [h])
    simp [hne]

/-- Clearing a bit in its limb clears it in the number. -/
theorem toNat_set_andNot {ls : List UInt64} {i : UInt64} (hi : i.toNat / 64 < ls.length) :
    toNat (ls.set (i.toNat / 64) (ls.getD (i.toNat / 64) 0 &&& ~~~(1 <<< (i % 64)))) =
      (toNat ls).ldiff (2 ^ i.toNat) := by
  have hmod : (i % 64).toNat < 64 := by
    rw [toNat_mod64]
    exact Nat.mod_lt _ (by decide)
  apply Nat.eq_of_testBit_eq
  intro j
  rw [testBit_toNat_set hi, Nat.testBit_ldiff, Nat.testBit_two_pow]
  split
  next hj =>
    rw [UInt64.toNat_and, Nat.testBit_and, testBit_not _ (Nat.mod_lt _ (by decide)),
      toNat_one_shift hmod, Nat.testBit_two_pow, toNat_mod64, ← hj, ← testBit_toNat]
    congr 2
    rw [decide_eq_decide]
    omega
  next hj =>
    have hne : i.toNat ≠ j := fun h => hj (by rw [h])
    simp [hne]

/-- Setting a bit makes the number longer if it has to. -/
theorem setBit_spec (hb : b.Canonical) (ha : a.Canonical)
    (hlen : max (b.u64Clamp.toNat / 64 + 1) a.limbLen < limbMax) :
    Yields (setBit stale b a) (a.val ||| 2 ^ b.val) := by
  have hexact : b.val = b.u64Clamp.toNat := hb.val_of_clamp (n := 64 * limbMax) (by omega)
    (by decide)
  rw [hexact]
  -- The slow way serves a boxed number and a bit past the direct ones.
  have hslow : Yields (do
      let la := a.limbLen
      let lr := if b.u64Clamp.toNat / 64 + 1 > la then b.u64Clamp.toNat / 64 + 1 else la
      assume (lr < limbMax) "set-bit result too large"
      let out ← mkNatLimbs stale lr
      let out ← put out 0 (List.replicate lr 0)
      let out ← put out 0 a.limbView
      let out ← put out (b.u64Clamp.toNat / 64)
        [out.getD (b.u64Clamp.toNat / 64) 0 ||| (1 <<< (b.u64Clamp % 64))]
      return natTrim out) (a.val ||| 2 ^ b.u64Clamp.toNat) := by
    have hlr : (if b.u64Clamp.toNat / 64 + 1 > a.limbLen then b.u64Clamp.toNat / 64 + 1
        else a.limbLen) = max (b.u64Clamp.toNat / 64 + 1) a.limbLen := by
      split <;> omega
    simp only [hlr]
    refine .assume (decide_eq_true hlen) (.alloc (by omega) hlen fun out hout => ?_)
    refine .cover (by simp [hout]) (.start (by simp [limbLen]) ?_)
    have hl : (a.limbView ++ (List.replicate (max (b.u64Clamp.toNat / 64 + 1) a.limbLen)
        (0 : UInt64)).drop a.limbView.length).length = max (b.u64Clamp.toNat / 64 + 1) a.limbLen := by
      simp only [List.length_append, List.length_drop, List.length_replicate, limbLen]
      omega
    refine .putAt (by omega) (.trim ?_ ?_)
    · rwa [List.length_set, hl]
    · rw [toNat_set_or (by omega), toNat_append, List.drop_replicate,
        toNat_replicate_zero]
      rfl
  unfold setBit
  dsimp only
  split
  -- a direct number and a bit below 63 stay direct
  next w hlt =>
    have hlt : b.u64Clamp.toNat < 63 := UInt64.lt_iff_toNat_lt.mp (of_decide_eq_true hlt)
    have hone := toNat_one_shift (k := b.u64Clamp) (by omega)
    have hw := canonical_direct.1 ha
    refine .direct ?_ (by rw [UInt64.toNat_or, hone, val_direct])
    rw [UInt64.toNat_or, hone]
    exact Nat.or_lt_two_pow hw (Nat.pow_lt_pow_right (by decide) hlt)
  next => exact hslow

/-- Clearing a bit never makes a number longer; a bit above it is clear already. -/
theorem clearBit_spec (hb : b.Canonical) (ha : a.Canonical) :
    Yields (clearBit stale b a) (a.val.ldiff (2 ^ b.val)) := by
  have hclamp := hb.clamp_le
  -- A bit above the number is clear.
  have habove : a.val < 2 ^ b.val → a.val.ldiff (2 ^ b.val) = a.val := fun hlt => by
    apply Nat.eq_of_testBit_eq
    intro j
    rw [Nat.testBit_ldiff, Nat.testBit_two_pow]
    by_cases hj : b.val = j
    · subst hj
      simp [Nat.testBit_lt_two_pow hlt]
    · simp [hj]
  unfold clearBit
  cases a with
  -- A direct number has no bit from 63 on.
  | direct w =>
    have hw := canonical_direct.1 ha
    dsimp only
    split
    next hlt =>
      have hlt : b.u64Clamp.toNat < 63 := UInt64.lt_iff_toNat_lt.mp hlt
      have hexact : b.val = b.u64Clamp.toNat := hb.val_of_clamp hlt (by decide)
      have hval : (w &&& ~~~(1 <<< b.u64Clamp)).toNat = w.toNat.ldiff (2 ^ b.val) := by
        apply Nat.eq_of_testBit_eq
        intro j
        rw [UInt64.toNat_and, Nat.testBit_and, Nat.testBit_ldiff]
        by_cases hj : j < 64
        · rw [testBit_not _ hj, toNat_one_shift (by omega), hexact]
        · have hbig : w.toNat.testBit j = false := Nat.testBit_lt_two_pow
            (Nat.lt_of_lt_of_le hw (Nat.pow_le_pow_right (by decide) (by omega)))
          simp [hbig]
      refine .direct (Nat.lt_of_le_of_lt ?_ hw) (by rw [hval, val_direct])
      rw [UInt64.toNat_and]
      exact Nat.and_le_left
    next hge =>
      rw [UInt64.lt_iff_toNat_lt] at hge
      have hge : 63 ≤ b.u64Clamp.toNat := Nat.not_lt.mp hge
      refine .ok ha (habove ?_).symm
      rw [val_direct]
      exact Nat.lt_of_lt_of_le hw (Nat.pow_le_pow_right (by decide) (by omega))
  -- The count is exact where its limb is there.
  | boxed ls =>
    dsimp only
    split
    next hge =>
      refine .ok ha (habove ?_).symm
      exact Nat.lt_of_lt_of_le (val_lt _) (Nat.pow_le_pow_right (by decide) (by omega))
    next hlt =>
      have hlen := ha.limbLen_lt
      have hlt : b.u64Clamp.toNat / 64 < ls.length := Nat.not_le.mp hlt
      have hexact : b.val = b.u64Clamp.toNat := hb.val_of_clamp (n := 64 * limbMax)
        (by have := ha.2.2; omega) (by decide)
      rw [hexact]
      refine .alloc (Nat.lt_of_le_of_lt (Nat.zero_le _) hlt) hlen fun out hout => ?_
      refine .cover hout.symm (.putAt hlt (.trim ?_ ?_))
      · rw [List.length_set]
        exact hlen
      · exact toNat_set_andNot hlt

/-- The top limb cut to the bits below `w`. -/
theorem toNat_set_mask {ls : List UInt64} {w : UInt64} (hw : w.toNat % 64 ≠ 0)
    (hlen : ls.length = (w.toNat + 63) / 64) :
    toNat (ls.set (ls.length - 1) (ls.getD (ls.length - 1) 0 &&& ((1 <<< (w % 64)) - 1))) =
      toNat ls % 2 ^ w.toNat := by
  have hmod : (w % 64).toNat < 64 := by
    rw [toNat_mod64]
    exact Nat.mod_lt _ (by decide)
  apply Nat.eq_of_testBit_eq
  intro j
  rw [testBit_toNat_set (by omega), Nat.testBit_mod_two_pow]
  split
  next hj =>
    rw [UInt64.toNat_and, mask_toNat hmod, toNat_mod64, Nat.testBit_and,
      Nat.testBit_two_pow_sub_one, ← hj, ← testBit_toNat, Bool.and_comm]
    congr 1
    rw [decide_eq_decide]
    omega
  -- below the top limb nothing is cut
  next hj =>
    by_cases hlt : j < w.toNat
    · simp [hlt]
    · -- Above the list both are clear.
      have hbig : (toNat ls).testBit j = false := Nat.testBit_lt_two_pow
        (Nat.lt_of_lt_of_le (toNat_lt ls) (Nat.pow_le_pow_right (by decide) (by omega)))
      simp [hbig]

/-- A number cut to its low bits. -/
theorem trunc_spec (hb : b.Canonical) (ha : a.Canonical) :
    Yields (trunc stale b a) (a.val % 2 ^ b.val) := by
  have hclamp := hb.clamp_le
  have hself : a.val < 2 ^ b.u64Clamp.toNat → a.val = a.val % 2 ^ b.val := fun hlt =>
    (Nat.mod_eq_of_lt (Nat.lt_of_lt_of_le hlt (Nat.pow_le_pow_right (by decide) hclamp))).symm
  unfold trunc
  dsimp only
  split
  next hz =>
    have hzero : b.val = 0 := by
      have := hb.toNat_u64Clamp
      rw [hz] at this
      simp at this
      omega
    exact .direct (by simp) (by simp [hzero, Nat.mod_one])
  split
  -- the number is short enough as it is
  next hle =>
    rw [bitLen_spec ha, LittleEndian.bitLen_le_iff] at hle
    exact .ok ha (hself hle)
  next hgt =>
    rw [bitLen_spec ha, LittleEndian.bitLen_le_iff] at hgt
    cases a with
    | direct x =>
      have hx := canonical_direct.1 ha
      rw [val_direct] at hgt hself
      have hlt : b.u64Clamp.toNat < 63 := by
        by_contra hge
        exact hgt (Nat.lt_of_lt_of_le hx (Nat.pow_le_pow_right (by decide) (by omega)))
      have hexact : b.val = b.u64Clamp.toNat := hb.val_of_clamp hlt (by decide)
      have hval : (x &&& ((1 <<< b.u64Clamp) - 1)).toNat = x.toNat % 2 ^ b.val := by
        rw [UInt64.toNat_and, mask_toNat (by omega), Nat.and_two_pow_sub_one_eq_mod, hexact]
      have hge : ¬ b.u64Clamp ≥ 63 := by
        rw [ge_iff_le, UInt64.le_iff_toNat_le]
        exact Nat.not_le.mpr hlt
      dsimp only
      rw [if_neg hge]
      refine .direct (Nat.lt_of_le_of_lt ?_ hx) (by rw [hval, val_direct])
      rw [hval]
      exact Nat.mod_le _ _
    | boxed ls =>
      have hlen : ls.length < limbMax := ha.2.2
      -- a boxed number that is too long has limbs past the cut
      have hbits : b.u64Clamp.toNat < 64 * ls.length := by
        by_contra hge
        exact hgt (Nat.lt_of_lt_of_le (toNat_lt ls) (Nat.pow_le_pow_right (by decide) (by omega)))
      have hexact : b.val = b.u64Clamp.toNat := hb.val_of_clamp (n := 64 * limbMax) (by omega)
        (by decide)
      have hpos : 0 < b.u64Clamp.toNat := Nat.pos_of_ne_zero fun h0 => by
        rename_i hz
        exact hz (UInt64.toNat_inj.mp (by simpa using h0))
      have htake : (ls.take ((b.u64Clamp.toNat + 63) / 64)).length = (b.u64Clamp.toNat + 63) / 64 := by
        rw [List.length_take]
        omega
      rw [hexact]
      refine .alloc (by omega) (by omega) fun out hout => .cover ?_ ?_
      · simp only [limbView, htake, hout]
      simp only [limbView]
      split
      next hpart =>
        refine .putAt (by omega) (.trim (by rw [List.length_set]; omega) ?_)
        have hmask := toNat_set_mask hpart htake
        rw [htake] at hmask
        rw [hmask, toNat_take, val_boxed]
        exact Nat.mod_mod_of_dvd _ (Nat.pow_dvd_pow 2 (by omega))
      -- the cut is between two limbs, and no mask is needed
      next hwhole =>
        refine .trim (by omega) ?_
        rw [toNat_take, val_boxed]
        congr 2
        omega

/-! ## Bytes -/

/-- The zeros at the end do not count, and up to seven bytes make a direct number. -/
theorem fromBytes_spec {bs : List UInt8}
    (hlen : ((bs.rdropWhile (· == 0)).length + 7) / 8 < limbMax) :
    Yields (fromBytes stale bs) (LittleEndian.toNat bs) := by
  have hval : LittleEndian.toNat (bs.rdropWhile (· == 0)) = LittleEndian.toNat bs :=
    LittleEndian.toNat_rdropWhile bs
  unfold fromBytes
  rw [← hval]
  generalize bs.rdropWhile (· == 0) = src at hlen ⊢
  dsimp only
  split
  next h0 =>
    rw [List.length_eq_zero_iff.mp h0]
    exact .direct (by simp) rfl
  next hne =>
    split
    next hsmall =>
      have hlt : LittleEndian.toNat src < 256 ^ 7 := Nat.lt_of_lt_of_le (LittleEndian.toNat_lt src)
        (Nat.pow_le_pow_right (by decide) (by omega))
      have hword : (UInt64.ofNat (LittleEndian.toNat src)).toNat = LittleEndian.toNat src :=
        UInt64.toNat_ofNat_of_lt' (Nat.lt_trans hlt (by decide))
      exact .direct (by rw [hword]; exact Nat.lt_trans hlt (by decide)) hword
    next => exact .copyBytes (fun h0 => hne (by simp [h0])) hlen

/-- Bytes of a word from a byte offset on. -/
theorem toNat_clampToWidth {w x : UInt64} :
    (clampToWidth w x).toNat = if w.toNat < 8 then x.toNat % 2 ^ (8 * w.toNat) else x.toNat := by
  unfold clampToWidth
  by_cases hw : w.toNat < 8
  · have hge : ¬ w ≥ 8 := by
      rw [ge_iff_le, UInt64.le_iff_toNat_le]
      exact Nat.not_le.mpr hw
    have hmul : (w * 8).toNat = 8 * w.toNat := by
      rw [UInt64.toNat_mul, show (8 : UInt64).toNat = 8 from rfl]
      omega
    rw [if_neg hge, if_pos hw, UInt64.toNat_and, mask_toNat (by omega), hmul,
      Nat.and_two_pow_sub_one_eq_mod]
  · have hge : w ≥ 8 := by
      rw [ge_iff_le, UInt64.le_iff_toNat_le]
      exact Nat.not_lt.mp hw
    rw [if_pos hge, if_neg hw]

/-- A range of bytes of a number, with an offset and a width that may both be clamped. -/
theorem loadVar_spec {off width : NatVal} (ho : off.Canonical) (hw : width.Canonical)
    (ha : a.Canonical) : Yields (loadVar stale off width a)
      (a.val / 2 ^ (8 * off.val) % 2 ^ (8 * width.val)) := by
  have hoff := ho.clamp_le
  have hwidth := hw.clamp_le
  unfold loadVar
  dsimp only
  split
  next hz =>
    have hzero : width.val = 0 := by
      have := hw.toNat_u64Clamp
      rw [hz] at this
      simp at this
      omega
    exact .direct (by simp) (by simp [hzero, Nat.mod_one])
  next hz =>
    have hpos : 0 < width.u64Clamp.toNat := Nat.pos_of_ne_zero fun h0 =>
      hz (UInt64.toNat_inj.mp (by simpa using h0))
    -- Nothing is left behind an offset past the end.
    have hpast : ∀ k, a.val < 2 ^ (8 * k) → k ≤ off.u64Clamp.toNat →
        a.val / 2 ^ (8 * off.val) % 2 ^ (8 * width.val) = 0 := fun k hlt hk => by
      rw [Nat.div_eq_of_lt (Nat.lt_of_lt_of_le hlt (Nat.pow_le_pow_right (by decide) (by omega))),
        Nat.zero_mod]
    cases a with
    | direct x =>
      have hx := canonical_direct.1 ha
      dsimp only
      split
      -- the offset is past the word
      next hge =>
        rw [ge_iff_le, UInt64.le_iff_toNat_le] at hge
        refine .direct (by simp) (hpast 8 ?_ hge).symm
        rw [val_direct]
        omega
      next hlt =>
        rw [ge_iff_le, UInt64.le_iff_toNat_le] at hlt
        have hlt : off.u64Clamp.toNat < 8 := Nat.not_le.mp hlt
        have hexact : off.val = off.u64Clamp.toNat := ho.val_of_clamp hlt (by decide)
        have hmul : (8 * off.u64Clamp).toNat = 8 * off.u64Clamp.toNat := by
          rw [UInt64.toNat_mul, show (8 : UInt64).toNat = 8 from rfl]
          omega
        have hshift : (x >>> (8 * off.u64Clamp)).toNat = x.toNat / 2 ^ (8 * off.val) := by
          rw [UInt64.toNat_shiftRight, hmul, Nat.mod_eq_of_lt (by omega), Nat.shiftRight_eq_div_pow,
            hexact]
        have hle := Nat.div_le_self x.toNat (2 ^ (8 * off.val))
        have hval : (clampToWidth width.u64Clamp (x >>> (8 * off.u64Clamp))).toNat =
            x.toNat / 2 ^ (8 * off.val) % 2 ^ (8 * width.val) := by
          rw [toNat_clampToWidth, hshift]
          split
          next hw8 => rw [hw.val_of_clamp hw8 (by decide)]
          next hw8 =>
            refine (Nat.mod_eq_of_lt (Nat.lt_of_lt_of_le (show _ < 2 ^ 64 by omega) ?_)).symm
            exact Nat.pow_le_pow_right (by decide) (by omega)
        refine .direct ?_ (by rw [hval, val_direct])
        rw [hval]
        exact Nat.lt_of_le_of_lt (Nat.mod_le _ _) (by omega)
    | boxed ls =>
      have hlen : ls.length < limbMax := ha.2.2
      have htop : (boxed ls).val < 2 ^ (8 * (ls.length * 8)) := by
        have := toNat_lt ls
        rwa [Nat.mul_comm ls.length, ← Nat.mul_assoc]
      dsimp only
      split
      next hge => exact .direct (by simp) (hpast _ htop hge).symm
      next hlt =>
        have hlt : off.u64Clamp.toNat < ls.length * 8 := Nat.not_le.mp hlt
        have hexact : off.val = off.u64Clamp.toNat := ho.val_of_clamp (n := 8 * limbMax) (by omega)
          (by decide)
        -- the source cuts the width to what is left behind the offset
        have hmin : (if (boxed ls).limbLen * 8 - off.u64Clamp.toNat < width.u64Clamp.toNat then
            (boxed ls).limbLen * 8 - off.u64Clamp.toNat else width.u64Clamp.toNat) =
            min (ls.length * 8 - off.u64Clamp.toNat) width.u64Clamp.toNat := by
          rw [show (boxed ls).limbLen = ls.length from rfl]
          split <;> omega
        rw [hmin]
        generalize hn : min (ls.length * 8 - off.u64Clamp.toNat) width.u64Clamp.toNat = n
        have hsrc : (((toBytes ls).drop off.u64Clamp.toNat).take n).length = n := by
          simp only [List.length_take, List.length_drop, length_toBytes]
          omega
        have hcopy := @Yields.copyBytes stale (((toBytes ls).drop off.u64Clamp.toNat).take n)
          (fun h0 => by rw [h0] at hsrc; simp at hsrc; omega) (by rw [hsrc]; omega)
        rw [hsrc, LittleEndian.toNat_take, LittleEndian.toNat_drop, toNat_toBytes,
          show (256 : Nat) = 2 ^ 8 from rfl, ← Nat.pow_mul, ← Nat.pow_mul] at hcopy
        -- which is the same cut as that of the width itself
        have hcut : (boxed ls).val / 2 ^ (8 * off.val) % 2 ^ (8 * width.val) =
            toNat ls / 2 ^ (8 * off.val) % 2 ^ (8 * n) := by
          rw [val_boxed]
          by_cases hshort : ls.length * 8 - off.u64Clamp.toNat < width.u64Clamp.toNat
          · -- All that is left fits in both widths.
            have hrest : toNat ls / 2 ^ (8 * off.val) < 2 ^ (8 * n) := by
              refine Nat.div_lt_of_lt_mul ?_
              rw [← Nat.pow_add]
              refine Nat.lt_of_lt_of_le htop (Nat.pow_le_pow_right (by decide) (by omega))
            have hle : 2 ^ (8 * n) ≤ 2 ^ (8 * width.val) :=
              Nat.pow_le_pow_right (by decide) (by omega)
            rw [Nat.mod_eq_of_lt hrest, Nat.mod_eq_of_lt (Nat.lt_of_lt_of_le hrest hle)]
          · have hwexact : width.val = width.u64Clamp.toNat :=
              hw.val_of_clamp (n := 8 * limbMax) (by omega) (by decide)
            congr 3
            omega
        rw [hcut, hexact]
        exact hcopy

/-- The number whose bytes are those of `a`, byte `i` replaced. -/
theorem storeByte_yields {idx byte : NatVal}
    (hlen : max (idx.u64Clamp.toNat / 8 + 1) a.limbLen < limbMax) :
    Yields (storeByte stale idx byte a) (LittleEndian.toNat
      ((toBytes (a.limbView ++ List.replicate
        (max (idx.u64Clamp.toNat / 8 + 1) a.limbLen - a.limbLen) 0)).set idx.u64Clamp.toNat
          byte.u64Clamp.toUInt8)) := by
  have hlr : (if idx.u64Clamp.toNat / 8 + 1 < a.limbLen then a.limbLen
      else idx.u64Clamp.toNat / 8 + 1) = max (idx.u64Clamp.toNat / 8 + 1) a.limbLen := by
    split <;> omega
  unfold storeByte
  dsimp only
  rw [hlr]
  refine .assume (decide_eq_true hlen) (.alloc (by omega) hlen fun out hout => ?_)
  refine .cover (by simp [hout]) (.start (by simp [limbLen]) ?_)
  -- the buffer holds the number, and zeros up to the byte
  have hl : (a.limbView ++ List.replicate
      (max (idx.u64Clamp.toNat / 8 + 1) a.limbLen - a.limbLen) (0 : UInt64)).length =
      max (idx.u64Clamp.toNat / 8 + 1) a.limbLen := by
    simp only [List.length_append, List.length_replicate, limbLen]
    omega
  rw [List.drop_replicate]
  refine .putBytes (by simp only [List.length_singleton, limbLen] at hl ⊢; omega) fun out' hl' hv => ?_
  refine .trim (by simp only [limbLen] at *; omega) ?_
  rw [hv, List.set_eq_take_append_cons_drop, if_pos (by rw [length_toBytes]; omega)]
  simp [limbLen]

/-- The byte is replaced, and the others are those of `a`. -/
theorem storeByte_spec {idx byte : NatVal} (hi : idx.Canonical)
    (hlen : max (idx.u64Clamp.toNat / 8 + 1) a.limbLen < limbMax) :
    ∃ v, storeByte stale idx byte a = .ok v ∧ v.Canonical ∧
      ∀ j, v.byteAt j = if j = idx.val then byte.u64Clamp.toUInt8 else a.byteAt j := by
  have hexact : idx.val = idx.u64Clamp.toNat := hi.val_of_clamp (n := 8 * limbMax) (by omega)
    (by decide)
  have hyields : Yields (storeByte stale idx byte a) _ := storeByte_yields hlen
  obtain ⟨v, hv, hc, hval⟩ := hyields
  refine ⟨v, hv, hc, fun j => ?_⟩
  rw [byteAt_spec, hval, ← LittleEndian.getD_eq, hexact, List.getD_eq_getElem?_getD]
  split
  next hj =>
    rw [hj, List.getElem?_set_self]
    · rfl
    · simp only [length_toBytes, List.length_append, List.length_replicate, limbLen]
      omega
  next hj =>
    rw [List.getElem?_set_ne (Ne.symm hj), ← List.getD_eq_getElem?_getD, LittleEndian.getD_eq,
      toNat_toBytes, toNat_append, toNat_replicate_zero, Nat.mul_zero, Nat.add_zero, byteAt_spec, val]

end

end Enki.Bignum
