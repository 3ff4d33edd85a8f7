import Enki.Bignum.Rules

/-!
# Natural numbers: arithmetic is exact

One lemma for each operation: on canonical operands it yields the number it stands
for. The one exception is `pl_nat_sub` of a boxed natural and zero, which hands
`mpn_sub` an operand of no limbs.
-/

namespace Enki.Bignum

open Limbs NatVal

section

variable {m : Mpn} {stale : Nat → UInt64} {a b : NatVal}

/-! ## Comparison -/

/-- Limb by limb: the longer number is greater, and equally long ones are left to `mpn_cmp`. -/
theorem cmpSlow_spec (hm : m.Meets) (ha : a.Canonical) (hb : b.Canonical) :
    ∃ c, cmpSlow m a b = .ok c ∧ (c < 0 ↔ a.val < b.val) ∧ (c = 0 ↔ a.val = b.val) := by
  unfold cmpSlow
  split
  next hne =>
    refine ⟨_, rfl, ?_⟩
    split
    next hlt =>
      have := hb.lt_of_limbLen_lt hlt
      constructor <;> simp <;> omega
    next hge =>
      have := ha.lt_of_limbLen_lt (Nat.lt_of_le_of_ne (Nat.not_lt.mp hge) (Ne.symm hne))
      constructor <;> simp <;> omega
  next heq =>
    have heq := not_not.mp heq
    split
    -- two zeros have no limbs to compare
    next hz =>
      have hva := ha.val_eq_zero.mpr (ha.limbLen_eq_zero.mp hz)
      have hvb := hb.val_eq_zero.mpr (hb.limbLen_eq_zero.mp (heq.symm.trans hz))
      exact ⟨0, rfl, by simp [hva, hvb], by simp [hva, hvb]⟩
    next hnz =>
      have hne : a.limbView ≠ [] := fun h0 => hnz (by simp [limbLen, h0])
      have hlen : a.limbView.length = b.limbView.length := heq
      refine ⟨m.cmp a.limbView b.limbView, ?_, hm.cmp _ _ hlen hne⟩
      simp [Mpn.callCmp, guarded, hlen, hne]

/-- The sign of the comparison is that of the numbers. -/
theorem cmp_spec (hm : m.Meets) (ha : a.Canonical) (hb : b.Canonical) :
    ∃ c, cmp m a b = .ok c ∧ (c < 0 ↔ a.val < b.val) ∧ (c = 0 ↔ a.val = b.val) := by
  have hslow := cmpSlow_spec hm ha hb
  cases a with
  | boxed ls => exact hslow
  | direct x =>
    cases b with
    | boxed ls => exact hslow
    | direct y =>
      refine ⟨_, rfl, ?_⟩
      simp only [val_direct, UInt64.lt_iff_toNat_lt, gt_iff_lt]
      split
      · constructor <;> simp <;> omega
      · split
        · constructor <;> simp <;> omega
        · constructor <;> simp <;> omega

/-- Equality is a comparison that comes out zero. -/
theorem eq_spec (hm : m.Meets) (ha : a.Canonical) (hb : b.Canonical) :
    eq m a b = .ok (decide (a.val = b.val)) := by
  obtain ⟨c, hc, -, hz⟩ := cmp_spec hm ha hb
  unfold eq
  rw [hc]
  exact congrArg Except.ok (decide_eq_decide.mpr hz)

/-! ## Successor and predecessor -/

/-- One limb more is room for the carry. -/
theorem incSlow_spec (hm : m.Meets) (hne : a.limbView ≠ []) (hlen : a.limbLen + 1 < limbMax) :
    Yields (incSlow m stale a) (a.val + 1) := by
  refine .alloc (by omega) hlen fun out hout => ?_
  refine .guarded (by simpa using hne) ?_
  obtain ⟨hl, hv⟩ := hm.add1 a.limbView 1 hne
  generalize m.add1 a.limbView 1 = p at hl hv
  obtain ⟨sum, carry⟩ := p
  refine .start (by simp only [hl, hout, limbLen]; omega) ?_
  refine .fill (by simp [hl, limbLen]) (by simp [hout, hl, limbLen]) ?_
  refine .trim ?_ ?_
  · simpa [hl, limbLen] using hlen
  · simpa [toNat_append, hl, limbLen, val] using hv

/-- The last direct number has a boxed successor. -/
theorem inc_spec (hm : m.Meets) (ha : a.Canonical) (hlen : a.limbLen + 1 < limbMax) :
    Yields (inc m stale a) (a.val + 1) := by
  cases a with
  | direct w =>
    unfold inc
    dsimp only
    split
    next hw =>
      rw [UInt64.lt_iff_toNat_lt, toNat_nat63Max] at hw
      have hadd : (w + 1).toNat = w.toNat + 1 := by
        rw [UInt64.toNat_add]
        simp
        omega
      exact .direct (by omega) (by simp [hadd])
    -- the largest direct number is not zero, so that it has a limb
    next hw =>
      refine incSlow_spec hm ?_ hlen
      intro h0
      rw [limbView_direct] at h0
      split at h0
      next hz => simp [hz, nat63Max] at hw
      next => cases h0
  | boxed ls => exact incSlow_spec hm ha.boxed_ne hlen

/-- A difference that is not negative has no borrow. -/
theorem no_borrow {n d x y c : Nat} (hd : d < 2 ^ n) (hle : y ≤ x) (h : d + y = x + 2 ^ n * c) :
    d = x - y := by
  rcases Nat.eq_zero_or_pos c with rfl | hc
  · omega
  · have : 2 ^ n * 1 ≤ 2 ^ n * c := Nat.mul_le_mul_left _ hc
    omega

/-- Zero has no predecessor, and stays. -/
theorem dec_spec (hm : m.Meets) (ha : a.Canonical) : Yields (dec m stale a) (a.val - 1) := by
  cases a with
  | direct w =>
    have hw := canonical_direct.1 ha
    unfold dec
    dsimp only
    split
    next hz => exact .direct (by simp) (by simp [hz])
    next hz =>
      have hpos : 1 ≤ w.toNat := Nat.pos_of_ne_zero fun h0 => hz (UInt64.toNat_inj.mp (by simpa using h0))
      have hsub : (w - 1).toNat = w.toNat - 1 := by
        rw [UInt64.toNat_sub_of_le _ _ (UInt64.le_iff_toNat_le.mpr (by simpa using hpos))]
        rfl
      exact .direct (by omega) (by simp [hsub])
  | boxed ls =>
    have hne := ha.boxed_ne
    have hlen := List.length_pos_iff.mpr hne
    refine .alloc hlen ha.limbLen_lt fun out hout => ?_
    refine .guarded (decide_eq_true hne) ?_
    obtain ⟨hl, hv⟩ := hm.sub1 ls 1 hne
    have hlt := toNat_lt (m.sub1 ls 1).1
    rw [hl] at hlt
    -- a boxed number is at least `2 ^ 63`
    have hval := no_borrow hlt (Nat.le_trans (by decide) ha.2.1) hv
    change Yields (put out 0 (m.sub1 ls 1).1 >>= fun out => .ok (natTrim out)) _
    refine .cover (hl.trans hout.symm) ?_
    exact .trim (by rw [hl]; exact ha.2.2) (by simpa using hval)

/-! ## Addition, subtraction and multiplication -/

/-- The limbs are added with the shorter operand second, as `mpn_add` wants it. -/
theorem addSlow_spec (hm : m.Meets) (hlen : max a.limbLen b.limbLen + 1 < limbMax) :
    Yields (addSlow m stale a b) (a.val + b.val) := by
  have hmax : (if a.limbLen > b.limbLen then a.limbLen else b.limbLen) = max a.limbLen b.limbLen := by
    split <;> omega
  unfold addSlow
  simp only [hmax]
  refine .alloc (by omega) hlen fun out hout => ?_
  -- The longer operand comes first.
  obtain ⟨va, vb, hswap, hle, hva, hsum⟩ : ∃ va vb : List UInt64,
      (if a.limbLen < b.limbLen then (b.limbView, a.limbView) else (a.limbView, b.limbView)) =
        (va, vb) ∧ vb.length ≤ va.length ∧ va.length = max a.limbLen b.limbLen ∧
      toNat va + toNat vb = a.val + b.val := by
    split
    next hlt =>
      exact ⟨_, _, rfl, Nat.le_of_lt hlt, by unfold limbLen at hlt ⊢; omega, Nat.add_comm _ _⟩
    next hge => exact ⟨_, _, rfl, Nat.not_lt.mp hge, by unfold limbLen at hge ⊢; omega, rfl⟩
  simp only [hswap]
  -- With and without a call the limbs of the sum and a carry are stored.
  have hstore : ∀ sum : List UInt64, ∀ carry : UInt64, sum.length = va.length →
      toNat sum + 2 ^ (64 * va.length) * carry.toNat = a.val + b.val →
      Yields (do
        let out ← put out 0 sum
        let out ← put out va.length [carry]
        let out ← put out (va.length + 1)
          (List.replicate (max a.limbLen b.limbLen + 1 - (va.length + 1)) 0)
        return natTrim out) (a.val + b.val) := by
    intro sum carry hl hv
    refine .start (by simp only [hl, hout]; omega) ?_
    refine .fill hl.symm (by simp [hout, hl, hva]) ?_
    rw [hva, Nat.sub_self, List.replicate_zero]
    refine .skip (by simp [hl, hva]) (.trim ?_ ?_)
    · simpa [hl, hva] using hlen
    · simpa [toNat_append, hl, hva] using hv
  -- zero has no limbs, and is not handed over
  by_cases hnil : vb.length = 0
  · rw [if_neg (by simpa using hnil)]
    have hvb : vb = [] := List.length_eq_zero_iff.mp hnil
    exact hstore va 0 rfl (by simpa [hvb] using hsum)
  · rw [if_pos (by simpa using hnil)]
    have hne : vb ≠ [] := fun h0 => hnil (by simp [h0])
    obtain ⟨hl, hv⟩ := hm.add va vb hle hne
    refine .guarded (by simpa using ⟨hle, hne⟩) ?_
    exact hstore _ _ hl (hv.trans hsum)

/-- Two words are added as words if their sum is direct. -/
theorem add_spec (hm : m.Meets) (hlen : max a.limbLen b.limbLen + 1 < limbMax) :
    Yields (add m stale a b) (a.val + b.val) := by
  have hslow : Yields (addSlow m stale a b) _ := addSlow_spec hm hlen
  cases a with
  | boxed ls => exact hslow
  | direct x =>
    cases b with
    | boxed ls => exact hslow
    | direct y =>
      unfold add
      dsimp only
      split
      next hfit =>
        rw [UInt64.le_iff_toNat_le, toNat_nat63Max, UInt64.toNat_add, Nat.mod_eq_of_lt hfit.1] at hfit
        have hadd : (x + y).toNat = x.toNat + y.toNat := by
          rw [UInt64.toNat_add, Nat.mod_eq_of_lt hfit.1]
        exact .direct (by omega) (by simp [hadd])
      next => exact hslow

/-- The difference of the limbs, unless it would be negative. -/
theorem subSlow_spec (hm : m.Meets) (ha : a.Canonical) (hb : b.Canonical)
    (hz : b = .direct 0 → a = .direct 0) : Yields (subSlow m stale a b) (a.val - b.val) := by
  obtain ⟨c, hc, hneg, hzero⟩ := cmp_spec hm hb ha
  unfold subSlow
  rw [hc]
  dsimp only [bind, Except.bind]
  split
  next hge => exact .direct (by simp) (by simp; omega)
  next hlt =>
    have hval : b.val < a.val := hneg.mp (by omega)
    have hle : b.limbLen ≤ a.limbLen := by
      by_contra hgt
      have := hb.lt_of_limbLen_lt (Nat.lt_of_not_le hgt)
      omega
    have hane : a ≠ .direct 0 := fun h0 => by simp [h0] at hval
    -- only here is the second operand asked to have a limb
    have hbne : b.limbView ≠ [] := fun h0 =>
      hane (hz (hb.limbLen_eq_zero.mp (by simp [limbLen, h0])))
    have hpos : 1 ≤ a.limbLen := Nat.pos_of_ne_zero fun h0 => hane (ha.limbLen_eq_zero.mp h0)
    refine .alloc hpos ha.limbLen_lt fun out hout => ?_
    refine .guarded (by simpa using ⟨hle, hbne⟩) ?_
    obtain ⟨hl, hv⟩ := hm.sub a.limbView b.limbView hle hbne
    have hdlt := toNat_lt (m.sub a.limbView b.limbView).1
    rw [hl] at hdlt
    have hdiff := no_borrow hdlt (Nat.le_of_lt hval) hv
    generalize m.sub a.limbView b.limbView = p at hl hdiff
    obtain ⟨diff, borrow⟩ := p
    refine .cover (hl.trans hout.symm) ?_
    exact .trim (by rw [hl]; exact ha.limbLen_lt) hdiff

/-- A direct operand less another needs no limbs. -/
theorem sub_spec (hm : m.Meets) (ha : a.Canonical) (hb : b.Canonical)
    (hz : a.isNat63 = true ∨ b ≠ .direct 0) : Yields (sub m stale a b) (a.val - b.val) := by
  cases a with
  | boxed ls => exact subSlow_spec hm ha hb fun h0 => by simp [h0, isNat63] at hz
  | direct x =>
    cases b with
    | boxed ls => exact subSlow_spec hm ha hb fun h0 => by cases h0
    | direct y =>
      have hx := canonical_direct.1 ha
      unfold sub
      dsimp only
      split
      next hgt =>
        rw [gt_iff_lt, UInt64.lt_iff_toNat_lt] at hgt
        have hsub : (x - y).toNat = x.toNat - y.toNat :=
          UInt64.toNat_sub_of_le _ _ (UInt64.le_iff_toNat_le.mpr (Nat.le_of_lt hgt))
        exact .direct (by omega) (by simp [hsub])
      next hle =>
        rw [gt_iff_lt, UInt64.lt_iff_toNat_lt] at hle
        exact .direct (by simp) (by simp; omega)

/-- Without limbs to subtract the call of `mpn_sub` breaks its contract. -/
theorem sub_zero_misuse (hm : m.Meets) {ls : List UInt64} (ha : (boxed ls).Canonical) :
    sub m stale (.boxed ls) (.direct 0) = .error (.misuse "mpn_sub") := by
  have hz : (NatVal.direct 0).Canonical := canonical_direct.2 (by simp)
  obtain ⟨c, hc, hneg, -⟩ := cmp_spec hm hz ha
  have hlow := ha.2.1
  have hlt : c < 0 := hneg.mpr (by simp; omega)
  have hpos := List.length_pos_iff.mpr ha.boxed_ne
  have hmk : mkNatLimbs stale ls.length = .ok ((List.range ls.length).map stale) :=
    if_pos ⟨hpos, ha.2.2⟩
  have hneg' : ¬ (0 : Int) ≤ c := by omega
  simp only [sub, subSlow, hc, bind, Except.bind, ge_iff_le, hneg', if_false, limbLen, limbView, hmk,
    Mpn.callSub, guarded]
  rfl

/-- The product has room for the limbs of both. -/
theorem mulSlow_spec (hm : m.Meets) (ha : a.Canonical) (hb : b.Canonical)
    (hlen : a.limbLen + b.limbLen < limbMax) : Yields (mulSlow m stale a b) (a.val * b.val) := by
  unfold mulSlow
  split
  next hz =>
    refine .direct (by simp) ?_
    rcases hz with rfl | rfl <;> simp
  next hnz =>
    push Not at hnz
    have hane : a.limbView ≠ [] := fun h0 => hnz.1 (ha.limbLen_eq_zero.mp (by simp [limbLen, h0]))
    have hbne : b.limbView ≠ [] := fun h0 => hnz.2 (hb.limbLen_eq_zero.mp (by simp [limbLen, h0]))
    have hpos := List.length_pos_iff.mpr hane
    refine .alloc (by unfold limbLen; omega) hlen fun out hout => ?_
    have hstore : ∀ prod : List UInt64, prod.length = a.limbLen + b.limbLen →
        toNat prod = a.val * b.val → Yields (do
          let out ← put out 0 prod
          return natTrim out) (a.val * b.val) := fun prod hl hv =>
      .cover (hl.trans hout.symm) (.trim (by rw [hl]; exact hlen) hv)
    split
    -- the longer operand comes first
    next hge =>
      obtain ⟨hl, hv⟩ := hm.mul a.limbView b.limbView hge hbne
      exact .guarded (by simpa using ⟨hge, hbne⟩) (hstore _ hl hv)
    next hlt =>
      have hle : a.limbView.length ≤ b.limbView.length := Nat.le_of_not_le hlt
      obtain ⟨hl, hv⟩ := hm.mul b.limbView a.limbView hle hane
      exact .guarded (by simpa using ⟨hle, hane⟩)
        (hstore _ (hl.trans (Nat.add_comm _ _)) (hv.trans (Nat.mul_comm _ _)))

/-- Two words are multiplied as words if their product is direct. -/
theorem mul_spec (hm : m.Meets) (ha : a.Canonical) (hb : b.Canonical)
    (hlen : a.limbLen + b.limbLen < limbMax) : Yields (mul m stale a b) (a.val * b.val) := by
  have hslow : Yields (mulSlow m stale a b) _ := mulSlow_spec hm ha hb hlen
  cases a with
  | boxed ls => exact hslow
  | direct x =>
    cases b with
    | boxed ls => exact hslow
    | direct y =>
      unfold mul
      dsimp only
      split
      next hfit =>
        rw [UInt64.le_iff_toNat_le, toNat_nat63Max, UInt64.toNat_mul, Nat.mod_eq_of_lt hfit.1] at hfit
        have hmul : (x * y).toNat = x.toNat * y.toNat := by
          rw [UInt64.toNat_mul, Nat.mod_eq_of_lt hfit.1]
        exact .direct (by omega) (by simp [hmul])
      next => exact hslow

/-! ## Division -/

/-- Quotient and remainder in one call; a smaller dividend is its own remainder. -/
theorem divmodSlow_spec (hm : m.Meets) (ha : a.Canonical) (hb : b.Canonical)
    (hz : b ≠ .direct 0) (wantMod : Bool) : Yields (divmodSlow m stale a b wantMod)
      (if wantMod then a.val % b.val else a.val / b.val) := by
  obtain ⟨c, hc, hneg, -⟩ := cmp_spec hm ha hb
  have hbpos : 0 < b.val := Nat.pos_of_ne_zero fun h0 => hz (hb.val_eq_zero.mp h0)
  unfold divmodSlow
  rw [hc]
  dsimp only [bind, Except.bind]
  split
  next hlt =>
    have hval := hneg.mp hlt
    cases wantMod with
    | true => exact .ok ha (Nat.mod_eq_of_lt hval).symm
    | false => exact .direct (by simp) (by simp [Nat.div_eq_of_lt hval])
  next hge =>
    have hle : b.limbLen ≤ a.limbLen := by
      by_contra hgt
      exact hge (hneg.mpr (hb.lt_of_limbLen_lt (Nat.lt_of_not_le hgt)))
    have hbne : b.limbView ≠ [] := fun h0 => hz (hb.limbLen_eq_zero.mp (by simp [limbLen, h0]))
    -- the contract of `mpn_tdiv_qr` asks for a top limb that is not zero
    have htop : b.limbView.getLast? ≠ some 0 := fun h0 => hb.top 0 h0 rfl
    have hblen : 0 < b.limbLen := List.length_pos_iff.mpr hbne
    have hamax := ha.limbLen_lt
    refine .alloc (by omega) (by omega) fun qp hqp => ?_
    refine .alloc hblen hb.limbLen_lt fun rp hrp => ?_
    refine .guarded (by simpa using ⟨hle, hbne, htop⟩) ?_
    obtain ⟨hlq, hlr, hvq, hvr⟩ := hm.tdivQr a.limbView b.limbView hle hbne htop
    generalize m.tdivQr a.limbView b.limbView = p at hlq hlr hvq hvr
    obtain ⟨quot, rem⟩ := p
    refine .cover (hlq.trans hqp.symm) (.cover (hlr.trans hrp.symm) ?_)
    cases wantMod with
    | true => exact .trim (by rw [hlr]; exact hb.limbLen_lt) hvr
    | false => exact .trim (by rw [hlq]; unfold limbLen at hle hblen hamax; omega) hvq

/-- Division of two words is that of words. -/
theorem divmod_spec (hm : m.Meets) (ha : a.Canonical) (hb : b.Canonical) (hz : b ≠ .direct 0)
    (wantMod : Bool) : Yields (divmod m stale a b wantMod)
      (if wantMod then a.val % b.val else a.val / b.val) := by
  have hslow : Yields (divmodSlow m stale a b wantMod) _ := divmodSlow_spec hm ha hb hz wantMod
  unfold divmod
  rw [if_neg hz]
  cases a with
  | boxed ls => exact hslow
  | direct x =>
    cases b with
    | boxed ls => exact hslow
    | direct y =>
      have hx := canonical_direct.1 ha
      cases wantMod with
      | true =>
        have hle := Nat.mod_le x.toNat y.toNat
        exact .direct (by simp [UInt64.toNat_mod]; omega) (by simp [UInt64.toNat_mod])
      | false =>
        have hle := Nat.div_le_self x.toNat y.toNat
        exact .direct (by simp [UInt64.toNat_div]; omega) (by simp [UInt64.toNat_div])

end

end Enki.Bignum
