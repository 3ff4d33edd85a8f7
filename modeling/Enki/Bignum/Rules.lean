import Enki.Bignum.Arith

/-!
# Natural numbers: rules

What canonical naturals are (`Canonical`), and rules for the result protocol: a
computation that allocates an object, stores into it and trims it yields a number
(`Yields`) if the stores stay inside and the limbs denote that number.
-/

namespace Enki.Bignum

open Limbs NatVal

/-! ## Canonical naturals -/

theorem toNat_nat63Max : nat63Max.toNat = 2 ^ 63 - 1 := rfl

theorem limbView_direct (w : UInt64) : (direct w).limbView = if w = 0 then [] else [w] := rfl

@[simp] theorem val_direct (w : UInt64) : (direct w).val = w.toNat := by
  unfold val
  rw [limbView_direct]
  split
  next hw => simp [hw]
  next => simp

@[simp] theorem val_boxed (ls : List UInt64) : (boxed ls).val = toNat ls := rfl

theorem canonical_direct {w : UInt64} : (direct w).Canonical ↔ w.toNat < 2 ^ 63 := by
  have hle : (direct w).Canonical ↔ w.toNat ≤ 2 ^ 63 - 1 := UInt64.le_iff_toNat_le
  rw [hle]
  omega

namespace NatVal

variable {v a b : NatVal}

/-- The top limb of a view is not zero. -/
theorem Canonical.top (h : v.Canonical) : ∀ l ∈ v.limbView.getLast?, l ≠ 0 := by
  intro l hl
  cases v with
  | direct w =>
    rw [limbView_direct] at hl
    split at hl
    · simp at hl
    next hw =>
      obtain rfl : w = l := by simpa using hl
      exact hw
  | boxed ls =>
    intro h0
    exact h.1 (h0 ▸ hl)

theorem Canonical.limbLen_lt (h : v.Canonical) : v.limbLen < limbMax := by
  cases v with
  | direct w =>
    unfold limbLen
    rw [limbView_direct]
    split <;> simp [limbMax]
  | boxed ls => exact h.2.2

theorem Canonical.boxed_ne {ls : List UInt64} (h : (boxed ls).Canonical) : ls ≠ [] := by
  rintro rfl
  exact absurd h.2.1 (by simp)

theorem Canonical.direct_iff (h : v.Canonical) : v.isNat63 = true ↔ v.val < 2 ^ 63 := by
  cases v with
  | direct w => simpa [isNat63] using canonical_direct.1 h
  | boxed ls => simpa [isNat63] using h.2.1

theorem val_lt (v : NatVal) : v.val < 2 ^ (64 * v.limbLen) := toNat_lt _

/-- A longer natural is larger. -/
theorem Canonical.lt_of_limbLen_lt (hb : b.Canonical) (h : a.limbLen < b.limbLen) :
    a.val < b.val := by
  have hne : b.limbView ≠ [] := fun h0 => by simp [limbLen, h0] at h
  have hlow := le_toNat hb.top hne
  refine Nat.lt_of_lt_of_le (val_lt a) (Nat.le_trans ?_ hlow)
  exact Nat.pow_le_pow_right (by decide) (by unfold limbLen at h ⊢; omega)

theorem Canonical.val_eq_zero (h : v.Canonical) : v.val = 0 ↔ v = direct 0 := by
  cases v with
  | direct w =>
    rw [val_direct, direct.injEq]
    exact ⟨fun hw => UInt64.toNat_inj.mp (by simpa using hw), fun hw => by simp [hw]⟩
  | boxed ls =>
    have := h.2.1
    simp only [val_boxed, reduceCtorEq, iff_false]
    omega

theorem Canonical.limbLen_eq_zero (h : v.Canonical) : v.limbLen = 0 ↔ v = direct 0 := by
  rw [← h.val_eq_zero]
  unfold limbLen val
  refine ⟨fun hl => by rw [List.length_eq_zero_iff.mp hl]; rfl, fun hv => ?_⟩
  by_contra hne
  have hlow := le_toNat h.top (fun h0 => hne (by simp [h0]))
  have := Nat.two_pow_pos (64 * (v.limbView.length - 1))
  omega

theorem limbAt_eq (v : NatVal) (i : Nat) : v.limbAt i = v.limbView.getD i 0 := by
  cases v with
  | direct w =>
    rw [limbView_direct]
    unfold limbAt
    by_cases hw : w = 0
    · simp [hw]
    · cases i <;> simp [hw]
  | boxed ls => rfl

theorem testBit_val (v : NatVal) (j : Nat) :
    v.val.testBit j = (v.limbAt (j / 64)).toNat.testBit (j % 64) := by
  rw [limbAt_eq]
  exact testBit_toNat _ j

/-- Counts saturate at `2 ^ 64 - 1`. -/
theorem Canonical.toNat_u64Clamp (h : v.Canonical) :
    v.u64Clamp.toNat = min v.val (2 ^ 64 - 1) := by
  match v, h with
  | .direct w, h =>
    have := canonical_direct.1 h
    simp only [u64Clamp, val_direct]
    omega
  | .boxed [], h => exact absurd rfl h.boxed_ne
  | .boxed [l], _ =>
    have := l.toNat_lt
    simp only [u64Clamp, val_boxed, toNat_singleton]
    omega
  | .boxed (l :: l' :: ls), h =>
    have hlow := le_toNat h.top h.boxed_ne
    have hpow : 2 ^ 64 ≤ 2 ^ (64 * ((l :: l' :: ls).length - 1)) :=
      Nat.pow_le_pow_right (by decide) (by simp only [List.length_cons]; omega)
    simp only [limbView] at hlow
    simp only [u64Clamp, val_boxed]
    rw [show (0xffffffffffffffff : UInt64).toNat = 2 ^ 64 - 1 from rfl]
    omega

end NatVal

/-! ## Results -/

/-- The computation returns the canonical natural `n`. -/
def Yields (x : Except Stop NatVal) (n : Nat) : Prop := ∃ v, x = .ok v ∧ v.Canonical ∧ v.val = n

theorem natTrim_spec {out : List UInt64} (h : out.length < limbMax) :
    (natTrim out).Canonical ∧ (natTrim out).val = toNat out := by
  have hval := toNat_trim out
  have htop := @trim_top out
  have hlen := Nat.lt_of_le_of_lt (length_trim_le out) h
  unfold natTrim
  rw [← hval]
  split
  next hl => simp [canonical_direct, hl]
  next l hl =>
    split
    next hle => exact ⟨hle, by simp [hl]⟩
    next hgt =>
      rw [UInt64.le_iff_toNat_le, toNat_nat63Max] at hgt
      refine ⟨⟨?_, ?_, by simp [limbMax]⟩, by simp [hl]⟩
      · intro h0
        exact htop 0 (by rw [hl]; exact h0) rfl
      · simp only [toNat_singleton]
        omega
  next ls hnil hone =>
    refine ⟨⟨fun h0 => htop 0 h0 rfl, ?_, hlen⟩, rfl⟩
    -- At least two limbs, the top one nonzero.
    have hne : trim out ≠ [] := hnil
    have hlow := le_toNat htop hne
    have hlen2 : 2 ≤ (trim out).length := by
      rcases ht : trim out with _ | ⟨l, _ | ⟨l', ls⟩⟩
      · exact absurd ht hnil
      · exact absurd ht (hone l)
      · simp
    have hpow : 2 ^ 63 ≤ 2 ^ (64 * ((trim out).length - 1)) :=
      Nat.pow_le_pow_right (by decide) (by omega)
    omega

namespace Yields

variable {α : Type} {k : α → Except Stop NatVal} {n : Nat}

theorem ok {v : NatVal} (hv : v.Canonical) (h : v.val = n) : Yields (.ok v) n := ⟨v, rfl, hv, h⟩

theorem direct {w : UInt64} (hw : w.toNat < 2 ^ 63) (h : w.toNat = n) :
    Yields (.ok (.direct w)) n := ok (canonical_direct.2 hw) (by simpa using h)

theorem trim {out : List UInt64} (hlen : out.length < limbMax) (h : toNat out = n) :
    Yields (.ok (natTrim out)) n :=
  ok (natTrim_spec hlen).1 ((natTrim_spec hlen).2.trans h)

/-- A routine called inside its contract. -/
theorem guarded {c : Bool} {name : String} {x : α} (hc : c = true) (h : Yields (k x) n) :
    Yields (Bignum.guarded c name x >>= k) n := by
  unfold Bignum.guarded
  rw [if_pos hc]
  exact h

theorem assume {c : Bool} {msg : String} {k : Unit → Except Stop NatVal} (hc : c = true)
    (h : Yields (k ()) n) : Yields (Bignum.assume c msg >>= k) n := by
  unfold Bignum.assume
  rw [if_pos hc]
  exact h

/-- A fresh object of any content. -/
theorem alloc {stale : Nat → UInt64} {lr : Nat} {k : List UInt64 → Except Stop NatVal}
    (hpos : 1 ≤ lr) (hmax : lr < limbMax) (h : ∀ out, out.length = lr → Yields (k out) n) :
    Yields (mkNatLimbs stale lr >>= k) n := by
  unfold mkNatLimbs
  rw [if_pos ⟨hpos, hmax⟩]
  exact h _ (by simp)

/-- A store behind what has been written. -/
theorem put {k : List UInt64 → Except Stop NatVal} {i : Nat} {d r s : List UInt64}
    (hi : i = d.length) (hlen : s.length ≤ r.length) (h : Yields (k (d ++ s ++ r.drop s.length)) n) :
    Yields (Bignum.put (d ++ r) i s >>= k) n := by
  refine guarded (by simp [hi]; omega) ?_
  subst hi
  rw [List.take_left', List.drop_append, List.drop_of_length_le (by omega), List.nil_append,
    Nat.add_sub_cancel_left]
  · exact h
  · rfl

/-- A store that fills the object. -/
theorem fill {k : List UInt64 → Except Stop NatVal} {i : Nat} {d r s : List UInt64}
    (hi : i = d.length) (hlen : s.length = r.length) (h : Yields (k (d ++ s)) n) :
    Yields (Bignum.put (d ++ r) i s >>= k) n := by
  refine put hi (Nat.le_of_eq hlen) ?_
  rw [List.drop_of_length_le (Nat.le_of_eq hlen.symm), List.append_nil]
  exact h

/-- The first store. -/
theorem start {k : List UInt64 → Except Stop NatVal} {out s : List UInt64}
    (hlen : s.length ≤ out.length) (h : Yields (k (s ++ out.drop s.length)) n) :
    Yields (Bignum.put out 0 s >>= k) n :=
  put (d := []) rfl hlen h

/-- A store over the whole object. -/
theorem cover {k : List UInt64 → Except Stop NatVal} {out s : List UInt64}
    (hlen : s.length = out.length) (h : Yields (k s) n) : Yields (Bignum.put out 0 s >>= k) n :=
  fill (d := []) rfl hlen h

/-- Nothing is stored. -/
theorem skip {k : List UInt64 → Except Stop NatVal} {i : Nat} {out : List UInt64}
    (hi : i ≤ out.length) (h : Yields (k out) n) : Yields (Bignum.put out i [] >>= k) n :=
  guarded (by simpa using hi) (by simpa using h)

/-- One limb is replaced. -/
theorem putAt {k : List UInt64 → Except Stop NatVal} {i : Nat} {out : List UInt64} {l : UInt64}
    (hi : i < out.length) (h : Yields (k (out.set i l)) n) :
    Yields (Bignum.put out i [l] >>= k) n := by
  refine guarded (by simp; omega) ?_
  rw [List.set_eq_take_append_cons_drop, if_pos hi] at h
  simpa using h

/-- A store of bytes. -/
theorem putBytes {k : List UInt64 → Except Stop NatVal} {i : Nat} {out : List UInt64}
    {src : List UInt8} (hi : i + src.length ≤ 8 * out.length)
    (h : ∀ out', out'.length = out.length → toNat out' = LittleEndian.toNat
      ((toBytes out).take i ++ src ++ (toBytes out).drop (i + src.length)) → Yields (k out') n) :
    Yields (Bignum.putBytes out i src >>= k) n := by
  refine guarded (decide_eq_true hi) (h _ (length_ofBytes _ _) ?_)
  rw [toNat_ofBytes, Nat.mod_eq_of_lt]
  -- The object has as many bytes as before.
  have hlt := LittleEndian.toNat_lt
    ((toBytes out).take i ++ src ++ (toBytes out).drop (i + src.length))
  have hlen : ((toBytes out).take i ++ src ++ (toBytes out).drop (i + src.length)).length =
      8 * out.length := by
    simp only [List.length_append, List.length_take, List.length_drop, length_toBytes]
    omega
  rwa [hlen, show (256 : Nat) = 2 ^ 8 from rfl, ← Nat.pow_mul, ← Nat.mul_assoc] at hlt

/-- Bytes copied into an object that is just large enough, its last limb cleared first. -/
theorem fillBytes {k : List UInt64 → Except Stop NatVal} {out : List UInt64} {src : List UInt8}
    (hne : src ≠ []) (hout : out.length = (src.length + 7) / 8)
    (h : ∀ out', out'.length = out.length → toNat out' = LittleEndian.toNat src → Yields (k out') n) :
    Yields (Bignum.put out ((src.length + 7) / 8 - 1) [0] >>= fun out =>
      Bignum.putBytes out 0 src >>= k) n := by
  have hpos := List.length_pos_iff.mpr hne
  refine putAt (by omega) (putBytes (by simp only [List.length_set]; omega) fun out' hl hv => ?_)
  refine h out' (by rw [hl, List.length_set]) ?_
  -- What lies behind the bytes is part of the cleared limb.
  have hclear : toNat (out.set ((src.length + 7) / 8 - 1) 0) < 256 ^ src.length := by
    refine Nat.lt_of_lt_of_le (toNat_set_last_lt (k := (src.length + 7) / 8 - 1) (by omega)) ?_
    rw [show (256 : Nat) = 2 ^ 8 from rfl, ← Nat.pow_mul]
    exact Nat.pow_le_pow_right (by decide) (by omega)
  rw [hv, List.take_zero, List.nil_append, LittleEndian.toNat_append, LittleEndian.toNat_drop,
    toNat_toBytes, Nat.zero_add, Nat.div_eq_of_lt hclear, Nat.mul_zero, Nat.add_zero]

theorem copyBytes {stale : Nat → UInt64} {src : List UInt8} (hne : src ≠ [])
    (hmax : (src.length + 7) / 8 < limbMax) : Yields (do
      let out ← mkNatLimbs stale ((src.length + 7) / 8)
      let out ← Bignum.put out ((src.length + 7) / 8 - 1) [0]
      let out ← Bignum.putBytes out 0 src
      return natTrim out) (LittleEndian.toNat src) := by
  have hpos := List.length_pos_iff.mpr hne
  refine alloc (by omega) hmax fun out hout => fillBytes hne hout fun out' hl hv => ?_
  exact trim (by omega) hv

end Yields

end Enki.Bignum
