import Enki.Canon.Items
import Mathlib.Data.Finset.Card
import Mathlib.Data.Finset.Interval

/-!
# Fresh names

`cn_fresh_name` takes the first candidate that is not in use. The candidates of a long name
are few, since they are cut to the 255 bytes of a buffer, so they may all be in use. The names of
variables are a bijective numbering of words, so there is always another one.
-/

namespace Enki.Canon

/-! ## Candidates -/

/-- The names that `cn_fresh_name` tries. -/
def candidates (base : Name) : Finset Name :=
  insert base ((Finset.Icc 2 (2 ^ 31 - 1)).image (suffixed base))

section

variable {used : List Name} {base name : Name}

theorem suffixFrom_spec {count i : Nat} :
    (∀ n, suffixFrom used base count i = some n →
      n ∉ used ∧ ∃ j, i ≤ j ∧ j < i + count ∧ n = suffixed base j) ∧
    (suffixFrom used base count i = none → ∀ j, i ≤ j → j < i + count → suffixed base j ∈ used) := by
  induction count generalizing i with
  | zero => exact ⟨nofun, fun _ j hj hj' => by omega⟩
  | succ count ih =>
    obtain ⟨hsome, hnone⟩ := ih (i := i + 1)
    rw [suffixFrom]
    split
    · next hin =>
      refine ⟨fun n hn => ?_, fun h j hj hj' => ?_⟩
      · obtain ⟨hfree, j, hj, hj', heq⟩ := hsome n hn
        exact ⟨hfree, j, by omega, by omega, heq⟩
      · rcases Nat.eq_or_lt_of_le hj with rfl | hlt
        · exact hin
        · exact hnone h j hlt (by omega)
    · next hfree =>
      refine ⟨?_, nofun⟩
      rintro n ⟨⟩
      exact ⟨hfree, i, le_rfl, by omega, rfl⟩

theorem freshName_some (h : freshName used base = some name) :
    name ∉ used ∧ name ∈ candidates base := by
  unfold freshName at h
  split at h
  · obtain ⟨hfree, j, hj, hj', rfl⟩ := suffixFrom_spec.1 name h
    refine ⟨hfree, Finset.mem_insert_of_mem (Finset.mem_image_of_mem _ ?_)⟩
    unfold suffixCount at hj'
    rw [Finset.mem_Icc]
    omega
  · next hfree =>
    cases h
    exact ⟨hfree, Finset.mem_insert_self ..⟩

/-- It does not come to an end where all candidates are in use. -/
theorem freshName_none : freshName used base = none ↔ ∀ n ∈ candidates base, n ∈ used := by
  constructor
  · intro h n hn
    unfold freshName at h
    split at h
    · next hin =>
      rcases Finset.mem_insert.mp hn with rfl | hn
      · exact hin
      · obtain ⟨j, hj, rfl⟩ := Finset.mem_image.mp hn
        rw [Finset.mem_Icc] at hj
        exact suffixFrom_spec.2 h j hj.1 (by unfold suffixCount; omega)
    · cases h
  · intro h
    cases hf : freshName used base with
    | none => rfl
    | some n =>
      obtain ⟨hfree, hin⟩ := freshName_some hf
      exact absurd (h n hin) hfree

end

/-! ## Names for PINs -/

section

variable {used used' : List Name} {bs : List (PinRef × Name)} {names : List (PinRef × Name)}

/-- What `nameEach` has done. -/
structure Assigned (used : List Name) (bs names : List (PinRef × Name)) (used' : List Name) :
    Prop where
  pins : names.map Prod.fst = bs.map Prod.fst
  all : used' = used ++ names.map Prod.snd
  nodup : (names.map Prod.snd).Nodup
  fresh : ∀ n ∈ names.map Prod.snd, n ∉ used
  chosen : List.Forall₂ (fun b e => e.2 ∈ candidates b.2) bs names

theorem nameEach_assigned (h : nameEach used bs = some (names, used')) :
    Assigned used bs names used' := by
  induction bs generalizing used names used' with
  | nil =>
    cases h
    exact ⟨rfl, by simp, by simp, by simp, .nil⟩
  | cons b bs ih =>
    obtain ⟨p, base⟩ := b
    simp only [nameEach, Option.bind_eq_bind, Option.pure_def, Option.bind_eq_some_iff] at h
    obtain ⟨name, hname, ⟨names', used₁⟩, hrest, heq⟩ := h
    cases heq
    obtain ⟨hfree, hcand⟩ := freshName_some hname
    obtain ⟨hp, hu, hd, hf, hc⟩ := ih hrest
    refine ⟨congrArg (p :: ·) hp, ?_, ?_, ?_, .cons hcand hc⟩
    · rw [hu, List.map_cons, List.append_assoc, List.singleton_append]
    · rw [List.map_cons, List.nodup_cons]
      refine ⟨fun hin => hf _ hin ?_, hd⟩
      simp
    · intro n hn
      rw [List.map_cons, List.mem_cons] at hn
      rcases hn with rfl | hn
      · exact hfree
      · exact fun hin => hf n hn (List.mem_append_left _ hin)

end

/-! ## Names for variables -/

theorem length_genLocal (i : Nat) : 0 < (genLocal i).length := by
  rw [genLocal]
  split <;> simp

/-- No two numbers have one name. -/
theorem genLocal_injective : Function.Injective genLocal := by
  have hbyte : ∀ a b, a < 26 → b < 26 → UInt8.ofNat (97 + a) = UInt8.ofNat (97 + b) → a = b := by
    intro a b ha hb h
    have := congrArg UInt8.toNat h
    simp only [UInt8.toNat_ofNat'] at this
    omega
  intro i
  induction i using Nat.strong_induction_on with
  | h i ih =>
    intro j hij
    rw [genLocal, genLocal.eq_1 j] at hij
    split at hij
    · next hi =>
      split at hij
      · next hj => exact hbyte i j hi hj (List.singleton_inj.mp hij)
      · have := congrArg List.length hij
        have := length_genLocal (j / 26 - 1)
        simp only [List.length_singleton, List.length_append] at *
        omega
    · next hi =>
      split at hij
      · have := congrArg List.length hij
        have := length_genLocal (i / 26 - 1)
        simp only [List.length_singleton, List.length_append] at *
        omega
      · next hj =>
        obtain ⟨hpre, hlast⟩ := List.append_inj' hij rfl
        have hdiv := ih (i / 26 - 1) (by omega) hpre
        have hmod := hbyte _ _ (Nat.mod_lt _ (by decide)) (Nat.mod_lt _ (by decide))
          (List.singleton_inj.mp hlast)
        omega

/-- Numbers are tried until a name is free. -/
theorem nextFreshFrom_spec {used : List Name} {count nc : Nat} :
    (∀ name nc', nextFreshFrom used count nc = some (name, nc') →
      name ∉ used ∧ ∃ k, nc ≤ k ∧ nc' = k + 1 ∧ name = genLocal k) ∧
    (nextFreshFrom used count nc = none → ∀ k, nc ≤ k → k < nc + count → genLocal k ∈ used) := by
  induction count generalizing nc with
  | zero => exact ⟨nofun, fun _ k hk hk' => by omega⟩
  | succ count ih =>
    obtain ⟨hsome, hnone⟩ := ih
    rw [nextFreshFrom]
    split
    · next hin =>
      refine ⟨fun name nc' h => ?_, fun h k hk hk' => ?_⟩
      · obtain ⟨hfree, k, hk, hrest⟩ := hsome name nc' h
        exact ⟨hfree, k, by omega, hrest⟩
      · rcases Nat.eq_or_lt_of_le hk with rfl | hlt
        · exact hin
        · exact hnone h k hlt (by omega)
    · next hfree =>
      refine ⟨?_, nofun⟩
      rintro name nc' ⟨⟩
      exact ⟨hfree, nc, le_rfl, rfl, rfl⟩

/-- There is always another name, the number of which is at least `nc`. -/
theorem nextFresh_spec (used : List Name) (nc : Nat) :
    ∃ k, nextFresh used nc = some (genLocal k, k + 1) ∧ nc ≤ k ∧ genLocal k ∉ used := by
  unfold nextFresh
  cases h : nextFreshFrom used (used.length + 1) nc with
  | some r =>
    obtain ⟨name, nc'⟩ := r
    obtain ⟨hfree, k, hk, rfl, rfl⟩ := nextFreshFrom_spec.1 name nc' h
    exact ⟨k, rfl, hk, hfree⟩
  | none =>
    -- more different names than are in use would be in use
    exfalso
    have hall := nextFreshFrom_spec.2 h
    have hsub : (Finset.Ico nc (nc + (used.length + 1))).image genLocal ⊆ used.toFinset := by
      intro n hn
      obtain ⟨k, hk, rfl⟩ := Finset.mem_image.mp hn
      rw [Finset.mem_Ico] at hk
      exact List.mem_toFinset.mpr (hall k hk.1 hk.2)
    have hcard := Finset.card_le_card hsub
    rw [Finset.card_image_of_injective _ genLocal_injective, Nat.card_Ico] at hcard
    have := List.toFinset_card_le used
    omega

end Enki.Canon
