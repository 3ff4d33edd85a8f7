import Mathlib.Logic.Function.Basic
import Mathlib.Order.Nat

/-!
# Patricia trees

Binary tries over keys of `w` bits in which only the bits that tell keys apart
have a branch. A key is a value of any type with a `bit` function; the tree is
independent of how its nodes are stored.

- `WF lo t`: the branch bits increase from `lo` on, the keys below a branch agree
  on every earlier bit, and each lies on the side its bit says.
- `insertAt k v s t`: the tree with `k` at the split bit `s`, the first bit in which
  it differs from the leaf that `follow k` arrives at.
- `lookup_insertAt`: a finite map is updated at one key.
-/

namespace Enki.Lib

/-- A nonempty Patricia tree. -/
inductive Patricia (K V : Type) where
  | leaf (k : K) (v : V)
  | branch (b : Nat) (c : Bool → Patricia K V)

namespace Patricia

variable {K V : Type}

/-- The entries of a tree. -/
def Assoc (k : K) (v : V) : Patricia K V → Prop
  | leaf k' v' => k' = k ∧ v' = v
  | branch _ c => ∃ d, Assoc k v (c d)

/-- The keys of a tree. -/
def Mem (k : K) (t : Patricia K V) : Prop := ∃ v, Assoc k v t

@[simp] theorem mem_leaf {k k' : K} {v : V} : Mem k (leaf k' v) ↔ k' = k := by
  simp [Mem, Assoc]

theorem mem_branch {k : K} {b : Nat} {c : Bool → Patricia K V} :
    Mem k (branch b c) ↔ ∃ d, Mem k (c d) := by
  constructor
  · rintro ⟨v, d, h⟩
    exact ⟨d, v, h⟩
  · rintro ⟨d, v, h⟩
    exact ⟨v, d, h⟩

section Bits

variable (bit : K → Nat → Bool) (w : Nat)

/-- The leaf reached by the bits of a key. -/
def follow (k : K) : Patricia K V → K × V
  | leaf k' v => (k', v)
  | branch b c => follow k (c (bit k b))

/-- The value stored under a key. -/
def lookup [DecidableEq K] (k : K) (t : Patricia K V) : Option V :=
  if (follow bit k t).1 = k then some (follow bit k t).2 else none

/-- The bit of the topmost node, or the width of a key at a leaf. -/
def top : Patricia K V → Nat
  | leaf .. => w
  | branch b _ => b

/-- The keys of a tree agree on the bits before `b`. -/
def Agree (b : Nat) (t : Patricia K V) : Prop :=
  ∀ k k', Mem k t → Mem k' t → ∀ i < b, bit k i = bit k' i

/-- Well-formed trees whose branch bits are at least `lo`. -/
def WF : Nat → Patricia K V → Prop
  | _, leaf .. => True
  | lo, branch b c => lo ≤ b ∧ b < w ∧ Agree bit b (branch b c) ∧
      ∀ d, WF (b + 1) (c d) ∧ ∀ k, Mem k (c d) → bit k b = d

/-- Put a key beside a tree whose keys differ from it first at bit `s`; at `s = w`
there is only the leaf of the key itself, which is replaced. -/
def join (k : K) (v : V) (s : Nat) (t : Patricia K V) : Patricia K V :=
  if s = w then leaf k v else branch s fun d => if d = bit k s then leaf k v else t

/-- Descend to the first node at or after bit `s`, and join there. -/
def insertAt (k : K) (v : V) (s : Nat) : Patricia K V → Patricia K V
  | leaf k' v' => join bit w k v s (leaf k' v')
  | branch b c =>
    if s ≤ b then join bit w k v s (branch b c)
    else branch b fun d => if d = bit k b then insertAt k v s (c d) else c d

/-- The bit `s` is the first one in which two keys differ, or `w` if there is none. -/
structure Splits (k q : K) (s : Nat) : Prop where
  le : s ≤ w
  agree : ∀ i < s, bit k i = bit q i
  differ : s < w → bit k s ≠ bit q s
  same : s = w → k = q

variable {bit w}

@[simp] theorem lookup_leaf [DecidableEq K] (k k' : K) (v : V) :
    lookup bit k (leaf k' v) = if k' = k then some v else none := rfl

@[simp] theorem lookup_branch [DecidableEq K] (k : K) (b : Nat) (c : Bool → Patricia K V) :
    lookup bit k (branch b c) = lookup bit k (c (bit k b)) := rfl

theorem mem_follow (k : K) (t : Patricia K V) :
    Assoc (follow bit k t).1 (follow bit k t).2 t := by
  induction t with
  | leaf => exact ⟨rfl, rfl⟩
  | branch b c ih => exact ⟨bit k b, ih _⟩

theorem WF.mono {lo lo' : Nat} (hle : lo' ≤ lo) {t : Patricia K V} (h : WF bit w lo t) :
    WF bit w lo' t := by
  cases t with
  | leaf => trivial
  | branch b c => exact ⟨hle.trans h.1, h.2⟩

theorem WF.le_top {lo : Nat} (hlo : lo ≤ w) {t : Patricia K V} (h : WF bit w lo t) :
    lo ≤ top w t := by
  cases t with
  | leaf => exact hlo
  | branch b c => exact h.1

/-- A key is found where its bits lead. -/
theorem WF.follow_eq {lo : Nat} {t : Patricia K V} (h : WF bit w lo t) {k : K} {v : V}
    (hm : Assoc k v t) : follow bit k t = (k, v) := by
  induction t generalizing lo with
  | leaf k' v' =>
    obtain ⟨rfl, rfl⟩ := hm
    rfl
  | branch b c ih =>
    obtain ⟨d, hd⟩ := hm
    obtain ⟨-, -, -, hc⟩ := h
    have hbit := (hc d).2 k ⟨v, hd⟩
    subst hbit
    exact ih _ (hc _).1 hd

theorem WF.lookup_iff [DecidableEq K] {lo : Nat} {t : Patricia K V} (h : WF bit w lo t)
    {k : K} {v : V} : lookup bit k t = some v ↔ Assoc k v t := by
  constructor
  · intro hl
    unfold lookup at hl
    split at hl
    · rename_i hk
      have hm : Assoc (follow bit k t).1 (follow bit k t).2 t := mem_follow k t
      rw [hk] at hm
      cases hl
      exact hm
    · cases hl
  · intro hm
    simp [lookup, h.follow_eq hm]

/-! ## Insertion -/

/-- The key `k` belongs at bit `s` of the tree. -/
def Fits (bit : K → Nat → Bool) (w : Nat) (k : K) (s : Nat) (t : Patricia K V) : Prop :=
  Splits bit w k (follow bit k t).1 s

/-- The split bit of a tree is never the bit of a branch on the way. -/
theorem Fits.ne_bit {k : K} {s lo b : Nat} {c : Bool → Patricia K V}
    (h : Fits bit w k s (branch b c)) (hw : WF bit w lo (branch b c)) : s ≠ b := by
  rintro rfl
  obtain ⟨-, hlt, -, hc⟩ := hw
  apply h.differ hlt
  have hm : Mem (follow bit k (c (bit k s))).1 (c (bit k s)) := ⟨_, mem_follow k _⟩
  exact ((hc _).2 _ hm).symm

/-- The tree that a key is put beside has every key on the other side. -/
theorem Fits.side {k : K} {s lo : Nat} {t : Patricia K V} (h : Fits bit w k s t)
    (hw : WF bit w lo t) (htop : s ≤ top w t) (hs : s < w) {k' : K} (hk : Mem k' t) :
    bit k' s ≠ bit k s ∧ ∀ i < s, bit k' i = bit k i := by
  have hq : Mem (follow bit k t).1 t := ⟨_, mem_follow k t⟩
  have hagree : ∀ i ≤ s, bit k' i = bit (follow bit k t).1 i := by
    cases t with
    | leaf =>
      rw [mem_leaf] at hk
      intro i _
      rw [← hk]
      rfl
    | branch b c =>
      have hsb : s < b := lt_of_le_of_ne htop (h.ne_bit hw)
      intro i hi
      exact hw.2.2.1 _ _ hk hq i (hi.trans_lt hsb)
  constructor
  · rw [hagree s le_rfl]
    exact (h.differ hs).symm
  · intro i hi
    rw [hagree i hi.le, h.agree i hi]

theorem assoc_join {k k' : K} {v v' : V} {s : Nat} {t : Patricia K V} :
    Assoc k' v' (join bit w k v s t) ↔ (k = k' ∧ v = v') ∨ (s ≠ w ∧ Assoc k' v' t) := by
  unfold join
  split
  · rename_i hs
    simp [Assoc, hs]
  · rename_i hs
    simp only [Assoc, hs, ne_eq, not_false_eq_true, true_and]
    constructor
    · rintro ⟨d, hd⟩
      split at hd
      · exact .inl hd
      · exact .inr hd
    · rintro (h | h)
      · exact ⟨bit k s, by simpa [Assoc] using h⟩
      · exact ⟨!bit k s, by simpa using h⟩

/-- Where a key is put beside a tree, only at `s = w` is it a key of the tree. -/
theorem Fits.ne_iff {k : K} {s lo : Nat} {t : Patricia K V} (h : Fits bit w k s t)
    (hw : WF bit w lo t) (htop : s ≤ top w t) {k' : K} (hk : Mem k' t) : s ≠ w ↔ k ≠ k' := by
  constructor
  · rintro hs rfl
    exact (h.side hw htop (lt_of_le_of_ne h.le hs) hk).1 rfl
  · rintro hne rfl
    cases t with
    | leaf q u =>
      rw [mem_leaf] at hk
      exact hne (h.same rfl |>.trans hk)
    | branch b c => exact absurd hw.2.1 (Nat.not_lt.mpr htop)

/-- Descending keeps the split bit. -/
theorem Fits.child {k : K} {s b : Nat} {c : Bool → Patricia K V}
    (h : Fits bit w k s (branch b c)) : Fits bit w k s (c (bit k b)) := h

theorem assoc_join_site {k k' : K} {v v' : V} {s lo : Nat} {t : Patricia K V}
    (hw : WF bit w lo t) (h : Fits bit w k s t) (htop : s ≤ top w t) :
    Assoc k' v' (join bit w k v s t) ↔ (k = k' ∧ v = v') ∨ (k ≠ k' ∧ Assoc k' v' t) := by
  rw [assoc_join]
  constructor
  · rintro (hk | ⟨hs, hk⟩)
    · exact .inl hk
    · exact .inr ⟨(h.ne_iff hw htop ⟨_, hk⟩).mp hs, hk⟩
  · rintro (hk | ⟨hs, hk⟩)
    · exact .inl hk
    · exact .inr ⟨(h.ne_iff hw htop ⟨_, hk⟩).mpr hs, hk⟩

/-- Inserting adds one entry and removes only what was under its key. -/
theorem assoc_insertAt {k k' : K} {v v' : V} {s lo : Nat} {t : Patricia K V}
    (hw : WF bit w lo t) (h : Fits bit w k s t) :
    Assoc k' v' (insertAt bit w k v s t) ↔ (k = k' ∧ v = v') ∨ (k ≠ k' ∧ Assoc k' v' t) := by
  induction t generalizing lo with
  | leaf q u => exact assoc_join_site hw h h.le
  | branch b c ih =>
    unfold insertAt
    split
    · rename_i hsb
      exact assoc_join_site hw h hsb
    · obtain ⟨-, -, -, hc⟩ := hw
      constructor
      · rintro ⟨d, hd⟩
        dsimp only at hd
        split at hd
        · rename_i hdk
          subst hdk
          rcases (ih _ (hc _).1 h.child).mp hd with hk | ⟨hne, hk⟩
          · exact .inl hk
          · exact .inr ⟨hne, _, hk⟩
        · rename_i hdk
          refine .inr ⟨?_, d, hd⟩
          rintro rfl
          exact hdk ((hc d).2 _ ⟨_, hd⟩).symm
      · intro hk
        by_cases hside : ∃ d, d ≠ bit k b ∧ Assoc k' v' (c d)
        · obtain ⟨d, hd, hm⟩ := hside
          exact ⟨d, by simpa [hd] using hm⟩
        · refine ⟨bit k b, ?_⟩
          simp only [if_true]
          refine (ih _ (hc _).1 h.child).mpr ?_
          rcases hk with hk | ⟨hne, d, hk⟩
          · exact .inl hk
          · have hd : d = bit k b := by
              by_contra hd
              exact hside ⟨d, hd, hk⟩
            subst hd
            exact .inr ⟨hne, hk⟩

theorem mem_insertAt {k k' : K} {v : V} {s lo : Nat} {t : Patricia K V}
    (hw : WF bit w lo t) (h : Fits bit w k s t) (hk : Mem k' (insertAt bit w k v s t)) :
    k' = k ∨ Mem k' t := by
  obtain ⟨v', hk⟩ := hk
  rcases (assoc_insertAt hw h).mp hk with ⟨rfl, -⟩ | ⟨-, hk⟩
  · exact .inl rfl
  · exact .inr ⟨v', hk⟩

/-- Keys that agree with one of the tree's keys agree with each other. -/
theorem Agree.of_all {b : Nat} {t : Patricia K V} {q : K}
    (h : ∀ k, Mem k t → ∀ i < b, bit k i = bit q i) : Agree bit b t :=
  fun k k' hk hk' i hi => (h k hk i hi).trans (h k' hk' i hi).symm

theorem wf_join {k : K} {v : V} {s lo : Nat} {t : Patricia K V} (hw : WF bit w lo t)
    (h : Fits bit w k s t) (htop : s ≤ top w t) (hlo : lo ≤ s) :
    WF bit w lo (join bit w k v s t) := by
  unfold join
  split
  · trivial
  rename_i hs
  have hsw : s < w := lt_of_le_of_ne h.le hs
  have hbranch : s < top w t := by
    cases t with
    | leaf => exact hsw
    | branch b c => exact lt_of_le_of_ne htop (h.ne_bit hw)
  refine ⟨hlo, hsw, Agree.of_all (q := k) ?_, ?_⟩
  · intro k' hk i hi
    obtain ⟨d, hd⟩ := mem_branch.1 hk
    split at hd
    · rw [mem_leaf.1 hd]
    · exact (h.side hw htop hsw hd).2 i hi
  · intro d
    dsimp only
    split
    · rename_i hd
      refine ⟨trivial, fun k' hk => ?_⟩
      rw [hd, mem_leaf.1 hk]
    · rename_i hd
      constructor
      · cases t with
        | leaf => trivial
        | branch b c => exact ⟨hbranch, hw.2⟩
      · intro k' hk
        have hne := (h.side hw htop hsw hk).1
        revert hne hd
        cases bit k' s <;> cases bit k s <;> cases d <;> simp

theorem wf_insertAt {k : K} {v : V} {s lo : Nat} {t : Patricia K V} (hw : WF bit w lo t)
    (h : Fits bit w k s t) (hlo : lo ≤ s) : WF bit w lo (insertAt bit w k v s t) := by
  induction t generalizing lo with
  | leaf q u => exact wf_join hw h h.le hlo
  | branch b c ih =>
    have hmem := fun k' (hk : Mem k' (insertAt bit w k v s (branch b c))) => mem_insertAt hw h hk
    unfold insertAt at hmem ⊢
    split
    · rename_i hsb
      exact wf_join hw h hsb hlo
    · rename_i hsb
      rw [if_neg hsb] at hmem
      obtain ⟨hlob, hbw, hagree, hc⟩ := hw
      have hq : Mem (follow bit k (branch b c)).1 (branch b c) := ⟨_, mem_follow k _⟩
      refine ⟨hlob, hbw, Agree.of_all (q := (follow bit k (branch b c)).1) ?_, ?_⟩
      · intro k' hk i hi
        rcases hmem k' hk with rfl | hk
        · exact h.agree i (hi.trans (Nat.not_le.mp hsb))
        · exact hagree _ _ hk hq i hi
      · intro d
        dsimp only
        split
        · rename_i hd
          subst hd
          refine ⟨ih _ (hc _).1 h.child (Nat.not_le.mp hsb), fun k' hk => ?_⟩
          rcases mem_insertAt (hc _).1 h.child hk with rfl | hk
          · rfl
          · exact (hc _).2 k' hk
        · exact hc d

/-- Insertion updates the map at one key. -/
theorem lookup_insertAt [DecidableEq K] {k k' : K} {v : V} {s lo : Nat} {t : Patricia K V}
    (hw : WF bit w lo t) (h : Fits bit w k s t) (hlo : lo ≤ s) :
    lookup bit k' (insertAt bit w k v s t) = if k' = k then some v else lookup bit k' t := by
  ext v'
  rw [(wf_insertAt hw h hlo).lookup_iff, assoc_insertAt hw h]
  split
  · rename_i hk
    simp [hk]
  · rename_i hk
    rw [hw.lookup_iff]
    simp [Ne.symm hk]

end Bits

end Patricia

end Enki.Lib
