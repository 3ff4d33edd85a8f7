import Enki.Lib.Patricia
import Enki.Native.Index
import Mathlib.Data.Finset.Basic

/-!
# Working trees and insertion

- `Shape node ref t`: the nodes behind a reference form the tree `t`; the lookup loop
  then finds what `t` says.
- `Rep n ref t F`: a working tree and the overlay slots `F` it occupies. Each slot is
  used once, so replacing one in place changes one tree only, and a node that was
  written to the arena before still stands for the same tree there.
- `insert_rep`: `ninsert` succeeds on a well-formed tree and updates the map it denotes
  at one key. `descend_spec` relates the array of ancestors to a recursion over the
  tree, and `insertAt_rep` follows that.
-/

namespace Enki.Native

open Lib (Patricia)

/-! ## Keys -/

/-- A byte is its eight bits. -/
theorem byte_ext {a b : UInt8} (h : ∀ i < 8, a.toNat.testBit i = b.toNat.testBit i) : a = b := by
  apply UInt8.toNat_inj.mp
  apply Nat.eq_of_testBit_eq
  intro i
  by_cases hi : i < 8
  · exact h i hi
  · have hpow : 2 ^ 8 ≤ 2 ^ i := Nat.pow_le_pow_right (by decide) (Nat.le_of_not_lt hi)
    rw [Nat.testBit_lt_two_pow (a.toNat_lt.trans_le hpow),
      Nat.testBit_lt_two_pow (b.toNat_lt.trans_le hpow)]

/-- A key is its 256 bits. -/
theorem key_ext {a b : Key} (h : ∀ i < 256, nbit a i = nbit b i) : a = b := by
  apply Vector.ext
  intro j hj
  apply byte_ext
  intro i hi
  have hbit := h (8 * j + (7 - i)) (by omega)
  have hdiv : (8 * j + (7 - i)) / 8 = j := by omega
  have hmod : 7 - (7 - i) % 8 = i := by omega
  simpa [nbit, hdiv, hmod, hj] using hbit

/-- `nsplit` is the first difference. -/
theorem nsplit_splits (a b : Key) : Patricia.Splits nbit 256 a b (nsplit a b) := by
  unfold nsplit
  cases h : (List.range 256).find? fun i => nbit a i != nbit b i with
  | none =>
    have hall : ∀ i < 256, nbit a i = nbit b i := by
      intro i hi
      have := List.find?_eq_none.mp h i (List.mem_range.mpr hi)
      simpa using this
    exact ⟨le_rfl, hall, fun h => absurd h (lt_irrefl _), fun _ => key_ext hall⟩
  | some s =>
    have hs : s < 256 := List.mem_range.mp (List.mem_of_find?_eq_some h)
    obtain ⟨hne, hbefore⟩ := (List.find?_range_eq_some ..).mp h
    refine ⟨hs.le, fun i hi => ?_, fun _ => ?_, fun he => ?_⟩
    · simpa using hbefore.2 i hi
    · simpa using hne
    · exact absurd he hs.ne

/-! ## Trees in memory -/

/-- The nodes that a reference leads to form this tree. -/
def Shape (node : Nat → Option Index) : Nat → Patricia Key Nat → Prop
  | ref, .leaf k v => ref ≠ 0 ∧ ∃ p, node ref = some p ∧ p.bit = 256 ∧ p.key = k ∧ p.value = v
  | ref, .branch b c => ref ≠ 0 ∧ ∃ p, node ref = some p ∧ p.bit = b ∧ b < 256 ∧
      ∀ d, Shape node (p.child d) (c d)

theorem Shape.ref_ne {node : Nat → Option Index} {ref : Nat} {t : Patricia Key Nat}
    (h : Shape node ref t) : ref ≠ 0 := by
  cases t with
  | leaf => exact h.1
  | branch => exact h.1

/-- The tree does not depend on more than its own nodes. -/
theorem Shape.mono {node node' : Nat → Option Index}
    (hn : ∀ ref p, node ref = some p → node' ref = some p) {ref : Nat} {t : Patricia Key Nat}
    (h : Shape node ref t) : Shape node' ref t := by
  induction t generalizing ref with
  | leaf k v =>
    obtain ⟨h0, p, hp, h⟩ := h
    exact ⟨h0, p, hn _ _ hp, h⟩
  | branch b c ih =>
    obtain ⟨h0, p, hp, hb, hlt, hc⟩ := h
    exact ⟨h0, p, hn _ _ hp, hb, hlt, fun d => ih d (hc d)⟩

theorem any_le_eq_false {prior : Option Nat} {lo bit : Nat} (hprior : ∀ b ∈ prior, b < lo)
    (hlo : lo ≤ bit) : prior.any (fun b => decide (bit ≤ b)) = false := by
  cases prior with
  | none => rfl
  | some b =>
    have := hprior b rfl
    simp only [Option.any_some, decide_eq_false_iff_not]
    omega

/-- The lookup loop finds what the tree says. -/
theorem Shape.lookupFrom {node : Nat → Option Index} {key : Key} {ref lo depth : Nat}
    {prior : Option Nat} {t : Patricia Key Nat} (h : Shape node ref t)
    (hw : t.WF nbit 256 lo) (hlo : lo ≤ 256) (hprior : ∀ b ∈ prior, b < lo)
    (hdepth : 257 ≤ depth + lo) :
    Native.lookupFrom node key depth prior ref = some ((t.lookup nbit key).getD 0) := by
  obtain ⟨depth, rfl⟩ : ∃ d, depth = d + 1 := ⟨depth - 1, by omega⟩
  induction t generalizing ref lo depth prior with
  | leaf k v =>
    obtain ⟨h0, p, hp, hb, rfl, rfl⟩ := h
    have hprior' := any_le_eq_false hprior hlo
    unfold Native.lookupFrom
    simp only [h0, hp, hb, hprior', if_false, if_true, Patricia.lookup_leaf]
    by_cases hk : p.key = key <;> simp [hk]
  | branch b c ih =>
    obtain ⟨h0, p, hp, rfl, hlt, hc⟩ := h
    obtain ⟨hlob, -, -, hwc⟩ := hw
    have hprior' := any_le_eq_false hprior hlob
    have hchild := (hc (nbit key p.bit)).ref_ne
    obtain ⟨depth, rfl⟩ : ∃ d, depth = d + 1 := ⟨depth - 1, by omega⟩
    have hprior : ∀ b ∈ some p.bit, b < p.bit + 1 := by simp
    have hrec := ih (nbit key p.bit) (hc _) (hwc _).1 hlt hprior depth (by omega)
    unfold Native.lookupFrom
    simp [h0, hp, hprior', hlt.ne, hchild, Nat.not_lt.mpr hlt.le, hrec]

/-! ## Trees of the working index -/

/-- A tree that lies in the arena before `hi`. -/
def Disk.Tree (d : Disk) (hi : Nat) : Nat → Patricia Key Nat → Prop := Shape (d.node · hi)

/-- A node was written to the arena only together with all that is below it. -/
def Memo (n : Store) (w : WorkNode) (t : Patricia Key Nat) : Prop :=
  w.emitted = 0 ∨ n.disk.Tree n.next w.emitted t

/-- A working tree and the slots of the overlay it is made of. -/
inductive Rep (n : Store) : Nat → Patricia Key Nat → Finset Nat → Prop where
  | committed {ref t} : n.disk.Tree n.committed.hi ref t → Rep n ref t ∅
  | leaf {i w} : n.nodes[i]? = some w → w.node.bit = 256 →
      Memo n w (.leaf w.node.key w.node.value) →
      Rep n (2 * i + 1) (.leaf w.node.key w.node.value) {i}
  | branch {i w} {c : Bool → Patricia Key Nat} {F : Bool → Finset Nat} :
      n.nodes[i]? = some w → w.node.bit < 256 → (∀ d, Rep n (w.node.child d) (c d) (F d)) →
      Disjoint (F false) (F true) → (∀ d, i ∉ F d) → Memo n w (.branch w.node.bit c) →
      Rep n (2 * i + 1) (.branch w.node.bit c) (insert i (F false ∪ F true))

/-- The records that lie before `hi` are still there. -/
def Disk.Agrees (d d' : Disk) (hi : Nat) : Prop :=
  ∀ off r, d off = some r → off < hi → off + r.len ≤ hi → d' off = some r

/-- What the arena holds before `next` is still there, and nothing was committed. -/
structure Keeps (n n' : Store) : Prop where
  committed : n'.committed = n.committed
  next : n.next ≤ n'.next
  disk : n.disk.Agrees n'.disk n.next

theorem Disk.Agrees.anti {d d' : Disk} {hi hi' : Nat} (h : d.Agrees d' hi) (hle : hi' ≤ hi) :
    d.Agrees d' hi' :=
  fun off r hr hlt hlen => h off r hr (hlt.trans_le hle) (hlen.trans hle)

theorem Keeps.trans {n n₁ n₂ : Store} (h : Keeps n n₁) (h' : Keeps n₁ n₂) : Keeps n n₂ :=
  ⟨h'.committed.trans h.committed, h.next.trans h'.next, fun off r hr hlt hlen =>
    h'.disk off r (h.disk off r hr hlt hlen) (hlt.trans_le h.next) (hlen.trans h.next)⟩

theorem nbound_iff {off bytes hi : Nat} :
    nbound off bytes hi = true ↔ start ≤ off ∧ off % 8 = 0 ∧ off + bytes ≤ hi := by
  simp only [nbound, Bool.and_eq_true, decide_eq_true_eq, beq_iff_eq]
  omega

theorem nbound_mono {off bytes hi hi' : Nat} (hle : hi ≤ hi') (h : nbound off bytes hi = true) :
    nbound off bytes hi' = true := by
  rw [nbound_iff] at h ⊢
  omega

/-- The index node at an offset, and its bounds. -/
theorem Disk.node_eq_some {d : Disk} {off hi : Nat} {p : Index} :
    d.node off hi = some p ↔ d off = some (.index p) ∧ nbound off indexBytes hi ∧ p.bit ≤ 256 ∧
      (p.bit < 256 → nbound (p.child false) indexBytes hi ∧
        nbound (p.child true) indexBytes hi) := by
  unfold Disk.node
  split
  · rename_i q hq
    rw [hq]
    split
    · rename_i hc
      constructor
      · rintro h
        cases h
        exact ⟨rfl, hc⟩
      · rintro ⟨h, -⟩
        cases h
        rfl
    · rename_i hc
      constructor
      · intro h
        cases h
      · rintro ⟨h, h'⟩
        cases h
        exact absurd h' hc
  · rename_i hq
    constructor
    · intro h
      cases h
    · rintro ⟨h, -⟩
      exact absurd h (hq p)

theorem Disk.node_mono {d d' : Disk} {hi hi' : Nat} (hle : hi ≤ hi')
    (hd : d.Agrees d' hi) {off : Nat} {p : Index}
    (h : d.node off hi = some p) : d'.node off hi' = some p := by
  rw [Disk.node_eq_some] at h ⊢
  obtain ⟨hp, hb, hbit, hc⟩ := h
  have hin := (nbound_iff.1 hb).2.2
  have hpos : 0 < indexBytes := by decide
  refine ⟨hd _ _ hp (by omega) hin, nbound_mono hle hb, hbit, fun hlt => ?_⟩
  exact ⟨nbound_mono hle (hc hlt).1, nbound_mono hle (hc hlt).2⟩

/-- Writing further on keeps a tree of the arena. -/
theorem Disk.Tree.mono {d d' : Disk} {hi hi' ref : Nat} {t : Patricia Key Nat} (hle : hi ≤ hi')
    (hd : d.Agrees d' hi) (h : d.Tree hi ref t) :
    d'.Tree hi' ref t :=
  Shape.mono (fun _ _ hp => Disk.node_mono hle hd hp) h

theorem Disk.Tree.bound {d : Disk} {hi ref : Nat} {t : Patricia Key Nat} (h : d.Tree hi ref t) :
    nbound ref indexBytes hi = true := by
  cases t with
  | leaf =>
    obtain ⟨-, p, hp, -⟩ := h
    exact (Disk.node_eq_some.1 hp).2.1
  | branch =>
    obtain ⟨-, p, hp, -⟩ := h
    exact (Disk.node_eq_some.1 hp).2.1

theorem Disk.Tree.even {d : Disk} {hi ref : Nat} {t : Patricia Key Nat} (h : d.Tree hi ref t) :
    ref % 2 = 0 := by
  have := nbound_iff.1 h.bound
  omega

theorem Disk.node_ne {d : Disk} {off hi : Nat} {p : Index} (h : d.node off hi = some p) :
    off ≠ 0 := by
  have := nbound_iff.1 (Disk.node_eq_some.1 h).2.1
  unfold start granule at this
  omega

/-- Frame: a working tree only depends on its own slots and on what the arena holds. -/
theorem Rep.frame {n n' : Store} (hk : Keeps n n') (hle : n.committed.hi ≤ n.next) {ref : Nat}
    {t : Patricia Key Nat} {F : Finset Nat} (h : Rep n ref t F)
    (hF : ∀ i ∈ F, n'.nodes[i]? = n.nodes[i]?) : Rep n' ref t F := by
  have hmemo : ∀ w t, Memo n w t → Memo n' w t := by
    rintro w t (h | h)
    · exact .inl h
    · exact .inr (h.mono hk.next hk.disk)
  induction h with
  | committed h =>
    refine .committed ?_
    rw [hk.committed]
    exact h.mono le_rfl (hk.disk.anti hle)
  | leaf hn hb hm =>
    exact .leaf ((hF _ (Finset.mem_singleton_self _)).trans hn) hb (hmemo _ _ hm)
  | branch hn hb _ hd hi hm ih =>
    refine .branch ((hF _ (Finset.mem_insert_self ..)).trans hn) hb (fun d => ih d ?_) hd hi
      (hmemo _ _ hm)
    intro j hj
    apply hF
    cases d <;> simp [hj]

/-- A working tree is made of its nodes. -/
theorem Rep.shape {n : Store} {ref : Nat} {t : Patricia Key Nat} {F : Finset Nat}
    (h : Rep n ref t F) : Shape n.workingNode ref t := by
  induction h with
  | committed h =>
    refine Shape.mono (fun ref p hp => ?_) h
    have heven := nbound_iff.1 (Disk.node_eq_some.1 hp).2.1
    simp only [Store.workingNode]
    rw [if_pos (by omega)]
    exact hp
  | @leaf i w hn hb hm =>
    refine ⟨by omega, w.node, ?_, hb, rfl, rfl⟩
    have hdiv : (2 * i + 1) / 2 = i := by omega
    simp [Store.workingNode, hdiv, hn]
  | @branch i w c F hn hb _ hd hi hm ih =>
    refine ⟨by omega, w.node, ?_, rfl, hb, ih⟩
    have hdiv : (2 * i + 1) / 2 = i := by omega
    simp [Store.workingNode, hdiv, hn]

/-- The slots of a tree exist. -/
theorem Rep.slot_lt {n : Store} {ref : Nat} {t : Patricia Key Nat} {F : Finset Nat}
    (h : Rep n ref t F) : ∀ i ∈ F, i < n.nodes.length := by
  induction h with
  | committed => simp
  | leaf hn =>
    intro i hi
    rw [Finset.mem_singleton.mp hi]
    exact (List.getElem?_eq_some_iff.mp hn).1
  | branch hn _ _ _ _ _ ih =>
    intro i hi
    simp only [Finset.mem_insert, Finset.mem_union] at hi
    rcases hi with rfl | hi | hi
    · exact (List.getElem?_eq_some_iff.mp hn).1
    · exact ih _ i hi
    · exact ih _ i hi

/-! ## Insertion in the overlay -/

/-- The overlay got the node `src` in slot `i`, and nothing else changed. -/
structure Put (n n' : Store) (i : Nat) (src : Index) : Prop where
  same : n' = { n with nodes := n'.nodes }
  length : n.nodes.length ≤ n'.nodes.length
  here : n'.nodes[i]? = some { node := src }
  other : ∀ j < n.nodes.length, j ≠ i → n'.nodes[j]? = n.nodes[j]?

/-- Only the slots `F` of the overlay changed, and `F'` has no others but new ones. -/
structure Extends (n n' : Store) (F F' : Finset Nat) : Prop where
  same : n' = { n with nodes := n'.nodes }
  length : n.nodes.length ≤ n'.nodes.length
  keep : ∀ j < n.nodes.length, j ∉ F → n'.nodes[j]? = n.nodes[j]?
  fresh : ∀ j ∈ F', j ∈ F ∨ n.nodes.length ≤ j

theorem keeps_of_same {n n' : Store} (h : n' = { n with nodes := n'.nodes }) : Keeps n n' := by
  rw [h]
  exact ⟨rfl, le_rfl, fun _ _ hr _ _ => hr⟩

theorem workingNew_put (n : Store) (src : Index) :
    Put n (n.workingNew src).2 n.nodes.length src := by
  refine ⟨rfl, by simp [Store.workingNew], by simp [Store.workingNew], fun j hj _ => ?_⟩
  simp [Store.workingNew, List.getElem?_append_left hj]

/-- The slot that takes the place of a reference. -/
def Store.slotFor (n : Store) (ref : Nat) : Nat :=
  if ref % 2 = 1 then ref / 2 else n.nodes.length

theorem replace_ref (n : Store) (ref : Nat) (src : Index) :
    (n.replace ref src).1 = 2 * n.slotFor ref + 1 := by
  unfold Store.replace Store.slotFor
  split
  · simp only
    omega
  · rfl

theorem replace_put {n : Store} {ref : Nat} (src : Index)
    (hodd : ref % 2 = 1 → ref / 2 < n.nodes.length) :
    Put n (n.replace ref src).2 (n.slotFor ref) src := by
  unfold Store.replace Store.slotFor
  split
  · rename_i h
    refine ⟨rfl, by simp, by simp [hodd h], fun j hj hne => ?_⟩
    simp [Ne.symm hne]
  · exact workingNew_put n src

section Put

variable {n n' : Store} {i : Nat} {src : Index}

theorem Put.rep_leaf {key : Key} {value : Nat} (h : Put n n' i (.leaf key value)) :
    Rep n' (2 * i + 1) (.leaf key value) {i} :=
  .leaf h.here rfl (.inl rfl)

/-- The other trees stay as they are. -/
theorem Put.frame (h : Put n n' i src) (hle : n.committed.hi ≤ n.next) {ref : Nat}
    {t : Patricia Key Nat} {F : Finset Nat} (hr : Rep n ref t F) (hi : i ∉ F) : Rep n' ref t F := by
  refine hr.frame (keeps_of_same h.same) hle fun j hj => h.other j (hr.slot_lt j hj) ?_
  rintro rfl
  exact hi hj

theorem Put.rep_branch (h : Put n n' i src) (hle : n.committed.hi ≤ n.next)
    (hlt : src.bit < 256) {c : Bool → Patricia Key Nat} {F : Bool → Finset Nat}
    (hc : ∀ d, Rep n (src.child d) (c d) (F d)) (hd : Disjoint (F false) (F true))
    (hi : ∀ d, i ∉ F d) :
    Rep n' (2 * i + 1) (.branch src.bit c) (insert i (F false ∪ F true)) :=
  .branch h.here hlt (fun d => h.frame hle (hc d) (hi d)) hd hi (.inl rfl)

theorem Put.extends (h : Put n n' i src) {F F' : Finset Nat}
    (hi : i ∈ F ∨ n.nodes.length ≤ i) (hF : ∀ j ∈ F', j = i ∨ j ∈ F ∨ n.nodes.length ≤ j) :
    Extends n n' F F' := by
  refine ⟨h.same, h.length, fun j hj hjF => h.other j hj ?_, fun j hj => ?_⟩
  · rintro rfl
    rcases hi with hi | hi
    · exact hjF hi
    · omega
  · rcases hF j hj with rfl | hj
    · exact hi
    · exact hj

end Put

/-- One change after another. -/
theorem Extends.trans {n n₁ n₂ : Store} {F F₁ F₂ : Finset Nat} (h : Extends n n₁ F F₁)
    (h' : Extends n₁ n₂ (F ∪ F₁) F₂) : Extends n n₂ F F₂ := by
  refine ⟨?_, h.length.trans h'.length, fun j hj hjF => ?_, fun j hj => ?_⟩
  · rw [h'.same, h.same]
  · rw [h'.keep j (hj.trans_le h.length) ?_, h.keep j hj hjF]
    intro hm
    rcases Finset.mem_union.mp hm with hm | hm
    · exact hjF hm
    · rcases h.fresh j hm with hm | hm
      · exact hjF hm
      · omega
  · rcases h'.fresh j hj with hj | hj
    · rcases Finset.mem_union.mp hj with hj | hj
      · exact .inl hj
      · exact h.fresh j hj
    · exact .inr (h.length.trans hj)

/-- The slot that takes the place of a tree is one of its own, or new. -/
theorem Rep.slotFor {n : Store} {ref : Nat} {t : Patricia Key Nat} {F : Finset Nat}
    (h : Rep n ref t F) :
    (ref % 2 = 1 → ref / 2 < n.nodes.length) ∧
    (n.slotFor ref ∈ F ∨ n.nodes.length ≤ n.slotFor ref) := by
  have hslot : ∀ i ∈ F, ref = 2 * i + 1 → (ref % 2 = 1 → ref / 2 < n.nodes.length) ∧
      (n.slotFor ref ∈ F ∨ n.nodes.length ≤ n.slotFor ref) := by
    rintro i hi rfl
    have hdiv : (2 * i + 1) / 2 = i := by omega
    have hmod : (2 * i + 1) % 2 = 1 := by omega
    refine ⟨fun _ => by rw [hdiv]; exact h.slot_lt i hi, .inl ?_⟩
    simpa [Store.slotFor, hdiv, hmod] using hi
  cases h with
  | committed h =>
    have heven := h.even
    refine ⟨by omega, .inr ?_⟩
    simp [Store.slotFor, heven]
  | leaf => exact hslot _ (Finset.mem_singleton_self _) rfl
  | branch => exact hslot _ (Finset.mem_insert_self ..) rfl

/-- The node of a branch, and the trees below it. -/
theorem Rep.branch_inv {n : Store} {ref b : Nat} {c : Bool → Patricia Key Nat} {F : Finset Nat}
    (h : Rep n ref (.branch b c) F) : ∃ (p : Index) (G : Bool → Finset Nat),
      n.workingNode ref = some p ∧ p.bit = b ∧ b < 256 ∧ (∀ d, Rep n (p.child d) (c d) (G d)) ∧ Disjoint (G false) (G true) ∧
      (∀ d, G d ⊆ F) ∧ ∀ d, n.slotFor ref ∉ G d := by
  cases h with
  | committed h =>
    have heven := h.even
    obtain ⟨h0, p, hp, hb, hlt, hc⟩ := h
    refine ⟨p, fun _ => ∅, ?_, hb, hlt, fun d => .committed (hc d), by simp, by simp, by simp⟩
    simpa [Store.workingNode, heven] using hp
  | @branch i w _ G hn hlt hc hd hi hm =>
    have hdiv : (2 * i + 1) / 2 = i := by omega
    have hmod : (2 * i + 1) % 2 = 1 := by omega
    refine ⟨w.node, G, ?_, rfl, hlt, hc, hd, fun d => ?_, fun d => ?_⟩
    · simp [Store.workingNode, hdiv, hn]
    · intro j hj
      cases d <;> simp [hj]
    · simpa [Store.slotFor, hdiv, hmod] using hi d

/-- The same insertion, by recursion over the tree: it meets the ancestors on the
way back up, where `ninsert` has an array of them. -/
def Store.insertAt (n : Store) (key : Key) (value split : Nat) :
    Patricia Key Nat → Nat → Nat × Store
  | .leaf .., cur => n.graft key value split cur
  | .branch b c, cur =>
    if split ≤ b then n.graft key value split cur
    else match n.workingNode cur with
    | none => (cur, n)
    | some p =>
      let r := n.insertAt key value split (c (nbit key b)) (p.child (nbit key b))
      r.2.replace cur { p with child := Function.update p.child (nbit key b) r.1 }

section Insert

variable {n : Store} {key : Key} {value split : Nat}

theorem graft_rep (hle : n.committed.hi ≤ n.next) {cur : Nat} {t : Patricia Key Nat}
    {F : Finset Nat} (h : Rep n cur t F) (hsplit : split ≤ 256) :
    ∃ F', Rep (n.graft key value split cur).2 (n.graft key value split cur).1
        (t.join nbit 256 key value split) F' ∧
      Extends n (n.graft key value split cur).2 F F' := by
  by_cases hs : split = 256
  · obtain ⟨hodd, hslot⟩ := h.slotFor
    have hput := replace_put (.leaf key value) hodd
    simp only [Store.graft, hs, if_true, Patricia.join, replace_ref]
    refine ⟨_, hput.rep_leaf, hput.extends hslot ?_⟩
    intro j hj
    exact .inl (Finset.mem_singleton.mp hj)
  · -- a new leaf, and above it and the old tree a new branch
    simp only [Store.graft, hs, if_false, Patricia.join]
    have hleaf := workingNew_put n (.leaf key value)
    generalize hn₁ : (n.workingNew (.leaf key value)).2 = n₁ at hleaf ⊢
    have href : (n.workingNew (.leaf key value)).1 = 2 * n.nodes.length + 1 := rfl
    rw [href]
    have hnew : n.nodes.length ∉ F := fun hm => lt_irrefl _ (h.slot_lt _ hm)
    have hlen : n.nodes.length < n₁.nodes.length := (List.getElem?_eq_some_iff.mp hleaf.here).1
    have hle₁ : n₁.committed.hi ≤ n₁.next := by
      rw [hleaf.same]
      exact hle
    have hbranch := workingNew_put n₁
      ⟨split, zeroKey, fun d => if d = nbit key split then 2 * n.nodes.length + 1 else cur, 0⟩
    have hrep := hbranch.rep_branch hle₁ (lt_of_le_of_ne hsplit hs)
      (c := fun d => if d = nbit key split then .leaf key value else t)
      (F := fun d => if d = nbit key split then {n.nodes.length} else F) ?_ ?_ ?_
    · refine ⟨_, hrep, ?_⟩
      have hfirst : Extends n n₁ F (insert n.nodes.length F) := by
        refine hleaf.extends (.inr le_rfl) fun j hj => ?_
        rcases Finset.mem_insert.mp hj with rfl | hj
        · exact .inl rfl
        · exact .inr (.inl hj)
      refine hfirst.trans (hbranch.extends (.inr le_rfl) fun j hj => ?_)
      simp only [Finset.mem_insert, Finset.mem_union] at hj ⊢
      rcases hj with rfl | hj | hj
      · exact .inl rfl
      all_goals
        split at hj
        · exact .inr (.inl (.inr (.inl (Finset.mem_singleton.mp hj))))
        · exact .inr (.inl (.inl hj))
    · intro d
      dsimp only
      split
      · exact hleaf.rep_leaf
      · exact hleaf.frame hle h hnew
    · cases nbit key split <;> simp [hnew]
    · intro d hm
      split at hm
      · rw [Finset.mem_singleton.mp hm] at hlen
        exact lt_irrefl _ hlen
      · exact absurd (h.slot_lt _ hm) (Nat.not_lt.mpr hlen.le)

theorem insertAt_rep (key : Key) (value : Nat) (hle : n.committed.hi ≤ n.next) {cur : Nat} {t : Patricia Key Nat}
    {F : Finset Nat} (h : Rep n cur t F) (hsplit : split ≤ 256) :
    ∃ F', Rep (n.insertAt key value split t cur).2 (n.insertAt key value split t cur).1
        (t.insertAt nbit 256 key value split) F' ∧
      Extends n (n.insertAt key value split t cur).2 F F' := by
  induction t generalizing cur F with
  | leaf k v => exact graft_rep hle h hsplit
  | branch b c ih =>
    unfold Store.insertAt Patricia.insertAt
    split
    · exact graft_rep hle h hsplit
    · obtain ⟨hodd, hslot⟩ := h.slotFor
      obtain ⟨p, G, hp, rfl, hlt, hc, hd, hsub, hnot⟩ := h.branch_inv
      obtain ⟨G', hrep, hext⟩ := ih (nbit key p.bit) (hc _)
      simp only [hp]
      generalize n.insertAt key value split (c (nbit key p.bit)) (p.child (nbit key p.bit)) = r
        at hrep hext ⊢
      have hle₁ : r.2.committed.hi ≤ r.2.next := by
        rw [hext.same]
        exact hle
      have hodd₁ : cur % 2 = 1 → cur / 2 < r.2.nodes.length :=
        fun ho => (hodd ho).trans_le hext.length
      have hslot₁ : r.2.slotFor cur ∈ F ∨ n.nodes.length ≤ r.2.slotFor cur := by
        unfold Store.slotFor at hslot ⊢
        split
        · rename_i ho
          simpa [ho] using hslot
        · exact .inr hext.length
      have hput := replace_put
        { p with child := Function.update p.child (nbit key p.bit) r.1 } hodd₁
      have hother : ∀ d, d ≠ nbit key p.bit → ∀ j ∈ G d, j ∉ G (nbit key p.bit) := by
        intro d hne j hj hj'
        rw [Finset.disjoint_left] at hd
        revert hne hj hj'
        cases d <;> cases nbit key p.bit <;> simp <;> tauto
      have hnew : ∀ d, d ≠ nbit key p.bit → ∀ j ∈ G', j ∉ G d := by
        intro d hne j hj hj'
        rcases hext.fresh j hj with hj | hj
        · exact hother d hne j hj' hj
        · exact absurd ((hc d).slot_lt j hj') (Nat.not_lt.mpr hj)
      have hrep₁ := hput.rep_branch hle₁ hlt
        (c := fun d => if d = nbit key p.bit then
          (c d).insertAt nbit 256 key value split else c d)
        (F := fun d => if d = nbit key p.bit then G' else G d) ?_ ?_ ?_
      · rw [replace_ref]
        refine ⟨_, hrep₁, ?_, ?_, ?_, ?_⟩
        · rw [hput.same, hext.same]
        · exact hext.length.trans hput.length
        · intro j hj hjF
          rw [hput.other j (hj.trans_le hext.length) ?_, hext.keep j hj fun hm => hjF (hsub _ hm)]
          rintro rfl
          rcases hslot₁ with hm | hm
          · exact hjF hm
          · exact absurd hj (Nat.not_lt.mpr hm)
        · have hside : ∀ d j, j ∈ (if d = nbit key p.bit then G' else G d) →
              j ∈ F ∨ n.nodes.length ≤ j := by
            intro d j hj
            split at hj
            · exact (hext.fresh j hj).imp_left (hsub _ ·)
            · exact .inl (hsub d hj)
          intro j hj
          simp only [Finset.mem_insert, Finset.mem_union] at hj
          rcases hj with rfl | hj | hj
          · exact hslot₁
          · exact hside _ j hj
          · exact hside _ j hj
      · intro d
        dsimp only
        split
        · rename_i hd
          subst hd
          simpa using hrep
        · rename_i hne
          rw [Function.update_of_ne hne]
          exact (hc d).frame (keeps_of_same hext.same) hle fun j hj =>
            hext.keep j ((hc d).slot_lt j hj) (hother d hne j hj)
      · rw [Finset.disjoint_left]
        intro j hj hj'
        cases hk : nbit key p.bit <;> simp only [hk, if_true, if_false, reduceCtorEq] at hj hj' hnew
        · exact hnew true (by simp) j hj hj'
        · exact hnew false (by simp) j hj' hj
      · intro d hm
        have hmem : r.2.slotFor cur ∈ G' ∨ ∃ d, r.2.slotFor cur ∈ G d := by
          split at hm
          · exact .inl hm
          · exact .inr ⟨d, hm⟩
        by_cases ho : cur % 2 = 1
        · have hsame : r.2.slotFor cur = n.slotFor cur := by simp [Store.slotFor, ho]
          have hlt : n.slotFor cur < n.nodes.length := by
            simpa [Store.slotFor, ho] using hodd ho
          rw [hsame] at hmem
          rcases hmem with hm | ⟨d, hm⟩
          · rcases hext.fresh _ hm with hm | hm
            · exact hnot _ hm
            · exact absurd hlt (Nat.not_lt.mpr hm)
          · exact hnot d hm
        · have hlast : r.2.slotFor cur = r.2.nodes.length := by simp [Store.slotFor, ho]
          rw [hlast] at hmem
          rcases hmem with hm | ⟨d, hm⟩
          · exact lt_irrefl _ (hrep.slot_lt _ hm)
          · exact absurd ((hc d).slot_lt _ hm) (Nat.not_lt.mpr hext.length)

theorem insertAt_eq_graft {cur : Nat} {t : Patricia Key Nat} (h : split ≤ t.top 256) :
    n.insertAt key value split t cur = n.graft key value split cur := by
  cases t with
  | leaf => rfl
  | branch b c =>
    have hb : split ≤ b := h
    rw [Store.insertAt, if_pos hb]

/-- The descent, and what is left of its path once the ancestors at or after the
split bit are dropped: everything above the tree, if its own bit is one of those,
and the way to where the recursion joins otherwise. -/
theorem descend_spec (key : Key) (value room : Nat) (path : List Ancestor) {cur lo : Nat}
    {t : Patricia Key Nat} (h : Shape n.workingNode cur t) (hw : t.WF nbit 256 lo) (hlo : lo ≤ 256)
    (hpath : ∀ a ∈ path.head?, a.node.bit < lo) (hroom : 256 ≤ room + lo) :
    ∃ path' cur' p, n.descend key room path cur = some (path', cur', p) ∧
      (p.key, p.value) = t.follow nbit key ∧
      ∀ split ≤ 256, (split ≤ t.top 256 →
          popAncestors split path' cur' = popAncestors split path cur) ∧
        (t.top 256 < split → ∀ q, popAncestors split path' cur' = q →
          rebuild q.1 (n.graft key value split q.2) =
            rebuild path (n.insertAt key value split t cur)) := by
  induction t generalizing cur lo room path with
  | leaf k v =>
    obtain ⟨h0, p, hp, hb, rfl, rfl⟩ := h
    refine ⟨path, cur, p, ?_, rfl, fun split hs => ⟨fun _ => rfl, fun ht => ?_⟩⟩
    · unfold Store.descend
      have : path.head?.any (fun a => decide (256 ≤ a.node.bit)) = false := by
        cases hh : path.head? with
        | none => rfl
        | some a =>
          have := hpath a hh
          simp only [Option.any_some, decide_eq_false_iff_not]
          omega
      simp [hp, hb, this]
    · exact absurd ht (Nat.not_lt.mpr hs)
  | branch b c ih =>
    obtain ⟨h0, p, hp, rfl, hlt, hc⟩ := h
    obtain ⟨hlob, -, -, hwc⟩ := hw
    obtain ⟨room, rfl⟩ : ∃ r, room = r + 1 := ⟨room - 1, by omega⟩
    obtain ⟨path', cur', q, hdesc, hq, hsplit⟩ := ih (nbit key p.bit) room
      (⟨cur, p, nbit key p.bit⟩ :: path) (hc _) (hwc _).1 hlt
      (by simp) (by omega)
    refine ⟨path', cur', q, ?_, hq, fun split hs => ⟨fun ht => ?_, fun ht => ?_⟩⟩
    · unfold Store.descend
      have : path.head?.any (fun a => decide (p.bit ≤ a.node.bit)) = false := by
        cases hh : path.head? with
        | none => rfl
        | some a =>
          have := hpath a hh
          simp only [Option.any_some, decide_eq_false_iff_not]
          omega
      simp [hp, this, hlt.ne, Nat.not_lt.mpr hlt.le, hdesc]
    · -- the child comes later still, so this ancestor is dropped as well
      have htop : p.bit + 1 ≤ (c (nbit key p.bit)).top 256 := (hwc _).1.le_top hlt
      have ht' : split ≤ p.bit := ht
      rw [(hsplit split hs).1 (by omega)]
      simp [popAncestors, ht']
    · have ht' : p.bit < split := ht
      have hins : n.insertAt key value split (.branch p.bit c) cur =
          let r := n.insertAt key value split (c (nbit key p.bit)) (p.child (nbit key p.bit))
          r.2.replace cur { p with child := Function.update p.child (nbit key p.bit) r.1 } := by
        rw [Store.insertAt, if_neg (Nat.not_le.mpr ht')]
        simp [hp]
      rintro ⟨path₁, cur₁⟩ hpop
      rw [hins]
      by_cases htop : (c (nbit key p.bit)).top 256 < split
      · rw [(hsplit split hs).2 htop _ hpop]
        rfl
      · rw [(hsplit split hs).1 (Nat.le_of_not_lt htop)] at hpop
        simp only [popAncestors, Nat.not_le.mpr ht', if_false] at hpop
        cases hpop
        rw [insertAt_eq_graft (Nat.le_of_not_lt htop)]
        rfl

/-- `ninsert` on a well-formed tree succeeds and updates the map at one key. -/
theorem insert_rep (hle : n.committed.hi ≤ n.next) {root : Nat} {t : Patricia Key Nat}
    {F : Finset Nat} (h : Rep n root t F) (hw : t.WF nbit 256 0) :
    ∃ root' n' t' F', n.insert root key value = (true, root', n') ∧ Rep n' root' t' F' ∧
      t'.WF nbit 256 0 ∧ Extends n n' F F' ∧
      ∀ k, t'.lookup nbit k = if k = key then some value else t.lookup nbit k := by
  obtain ⟨path, cur, p, hdesc, hfollow, hsplit⟩ :=
    descend_spec key value 256 [] h.shape hw
      (Nat.zero_le _) (by simp) le_rfl
  have hfits : Patricia.Fits nbit 256 key (nsplit key p.key) t := by
    have := nsplit_splits key p.key
    rw [show p.key = (t.follow nbit key).1 from congrArg Prod.fst hfollow] at this ⊢
    exact this
  unfold Store.insert
  simp only [h.shape.ref_ne, if_false, hdesc]
  split
  · -- the key is there, with this value
    rename_i hsame
    refine ⟨_, _, t, F, rfl, h, hw, ⟨rfl, le_rfl, fun _ _ _ => rfl, fun j hj => .inl hj⟩, ?_⟩
    intro k
    split
    · rename_i hk
      have hkey : key = (t.follow nbit key).1 := hfits.same hsame.1
      have hval : (t.follow nbit key).2 = value := by
        rw [← hfollow]
        exact hsame.2
      rw [hk, Patricia.lookup, if_pos hkey.symm, hval]
    · rfl
  · have hins : ∀ q, popAncestors (nsplit key p.key) path cur = q →
        rebuild q.1 (n.graft key value (nsplit key p.key) q.2) =
          n.insertAt key value (nsplit key p.key) t root := by
      intro q hq
      by_cases htop : t.top 256 < nsplit key p.key
      · exact (hsplit _ hfits.le).2 htop q hq
      · rw [(hsplit _ hfits.le).1 (Nat.le_of_not_lt htop)] at hq
        rw [← hq, insertAt_eq_graft (Nat.le_of_not_lt htop)]
        rfl
    obtain ⟨F', hrep, hext⟩ := insertAt_rep key value hle h hfits.le
    refine ⟨_, _, _, F', ?_, hrep, Patricia.wf_insertAt hw hfits (Nat.zero_le _), hext, ?_⟩
    · rw [← hins _ rfl]
    · intro k
      exact Patricia.lookup_insertAt hw hfits (Nat.zero_le _)

end Insert

end Enki.Native
