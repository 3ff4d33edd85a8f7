import Enki.Native.IndexMap

/-!
# The index is a map

Emission, and whole runs of insertions and emissions over the two trees that share
the overlay.
-/

namespace Enki.Native

open Lib (Patricia)

/-! ## Emission -/

/-- The next record goes to an aligned offset after the superblocks, and all that
is committed lies before it. -/
structure Aligned (n : Store) : Prop where
  start_le : start ≤ n.next
  mod : n.next % 8 = 0
  committed : n.committed.hi ≤ n.next

theorem le_nround (m : Nat) : m ≤ nround m := by
  unfold nround granule
  omega

theorem nround_mod (m : Nat) : nround m % 8 = 0 := by
  unfold nround granule
  omega

theorem place_spec (n : Store) (len : Nat) (h : n.next % 8 = 0) :
    n.next ≤ n.place len ∧ n.place len % 8 = 0 := by
  unfold Store.place
  split
  · exact ⟨le_nround _, nround_mod _⟩
  · exact ⟨le_rfl, h⟩

/-- Records before the range written over stay. -/
theorem Disk.agrees_erase {d : Disk} {off len hi : Nat} (h : hi ≤ off) :
    d.Agrees (d.erase off len) hi := by
  intro o r hr hlt hlen
  simp only [Disk.erase, hr]
  rw [if_neg (by omega)]

theorem Disk.agrees_write {d : Disk} {off hi : Nat} {r : Rec} (h : hi ≤ off) :
    d.Agrees (d.write off r) hi := by
  intro o r' hr hlt hlen
  rw [Disk.write, Function.update_of_ne (by omega)]
  exact Disk.agrees_erase h o r' hr hlt hlen

theorem point_eq (n : Store) : n.point.2 = { n with faults := n.point.2.faults } := by
  unfold Store.point
  split <;> rfl

theorem grow_eq (n : Store) (hi : Nat) :
    (n.grow hi).2 = { n with mapped := (n.grow hi).2.mapped, faults := (n.grow hi).2.faults } := by
  have hpoint := point_eq n
  unfold Store.grow
  split
  · dsimp only
    generalize n.point.2 = m at hpoint
    split <;> rw [hpoint]
  · rfl

/-- Space for a record is taken after everything else. -/
theorem alloc_spec {n n' : Store} {len : Nat} {r : Option Nat} (ha : Aligned n)
    (h : n.alloc len = (r, n')) :
    Keeps n n' ∧ Aligned n' ∧ n'.nodes = n.nodes ∧ n'.work = n.work ∧
    ∀ off, r = some off → n.next ≤ off ∧ off % 8 = 0 ∧ n'.next = off + (len + 7) / 8 * 8 := by
  have hfail : ∀ m : Store, m = { n with mapped := m.mapped, faults := m.faults } →
      (none, m) = (r, n') → Keeps n n' ∧ Aligned n' ∧ n'.nodes = n.nodes ∧ n'.work = n.work ∧
      ∀ off, r = some off → n.next ≤ off ∧ off % 8 = 0 ∧ n'.next = off + (len + 7) / 8 * 8 := by
    intro m hm heq
    obtain ⟨hr, hn⟩ := Prod.mk.inj heq
    rw [← hn, ← hr, hm]
    exact ⟨⟨rfl, le_rfl, fun _ _ hr _ _ => hr⟩, ⟨ha.1, ha.2, ha.3⟩, rfl, rfl, nofun⟩
  unfold Store.alloc at h
  dsimp only at h
  have hround : (len + 7) / 8 * 8 % 8 = 0 := by omega
  generalize (len + 7) / 8 * 8 = len' at h hround hfail ⊢
  obtain ⟨hplace, hmod⟩ := place_spec n len' ha.mod
  generalize n.place len' = at_ at h hplace hmod
  have hgrow := grow_eq n (at_ + len')
  generalize n.grow (at_ + len') = q at h hgrow
  split at h
  · exact hfail n rfl h
  split at h
  · exact hfail n rfl h
  split at h
  · exact hfail n rfl h
  split at h
  · obtain ⟨hr, hn⟩ := Prod.mk.inj h
    rw [← hn, ← hr, hgrow]
    have hstart := ha.start_le
    have hhi := ha.committed
    refine ⟨⟨rfl, hplace.trans (Nat.le_add_right ..), Disk.agrees_erase hplace⟩,
      ⟨?_, ?_, ?_⟩, rfl, rfl, ?_⟩
    · exact hstart.trans (hplace.trans (Nat.le_add_right ..))
    · dsimp only
      omega
    · exact hhi.trans (hplace.trans (Nat.le_add_right ..))
    · rintro off ⟨⟩
      exact ⟨hplace, hmod, rfl⟩
  · exact hfail _ hgrow h

theorem Aligned.of_same {n n' : Store} (ha : Aligned n) (h : n' = { n with nodes := n'.nodes }) :
    Aligned n' := by
  rw [h]
  exact ⟨ha.1, ha.2, ha.3⟩

/-- The record of a node is written after everything else, and remembered. -/
theorem emitRecord_spec {n n' : Store} {i : Nat} {p : Index} {r : Option Nat} (ha : Aligned n)
    (h : n.emitRecord i p = (r, n')) :
    Keeps n n' ∧ Aligned n' ∧ n'.work = n.work ∧
    (n'.nodes = n.nodes ∧ r = none ∨
      ∃ off, n'.nodes = n.nodes.modify i ({ · with emitted := off }) ∧
        n'.disk off = some (.index p) ∧ nbound off indexBytes n'.next = true ∧
        ∀ out, r = some out → out = off) := by
  unfold Store.emitRecord at h
  cases hal : n.alloc indexBytes with
  | mk r₁ n₁ =>
    rw [hal] at h
    obtain ⟨hk, ha₁, hnodes, hwork, hoff⟩ := alloc_spec ha hal
    cases r₁ with
    | none =>
      cases h
      exact ⟨hk, ha₁, hwork, .inl ⟨hnodes, rfl⟩⟩
    | some off =>
      obtain ⟨hle, hmod, hnext⟩ := hoff off rfl
      dsimp only at h
      generalize hm : ({ n₁ with
        disk := n₁.disk.write off (.index p)
        nodes := n₁.nodes.modify i ({ · with emitted := off }) } : Store) = m at h
      have hpoint := point_eq m
      generalize m.point.2.faults = fs at hpoint
      obtain ⟨rfl, rfl⟩ := Prod.mk.inj h
      rw [hpoint, ← hm]
      have hstart := ha.start_le
      refine ⟨⟨hk.committed, hk.next, ?_⟩, ⟨ha₁.1, ha₁.2, ha₁.3⟩, hwork, .inr ⟨off, ?_, ?_, ?_, ?_⟩⟩
      · -- the space was taken after `next`, so both writes keep what lies before it
        intro o r hr hlt hlen
        exact Disk.agrees_write hle o r (hk.disk o r hr hlt hlen) hlt hlen
      · simp [hnodes]
      · simp [Disk.write]
      · rw [nbound_iff]
        simp only [hnext]
        unfold indexBytes
        omega
      · intro out hout
        split at hout
        · exact (Option.some.inj hout).symm
        · cases hout

/-- What an emission changes: memos in the slots of its own tree, and the arena after
everything else. -/
structure Emits (n n' : Store) (F : Finset Nat) : Prop where
  keeps : Keeps n n'
  aligned : Aligned n'
  work : n'.work = n.work
  length : n'.nodes.length = n.nodes.length
  other : ∀ j ∉ F, n'.nodes[j]? = n.nodes[j]?

theorem Emits.refl {n : Store} (ha : Aligned n) (F : Finset Nat) : Emits n n F :=
  ⟨⟨rfl, le_rfl, fun _ _ hr _ _ => hr⟩, ha, rfl, rfl, fun _ _ => rfl⟩

theorem Emits.trans {n n₁ n₂ : Store} {F : Finset Nat} (h : Emits n n₁ F) (h' : Emits n₁ n₂ F) :
    Emits n n₂ F :=
  ⟨h.keeps.trans h'.keeps, h'.aligned, h'.work.trans h.work, h'.length.trans h.length,
    fun j hj => (h'.other j hj).trans (h.other j hj)⟩

theorem Emits.mono {n n' : Store} {F F' : Finset Nat} (h : Emits n n' F) (hF : F ⊆ F') :
    Emits n n' F' :=
  ⟨h.keeps, h.aligned, h.work, h.length, fun j hj => h.other j fun hm => hj (hF hm)⟩

/-- Trees of other slots stay as they are. -/
theorem Emits.frame {n n' : Store} {F G : Finset Nat} (h : Emits n n' F) (ha : Aligned n)
    {ref : Nat} {t : Patricia Key Nat} (hr : Rep n ref t G) (hd : Disjoint G F) : Rep n' ref t G :=
  hr.frame h.keeps ha.committed fun j hj => h.other j (Finset.disjoint_left.mp hd hj)

theorem emitRecord_emits {n n' : Store} {i : Nat} {p : Index} {r : Option Nat} (ha : Aligned n)
    (h : n.emitRecord i p = (r, n')) : Emits n n' {i} := by
  obtain ⟨hk, ha', hwork, hnodes | ⟨off, hnodes, -⟩⟩ := emitRecord_spec ha h
  · exact ⟨hk, ha', hwork, by rw [hnodes.1], fun j _ => by rw [hnodes.1]⟩
  · refine ⟨hk, ha', hwork, by rw [hnodes, List.length_modify], fun j hj => ?_⟩
    rw [hnodes, List.getElem?_modify_ne]
    rintro rfl
    exact hj (Finset.mem_singleton_self _)

/-- The slot of a node whose record was written, or not. -/
theorem emitRecord_slot {n n' : Store} {i : Nat} {p : Index} {r : Option Nat} {w : WorkNode}
    (ha : Aligned n) (hi : n.nodes[i]? = some w) (h0 : w.emitted = 0)
    (h : n.emitRecord i p = (r, n')) (hbit : p.bit ≤ 256)
    (hchild : p.bit < 256 → ∀ d, nbound (p.child d) indexBytes n.next = true) :
    ∃ w', n'.nodes[i]? = some w' ∧ w'.node = w.node ∧
      (w'.emitted = 0 ∧ r = none ∨
        n'.disk.node w'.emitted n'.next = some p ∧ ∀ out, r = some out → out = w'.emitted) := by
  obtain ⟨hk, ha', hwork, hnodes | ⟨off, hnodes, hoff, hb, hr⟩⟩ := emitRecord_spec ha h
  · exact ⟨w, by rw [hnodes.1, hi], rfl, .inl ⟨h0, hnodes.2⟩⟩
  · refine ⟨{ w with emitted := off }, by simp [hnodes, hi], rfl, .inr ⟨?_, hr⟩⟩
    rw [Disk.node_eq_some]
    exact ⟨hoff, hb, hbit, fun hlt =>
      ⟨nbound_mono hk.next (hchild hlt _), nbound_mono hk.next (hchild hlt _)⟩⟩

theorem emit_committed {n : Store} {ref lo : Nat} {t : Patricia Key Nat} (ha : Aligned n)
    (h : n.disk.Tree n.committed.hi ref t) :
    n.emit ref lo = (some ref, n) ∧ n.disk.Tree n.next ref t := by
  refine ⟨?_, h.mono ha.committed fun _ _ hr _ _ => hr⟩
  rw [Store.emit, if_pos h.even, if_pos (.inr h.bound)]

/-- The branches of `nemit` for an overlay node whose bit is as it should be. -/
theorem emit_slot {n : Store} {i lo : Nat} {w : WorkNode} (hi : n.nodes[i]? = some w)
    (hlo : lo ≤ w.node.bit) (hbit : w.node.bit ≤ 256) :
    n.emit (2 * i + 1) lo =
      if w.emitted ≠ 0 then (some w.emitted, n)
      else if w.node.bit < 256 then
        if w.node.child false = 0 ∨ w.node.child true = 0 then (none, n)
        else match n.emit (w.node.child false) (w.node.bit + 1) with
        | (none, n) => (none, n)
        | (some c0, n) =>
          match n.emit (w.node.child true) (w.node.bit + 1) with
          | (none, n) => (none, n)
          | (some c1, n) =>
            n.emitRecord i { w.node with child := fun d => if d then c1 else c0 }
      else n.emitRecord i w.node := by
  have hdiv : (2 * i + 1) / 2 = i := by omega
  have hmod : ¬ (2 * i + 1) % 2 = 0 := by omega
  have hok : ¬ (w.node.bit < lo ∨ w.node.bit > 256) := by omega
  rw [Store.emit, if_neg hmod, hdiv, hi]
  exact dif_neg hok

/-- `nemit` on a well-formed tree: the tree stays what it is, and if all of it is
written, it is the tree at the offset returned. -/
theorem emit_rep {n n' : Store} {ref lo : Nat} {t : Patricia Key Nat} {F : Finset Nat}
    {r : Option Nat} (ha : Aligned n) (h : Rep n ref t F) (hw : t.WF nbit 256 lo) (hlo : lo ≤ 256)
    (he : n.emit ref lo = (r, n')) :
    Emits n n' F ∧ Rep n' ref t F ∧ ∀ out, r = some out → n'.disk.Tree n'.next out t := by
  induction t generalizing n n' ref lo F r with
  | leaf k v =>
    cases h with
    | committed h =>
      obtain ⟨heq, htree⟩ := emit_committed ha h
      rw [heq] at he
      cases he
      exact ⟨.refl ha _, .committed h, fun out hout => Option.some.inj hout ▸ htree⟩
    | @leaf i w hi hb hm =>
      rw [emit_slot hi (hb ▸ hlo) hb.le] at he
      split at he
      · rename_i hmemo
        cases he
        refine ⟨.refl ha _, .leaf hi hb hm, fun out hout => ?_⟩
        exact Option.some.inj hout ▸ hm.resolve_left hmemo
      · rename_i h0
        rw [if_neg (by omega)] at he
        obtain ⟨w', hi', hnode, hmemo⟩ := emitRecord_slot ha hi (not_not.mp h0) he hb.le
          (by omega)
        refine ⟨emitRecord_emits ha he, ?_, fun out hout => ?_⟩
        · rw [← hnode]
          refine .leaf hi' (hnode ▸ hb) ?_
          rcases hmemo with hmemo | ⟨hp, -⟩
          · exact .inl hmemo.1
          · exact .inr ⟨Disk.node_ne hp, _, hp, hb, by rw [hnode], by rw [hnode]⟩
        · rcases hmemo with hmemo | ⟨hp, hr⟩
          · rw [hmemo.2] at hout
            cases hout
          · rw [hr out hout]
            exact ⟨Disk.node_ne hp, _, hp, hb, rfl, rfl⟩
  | branch b c ih =>
    cases h with
    | committed h =>
      obtain ⟨heq, htree⟩ := emit_committed ha h
      rw [heq] at he
      cases he
      exact ⟨.refl ha _, .committed h, fun out hout => Option.some.inj hout ▸ htree⟩
    | @branch i w _ G hi hb hc hd hnot hm =>
      obtain ⟨hlob, -, -, hwc⟩ := hw
      rw [emit_slot hi hlob hb.le] at he
      split at he
      · rename_i hmemo
        cases he
        refine ⟨.refl ha _, .branch hi hb hc hd hnot hm, fun out hout => ?_⟩
        exact Option.some.inj hout ▸ hm.resolve_left hmemo
      rename_i h0
      have hne : ¬ (w.node.child false = 0 ∨ w.node.child true = 0) :=
        not_or.mpr ⟨(hc false).shape.ref_ne, (hc true).shape.ref_ne⟩
      rw [if_neg hne] at he
      have hsub : ∀ d, G d ⊆ insert i (G false ∪ G true) := by
        intro d j hj
        cases d <;> simp [hj]
      cases he₀ : n.emit (w.node.child false) (w.node.bit + 1) with
      | mk r₀ n₀ =>
        obtain ⟨hem₀, hrep₀, hout₀⟩ := ih false ha (hc false) (hwc false).1 hb he₀
        have hrep₀' := hem₀.frame ha (hc true) hd.symm
        have hi₀ := (hem₀.other i (hnot false)).trans hi
        have hmemo₀ : ∀ t, Memo n₀ w t := fun t => .inl (not_not.mp h0)
        rw [he₀] at he
        cases r₀ with
        | none =>
          cases he
          refine ⟨hem₀.mono (hsub _), .branch hi₀ hb (fun d => ?_) hd hnot (hmemo₀ _), nofun⟩
          cases d
          · exact hrep₀
          · exact hrep₀'
        | some c0 =>
          dsimp only at he
          cases he₁ : n₀.emit (w.node.child true) (w.node.bit + 1) with
          | mk r₁ n₁ =>
            obtain ⟨hem₁, hrep₁, hout₁⟩ := ih true hem₀.aligned hrep₀' (hwc true).1 hb he₁
            have hrep₁' := hem₁.frame hem₀.aligned hrep₀ hd
            have hi₁ := (hem₁.other i (hnot true)).trans hi₀
            have hem := (hem₀.mono (hsub _)).trans (hem₁.mono (hsub _))
            have hc₁ : ∀ d, Rep n₁ (w.node.child d) (c d) (G d) := by
              intro d
              cases d
              · exact hrep₁'
              · exact hrep₁
            rw [he₁] at he
            cases r₁ with
            | none =>
              cases he
              exact ⟨hem, .branch hi₁ hb hc₁ hd hnot (.inl (not_not.mp h0)), nofun⟩
            | some c1 =>
              dsimp only at he
              -- both children are written: the record points at them
              have htree₀ := (hout₀ c0 rfl).mono hem₁.keeps.next hem₁.keeps.disk
              have htree₁ := hout₁ c1 rfl
              have htree : ∀ d, n₁.disk.Tree n₁.next (if d then c1 else c0) (c d) := by
                intro d
                cases d
                · exact htree₀
                · exact htree₁
              have hemr := emitRecord_emits hem₁.aligned he
              obtain ⟨w', hi', hnode, hmemo⟩ := emitRecord_slot hem₁.aligned hi₁ (not_not.mp h0)
                he hb.le fun _ d => (htree d).bound
              have hwritten : ∀ off, n'.disk.node off n'.next = some
                  { w.node with child := fun d => if d then c1 else c0 } →
                  n'.disk.Tree n'.next off (.branch w.node.bit c) := fun off hp =>
                ⟨Disk.node_ne hp, _, hp, rfl, hb, fun d =>
                  (htree d).mono hemr.keeps.next hemr.keeps.disk⟩
              refine ⟨hem.trans (hemr.mono (by simp)), ?_, fun out hout => ?_⟩
              · rw [← hnode]
                refine .branch hi' (hnode ▸ hb) (fun d => ?_) hd hnot ?_
                · rw [hnode]
                  exact hemr.frame hem₁.aligned (hc₁ d) (by simpa using hnot d)
                · rcases hmemo with hmemo | ⟨hp, -⟩
                  · exact .inl hmemo.1
                  · rw [hnode]
                    exact .inr (hwritten _ hp)
              · rcases hmemo with hmemo | ⟨hp, hr⟩
                · rw [hmemo.2] at hout
                  cases hout
                · rw [hr out hout]
                  exact hwritten _ hp

/-! ## Runs -/

/-- The operations on the two trees. A record of another kind may be written to the
arena at any time. -/
inductive Op where
  | insert (cache : Bool) (key : Key) (value : Nat)
  | emit (cache : Bool) (faults : List Bool)
  | record (r : Rec) (faults : List Bool)

/-- The root of the tree of objects, or of the cache. -/
def Store.rootOf (n : Store) (cache : Bool) : Nat := if cache then n.work.cache else n.work.objects

def Store.setRoot (n : Store) (cache : Bool) (root : Nat) : Store :=
  if cache then { n with work := { n.work with cache := root } }
  else { n with work := { n.work with objects := root } }

/-- The store after an operation, whether it succeeds or not. -/
def Store.step (n : Store) : Op → Store
  | .insert cache key value =>
    let (_, root, n') := n.insert (n.rootOf cache) key value
    n'.setRoot cache root
  | .emit cache faults => (Store.emit { n with faults := faults } (n.rootOf cache) 0).2
  | .record r faults =>
    match Store.alloc { n with faults := faults } r.len with
    | (none, n) => n
    | (some off, n) => { n with disk := n.disk.write off r }

/-- The root of a working tree, its slots, and the map it denotes. -/
def Holds (n : Store) (root : Nat) (F : Finset Nat) (m : Key → Nat) : Prop :=
  (root = 0 ∧ F = ∅ ∧ ∀ k, m k = 0) ∨
  ∃ t, Rep n root t F ∧ t.WF nbit 256 0 ∧ ∀ k, m k = (t.lookup nbit k).getD 0

/-- The invariant of the two trees. -/
structure Indexed (n : Store) (m : Bool → Key → Nat) : Prop where
  aligned : Aligned n
  trees : ∃ F : Bool → Finset Nat, (∀ c d, d ≠ c → Disjoint (F d) (F c)) ∧
    ∀ c, Holds n (n.rootOf c) (F c) (m c)

section Holds

variable {n n' : Store} {root : Nat} {F : Finset Nat} {m : Key → Nat}

theorem Holds.frame (hk : Keeps n n') (ha : Aligned n) (h : Holds n root F m)
    (hF : ∀ i ∈ F, n'.nodes[i]? = n.nodes[i]?) : Holds n' root F m := by
  rcases h with h | ⟨t, hr, hw, hm⟩
  · exact .inl h
  · exact .inr ⟨t, hr.frame hk ha.committed hF, hw, hm⟩

theorem Holds.slot_lt (h : Holds n root F m) : ∀ i ∈ F, i < n.nodes.length := by
  rcases h with ⟨-, rfl, -⟩ | ⟨t, hr, -⟩
  · simp
  · exact hr.slot_lt

theorem Holds.insert (ha : Aligned n) (h : Holds n root F m) (key : Key) (value : Nat) :
    ∃ root' n' F', n.insert root key value = (true, root', n') ∧ Extends n n' F F' ∧
      Holds n' root' F' (Function.update m key value) := by
  rcases h with ⟨rfl, rfl, hm⟩ | ⟨t, hr, hw, hm⟩
  · have hput := workingNew_put n (.leaf key value)
    refine ⟨_, _, {n.nodes.length}, rfl, hput.extends (.inr le_rfl) ?_,
      .inr ⟨_, hput.rep_leaf, trivial, fun k => ?_⟩⟩
    · intro j hj
      exact .inl (Finset.mem_singleton.mp hj)
    · rw [Patricia.lookup_leaf, Function.update_apply, hm k]
      by_cases hk : k = key
      · simp [hk]
      · simp [hk, Ne.symm hk]
  · obtain ⟨root', n', t', F', heq, hr', hw', hext, hl⟩ := insert_rep ha.committed hr hw
    refine ⟨root', n', F', heq, hext, .inr ⟨t', hr', hw', fun k => ?_⟩⟩
    rw [hl k, Function.update_apply, hm k]
    split <;> rfl

theorem Holds.emit (ha : Aligned n) (h : Holds n root F m) {r : Option Nat}
    (he : n.emit root 0 = (r, n')) : Emits n n' F ∧ Holds n' root F m ∧
      ∀ out, r = some out → (out = 0 ∧ (∀ k, m k = 0) ∨ ∃ t, n'.disk.Tree n'.next out t ∧
        t.WF nbit 256 0 ∧ ∀ k, m k = (t.lookup nbit k).getD 0) := by
  rcases h with ⟨rfl, rfl, hm⟩ | ⟨t, hr, hw, hm⟩
  · rw [Store.emit] at he
    cases he
    exact ⟨.refl ha _, .inl ⟨rfl, rfl, hm⟩, fun out hout => .inl ⟨(Option.some.inj hout).symm, hm⟩⟩
  · obtain ⟨hem, hr', hout⟩ := emit_rep ha hr hw (Nat.zero_le _) he
    exact ⟨hem, .inr ⟨t, hr', hw, hm⟩, fun out ho => .inr ⟨t, hout out ho, hw, hm⟩⟩

/-- Looking a key up in the working tree gives the value of the map. -/
theorem Holds.lookup (h : Holds n root F m) (key : Key) :
    n.workingLookup root key = some (m key) := by
  rcases h with ⟨rfl, -, hm⟩ | ⟨t, hr, hw, hm⟩
  · rw [hm]
    rfl
  · rw [hm]
    exact hr.shape.lookupFrom hw (Nat.zero_le _) (by simp) le_rfl

end Holds

@[simp] theorem rootOf_setRoot (n : Store) (c d : Bool) (root : Nat) :
    (n.setRoot c root).rootOf d = if d = c then root else n.rootOf d := by
  cases c <;> cases d <;> rfl

theorem setRoot_eq (n : Store) (c : Bool) (root : Nat) : n.setRoot c root =
    { n with work := (n.setRoot c root).work, faults := (n.setRoot c root).faults } := by
  cases c <;> rfl

/-- The map after an operation. -/
def Op.update (m : Bool → Key → Nat) : Op → Bool → Key → Nat
  | .insert cache key value => Function.update m cache (Function.update (m cache) key value)
  | _ => m

/-- Two stores whose overlay, arena and committed state are the same. -/
theorem Holds.congr {n n' : Store} {root : Nat} {F : Finset Nat} {m : Key → Nat}
    (h : Holds n root F m) (ha : Aligned n)
    (he : n' = { n with work := n'.work, faults := n'.faults }) : Holds n' root F m := by
  refine h.frame ?_ ha fun i _ => by rw [he]
  rw [he]
  exact ⟨rfl, le_rfl, fun _ _ hr _ _ => hr⟩

theorem Aligned.congr {n n' : Store} (ha : Aligned n)
    (he : n' = { n with work := n'.work, faults := n'.faults }) : Aligned n' := by
  rw [he]
  exact ⟨ha.1, ha.2, ha.3⟩

section Step

variable {n : Store} {m : Bool → Key → Nat}

theorem Indexed.insert (h : Indexed n m) (c : Bool) (key : Key) (value : Nat) :
    Indexed (n.step (.insert c key value)) (Op.update m (.insert c key value)) ∧
      Keeps n (n.step (.insert c key value)) := by
  obtain ⟨ha, F, hd, hF⟩ := h
  obtain ⟨root', n', F', heq, hext, hholds⟩ := (hF c).insert ha key value
  have hk := keeps_of_same hext.same
  have ha' := ha.of_same hext.same
  have hset := setRoot_eq n' c root'
  -- the other tree has none of the slots that changed, old or new
  have hother : ∀ d, d ≠ c → Holds n' (n.rootOf d) (F d) (m d) := fun d hne =>
    (hF d).frame hk ha fun j hj => hext.keep j ((hF d).slot_lt j hj)
      (Finset.disjoint_left.mp (hd c d hne) hj)
  have hdisj : ∀ d, d ≠ c → Disjoint (F d) F' := by
    intro d hne
    rw [Finset.disjoint_left]
    intro j hj hj'
    rcases hext.fresh j hj' with hm | hm
    · exact Finset.disjoint_left.mp (hd c d hne) hj hm
    · exact absurd ((hF d).slot_lt j hj) (Nat.not_lt.mpr hm)
  simp only [Store.step, heq]
  refine ⟨⟨ha'.congr hset, Function.update F c F', fun d e hne => ?_, fun d => ?_⟩, ?_⟩
  · by_cases hdc : d = c
    · subst hdc
      simpa [hne] using hdisj e hne
    · by_cases hec : e = c
      · subst hec
        simpa [hdc] using (hdisj d hdc).symm
      · simpa [hdc, hec] using hd d e hne
  · rw [rootOf_setRoot]
    by_cases hdc : d = c
    · subst hdc
      simpa [Op.update] using hholds.congr ha' hset
    · have hroot : n'.rootOf d = n.rootOf d := by
        rw [hext.same]
        rfl
      simpa [Op.update, hdc, hroot] using (hother d hdc).congr ha' hset
  · rw [hset]
    exact ⟨hk.committed, hk.next, hk.disk⟩

theorem Indexed.withFaults (h : Indexed n m) (faults : List Bool) :
    Indexed { n with faults := faults } m := by
  obtain ⟨ha, F, hd, hF⟩ := h
  exact ⟨ha.congr rfl, F, hd, fun c => (hF c).congr ha rfl⟩

theorem Indexed.emit (h : Indexed n m) (c : Bool) {r : Option Nat} {n' : Store}
    (he : n.emit (n.rootOf c) 0 = (r, n')) : Indexed n' m ∧ Keeps n n' ∧
      ∀ out, r = some out → (out = 0 ∧ (∀ k, m c k = 0) ∨ ∃ t, n'.disk.Tree n'.next out t ∧
        t.WF nbit 256 0 ∧ ∀ k, m c k = (t.lookup nbit k).getD 0) := by
  obtain ⟨ha, F, hd, hF⟩ := h
  obtain ⟨hem, hholds, hout⟩ := (hF c).emit ha he
  refine ⟨⟨hem.aligned, F, hd, fun d => ?_⟩, hem.keeps, hout⟩
  have hroot : n'.rootOf d = n.rootOf d := by
    unfold Store.rootOf
    rw [hem.work]
  rw [hroot]
  by_cases hdc : d = c
  · subst hdc
    exact hholds
  · exact (hF d).frame hem.keeps ha fun j hj =>
      hem.other j (Finset.disjoint_left.mp (hd c d hdc) hj)

theorem Indexed.record (h : Indexed n m) (r : Rec) (faults : List Bool) :
    Indexed (n.step (.record r faults)) m ∧ Keeps n (n.step (.record r faults)) := by
  obtain ⟨ha, F, hd, hF⟩ := h
  simp only [Store.step]
  cases hal : Store.alloc { n with faults := faults } r.len with
  | mk q n' =>
    obtain ⟨hk, ha', hnodes, hwork, hoff⟩ := alloc_spec (ha.congr rfl) hal
    -- whatever the arena becomes after `next`, the trees are kept
    have hkeep : ∀ n'' : Store, n''.nodes = n.nodes → n''.work = n.work → Aligned n'' →
        Keeps n n'' → Indexed n'' m := by
      intro n'' hnodes hwork ha'' hk''
      refine ⟨ha'', F, hd, fun c => ?_⟩
      have hroot : n''.rootOf c = n.rootOf c := by
        unfold Store.rootOf
        rw [hwork]
      rw [hroot]
      exact (hF c).frame hk'' ha fun j _ => by rw [hnodes]
    cases q with
    | none => exact ⟨hkeep n' hnodes hwork ha' ⟨hk.1, hk.2, hk.3⟩, ⟨hk.1, hk.2, hk.3⟩⟩
    | some off =>
      have hkw : Keeps n { n' with disk := n'.disk.write off r } :=
        ⟨hk.1, hk.2, fun o r' hr hlt hlen =>
          Disk.agrees_write (hoff off rfl).1 o r' (hk.disk o r' hr hlt hlen) hlt hlen⟩
      exact ⟨hkeep _ hnodes hwork ⟨ha'.1, ha'.2, ha'.3⟩ hkw, hkw⟩

/-- Each operation keeps the invariant, and what the arena holds. -/
theorem Indexed.step (h : Indexed n m) (op : Op) :
    Indexed (n.step op) (op.update m) ∧ Keeps n (n.step op) := by
  cases op with
  | insert c key value => exact h.insert c key value
  | emit c faults =>
    obtain ⟨hi, hk, -⟩ := (h.withFaults faults).emit c (Prod.mk.eta (p :=
      Store.emit { n with faults := faults } (n.rootOf c) 0)).symm
    exact ⟨hi, hk.1, hk.2, hk.3⟩
  | record r faults => exact h.record r faults

end Step

/-- A store just opened on a well-formed image: no overlay, and each committed root is
empty or the root of a well-formed tree. -/
structure Opened (n : Store) : Prop where
  aligned : Aligned n
  nodes : n.nodes = []
  work : n.work = n.committed
  trees : ∀ c, n.rootOf c = 0 ∨ ∃ t, n.disk.Tree n.committed.hi (n.rootOf c) t ∧ t.WF nbit 256 0

/-- The value last inserted under a key in one of the trees, else the committed one. -/
def expected (n : Store) (ops : List Op) (cache : Bool) (key : Key) : Nat :=
  (ops.reverse.findSome? fun
    | .insert cache' key' value => if cache' = cache ∧ key' = key then some value else none
    | _ => none).getD ((n.disk.lookup (n.rootOf cache) key n.committed.hi).getD 0)

/-- The nodes that can be reached from a root. -/
inductive Reaches (n : Store) : Nat → Nat → Prop where
  | refl {ref} : Reaches n ref ref
  | child {root ref p} (d : Bool) : Reaches n root ref → n.workingNode ref = some p →
      p.bit < 256 → Reaches n root (p.child d)

theorem Opened.indexed {n : Store} (h : Opened n) : Indexed n (expected n []) := by
  refine ⟨h.aligned, fun _ => ∅, fun _ _ _ => by simp, fun c => ?_⟩
  rcases h.trees c with h0 | ⟨t, ht, hw⟩
  · refine .inl ⟨h0, rfl, fun k => ?_⟩
    simp [expected, h0, Disk.lookup, lookupFrom]
  · refine .inr ⟨t, .committed ht, hw, fun k => ?_⟩
    have hl : n.disk.lookup (n.rootOf c) k n.committed.hi = some ((t.lookup nbit k).getD 0) :=
      Shape.lookupFrom ht hw (Nat.zero_le _) (by simp) le_rfl
    simp [expected, hl]

theorem expected_append (n : Store) (ops : List Op) (op : Op) :
    expected n (ops ++ [op]) = op.update (expected n ops) := by
  funext c key
  cases op with
  | insert c' key' value =>
    by_cases hc : c = c'
    · subst hc
      by_cases hk : key = key'
      · subst hk
        simp [expected, Op.update]
      · simp [expected, Op.update, hk, Ne.symm hk]
    · simp [expected, Op.update, hc, Ne.symm hc]
  | emit => simp [expected, Op.update]
  | record => simp [expected, Op.update]

theorem run_indexed {n : Store} (h : Opened n) (ops : List Op) :
    Indexed (ops.foldl Store.step n) (expected n ops) ∧ Keeps n (ops.foldl Store.step n) := by
  induction ops using List.reverseRecOn with
  | nil => exact ⟨h.indexed, rfl, le_rfl, fun _ _ hr _ _ => hr⟩
  | append_singleton ops op ih =>
    obtain ⟨hi, hk⟩ := ih
    obtain ⟨hi', hk'⟩ := hi.step op
    rw [List.foldl_append, expected_append]
    exact ⟨hi', hk.trans hk'⟩

/-- Nothing is reached from an empty root. -/
theorem reaches_zero {n : Store} {ref : Nat} (h : Reaches n 0 ref) : ref = 0 := by
  induction h with
  | refl => rfl
  | child d _ hp hlt ih =>
    rw [ih] at hp
    exact absurd rfl (Disk.node_ne hp)

/-- What is reached from a working tree is a working tree. -/
theorem Rep.reaches {n : Store} {root ref : Nat} {t : Patricia Key Nat} {F : Finset Nat}
    (h : Rep n root t F) (hr : Reaches n root ref) : ∃ t' F', Rep n ref t' F' := by
  induction hr with
  | refl => exact ⟨t, F, h⟩
  | child d _ hp hlt ih =>
    obtain ⟨t', F', h'⟩ := ih
    cases t' with
    | leaf k v =>
      obtain ⟨-, q, hq, hb, -⟩ := h'.shape
      rw [hp] at hq
      cases hq
      omega
    | branch b c =>
      obtain ⟨q, G, hq, -, -, hc, -⟩ := h'.branch_inv
      rw [hp] at hq
      cases hq
      exact ⟨c d, G d, hc d⟩

/-- The hash index is a map. -/
structure IsMap (n₀ n : Store) (m : Bool → Key → Nat) : Prop where
  /-- Looking up a key finds its value. -/
  lookup : ∀ c key, n.workingLookup (n.rootOf c) key = some (m c key)
  /-- The branch bits increase along every path, and each key lies on its side. -/
  wellFormed : ∀ c, n.rootOf c = 0 ∨
    ∃ t, Shape n.workingNode (n.rootOf c) t ∧ t.WF nbit 256 0
  /-- Committed records are never modified. -/
  committed : n₀.disk.Agrees n.disk n₀.committed.hi
  /-- A successful emission yields a tree that lies in the arena and denotes the map. -/
  emit : ∀ c faults out n', Store.emit { n with faults := faults } (n.rootOf c) 0 = (some out, n') →
    (out = 0 ∨ ∃ t, n'.disk.Tree n'.next out t ∧ t.WF nbit 256 0) ∧
    ∀ key, n'.disk.lookup out key n'.next = some (m c key)
  /-- A node written before is reused for the tree it was written for. -/
  reuse : ∀ c i w, Reaches n (n.rootOf c) (2 * i + 1) → n.nodes[i]? = some w → w.emitted ≠ 0 →
    ∃ t, Shape n.workingNode (2 * i + 1) t ∧ n.disk.Tree n.next w.emitted t
  /-- An insertion that fails changes nothing. -/
  unchanged : ∀ root key value root' n', n.insert root key value = (false, root', n') →
    root' = root ∧ n' = n

theorem insert_false {n n' : Store} {root root' : Nat} {key : Key} {value : Nat}
    (h : n.insert root key value = (false, root', n')) : root' = root ∧ n' = n := by
  unfold Store.insert at h
  split at h
  · cases h
  · split at h
    · cases h
      exact ⟨rfl, rfl⟩
    · dsimp only at h
      split at h <;> cases h

theorem Rep.memo {n : Store} {i : Nat} {w : WorkNode} {t : Patricia Key Nat} {F : Finset Nat}
    (h : Rep n (2 * i + 1) t F) (hi : n.nodes[i]? = some w) : Memo n w t := by
  generalize href : 2 * i + 1 = ref at h
  cases h with
  | committed h =>
    have := h.even
    omega
  | @leaf j w' hj hb hm =>
    obtain rfl : i = j := by omega
    rw [hi] at hj
    cases hj
    exact hm
  | @branch j w' c G hj hb hc hd hnot hm =>
    obtain rfl : i = j := by omega
    rw [hi] at hj
    cases hj
    exact hm

/-- After every sequence of insertions, emissions and other records, whichever of
them fail, the index is the map of what was inserted over what was committed. -/
theorem index_is_map {n : Store} (h : Opened n) (ops : List Op) :
    IsMap n (ops.foldl Store.step n) (expected n ops) := by
  obtain ⟨hi, hk⟩ := run_indexed h ops
  generalize ops.foldl Store.step n = n' at hi hk
  obtain ⟨ha, F, hd, hF⟩ := id hi
  refine ⟨fun c key => (hF c).lookup key, fun c => ?_, hk.disk.anti h.aligned.committed,
    fun c faults out n'' he => ?_, fun c i w hr hw h0 => ?_,
    fun root key value root' n'' hins => insert_false hins⟩
  · rcases hF c with ⟨h0, -⟩ | ⟨t, hr, hw, -⟩
    · exact .inl h0
    · exact .inr ⟨t, hr.shape, hw⟩
  · obtain ⟨-, -, hout⟩ := (hi.withFaults faults).emit c he
    rcases hout out rfl with ⟨rfl, hm⟩ | ⟨t, ht, hw, hm⟩
    · refine ⟨.inl rfl, fun key => ?_⟩
      rw [hm]
      rfl
    · refine ⟨.inr ⟨t, ht, hw⟩, fun key => ?_⟩
      rw [hm]
      exact Shape.lookupFrom ht hw (Nat.zero_le _) (by simp) le_rfl
  · rcases hF c with ⟨hroot, -⟩ | ⟨t, hrep, -⟩
    · rw [hroot] at hr
      have := reaches_zero hr
      omega
    · obtain ⟨t', F', hrep'⟩ := hrep.reaches hr
      exact ⟨t', hrep'.shape, (hrep'.memo hw).resolve_left h0⟩

/-- The image of a store just created. -/
def emptySuper : Super := ⟨1, start, 0, 0, 0, 0, 1, 0, zeroKey⟩

def emptyStore : Store where
  disk := fun _ => none
  readonly := false
  poisoned := false
  mapped := start
  sealed := start
  next := start
  committed := emptySuper
  work := emptySuper
  nodes := []
  faults := []

/-- Insert under two keys in one tree and under one of them in the other, with an
emission that fails at its second record, and replace a value. -/
def someOps : List Op :=
  [.insert false zeroKey 8, .insert false (Vector.replicate 32 1) 16, .insert true zeroKey 24,
    .emit false [false, false, true], .insert false zeroKey 32, .emit false []]

theorem someOps_isMap : Opened emptyStore ∧ expected emptyStore someOps false zeroKey = 32 ∧
    IsMap emptyStore (someOps.foldl Store.step emptyStore) (expected emptyStore someOps) := by
  have hopen : Opened emptyStore :=
    ⟨⟨le_rfl, rfl, le_rfl⟩, rfl, rfl, fun c => .inl (by cases c <;> rfl)⟩
  exact ⟨hopen, by simp [expected, someOps], index_is_map hopen someOps⟩

end Enki.Native
