import Enki.Bytecode.Decode

/-!
# The layout of a stream and its rewrites

A stream is laid out when its instruction starts tile the code: every start
holds an executable opcode whose operands fit, the next instruction starts right
behind, and no instruction that falls through is the last one. `Rewrite` lists
everything the passes of ingest do to one instruction in place, and
`Layout.rewrite` says that each of them keeps the layout and the control-flow
targets. A pass is then a chain of such rewrites at instruction starts.
-/

namespace Enki.Bytecode

@[simp]
theorem slot_set_self {ops : List Word} {i : Nat} {w : Word} (h : i < ops.length) :
    slot (ops.set i w) i = w := by
  simp [slot, h]

@[simp]
theorem slot_set_ne {ops : List Word} {i j : Nat} {w : Word} (h : i ≠ j) :
    slot (ops.set i w) j = slot ops j := by
  simp [slot, List.getElem?_set_ne h]

/-- An instruction reads nothing but its own slots. -/
theorem same_instr {ops ops' : List Word} {q : Nat}
    (h : ∀ i, q ≤ i → i < q + width ops q → slot ops' i = slot ops i) :
    opAt ops' q = opAt ops q ∧ width ops' q = width ops q ∧
      targets ops' q = targets ops q ∧ fallsThrough ops' q = fallsThrough ops q := by
  have hpos := width_pos ops q
  have hop : opAt ops' q = opAt ops q := by
    rw [opAt, opAt, h q (Nat.le_refl q) (by omega)]
  have hfalls : fallsThrough ops' q = fallsThrough ops q := by
    rw [fallsThrough, fallsThrough, hop]
  refine ⟨hop, ?_, ?_, hfalls⟩
  · unfold width at h ⊢
    rw [hop]
    cases hc : opAt ops q with
    | none => rfl
    | some op =>
      rw [hc] at h
      cases op <;> first
        | rfl
        | (simp only at h ⊢
           rw [h (q + 1) (by omega) (by omega)])
        | (simp only at h ⊢
           rw [h (q + 2) (by omega) (by split <;> omega)])
  · unfold targets
    unfold width at h
    rw [hop]
    by_cases hbr : opAt ops q = some .br
    · -- a branch reads its arm count, and then its arms
      simp only [hbr] at h ⊢
      rw [h (q + 1) (by omega) (by omega)]
      refine List.map_congr_left fun k hk => ?_
      have := List.mem_range.mp hk
      exact h _ (by omega) (by omega)
    · cases hc : opAt ops q with
      | none => rfl
      | some op =>
        rw [hc] at h
        cases op <;> first
          | rfl
          | exact absurd hc hbr
          | (simp only at h ⊢
             rw [h (q + 1) (by omega) (by omega)])

/-- The primop the instruction at `pc` was resolved to. -/
def primIdx (ops : List Word) (pc : Nat) : Option Nat :=
  match opAt ops pc with
  | some .callKnown | some .callReady | some .add | some .sub | some .cmp => some (slot ops (pc + 2))
  | some .mkThk | some .tailcall | some .tailReady | some .tailAdd | some .tailSub
  | some .tailCmp => if isKnown (slot ops (pc + 2)) then some (slot ops (pc + 3)) else none
  | _ => none

theorem same_primIdx {ops ops' : List Word} {q : Nat}
    (h : ∀ i, q ≤ i → i < q + width ops q → slot ops' i = slot ops i) :
    primIdx ops' q = primIdx ops q := by
  obtain ⟨hop, -⟩ := same_instr h
  unfold primIdx
  unfold width at h
  rw [hop]
  cases hc : opAt ops q with
  | none => rfl
  | some op =>
    rw [hc] at h
    cases op <;> first
      | rfl
      | (simp only at h ⊢
         rw [h (q + 2) (by omega) (by omega)])
      | (simp only at h ⊢
         rw [h (q + 2) (by omega) (by split <;> omega)]
         split_ifs with hk
         · rw [h (q + 3) (by omega) (by rw [if_pos hk]; omega)]
         · rfl)

theorem width_primIdx {ops : List Word} {pc idx : Nat} (h : primIdx ops pc = some idx) :
    pc + 1 < pc + width ops pc := by
  unfold primIdx at h
  cases hop : opAt ops pc with
  | none => simp [hop] at h
  | some op => cases op <;> simp_all [width]

/-- The numeric primops with opcodes of their own. -/
def Op.inline : Op → Bool
  | .add | .sub | .cmp | .tailAdd | .tailSub | .tailCmp => true
  | _ => false

/-- The starts `S` tile the code below `n`, and `flow` gives their targets. -/
structure Layout (ops : List Word) (n : Nat) (S : Nat → Prop) (flow : Nat → List Nat) :
    Prop where
  length : n ≤ ops.length
  zero : S 0
  lt : ∀ {pc}, S pc → pc < n
  fits : ∀ {pc}, S pc → pc + width ops pc ≤ n
  next : ∀ {pc}, S pc → pc + width ops pc < n → S (pc + width ops pc)
  falls : ∀ {pc}, S pc → fallsThrough ops pc → pc + width ops pc < n
  apart : ∀ {pc q}, S pc → S q → pc < q → pc + width ops pc ≤ q
  exec : ∀ {pc}, S pc → ∃ op, opAt ops pc = some op ∧ op ≠ .lawblk
  flow_eq : ∀ {pc}, S pc → targets ops pc = flow pc
  flow_nil : ∀ {pc}, ¬ S pc → flow pc = []

namespace Layout

variable {ops : List Word} {n : Nat} {S : Nat → Prop} {flow : Nat → List Nat}

/-- The starts of a layout are those a walk from slot 0 finds. -/
theorem starts_iff (h : Layout ops n S flow) {pc : Nat} : S pc ↔ IsStart ops n pc := by
  have hback : ∀ q, Starts ops n q → q < n → S q := by
    intro q hq
    induction hq with
    | zero => exact fun _ => h.zero
    | next _ hlt ih => exact fun hn => h.next (ih hlt) hn
  constructor
  · intro hpc
    refine ⟨?_, h.lt hpc⟩
    -- walk to the last start at or before `pc`: nothing but `pc` itself is left
    have hreach : ∀ k, ∃ q, Starts ops n q ∧ q ≤ pc ∧ (q = pc ∨ k ≤ q) := by
      intro k
      induction k with
      | zero => exact ⟨0, .zero, Nat.zero_le _, .inr (Nat.le_refl _)⟩
      | succ k ih =>
        obtain ⟨q, hq, hle, hqk⟩ := ih
        rcases Nat.lt_or_eq_of_le hle with hlt | rfl
        · have hqn : q < n := Nat.lt_trans hlt (h.lt hpc)
          have happ := h.apart (hback q hq hqn) hpc hlt
          have hpos := width_pos ops q
          refine ⟨_, .next hq hqn, happ, ?_⟩
          rcases hqk with rfl | hk
          · omega
          · exact .inr (by omega)
        · exact ⟨_, hq, Nat.le_refl _, .inl rfl⟩
    obtain ⟨q, hq, hle, rfl | hk⟩ := hreach (pc + 1)
    · exact hq
    · omega
  · exact fun ⟨hs, hn⟩ => hback pc hs hn

theorem slot_lt (h : Layout ops n S flow) {pc i : Nat} (hpc : S pc) (hi : i < pc + width ops pc) :
    i < ops.length := by
  have := h.fits hpc
  have := h.length
  omega

end Layout

/-- What the passes do to the instruction at `p`. -/
inductive Rewrite (ops : List Word) (p : Nat) : List Word → Prop where
  /-- `MK_THK` before a `RET` becomes a tail call. -/
  | fuse : opAt ops p = some .mkThk → Rewrite ops p (ops.set p Op.tailcall.code)
  /-- A thunk of a head and arguments is entered directly. -/
  | callFast (hint : Word) : opAt ops p = some .mkThk → isKnown (slot ops (p + 2)) = false →
      2 ≤ slot ops (p + 1) →
      Rewrite ops p (((ops.set p Op.callFast.code).set (p + 1) (slot ops (p + 1) - 1)).set
        (p + 2) hint)
  /-- So is a resolved primop; a filler keeps the width. -/
  | callKnown : opAt ops p = some .mkThk → isKnown (slot ops (p + 2)) = true →
      Rewrite ops p ((((ops.set p Op.callKnown.code).set (p + 2) (slot ops (p + 3))).set (p + 3)
        (slot ops (p + 4))).set (p + 4) Op.nop.code)
  /-- Calls of binary numeric primops get their inline opcodes, and proven
  operands their ready variants. -/
  | opcode {old new : Op} : opAt ops p = some old →
      (new.inline → ∃ idx, primIdx ops p = some idx ∧ (plOp idx).argc = 2) →
      (old = .callKnown ∧ new ∈ [Op.callKnown, .add, .sub, .cmp, .callReady] ∨
        old = .tailcall ∧ new ∈ [Op.tailcall, .tailAdd, .tailSub, .tailCmp, .tailReady] ∨
        old = .force ∧ new = .forceReady ∨ old = .ret ∧ new = .retReady) →
      Rewrite ops p (ops.set p new.code)

/-- What every rewrite keeps. Only a resolved thunk changes its width, and then
a filler stands where its last operand was. -/
structure Rewrite.Effect (ops : List Word) (p : Nat) (ops' : List Word) : Prop where
  length : ops'.length = ops.length
  outside : ∀ i, i < p ∨ p + width ops p ≤ i → slot ops' i = slot ops i
  exec : ∃ op, opAt ops' p = some op ∧ op ≠ .lawblk
  targets : targets ops' p = targets ops p
  falls : fallsThrough ops' p → fallsThrough ops p
  width : width ops' p = width ops p ∨
    width ops p = 5 ∧ width ops' p = 4 ∧ opAt ops' (p + 4) = some .nop ∧ fallsThrough ops p

theorem width_mkThk {ops : List Word} {p : Nat} (h : opAt ops p = some .mkThk) :
    width ops p = if isKnown (slot ops (p + 2)) then 5 else 3 := by
  simp [width, h]

theorem opAt_set_self {ops : List Word} {p : Nat} (op : Op) (h : p < ops.length) :
    opAt (ops.set p op.code) p = some op := by
  simp [opAt, h]

theorem Rewrite.effect {ops ops' : List Word} {p : Nat} (h : Rewrite ops p ops')
    (hlen : p + width ops p ≤ ops.length) : Rewrite.Effect ops p ops' := by
  have hpos := width_pos ops p
  have hp : p < ops.length := by omega
  cases h with
  | fuse hop =>
    have hop' : opAt (ops.set p Op.tailcall.code) p = some .tailcall := opAt_set_self _ hp
    refine ⟨by simp, fun i hi => slot_set_ne (by omega), ⟨_, hop', by simp⟩, ?_, ?_, .inl ?_⟩
    · simp [Bytecode.targets, hop, hop']
    · simp [fallsThrough, hop']
    · simp [Bytecode.width, hop, hop']
  | callFast hint hop hknown _ =>
    rw [width_mkThk hop, hknown] at hlen
    have hop' : opAt (((ops.set p Op.callFast.code).set (p + 1) (slot ops (p + 1) - 1)).set
        (p + 2) hint) p = some .callFast := by
      simp [opAt, hp]
    refine ⟨by simp, fun i hi => ?_, ⟨_, hop', by simp⟩, ?_, ?_, .inl ?_⟩
    · rw [width_mkThk hop, hknown] at hi
      simp only [Bool.false_eq_true, if_false] at hi
      rw [slot_set_ne (by omega), slot_set_ne (by omega), slot_set_ne (by omega)]
    · simp [Bytecode.targets, hop, hop']
    · simp [fallsThrough, hop]
    · simp [Bytecode.width, hop, hop', hknown]
  | callKnown hop hknown =>
    rw [width_mkThk hop, hknown] at hlen
    simp only [if_true] at hlen
    have hop' : opAt ((((ops.set p Op.callKnown.code).set (p + 2) (slot ops (p + 3))).set (p + 3)
        (slot ops (p + 4))).set (p + 4) Op.nop.code) p = some .callKnown := by
      simp [opAt, hp]
    refine ⟨by simp, fun i hi => ?_, ⟨_, hop', by simp⟩, ?_, ?_, .inr ⟨?_, ?_, ?_, ?_⟩⟩
    · rw [width_mkThk hop, hknown] at hi
      simp only [if_true] at hi
      rw [slot_set_ne (by omega), slot_set_ne (by omega), slot_set_ne (by omega),
        slot_set_ne (by omega)]
    · simp [Bytecode.targets, hop, hop']
    · simp [fallsThrough, hop]
    · simp [Bytecode.width, hop, hknown]
    · simp [Bytecode.width, hop']
    · rw [opAt, slot_set_self (by simp; omega), Op.ofWord_code]
    · simp [fallsThrough, hop]
  | @opcode old new hop _ hcases =>
    have hop' : opAt (ops.set p new.code) p = some new := opAt_set_self _ hp
    have hout : ∀ i, i < p ∨ p + Bytecode.width ops p ≤ i → slot (ops.set p new.code) i = slot ops i :=
      fun i hi => slot_set_ne (by omega)
    have hslot : ∀ k, slot (ops.set p new.code) (p + 1 + k) = slot ops (p + 1 + k) :=
      fun k => slot_set_ne (by omega)
    have h2 : slot (ops.set p new.code) (p + 2) = slot ops (p + 2) := hslot 1
    refine ⟨by simp, hout, ⟨new, hop', ?_⟩, ?_, ?_, .inl ?_⟩ <;>
      rcases hcases with ⟨rfl, hn⟩ | ⟨rfl, hn⟩ | ⟨rfl, rfl⟩ | ⟨rfl, rfl⟩ <;>
      first
        | (simp only [List.mem_cons, List.not_mem_nil, or_false] at hn
           rcases hn with rfl | rfl | rfl | rfl | rfl <;>
             simp [Bytecode.targets, fallsThrough, Bytecode.width, hop, hop', h2])
        | simp [Bytecode.targets, fallsThrough, Bytecode.width, hop, hop']

namespace Layout

variable {ops ops' : List Word} {n : Nat} {S : Nat → Prop} {flow : Nat → List Nat}

/-- A rewrite leaves the slots of every other instruction. -/
theorem rewrite_same (h : Layout ops n S flow) {p q : Nat} (hp : S p) (hrw : Rewrite ops p ops')
    (hq : S q) (hne : q ≠ p) :
    ∀ i, q ≤ i → i < q + width ops q → slot ops' i = slot ops i := by
  intro i hi hi'
  refine (hrw.effect (Nat.le_trans (h.fits hp) h.length)).outside i ?_
  rcases Nat.lt_or_gt_of_ne hne with hlt | hgt
  · exact .inl (Nat.lt_of_lt_of_le hi' (h.apart hq hp hlt))
  · exact .inr (Nat.le_trans (h.apart hp hq hgt) hi)

/-- A rewrite at a start keeps the layout and every start. The only new start is
that of a filler. -/
theorem rewrite (h : Layout ops n S flow) {p : Nat} (hp : S p) (hrw : Rewrite ops p ops') :
    ∃ S', (∀ q, S q → S' q) ∧
      (∀ q, S' q → S q ∨ q = p + 4 ∧ width ops p = 5 ∧ opAt ops' q = some .nop) ∧
      Layout ops' n S' flow := by
  have hfits := h.fits hp
  have e := hrw.effect (Nat.le_trans hfits h.length)
  -- every other instruction keeps its slots
  have hother : ∀ {q}, S q → q ≠ p → opAt ops' q = opAt ops q ∧ width ops' q = width ops q ∧
      targets ops' q = targets ops q ∧ fallsThrough ops' q = fallsThrough ops q := by
    intro q hq hne
    exact same_instr (h.rewrite_same hp hrw hq hne)
  rcases e.width with hw | ⟨h5, h4, hnop, hfall⟩
  · have hwidth : ∀ {q}, S q → width ops' q = width ops q := by
      intro q hq
      by_cases hqp : q = p
      · rw [hqp, hw]
      · exact (hother hq hqp).2.1
    refine ⟨S, fun _ hq => hq, fun _ hq => .inl hq, ⟨by rw [e.length]; exact h.length, h.zero, h.lt, ?_, ?_, ?_, ?_, ?_,
      ?_, h.flow_nil⟩⟩
    · intro q hq
      rw [hwidth hq]
      exact h.fits hq
    · intro q hq hn
      rw [hwidth hq] at hn ⊢
      exact h.next hq hn
    · intro q hq hf
      rw [hwidth hq]
      by_cases hqp : q = p
      · subst hqp
        exact h.falls hq (e.falls hf)
      · exact h.falls hq ((hother hq hqp).2.2.2 ▸ hf)
    · intro q r hq hr hlt
      rw [hwidth hq]
      exact h.apart hq hr hlt
    · intro q hq
      by_cases hqp : q = p
      · exact hqp ▸ e.exec
      · rw [(hother hq hqp).1]
        exact h.exec hq
    · intro q hq
      by_cases hqp : q = p
      · rw [hqp, e.targets, h.flow_eq hp]
      · rw [(hother hq hqp).2.2.1, h.flow_eq hq]
  · -- the filler is a new start between the call and the next instruction
    have hpn : p + 5 < n := h5 ▸ h.falls hp hfall
    have hnext : S (p + 5) := h5 ▸ h.next hp (by omega)
    have hfree : ∀ {q}, S q → q ≤ p ∨ p + 5 ≤ q := by
      intro q hq
      rcases Nat.lt_or_ge p q with hlt | hge
      · have := h.apart hp hq hlt
        omega
      · exact .inl hge
    have hnew : ¬ S (p + 4) := fun hq => by have := hfree hq; omega
    have hnopw : width ops' (p + 4) = 1 := by simp [width, hnop]
    have hwidth : ∀ {q}, S q → q ≠ p → width ops' q = width ops q :=
      fun hq hne => (hother hq hne).2.1
    refine ⟨fun q => S q ∨ q = p + 4, fun _ hq => .inl hq,
      fun q hq => hq.imp_right fun hq => ⟨hq, h5, hq ▸ hnop⟩, ⟨by rw [e.length]; exact h.length, .inl h.zero, ?_, ?_, ?_, ?_, ?_, ?_, ?_, ?_⟩⟩
    · rintro q (hq | rfl)
      · exact h.lt hq
      · omega
    · rintro q (hq | rfl)
      · by_cases hqp : q = p
        · subst hqp
          omega
        · rw [hwidth hq hqp]
          exact h.fits hq
      · omega
    · rintro q (hq | rfl) hn
      · by_cases hqp : q = p
        · subst hqp
          exact .inr (by omega)
        · rw [hwidth hq hqp] at hn ⊢
          exact .inl (h.next hq hn)
      · rw [hnopw]
        exact .inl hnext
    · rintro q (hq | rfl) hf
      · by_cases hqp : q = p
        · subst hqp
          omega
        · rw [hwidth hq hqp]
          exact h.falls hq ((hother hq hqp).2.2.2 ▸ hf)
      · omega
    · rintro q r (hq | rfl) (hr | rfl) hlt
      · by_cases hqp : q = p
        · subst hqp
          have := hfree hr
          omega
        · rw [hwidth hq hqp]
          exact h.apart hq hr hlt
      · by_cases hqp : q = p
        · subst hqp
          omega
        · have hqp' : q < p := by have := hfree hq; omega
          have := h.apart hq hp hqp'
          rw [hwidth hq hqp]
          omega
      · have := hfree hr
        omega
      · omega
    · rintro q (hq | rfl)
      · by_cases hqp : q = p
        · exact hqp ▸ e.exec
        · rw [(hother hq hqp).1]
          exact h.exec hq
      · exact ⟨_, hnop, by simp⟩
    · rintro q (hq | rfl)
      · by_cases hqp : q = p
        · rw [hqp, e.targets, h.flow_eq hp]
        · rw [(hother hq hqp).2.2.1, h.flow_eq hq]
      · simp [targets, hnop, h.flow_nil hnew]
    · intro q hq
      exact h.flow_nil fun hs => hq (.inl hs)

theorem starts_eq (h : Layout ops n S flow) : S = IsStart ops n :=
  funext fun _ => propext h.starts_iff

/-- `rewrite` for the starts a walk finds. -/
theorem rewrite_isStart (h : Layout ops n (IsStart ops n) flow) {p : Nat} (hp : IsStart ops n p)
    (hrw : Rewrite ops p ops') :
    (∀ q, IsStart ops n q → IsStart ops' n q) ∧
      (∀ q, IsStart ops' n q →
        IsStart ops n q ∨ q = p + 4 ∧ width ops p = 5 ∧ opAt ops' q = some .nop) ∧
      Layout ops' n (IsStart ops' n) flow := by
  obtain ⟨S', hsub, hnew, hl⟩ := h.rewrite hp hrw
  rw [hl.starts_eq] at hsub hnew
  exact ⟨hsub, hnew, hl.starts_eq ▸ hl⟩

end Layout

end Enki.Bytecode
