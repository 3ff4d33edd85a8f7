import Enki.Bytecode.ControlFlow

/-!
# Operand counts

The handlers and the primop lookup convert an operand count to `uint32_t`; the
analyses of ingest take it as it is. `Sized` is what holds at every instruction and
along every rewrite: a resolved primop takes as many arguments as its converted count
says, and an inline opcode takes two. `FitsAt` says that the conversion changes nothing.
-/

namespace Enki.Bytecode

/-- Is the first operand a count of operands that the handlers convert? -/
def counted : Op → Bool
  | .mkThk | .mkApp | .callKnown | .callFast | .callSlow | .callReady | .add | .sub | .cmp
  | .tailcall | .tailReady | .tailAdd | .tailSub | .tailCmp => true
  | _ => false

/-- The count of the instruction at `pc` is not changed by the conversion to `uint32_t`. -/
def FitsAt (ops : List Word) (pc : Nat) : Prop :=
  ∀ op, opAt ops pc = some op → counted op → slot ops (pc + 1) < 2 ^ 32

/-- What the converted count of the instruction at `pc` is. -/
structure SizedAt (ops : List Word) (pc : Nat) : Prop where
  prim : ∀ {idx}, primIdx ops pc = some idx → (plOp idx).argc = Word.u32 (slot ops (pc + 1))
  inline : ∀ {op}, opAt ops pc = some op → op.inline → Word.u32 (slot ops (pc + 1)) = 2

def Sized (ops : List Word) (n : Nat) : Prop := ∀ pc, IsStart ops n pc → SizedAt ops pc

section Rewrite

variable {ops ops' : List Word} {n p : Nat} {flow : Nat → List Nat}

theorem width_counted {op : Op} {pc : Nat} (hop : opAt ops pc = some op) (hc : counted op) :
    pc + 1 < pc + width ops pc := by
  cases op <;> simp_all [counted, width] <;> split <;> omega

theorem counted_inline {op : Op} (h : op.inline) : counted op := by
  cases op <;> simp_all [Op.inline, counted]

/-! ## Along a rewrite -/

/-- An instruction whose slots stay keeps its count. -/
theorem SizedAt.of_same (h : SizedAt ops p)
    (hsame : ∀ i, p ≤ i → i < p + width ops p → slot ops' i = slot ops i) : SizedAt ops' p := by
  have hop := (same_instr hsame).1
  constructor
  · intro idx hidx
    rw [same_primIdx hsame] at hidx
    rw [hsame (p + 1) (by omega) (width_primIdx hidx)]
    exact h.prim hidx
  · intro op hop' hi
    rw [hop] at hop'
    rw [hsame (p + 1) (by omega) (width_counted hop' (counted_inline hi))]
    exact h.inline hop' hi

theorem FitsAt.of_same (h : FitsAt ops p)
    (hsame : ∀ i, p ≤ i → i < p + width ops p → slot ops' i = slot ops i) : FitsAt ops' p := by
  intro op hop hc
  rw [(same_instr hsame).1] at hop
  rw [hsame (p + 1) (by omega) (width_counted hop hc)]
  exact h op hop hc

/-- A new opcode over the same operands. -/
theorem SizedAt.set_opcode (h : SizedAt ops p) {new : Op} (hp : p < ops.length)
    (hprim : primIdx (ops.set p new.code) p = none ∨
      primIdx (ops.set p new.code) p = primIdx ops p)
    (hinline : new.inline → Word.u32 (slot ops (p + 1)) = 2) : SizedAt (ops.set p new.code) p := by
  have hop' := opAt_set_self new hp
  have hcount : slot (ops.set p new.code) (p + 1) = slot ops (p + 1) := slot_set_ne (by omega)
  constructor
  · intro idx hidx
    rw [hcount]
    rcases hprim with hnone | hsame
    · simp [hnone] at hidx
    · exact h.prim (hsame ▸ hidx)
  · intro op hop hi
    obtain rfl : new = op := by simpa [hop'] using hop
    rw [hcount]
    exact hinline hi

theorem SizedAt.rewrite (h : SizedAt ops p) (hrw : Rewrite ops p ops')
    (hlen : p + width ops p ≤ ops.length) : SizedAt ops' p := by
  have hp : p < ops.length := by have := width_pos ops p; omega
  cases hrw with
  | fuse hop =>
    refine h.set_opcode hp (.inr ?_) (by simp [Op.inline])
    have h2 : slot (ops.set p Op.tailcall.code) (p + 2) = slot ops (p + 2) := slot_set_ne (by omega)
    have h3 : slot (ops.set p Op.tailcall.code) (p + 3) = slot ops (p + 3) := slot_set_ne (by omega)
    simp only [primIdx, opAt_set_self Op.tailcall hp, hop, h2, h3]
  | callFast hint hop hk h2 =>
    have hop' : opAt (((ops.set p Op.callFast.code).set (p + 1) (slot ops (p + 1) - 1)).set
        (p + 2) hint) p = some .callFast := by
      simp [opAt, hp]
    constructor
    · simp [primIdx, hop']
    · intro op hop'' hi
      obtain rfl : Op.callFast = op := by simpa [hop'] using hop''
      simp [Op.inline] at hi
  | callKnown hop hk =>
    rw [width_mkThk hop, hk] at hlen
    simp only [if_true] at hlen
    have hop' : opAt ((((ops.set p Op.callKnown.code).set (p + 2) (slot ops (p + 3))).set (p + 3)
        (slot ops (p + 4))).set (p + 4) Op.nop.code) p = some .callKnown := by
      simp [opAt, hp]
    have hcount : slot ((((ops.set p Op.callKnown.code).set (p + 2) (slot ops (p + 3))).set (p + 3)
        (slot ops (p + 4))).set (p + 4) Op.nop.code) (p + 1) = slot ops (p + 1) := by
      simp
    constructor
    · intro idx hidx
      rw [hcount]
      refine h.prim ?_
      simp only [primIdx, hop'] at hidx
      rw [slot_set_ne (by omega), slot_set_ne (by omega), slot_set_self (by simp; omega)] at hidx
      simpa [primIdx, hop, hk] using hidx
    · intro op hop'' hi
      obtain rfl : Op.callKnown = op := by simpa [hop'] using hop''
      simp [Op.inline] at hi
  | @opcode old new hop hinl hcases =>
    have h2 : slot (ops.set p new.code) (p + 2) = slot ops (p + 2) := slot_set_ne (by omega)
    have h3 : slot (ops.set p new.code) (p + 3) = slot ops (p + 3) := slot_set_ne (by omega)
    have hop' := opAt_set_self new hp
    refine h.set_opcode hp ?_ fun hi => ?_
    · rcases hcases with ⟨rfl, hn⟩ | ⟨rfl, hn⟩ | ⟨rfl, rfl⟩ | ⟨rfl, rfl⟩
      · simp only [List.mem_cons, List.not_mem_nil, or_false] at hn
        rcases hn with rfl | rfl | rfl | rfl | rfl <;> simp [primIdx, hop, hop', h2]
      · simp only [List.mem_cons, List.not_mem_nil, or_false] at hn
        rcases hn with rfl | rfl | rfl | rfl | rfl <;> simp [primIdx, hop, hop', h2, h3]
      · simp [primIdx, hop']
      · simp [primIdx, hop']
    · obtain ⟨idx, hidx, hargc⟩ := hinl hi
      rw [← h.prim hidx, hargc]

/-- A rewrite takes a count over, or takes one off it for the head. -/
theorem FitsAt.rewrite (h : FitsAt ops p) (hrw : Rewrite ops p ops')
    (hlen : p + width ops p ≤ ops.length) : FitsAt ops' p := by
  have hp : p < ops.length := by have := width_pos ops p; omega
  have hset : ∀ new : Op, slot (ops.set p new.code) (p + 1) = slot ops (p + 1) :=
    fun _ => slot_set_ne (by omega)
  intro op hop' hc
  cases hrw with
  | fuse hop =>
    rw [hset]
    exact h _ hop rfl
  | callFast hint hop hk h2 =>
    rw [width_mkThk hop, hk] at hlen
    simp only [Bool.false_eq_true, if_false] at hlen
    have hfits := h _ hop rfl
    rw [slot_set_ne (by omega), slot_set_self (by simp; omega)]
    omega
  | callKnown hop hk =>
    have hcount : slot ((((ops.set p Op.callKnown.code).set (p + 2) (slot ops (p + 3))).set (p + 3)
        (slot ops (p + 4))).set (p + 4) Op.nop.code) (p + 1) = slot ops (p + 1) := by
      simp
    rw [hcount]
    exact h _ hop rfl
  | @opcode old new hop hinl hcases =>
    obtain rfl : new = op := by simpa [opAt_set_self new hp] using hop'
    rw [hset]
    refine h _ hop ?_
    rcases hcases with ⟨rfl, -⟩ | ⟨rfl, -⟩ | ⟨rfl, rfl⟩ | ⟨rfl, rfl⟩ <;> simp_all [counted]

theorem sizedAt_nop {pc : Nat} (hop : opAt ops pc = some .nop) : SizedAt ops pc := by
  constructor <;> simp [hop, primIdx, Op.inline]

theorem fitsAt_nop {pc : Nat} (hop : opAt ops pc = some .nop) : FitsAt ops pc := by
  intro op hop' hc
  obtain rfl : Op.nop = op := by simpa [hop] using hop'
  cases hc

theorem Sized.rewrite (h : Sized ops n) (hl : Layout ops n (IsStart ops n) flow)
    (hp : IsStart ops n p) (hrw : Rewrite ops p ops') : Sized ops' n := by
  intro q hq
  have hlen := Nat.le_trans (hl.fits hp) hl.length
  rcases (hl.rewrite_isStart hp hrw).2.1 q hq with hold | ⟨-, -, hnop⟩
  · by_cases hqp : q = p
    · subst hqp
      exact (h q hold).rewrite hrw hlen
    · exact (h q hold).of_same (hl.rewrite_same hp hrw hold hqp)
  · exact sizedAt_nop hnop

theorem Chain.sized {P : Op → Bool} (hc : Chain P n ops ops')
    (hl : Layout ops n (IsStart ops n) flow) (h : Sized ops n) : Sized ops' n := by
  induction hc with
  | refl => exact h
  | step hc hp hrw _ ih => exact ih.rewrite (hc.layout hl).1 hp hrw

end Rewrite

/-- Validation resolves a primop by the converted count. -/
theorem Validated.sized {row : List Word} {c : PlCode} (h : Validated row c) :
    Sized c.ops c.nops := by
  intro pc hpc
  refine ⟨fun hidx => h.prim pc ((h.starts pc).mp hpc) _ hidx, fun {op} hop' hi => ?_⟩
  obtain ⟨op', hop'', hr⟩ := h.rowOps pc hpc (Nat.zero_le pc)
  obtain rfl : op' = op := by simpa [hop''] using hop'
  cases op' <;> simp_all [rowOp, Op.inline]

end Enki.Bytecode
