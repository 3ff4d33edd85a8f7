import Enki.Bytecode.Layout

/-!
# The passes as chains of rewrites

Every pass of ingest changes the stream by rewrites at instruction starts only:
it is a `Chain`, so what a rewrite keeps holds of the final stream when it holds
of the validated one. For the linear passes this is a property of one step; the
eager pass also remembers the producers of its slots, which stay starts.
-/

namespace Enki.Bytecode

/-- Rewrites at instruction starts, each leaving an opcode of kind `P`. -/
inductive Chain (P : Op → Bool) (n : Nat) (ops : List Word) : List Word → Prop where
  | refl : Chain P n ops ops
  | step {ops' p ops''} : Chain P n ops ops' → IsStart ops' n p → Rewrite ops' p ops'' →
      (∃ op, opAt ops'' p = some op ∧ P op) → Chain P n ops ops''

/-- Every instruction from slot `i` on has an opcode of this kind. -/
def AllFrom (P : Op → Bool) (ops : List Word) (n i : Nat) : Prop :=
  ∀ q, IsStart ops n q → i ≤ q → ∃ op, opAt ops q = some op ∧ P op

/-- The opcodes a row may hold. -/
def rowOp : Op → Bool
  | .pushVar | .pushLit | .mkThk | .force | .call | .interp | .ret | .mkApp | .pushSlot | .br
  | .jmp | .entry | .callKnown | .callFast | .callSlow | .tailblk => true
  | _ => false

/-- The opcodes of a stream that has not been specialised. -/
def plainOp (op : Op) : Bool := rowOp op || op == .tailcall || op == .nop

namespace Chain

variable {P P' : Op → Bool} {n : Nat} {ops ops' ops'' : List Word} {flow : Nat → List Nat}

/-- One chain after another. -/
theorem trans (h : Chain P n ops ops') (h' : Chain P n ops' ops'') : Chain P n ops ops'' := by
  induction h' with
  | refl => exact h
  | step _ hp hrw hP ih => exact ih.step hp hrw hP

/-- The kinds of opcodes left may be taken wider. -/
theorem mono (hPP : ∀ op, P op → P' op) (h : Chain P n ops ops') : Chain P' n ops ops' := by
  induction h with
  | refl => exact .refl
  | step _ hp hrw hP ih =>
    obtain ⟨op, hop, hP⟩ := hP
    exact ih.step hp hrw ⟨op, hop, hPP op hP⟩

/-- One rewrite. -/
theorem single {p : Nat} (hp : IsStart ops n p) (hrw : Rewrite ops p ops')
    (hP : ∃ op, opAt ops' p = some op ∧ P op) : Chain P n ops ops' :=
  .step .refl hp hrw hP

/-- A chain keeps the layout and every start. -/
theorem layout (h : Chain P n ops ops') (hl : Layout ops n (IsStart ops n) flow) :
    Layout ops' n (IsStart ops' n) flow ∧ ∀ q, IsStart ops n q → IsStart ops' n q := by
  induction h with
  | refl => exact ⟨hl, fun _ => id⟩
  | step _ hp hrw _ ih =>
    obtain ⟨hl', hsub⟩ := ih
    obtain ⟨hsub', -, hl''⟩ := hl'.rewrite_isStart hp hrw
    exact ⟨hl'', fun q hq => hsub' q (hsub q hq)⟩

end Chain

section Linear

variable {P : Op → Bool} {n : Nat} {flow : Nat → List Nat}

/-- Behind an instruction there is another one, or the end. -/
theorem Layout.next_isStart {ops : List Word} (h : Layout ops n (IsStart ops n) flow) {pc : Nat}
    (hpc : IsStart ops n pc) :
    IsStart ops n (pc + width ops pc) ∨ n ≤ pc + width ops pc := by
  rcases Nat.lt_or_ge (pc + width ops pc) n with hlt | hge
  · exact .inl (h.next hpc hlt)
  · exact .inr hge

/-- The instructions behind a rewrite keep their opcodes. -/
theorem allFrom_rewrite {ops ops' : List Word} {p : Nat}
    (h : Layout ops n (IsStart ops n) flow) (hp : IsStart ops n p) (hrw : Rewrite ops p ops')
    (hall : AllFrom P ops n p) : AllFrom P ops' n (p + width ops p) := by
  intro q hq hle
  obtain ⟨-, hnew, -⟩ := h.rewrite_isStart hp hrw
  have e := hrw.effect (Nat.le_trans (h.fits hp) h.length)
  -- a start that is new is the filler, which is before the next instruction
  rcases hnew q hq with hold | ⟨rfl, h5, -⟩
  · obtain ⟨op, hop, hP⟩ := hall q hold (by omega)
    refine ⟨op, ?_, hP⟩
    rw [opAt, e.outside q (.inr hle)]
    exact hop
  · omega

/-- A rewrite that leaves an opcode of a kind with the filler keeps all of that
kind. -/
theorem allFrom_rewrite_zero {ops ops' : List Word} {p : Nat} (hnop : P .nop)
    (h : Layout ops n (IsStart ops n) flow) (hp : IsStart ops n p) (hrw : Rewrite ops p ops')
    (hP : ∃ op, opAt ops' p = some op ∧ P op) (hall : AllFrom P ops n 0) :
    AllFrom P ops' n 0 := by
  intro q hq _
  obtain ⟨-, hnew, -⟩ := h.rewrite_isStart hp hrw
  have e := hrw.effect (Nat.le_trans (h.fits hp) h.length)
  rcases hnew q hq with hold | ⟨-, -, hop⟩
  · -- before the rewrite, at it, or behind it
    rcases Nat.lt_trichotomy q p with hlt | rfl | hgt
    · rw [opAt, e.outside q (.inl hlt)]
      exact hall q hold (Nat.zero_le q)
    · exact hP
    · rw [opAt, e.outside q (.inr (h.apart hp hold hgt))]
      exact hall q hold (Nat.zero_le q)
  · exact ⟨.nop, hop, hnop⟩

/-- So it is for a chain. By induction on it. -/
theorem Chain.allFrom {ops ops' : List Word} (h : Chain P n ops ops') (hnop : P .nop)
    (hl : Layout ops n (IsStart ops n) flow) (hall : AllFrom P ops n 0) : AllFrom P ops' n 0 := by
  induction h with
  | refl => exact hall
  | step hc hp hrw hP ih => exact allFrom_rewrite_zero hnop (hc.layout hl).1 hp hrw hP ih

/-- What a step of a linear pass may do at an instruction of kind `P`, leaving
one of kind `P'`. -/
def StepSpec (P P' : Op → Bool) (step : List Word → Nat → List Word × Nat) : Prop :=
  ∀ ops i op, opAt ops i = some op → P op → i < ops.length →
    (step ops i).2 = i + width ops i ∧
      ((step ops i).1 = ops ∨
        Rewrite ops i (step ops i).1 ∧ ∃ op', opAt (step ops i).1 i = some op' ∧ P' op')

/-- A linear pass is a chain: it looks at an instruction once, and rewrites none but that. By
induction on the fuel. -/
theorem walk_chain {P' : Op → Bool} {step : List Word → Nat → List Word × Nat}
    (hstep : StepSpec P P' step) (fuel : Nat) :
    ∀ i ops, Layout ops n (IsStart ops n) flow → AllFrom P ops n i →
      (IsStart ops n i ∨ n ≤ i) → Chain P' n ops (walk n step fuel i ops) := by
  induction fuel with
  | zero => exact fun i ops _ _ _ => .refl
  | succ fuel ih =>
    intro i ops hl hall hi
    simp only [walk]
    split
    · exact .refl
    · rename_i hlt
      have hs : IsStart ops n i := hi.resolve_right (by omega)
      have hlen : i < ops.length := hl.slot_lt hs (by have := width_pos ops i; omega)
      obtain ⟨op, hop, hP⟩ := hall i hs (Nat.le_refl i)
      -- the step leaves the instruction, or rewrites it
      obtain ⟨hnext, hsame | ⟨hrw, hP'⟩⟩ := hstep ops i op hop hP hlen
      · rw [hnext, hsame]
        refine ih _ _ hl (fun q hq hle => hall q hq ?_) (hl.next_isStart hs)
        have := width_pos ops i
        omega
      · rw [hnext]
        obtain ⟨hsub, -, hl'⟩ := hl.rewrite_isStart hs hrw
        refine (Chain.single hs hrw hP').trans ?_
        exact ih _ _ hl' (allFrom_rewrite hl hs hrw hall)
          ((hl.next_isStart hs).imp_left (hsub _))

/-- A thunk that is returned at once becomes a tail call. -/
theorem fuseStep_spec (isTarget : List Nat) : StepSpec rowOp plainOp (fuseStep n isTarget) := by
  intro ops i op hop hP hlen
  by_cases hthk : op = .mkThk
  · subst hthk
    rw [width_mkThk hop]
    simp only [fuseStep, hop]
    generalize i + (if isKnown (slot ops (i + 1 + 1)) then 5 else 3) = next
    split
    · exact ⟨rfl, .inr ⟨.fuse hop, _, opAt_set_self _ hlen, rfl⟩⟩
    · exact ⟨rfl, .inl rfl⟩
  · -- any other instruction is passed over
    cases op <;> simp_all [fuseStep, width, rowOp, Nat.add_assoc]

/-- What a known call, and a tail call, may become. -/
theorem numericOpcode_mem (idx : Nat) (tail : Bool) :
    numericOpcode idx tail ∈ if tail then [Op.tailcall, .tailAdd, .tailSub, .tailCmp, .tailReady]
      else [Op.callKnown, .add, .sub, .cmp, .callReady] := by
  simp only [numericOpcode]
  cases tail <;> split_ifs <;> simp_all

/-- Primops that are inlined take two arguments. -/
theorem numericOpcode_inline {idx : Nat} {tail : Bool} (h : (numericOpcode idx tail).inline) :
    (plOp idx).argc = 2 := by
  simp only [numericOpcode] at h
  cases tail <;> split_ifs at h <;> simp_all [Op.inline]

/-- Known calls and tail calls of known primops are specialised. -/
theorem numericStep_spec : StepSpec plainOp (fun _ => true) numericStep := by
  intro ops i op hop hP hlen
  by_cases hknown : op = .callKnown
  · subst hknown
    refine ⟨by simp [numericStep, hop, width], .inr ?_⟩
    simp only [numericStep, hop]
    refine ⟨.opcode hop (fun hi => ⟨_, ?_, numericOpcode_inline hi⟩)
      (.inl ⟨rfl, numericOpcode_mem _ false⟩), _, opAt_set_self _ hlen, trivial⟩
    simp [primIdx, hop]
  · by_cases htail : op = .tailcall
    · subst htail
      simp only [numericStep, hop, width]
      split
      · rename_i hk
        refine ⟨rfl, .inr ⟨.opcode hop (fun hi => ⟨_, ?_, numericOpcode_inline hi⟩)
          (.inr (.inl ⟨rfl, numericOpcode_mem _ true⟩)), _, opAt_set_self _ hlen, trivial⟩⟩
        simp [primIdx, hop, hk]
      · exact ⟨rfl, .inl rfl⟩
    · cases op <;> simp_all [numericStep, width, plainOp, rowOp, Nat.add_assoc]

/-- Pass 3 is a chain. -/
theorem fuseTails_chain (isTarget : List Nat) {ops : List Word}
    (hl : Layout ops n (IsStart ops n) flow) (hall : AllFrom rowOp ops n 0) :
    Chain plainOp n ops (fuseTails n isTarget ops) :=
  walk_chain (fuseStep_spec isTarget) n 0 ops hl hall (.inl hl.zero)

/-- The numeric pass is a chain. -/
theorem numericSpecialise_chain {ops : List Word} (hl : Layout ops n (IsStart ops n) flow)
    (hall : AllFrom plainOp ops n 0) :
    Chain (fun _ => true) n ops (numericSpecialise n ops) :=
  walk_chain numericStep_spec n 0 ops hl hall (.inl hl.zero)

end Linear

section Eager

variable {n : Nat} {flow : Nat → List Nat}

/-- Making an argument eager rewrites its producer, which makes a thunk. -/
theorem eagerApply_rewrite {ops ops' : List Word} {p : Nat} (h : eagerApply ops p = some ops')
    (hlen : p + width ops p ≤ ops.length) :
    Rewrite ops p ops' ∧ ∃ op, opAt ops' p = some op ∧ plainOp op := by
  have hp : p < ops.length := by have := width_pos ops p; omega
  unfold eagerApply at h
  split_ifs at h with hop
  have hop : opAt ops p = some .mkThk := by simpa using hop
  -- the calls leave their head out of the count, so they need two
  have hcall : ∀ {hint} (hb : isKnown (slot ops (p + 2)) = false), 2 ≤ slot ops (p + 1) →
      some (((ops.set p Op.callFast.code).set (p + 1) (slot ops (p + 1) - 1)).set (p + 2) hint) =
        some ops' → Rewrite ops p ops' ∧ ∃ op, opAt ops' p = some op ∧ plainOp op := by
    rintro hint hb h2 hs
    obtain rfl := Option.some.inj hs
    refine ⟨.callFast hint hop hb h2, .callFast, ?_, rfl⟩
    simp [opAt, hp]
  cases hb : Bane.ofWord (slot ops (p + 2)) with
  | none => simp [hb] at h
  | some bane =>
    simp only [hb] at h
    cases bane with
    | fast =>
      simp only at h
      split_ifs at h with hargc
      exact hcall (by simp [isKnown, hb]) (by omega) h
    | slow =>
      simp only at h
      split_ifs at h with hargc
      exact hcall (by simp [isKnown, hb]) (by omega) h
    | prim => simp at h
    | primKnown =>
      obtain rfl := Option.some.inj h
      refine ⟨.callKnown hop (by simp [isKnown, hb]), .callKnown, ?_, rfl⟩
      simp [opAt, hp]

/-- The stream is laid out, and the producers the eager pass remembers are
starts of it. -/
structure EagerInv (n : Nat) (flow : Nat → List Nat) (s : EagerState) : Prop where
  layout : Layout s.ops n (IsStart s.ops n) flow
  producers : ∀ e ∈ s.slots, ∀ p, e.producer = some p → IsStart s.ops n p

namespace EagerInv

variable {s s' : EagerState}

/-- The producer of a slot, also of one that is not there. -/
theorem producer_slot (h : EagerInv n flow s) {k p : Nat} (hp : (s.slot k).producer = some p) :
    IsStart s.ops n p := by
  unfold EagerState.slot at hp
  rcases Nat.lt_or_ge k s.slots.length with hk | hk
  · have hget : s.slots.getD k (EagerSlot.plain false) = s.slots[k] := by simp [List.getD, hk]
    exact h.producers _ (List.getElem_mem hk) p (hget ▸ hp)
  · have hget : s.slots.getD k (EagerSlot.plain false) = EagerSlot.plain false := by
      simp [List.getD, List.getElem?_eq_none hk]
    rw [hget] at hp
    simp [EagerSlot.plain] at hp

/-- A step that leaves the stream and adds no producer but a start. -/
theorem of_slots (h : EagerInv n flow s) (hops : s'.ops = s.ops)
    (hslots : ∀ e ∈ s'.slots, e ∈ s.slots ∨ ∀ p, e.producer = some p → IsStart s.ops n p) :
    EagerInv n flow s' := by
  refine ⟨by rw [hops]; exact h.layout, fun e he p hp => ?_⟩
  rw [hops]
  rcases hslots e he with hold | hnew
  · exact h.producers e hold p hp
  · exact hnew p hp

/-- A push adds a slot, or forgets all of them. -/
theorem push (h : EagerInv n flow s) {e : EagerSlot}
    (he : ∀ p, e.producer = some p → IsStart s.ops n p) : EagerInv n flow (s.push e) := by
  unfold EagerState.push
  split_ifs
  · exact h
  · exact h.of_slots rfl fun _ h' => .inl h'
  · refine h.of_slots rfl fun e' he' => ?_
    rcases List.mem_append.mp he' with hold | hnew
    · exact .inl hold
    · obtain rfl := List.mem_singleton.mp hnew
      exact .inr he

/-- A pop adds none. -/
theorem pop (h : EagerInv n flow s) (k : Nat) : EagerInv n flow (s.pop k) := by
  unfold EagerState.pop
  split_ifs
  · exact h
  · exact h.of_slots rfl fun _ h' => .inl h'
  · exact h.of_slots rfl fun _ h' => .inl (List.mem_of_mem_take h')

end EagerInv

@[simp]
theorem EagerState.push_ops (s : EagerState) (e : EagerSlot) : (s.push e).ops = s.ops := by
  unfold EagerState.push
  split_ifs <;> rfl

@[simp]
theorem EagerState.pop_ops (s : EagerState) (k : Nat) : (s.pop k).ops = s.ops := by
  unfold EagerState.pop
  split_ifs <;> rfl

@[simp]
theorem EagerState.evaluated_ops (s : EagerState) (pc k : Nat) :
    (s.evaluated pc k).ops = s.ops := by
  simp [EagerState.evaluated]

/-- A value that was computed has no producer. -/
theorem EagerInv.evaluated {s : EagerState} (h : EagerInv n flow s) (pc k : Nat) :
    EagerInv n flow (s.evaluated pc k) :=
  ((h.pop k).push (e := EagerSlot.plain true) (by simp [EagerSlot.plain])).of_slots rfl
    fun _ h' => .inl h'

/-- What part of the eager pass does: a chain that keeps the invariant. -/
def EagerChain (n : Nat) (flow : Nat → List Nat) (s s' : EagerState) : Prop :=
  Chain plainOp n s.ops s'.ops ∧ EagerInv n flow s'

/-- The consumer's loop: each argument made eager is one rewrite at the start of
its producer. -/
theorem eagerConsumeFrom_chain (base mask : Nat) (count : Nat) :
    ∀ k s, EagerInv n flow s → EagerChain n flow s (eagerConsumeFrom base mask count k s) := by
  induction count with
  | zero => exact fun k s h => ⟨.refl, h⟩
  | succ count ih =>
    intro k s h
    simp only [eagerConsumeFrom]
    split_ifs with hmask hwhnf
    · exact ih (k + 1) s h
    · exact ih (k + 1) s h
    · split
      · exact ⟨.refl, h⟩
      · rename_i p hp
        split_ifs with hlast hord
        · exact ⟨.refl, h⟩
        · exact ⟨.refl, h⟩
        · split
          · exact ⟨.refl, h⟩
          · rename_i ops' happly
            have hstart := h.producer_slot hp
            have hfits := Nat.le_trans (h.layout.fits hstart) h.layout.length
            obtain ⟨hrw, hP⟩ := eagerApply_rewrite happly hfits
            -- starts stay starts, so the other producers do too
            obtain ⟨hsub, -, hl'⟩ := h.layout.rewrite_isStart hstart hrw
            obtain ⟨hchain, hinv⟩ := ih (k + 1) { s with
                ops := ops'
                slots := s.slots.set (s.source (base + k))
                  { s.slot (s.source (base + k)) with producer := none, whnf := true, evalPc := p }
                lastImpure := max s.lastImpure p
                changed := true } ⟨hl', fun e he q hq => by
              rcases List.mem_or_eq_of_mem_set he with hold | rfl
              · exact hsub q (h.producers e hold q hq)
              · simp at hq⟩
            exact ⟨(Chain.single hstart hrw hP).trans hchain, hinv⟩

/-- All the arguments of a consumer, of which 32 are looked at. -/
theorem eagerConsume_chain {s : EagerState} (h : EagerInv n flow s) (base argc mask : Nat) :
    EagerChain n flow s (eagerConsume s base argc mask) :=
  eagerConsumeFrom_chain base mask (min argc 32) 0 s h

/-- Those of a call of a law, if it is strict in any. -/
theorem eagerCallConsume_chain (m : Mem) (strictMask : Nat) {s : EagerState}
    (h : EagerInv n flow s) (nargs : Nat) :
    EagerChain n flow s (eagerCallConsume m strictMask s nargs) := by
  simp only [eagerCallConsume]
  split_ifs
  · exact ⟨.refl, h⟩
  · exact ⟨.refl, h⟩
  · exact eagerConsume_chain h _ _ _

/-- At the start of a block the slots are new, and have no producers. -/
theorem eagerBlock_inv {s : EagerState} (h : EagerInv n flow s) (st : ReadyState) :
    EagerInv n flow (eagerBlock s st) := by
  refine h.of_slots rfl fun e he => .inr fun p hp => ?_
  simp only [eagerBlock] at he
  split_ifs at he
  · obtain ⟨i, -, rfl⟩ := List.mem_map.mp he
    simp [EagerSlot.plain] at hp
  · simp at he

/-- One instruction: a chain, and control moves to the next instruction. -/
theorem eagerStep_chain {m : Mem} {strictMask : Nat} {states : List ReadyState} {pc next : Nat}
    {s s' : EagerState} (h : EagerInv n flow s) (hpc : IsStart s.ops n pc)
    (hstep : eagerStep m strictMask states pc s = some (s', next)) :
    EagerChain n flow s s' ∧ next = pc + width s.ops pc := by
  have hplain : ∀ {e : EagerSlot}, e.producer = none →
      ∀ p, e.producer = some p → IsStart s.ops n p := by
    intro e he p hp
    simp [he] at hp
  -- an instruction that consumes nothing leaves the stream
  have hkeep : ∀ {t : EagerState}, t.ops = s.ops → EagerInv n flow t → EagerChain n flow s t :=
    fun hops hinv => ⟨hops ▸ .refl, hinv⟩
  -- one that does consumes if it is reached and the slots are there
  have hcons : ∀ {t : EagerState} {a b c : Nat} {d : Prop} [Decidable d], EagerInv n flow t →
      EagerChain n flow t (if d then eagerConsume t a b c else t) := by
    intro t a b c d _ ht
    split_ifs
    · exact eagerConsume_chain ht _ _ _
    · exact ⟨.refl, ht⟩
  unfold eagerStep at hstep
  cases hop : opAt s.ops pc with
  | none => simp [hop] at hstep
  | some op =>
    simp only [hop] at hstep
    cases op with
    | pushVar | pushLit =>
      obtain ⟨rfl, rfl⟩ := Prod.mk.inj (Option.some.inj hstep)
      exact ⟨hkeep (by simp) (h.push (hplain rfl)), by simp [width, hop]⟩
    -- a slot is copied without its producer
    | pushSlot =>
      simp only at hstep
      split_ifs at hstep
      all_goals obtain ⟨rfl, rfl⟩ := Prod.mk.inj (Option.some.inj hstep)
      · exact ⟨hkeep (by simp) (h.push (hplain rfl)), by simp [width, hop]⟩
      · exact ⟨hkeep rfl (h.of_slots rfl fun _ h' => .inl h'), by simp [width, hop]⟩
    | mkThk =>
      obtain ⟨rfl, rfl⟩ := Prod.mk.inj (Option.some.inj hstep)
      refine ⟨hkeep (by simp) ((h.pop _).push fun p hp => ?_), by simp [width, hop]⟩
      obtain rfl : pc = p := by simpa using hp
      simpa using hpc
    | mkApp =>
      obtain ⟨rfl, rfl⟩ := Prod.mk.inj (Option.some.inj hstep)
      exact ⟨hkeep (by simp) ((h.pop _).push (by simp [EagerSlot.plain])), by simp [width, hop]⟩
    | nop | entry =>
      obtain ⟨rfl, rfl⟩ := Prod.mk.inj (Option.some.inj hstep)
      exact ⟨hkeep rfl h, by simp [width, hop]⟩
    | force =>
      obtain ⟨rfl, rfl⟩ := Prod.mk.inj (Option.some.inj hstep)
      obtain ⟨hc, hi⟩ := hcons (a := s.slots.length - 1) (b := 1) (c := 1)
        (d := (s.live && decide (1 ≤ s.slots.length)) = true) h
      exact ⟨⟨by simpa using hc, hi.evaluated _ _⟩, by simp [width, hop]⟩
    | callKnown =>
      obtain ⟨rfl, rfl⟩ := Prod.mk.inj (Option.some.inj hstep)
      obtain ⟨hc, hi⟩ := hcons (a := s.slots.length - slot s.ops (pc + 1 + 0))
        (b := slot s.ops (pc + 1 + 0)) (c := (plOp (slot s.ops (pc + 1 + 1))).strictMask)
        (d := (s.live && decide (slot s.ops (pc + 1 + 0) ≤ s.slots.length)) = true) h
      exact ⟨⟨by simpa using hc, hi.evaluated _ _⟩, by simp [width, hop]⟩
    | callFast =>
      obtain ⟨rfl, rfl⟩ := Prod.mk.inj (Option.some.inj hstep)
      refine ⟨?_, by simp [width, hop]⟩
      split_ifs
      · obtain ⟨hc, hi⟩ := eagerCallConsume_chain m strictMask h (slot s.ops (pc + 1 + 0))
        exact ⟨by simpa using hc, hi.evaluated _ _⟩
      · exact hkeep (by simp) (h.evaluated _ _)
    | callSlow | call | interp =>
      obtain ⟨rfl, rfl⟩ := Prod.mk.inj (Option.some.inj hstep)
      exact ⟨hkeep (by simp) (h.evaluated _ _), by simp [width, hop]⟩
    | tailcall =>
      obtain ⟨rfl, rfl⟩ := Prod.mk.inj (Option.some.inj hstep)
      refine ⟨?_, by simp [width, hop]⟩
      split_ifs
      · obtain ⟨hc, hi⟩ := eagerConsume_chain h (s.slots.length - slot s.ops (pc + 1 + 0))
          (slot s.ops (pc + 1 + 0)) (plOp (slot s.ops (pc + 1 + 2))).strictMask
        exact ⟨hc, hi.of_slots rfl fun _ h' => .inl h'⟩
      · obtain ⟨hc, hi⟩ := eagerCallConsume_chain m strictMask h (slot s.ops (pc + 1 + 0) - 1)
        exact ⟨hc, hi.of_slots rfl fun _ h' => .inl h'⟩
      · exact hkeep rfl (h.of_slots rfl fun _ h' => .inl h')
    | br | jmp | tailblk | ret =>
      obtain ⟨rfl, rfl⟩ := Prod.mk.inj (Option.some.inj hstep)
      exact ⟨hkeep rfl (h.of_slots rfl fun _ h' => .inl h'), by simp [width, hop, Nat.add_assoc]⟩
    | _ => cases hstep

/-- The eager pass over the stream. By induction on the fuel. -/
theorem eagerLoop_chain (m : Mem) (strictMask : Nat) (states : List ReadyState)
    (isTarget : List Nat) (fuel : Nat) :
    ∀ pc s, EagerInv n flow s → (IsStart s.ops n pc ∨ n ≤ pc) →
      EagerChain n flow s (eagerLoop m strictMask n states isTarget fuel pc s) := by
  induction fuel with
  | zero => exact fun pc s h _ => ⟨.refl, h⟩
  | succ fuel ih =>
    intro pc s h hpc
    simp only [eagerLoop]
    split
    · exact ⟨.refl, h⟩
    · rename_i hlt
      have hs : IsStart s.ops n pc := hpc.resolve_right (by omega)
      -- a block begins with slots of its own
      generalize hb : (if s.blockStart = true ∨ pc ∈ isTarget then
        eagerBlock s (states.getD pc ReadyState.unseen) else s) = t
      have ht : EagerInv n flow t ∧ t.ops = s.ops := by
        split_ifs at hb <;> subst hb
        · exact ⟨eagerBlock_inv h _, rfl⟩
        · exact ⟨h, rfl⟩
      obtain ⟨ht, hops⟩ := ht
      rw [← hops] at hs
      cases hstep : eagerStep m strictMask states pc t with
      | none => exact ⟨hops ▸ .refl, ht⟩
      | some r =>
        obtain ⟨s', next⟩ := r
        obtain ⟨⟨hc, hi⟩, rfl⟩ := eagerStep_chain ht hs hstep
        have hnext := (ht.layout.next_isStart hs).imp_left ((hc.layout ht.layout).2 _)
        obtain ⟨hc', hi'⟩ := ih _ s' hi hnext
        exact ⟨hops ▸ hc.trans hc', hi'⟩

/-- The eager pass is a chain. -/
theorem eagerRewrite_chain (m : Mem) (c : PlCode) (states : List ReadyState) (isTarget : List Nat)
    (hl : Layout c.ops c.nops (IsStart c.ops c.nops) flow) :
    Chain plainOp c.nops c.ops (eagerRewrite m c states isTarget).1 :=
  (eagerLoop_chain m c.strictMask states isTarget c.nops 0 ⟨c.ops, [], false, true, false, -1⟩
    ⟨hl, fun e he => by simp at he⟩ (.inl hl.zero)).1

end Eager

section Ready

/-- What comes behind a pop that succeeds. -/
theorem readyPop_bind_ok {s : ReadyState} {k : Nat} {α : Type}
    {f : ReadyState → Except ReadyResult α} {r : α} (h : (readyPop s k >>= f) = .ok r) :
    ∃ s', s.pop k = some s' ∧ f s' = .ok r := by
  unfold readyPop at h
  split at h
  · exact ⟨_, by assumption, h⟩
  · cases h

/-- The analysis sends states along the control flow only. -/
theorem readyTransfer_follows {ops : List Word} {pc : Nat} {s : ReadyState}
    {fs : List (Nat × ReadyState)} (h : readyTransfer ops pc s = .ok fs) :
    ∀ f ∈ fs, f.1 ∈ targets ops pc ∨ fallsThrough ops pc ∧ f.1 = pc + width ops pc := by
  unfold readyTransfer at h
  cases hop : opAt ops pc with
  | none => simp [hop] at h
  | some op =>
    simp only [hop] at h
    cases op with
    | pushVar | pushLit | pushSlot | interp | entry | nop =>
      obtain rfl := Except.ok.inj h
      simp [fallsThrough, width, hop]
    | jmp =>
      obtain rfl := Except.ok.inj h
      simp [targets, hop]
    | force | mkApp | mkThk | callFast | callSlow | callKnown | add | sub | cmp =>
      obtain ⟨s', -, h⟩ := readyPop_bind_ok h
      obtain rfl := Except.ok.inj h
      simp [fallsThrough, width, hop]
    | call =>
      obtain ⟨s', -, h⟩ := readyPop_bind_ok h
      obtain rfl := Except.ok.inj h
      simp [targets, fallsThrough, width, hop]
    | tailblk =>
      obtain ⟨s', -, h⟩ := readyPop_bind_ok h
      obtain rfl := Except.ok.inj h
      simp [targets, hop]
    | br =>
      obtain ⟨s', -, h⟩ := readyPop_bind_ok h
      obtain rfl := Except.ok.inj h
      rintro f hf
      obtain ⟨k, hk, rfl⟩ := List.mem_map.mp hf
      refine .inl ?_
      simp only [targets, hop]
      exact List.mem_map.mpr ⟨k, hk, by congr 1; omega⟩
    | ret | tailcall | tailAdd | tailSub | tailCmp =>
      obtain ⟨s', -, h⟩ := readyPop_bind_ok h
      obtain rfl := Except.ok.inj h
      simp
    | _ => simp at h

/-- Inversion of `ready_rewrite` at a slot. -/
theorem readyOp_cases {ops : List Word} {pc : Nat} {s : ReadyState} {op : Op}
    (h : readyOp ops pc s = some op) : 0 ≤ s.depth ∧
      ((opAt ops pc = some .force ∧ op = .forceReady ∨ opAt ops pc = some .ret ∧ op = .retReady) ∧
          0 < s.depth ∧ s.get (s.depth - 1).toNat ∨
        opAt ops pc = some .callKnown ∧ op = .callReady ∧
          s.args (slot ops (pc + 1)) (slot ops (pc + 2)) ∨
        opAt ops pc = some .tailcall ∧ op = .tailReady ∧ isKnown (slot ops (pc + 2)) ∧
          s.args (slot ops (pc + 1)) (slot ops (pc + 3))) := by
  -- every case is guarded by one condition
  have hsome : ∀ {b : Bool} {new : Op}, (if b then some new else none) = some op →
      b = true ∧ op = new := by
    intro b new h
    cases b <;> simp_all
  simp only [readyOp] at h
  split at h
  · cases h
  · rename_i hneg
    refine ⟨by omega, ?_⟩
    cases hop : opAt ops pc with
    | none => simp [hop] at h
    | some old =>
      rw [hop] at h
      cases old with
      | force | ret =>
        obtain ⟨htop, rfl⟩ := hsome h
        simp only [Bool.and_eq_true, decide_eq_true_eq] at htop
        exact .inl ⟨by simp, by omega, htop.2⟩
      | callKnown =>
        obtain ⟨hargs, rfl⟩ := hsome h
        exact .inr (.inl ⟨rfl, rfl, hargs⟩)
      | tailcall =>
        obtain ⟨hargs, rfl⟩ := hsome h
        simp only [Bool.and_eq_true] at hargs
        exact .inr (.inr ⟨rfl, rfl, hargs.1, hargs.2⟩)
      | _ => cases h

/-- The ready pass only replaces opcodes. -/
theorem readyOp_rewrite {ops : List Word} {pc : Nat} {s : ReadyState} {op : Op}
    (h : readyOp ops pc s = some op) : Rewrite ops pc (ops.set pc op.code) := by
  obtain ⟨-, ⟨⟨hop, rfl⟩ | ⟨hop, rfl⟩, -⟩ | ⟨hop, rfl, -⟩ | ⟨hop, rfl, -⟩⟩ := readyOp_cases h
  · exact .opcode hop (by simp [Op.inline]) (.inr (.inr (.inl ⟨rfl, rfl⟩)))
  · exact .opcode hop (by simp [Op.inline]) (.inr (.inr (.inr ⟨rfl, rfl⟩)))
  · exact .opcode hop (by simp [Op.inline]) (.inl ⟨rfl, by simp⟩)
  · exact .opcode hop (by simp [Op.inline]) (.inr (.inl ⟨rfl, by simp⟩))

/-- A laid-out program: targets below its end, the strict entry and the law
blocks are starts. Targets at or past the end are not looked at. -/
structure Program (c : PlCode) (flow : Nat → List Nat) : Prop where
  layout : Layout c.ops c.nops (IsStart c.ops c.nops) flow
  target : ∀ {pc t}, t ∈ flow pc → t < c.nops → IsStart c.ops c.nops t
  strict : c.strictEntry ≠ 0 → IsStart c.ops c.nops c.strictEntry
  law : ∀ {b}, b ∈ c.lawblks → IsStart c.ops c.nops b.target

/-- A chain leaves a program laid out. -/
theorem Program.chain {P : Op → Bool} {c : PlCode} {flow : Nat → List Nat} {ops' : List Word}
    (h : Program c flow) (hc : Chain P c.nops c.ops ops') : Program { c with ops := ops' } flow := by
  obtain ⟨hl, hsub⟩ := hc.layout h.layout
  exact ⟨hl, fun ht hlt => hsub _ (h.target ht hlt), fun hs => hsub _ (h.strict hs),
    fun hb => hsub _ (h.law hb)⟩

/-- A state that was merged is not unseen. -/
theorem merge_depth {d s d' : ReadyState} (h : d.merge s = some d') : d'.depth ≠ -1 := by
  simp only [ReadyState.merge] at h
  split_ifs at h <;> obtain rfl := Option.some.inj h <;> simp_all [ReadyState.unknown]
  all_goals omega

variable {c : PlCode} {flow : Nat → List Nat}

/-- The points the analysis reaches are instruction starts. -/
theorem reached_kept (h : Program c flow) :
    Worklist.Kept (readiness c.ops) (fun d => d.depth ≠ -1)
      (fun pc d => pc < c.nops ∧ (d.depth ≠ -1 → IsStart c.ops c.nops pc))
      (fun pc _ => pc < c.nops → IsStart c.ops c.nops pc) where
  joined := merge_depth
  join := fun hd hs _ => ⟨hd.1, fun _ => hs hd.1⟩
  transfer := by
    intro pc d fs hlive hd hfs f hf hlt
    have hpc := hd.2 hlive
    rcases readyTransfer_follows hfs f hf with ht | ⟨hfall, hnext⟩
    · rw [h.layout.flow_eq hpc] at ht
      exact h.target ht hlt
    · rw [hnext]
      exact h.layout.next hpc (hnext ▸ hlt)

/-- The analysis starts at the start, at the strict entry and at the blocks. -/
theorem readyEntries_start (h : Program c flow) :
    ∀ f ∈ readyEntries c, IsStart c.ops c.nops f.1 := by
  intro f hf
  simp only [readyEntries, List.mem_append, List.mem_singleton, List.mem_map] at hf
  rcases hf with (rfl | hf) | ⟨b, hb, rfl⟩
  · exact h.layout.zero
  · split_ifs at hf with hs
    · obtain rfl := List.mem_singleton.mp hf
      exact h.strict hs
    · simp at hf
  · exact h.law hb

/-- The analysis is a worklist, run on the states of its entries. -/
theorem readyAnalyse_solve {states : List ReadyState} (h : readyAnalyse c = .ok states) :
    Worklist.solve (readiness c.ops) (c.nops * 512)
      (Worklist.flows (readiness c.ops) ⟨List.replicate c.nops .unseen, []⟩ (readyEntries c)) =
        .ok states := by
  simp only [readyAnalyse] at h
  split at h <;> simp_all

/-- Before any state is sent, every point is unseen. -/
theorem holds_unseen {P : Nat → ReadyState → Prop} {live : ReadyState → Prop}
    (hP : ∀ pc, pc < c.nops → P pc .unseen) :
    Worklist.Holds live P ⟨List.replicate c.nops .unseen, []⟩ := by
  intro pc d hd
  obtain ⟨hlt, rfl⟩ : pc < c.nops ∧ ReadyState.unseen = d := by
    simpa [List.getElem?_replicate] using hd
  exact ⟨hP pc hlt, by simp⟩

/-- What it has seen is an instruction. -/
theorem readyAnalyse_reached (h : Program c flow) {states : List ReadyState}
    (hs : readyAnalyse c = .ok states) {pc : Nat} {s : ReadyState} (hpc : states[pc]? = some s)
    (hd : s.depth ≠ -1) : IsStart c.ops c.nops pc := by
  have hinit := Worklist.flows_holds (reached_kept h) (readyEntries c) _
    (holds_unseen fun pc hlt => ⟨hlt, by simp [ReadyState.unseen]⟩)
    fun f hf _ => readyEntries_start h f hf
  have hsolve := readyAnalyse_solve hs
  exact (((Worklist.solve_invariant (reached_kept h) _ _ hinit).1 states hsolve) pc s hpc).2 hd

/-- The ready pass is a chain. -/
theorem readyRewrite_chain (h : Program c flow) {states : List ReadyState}
    (hs : readyAnalyse c = .ok states) (k : Nat) :
    Chain (fun _ => true) c.nops c.ops (readyRewrite c.ops states k) := by
  induction k with
  | zero => exact .refl
  | succ k ih =>
    simp only [readyRewrite]
    split
    · rename_i op hop
      have hl := ih.layout h.layout
      -- only what was seen is rewritten
      have hstate : (states.getD k .unseen).depth ≠ -1 := by
        intro hd
        rw [readyOp, if_pos (by omega)] at hop
        cases hop
      have hk : states[k]? = some (states.getD k .unseen) := by
        cases hk : states[k]? with
        | none => simp [hk, ReadyState.unseen] at hstate
        | some s => simp [hk]
      have hstart := hl.2 k (readyAnalyse_reached h hs hk hstate)
      have hlen : k < (readyRewrite c.ops states k).length :=
        hl.1.slot_lt hstart (by have := width_pos (readyRewrite c.ops states k) k; omega)
      refine ih.step hstart (readyOp_rewrite hop) ⟨op, opAt_set_self op hlen, rfl⟩
    · exact ih

end Ready

section Optimise

variable {c c' : PlCode} {flow : Nat → List Nat}

/-- Code that differs from `c` by rewrites of its stream only. -/
def Rewritten (P : Op → Bool) (c c' : PlCode) : Prop :=
  Chain P c.nops c.ops c'.ops ∧ c' = { c with ops := c'.ops }

/-- The length stays, -/
theorem Rewritten.nops {P : Op → Bool} (h : Rewritten P c c') : c'.nops = c.nops := by
  rw [h.2]

/-- and the layout. -/
theorem Rewritten.program {P : Op → Bool} (h : Rewritten P c c') (hp : Program c flow) :
    Program c' flow := by
  obtain ⟨hc, heq⟩ := h
  rw [heq]
  exact hp.chain hc

/-- Rounds of the eager pass, until nothing changes. By induction on how many are left. -/
theorem eagerRounds_rewritten (m : Mem) (isTarget : List Nat) (rounds : Nat) :
    ∀ c, Program c flow → Rewritten plainOp c (eagerRounds m isTarget rounds c).1 := by
  induction rounds with
  | zero => exact fun c _ => ⟨.refl, rfl⟩
  | succ rounds ih =>
    intro c hp
    simp only [eagerRounds]
    split
    · exact ⟨.refl, rfl⟩
    · rename_i states _
      have hc := eagerRewrite_chain m c states isTarget hp.layout
      split_ifs
      · obtain ⟨hc', heq⟩ := ih _ (hp.chain hc)
        exact ⟨hc.trans hc', by rw [heq]⟩
      · exact ⟨hc, rfl⟩

/-- One after the other. -/
theorem Rewritten.trans {P : Op → Bool} {c₁ c₂ c₃ : PlCode} (h : Rewritten P c₁ c₂)
    (h' : Rewritten P c₂ c₃) : Rewritten P c₁ c₃ := by
  obtain ⟨hc', heq'⟩ := h'
  rw [h.nops] at hc'
  obtain ⟨hc, heq⟩ := h
  exact ⟨hc.trans hc', by rw [heq', heq]⟩

/-- The ready variants, if there are any. -/
theorem readyVariants_rewritten (hp : Program c flow) :
    Rewritten (fun _ => true) c (readyVariants c).code := by
  unfold readyVariants
  split
  · rename_i states hs
    exact ⟨readyRewrite_chain hp hs c.nops, rfl⟩
  · exact ⟨.refl, rfl⟩

/-- The code the last analysis is run on. -/
theorem specialised_rewritten {m : Mem} {isTarget : List Nat} {c₁ : PlCode} {r : ReadyResult}
    (hp : Program c flow) (hall : AllFrom plainOp c.ops c.nops 0)
    (h : eagerRounds m isTarget 64 c = (c₁, r)) :
    Rewritten (fun _ => true) c { c₁ with ops := numericSpecialise c₁.nops c₁.ops } := by
  have hr := eagerRounds_rewritten m isTarget 64 c hp
  rw [h] at hr
  have hall₁ : AllFrom plainOp c₁.ops c₁.nops 0 := by
    rw [hr.nops]
    exact hr.1.allFrom rfl hp.layout hall
  have hn := numericSpecialise_chain (hr.program hp).layout hall₁
  exact Rewritten.trans ⟨hr.1.mono fun _ _ => rfl, hr.2⟩ ⟨hn, rfl⟩

/-- All the private rewrites together are a chain. -/
theorem bytecodeOptimise_rewritten (m : Mem) (isTarget : List Nat) (hp : Program c flow)
    (hall : AllFrom plainOp c.ops c.nops 0) :
    Rewritten (fun _ => true) c (bytecodeOptimise m c isTarget).code := by
  unfold bytecodeOptimise
  split_ifs
  · exact ⟨.refl, rfl⟩
  · split
    · rename_i c₁ heq
      have hr := specialised_rewritten hp hall heq
      exact hr.trans (readyVariants_rewritten (hr.program hp))
    · rename_i c₁ r _ heq
      have hr := eagerRounds_rewritten m isTarget 64 c hp
      rw [heq] at hr
      exact ⟨hr.1.mono fun _ _ => rfl, hr.2⟩

end Optimise

end Enki.Bytecode
