import Enki.Bytecode.Counts

/-!
# Soundness of the readiness analysis

`Describes` says what a state of the analysis promises about an operand stack
and the variables. The join only weakens promises, each visit sends promises
that the instruction keeps, and the worklist ends with all of them covered, so a
frame at `pc` is described by the state found there throughout every execution.
-/

namespace Enki.Bytecode

/-- What a state promises: a known height, and values in the slots and variables
marked ready. An unseen state promises that control does not get here. -/
structure Describes (s : ReadyState) (vars : Vars) (stack : List Word) : Prop where
  seen : s.depth ≠ -1
  bound : s.depth ≤ readySlots
  height : 0 ≤ s.depth → (stack.length : Int) = s.depth
  slots : ∀ k, s.get k → ∃ w, stack[k]? = some w ∧ w.isWhnf
  vars : 0 ≤ s.depth → ∀ v, s.vars.testBit v → ∃ w, vars.get v = some w ∧ w.isWhnf

/-- `d` promises no more than `s`. -/
def Weaker (s d : ReadyState) : Prop := ∀ vars stack, Describes s vars stack → Describes d vars stack

theorem ReadyState.get_iff {s : ReadyState} {k : Nat} :
    s.get k ↔ 0 ≤ s.depth ∧ (k : Int) < s.depth ∧ s.bits.testBit k := by
  simp [ReadyState.get, and_assoc]

open ReadyState (get_iff)

/-- Of an unknown shape nothing is promised. -/
theorem describes_unknown {s : ReadyState} (h : s.depth < 0) (hseen : s.depth ≠ -1) (vars : Vars)
    (stack : List Word) : Describes s vars stack := by
  refine ⟨hseen, by omega, by omega, fun k hk => ?_, by omega⟩
  have := (get_iff.1 hk).1
  omega

section Join

variable {d s d' : ReadyState}

/-- What is sent, as the join takes it: a negative depth says nothing. -/
def ReadyState.normal (s : ReadyState) : ReadyState := if s.depth < 0 then .unknown else s

def ReadyState.meet (d s : ReadyState) : ReadyState := ⟨d.depth, d.bits &&& s.bits, d.vars &&& s.vars⟩

theorem merge_some (h : d.merge s = some d') :
    d.depth = -1 ∧ d' = s.normal ∨ d' = .unknown ∨ s.normal.depth = d.depth ∧ d' = d.meet s.normal := by
  simp only [ReadyState.merge] at h
  rw [← ReadyState.normal] at h
  split_ifs at h with hunseen hunknown hne
  · exact .inl ⟨hunseen, (Option.some.inj h).symm⟩
  · exact .inr (.inl (Option.some.inj h).symm)
  · exact .inr (.inr ⟨not_not.mp hne, (Option.some.inj h).symm⟩)

theorem merge_none (h : d.merge s = none) :
    d.depth = -2 ∨ s.normal.depth = d.depth ∧ d.meet s.normal = d := by
  simp only [ReadyState.merge] at h
  rw [← ReadyState.normal] at h
  split_ifs at h with hunseen hunknown hne hmet
  · exact .inl hunknown
  · exact .inr ⟨not_not.mp hne, hmet⟩

/-- Fewer bits promise less. -/
theorem weaker_of_bits (hd : d.depth = s.depth) (hb : ∀ k, d.bits.testBit k → s.bits.testBit k)
    (hv : ∀ k, d.vars.testBit k → s.vars.testBit k) : Weaker s d := by
  intro vars stack h
  refine ⟨hd ▸ h.seen, hd ▸ h.bound, fun h0 => by rw [hd]; exact h.height (hd ▸ h0), ?_, ?_⟩
  · intro k hk
    obtain ⟨h0, hlt, hbit⟩ := get_iff.1 hk
    exact h.slots k (get_iff.2 ⟨hd ▸ h0, hd ▸ hlt, hb k hbit⟩)
  · exact fun h0 v hv' => h.vars (hd ▸ h0) v (hv v hv')

theorem weaker_unknown : Weaker s .unknown := fun vars stack _ =>
  describes_unknown (by decide) (by decide) vars stack

theorem weaker_normal : Weaker s s.normal := by
  unfold ReadyState.normal
  split_ifs
  · exact weaker_unknown
  · exact fun _ _ => id

theorem Weaker.trans {a b c : ReadyState} (h : Weaker a b) (h' : Weaker b c) : Weaker a c :=
  fun vars stack hs => h' vars stack (h vars stack hs)

theorem weaker_meet_left : Weaker d (d.meet s) :=
  weaker_of_bits rfl (by simp +contextual [ReadyState.meet]) (by simp +contextual [ReadyState.meet])

theorem weaker_meet_right (h : s.depth = d.depth) : Weaker s (d.meet s) :=
  weaker_of_bits h.symm (by simp [ReadyState.meet]) (by simp [ReadyState.meet])

theorem merge_sound (ops : List Word) : Worklist.JoinSound (readiness ops) Weaker where
  refl _ _ _ := id
  trans := Weaker.trans
  left := by
    intro d s d' h
    rcases merge_some h with ⟨hunseen, -⟩ | rfl | ⟨-, rfl⟩
    · exact fun vars stack hd => absurd hunseen hd.seen
    · exact weaker_unknown
    · exact weaker_meet_left
  right := by
    intro d s d' h
    rcases merge_some h with ⟨-, rfl⟩ | rfl | ⟨hd, rfl⟩
    · exact weaker_normal
    · exact weaker_unknown
    · exact weaker_normal.trans (weaker_meet_right hd)
  unchanged := by
    intro d s h
    rcases merge_none h with hunknown | ⟨hd, hmet⟩
    · exact fun vars stack _ => describes_unknown (by omega) (by omega) vars stack
    · exact weaker_normal.trans (hmet ▸ weaker_meet_right hd)

end Join

section Transfer

variable {s s' : ReadyState} {vars : Vars} {stack : List Word}

theorem testBit_putBit (bits k i : Nat) (known : Bool) :
    (ReadyState.putBit bits k known).testBit i = if i = k then known else bits.testBit i := by
  unfold ReadyState.putBit
  by_cases hi : i = k
  · subst hi
    cases known <;> simp
  · cases known <;> simp [hi, Ne.symm hi]

/-- Pushing a word that is a value if it is said to be one. -/
theorem Describes.push (h : Describes s vars stack) {known : Bool} {w : Word}
    (hw : 0 ≤ s.depth → known → w.isWhnf) : Describes (s.push known) vars (stack ++ [w]) := by
  unfold ReadyState.push
  split_ifs with hneg hfull
  · exact describes_unknown hneg h.seen _ _
  · exact describes_unknown (by simp) (by simp) _ _
  · have hlen := h.height (by omega)
    have hb := h.bound
    refine ⟨by simp only; omega, by simp only; omega, fun _ => ?_, fun k hk => ?_, fun _ => h.vars (by omega)⟩
    · simp only [List.length_append, List.length_singleton]
      omega
    · obtain ⟨-, hlt, hbit⟩ := get_iff.1 hk
      simp only [testBit_putBit] at hlt hbit
      split_ifs at hbit with hk'
      · -- the slot just pushed
        have : k = stack.length := by omega
        subst this
        exact ⟨w, by simp, hw (by omega) hbit⟩
      · obtain ⟨v, hv, hv'⟩ := h.slots k (get_iff.2 ⟨by omega, by omega, hbit⟩)
        refine ⟨v, ?_, hv'⟩
        rw [List.getElem?_append_left (by omega)]
        exact hv

theorem Describes.pop (h : Describes s vars stack) {k : Nat} (hp : s.pop k = some s') :
    Describes s' vars (below stack k) := by
  unfold ReadyState.pop at hp
  split_ifs at hp with hneg hlt <;> obtain rfl := Option.some.inj hp
  · exact describes_unknown hneg h.seen _ _
  · have hlen := h.height (by omega)
    have hb := h.bound
    refine ⟨by simp only; omega, by simp only; omega, fun _ => ?_, fun i hi => ?_, fun _ => h.vars (by omega)⟩
    · simp only [below, List.length_take]
      omega
    · obtain ⟨-, hi, hbit⟩ := get_iff.1 hi
      simp only [Nat.testBit_mod_two_pow, Bool.and_eq_true, decide_eq_true_eq] at hi hbit
      obtain ⟨v, hv, hv'⟩ := h.slots i (get_iff.2 ⟨by omega, by omega, hbit.2⟩)
      refine ⟨v, ?_, hv'⟩
      rw [below, List.getElem?_take_of_lt (by omega)]
      exact hv

/-- Past the tracked slots a pop that does not fail says that nothing is known,
so any count will do. -/
theorem Describes.pop_head (h : Describes s vars stack) {argc : Nat}
    (hp : s.pop (headCount argc) = some s') : Describes s' vars (below stack (argc + 1)) := by
  unfold headCount at hp
  split_ifs at hp with hlt
  · exact h.pop hp
  · have hb := h.bound
    unfold ReadyState.pop at hp
    split_ifs at hp with hneg hover <;> obtain rfl := Option.some.inj hp
    · exact describes_unknown hneg h.seen _ _
    · exact absurd hover (by push_cast; omega)

/-- A count that is popped is one the handlers read as it is, or nothing is known. -/
theorem Describes.pop_count (h : Describes s vars stack) {k : Nat} (hp : s.pop k = some s') :
    Describes s' vars (below stack (Word.u32 k)) := by
  by_cases hneg : s.depth < 0
  · unfold ReadyState.pop at hp
    rw [if_pos hneg] at hp
    obtain rfl := Option.some.inj hp
    exact describes_unknown hneg h.seen _ _
  · have hb := h.bound
    have hle : (k : Int) ≤ s.depth := by
      unfold ReadyState.pop at hp
      split_ifs at hp
      omega
    have hlt : k < 2 ^ 32 := by
      simp only [readySlots] at hb
      omega
    rw [Word.u32_of_lt hlt]
    exact h.pop hp

theorem Describes.pop_head_count (h : Describes s vars stack) {argc : Nat}
    (hp : s.pop (headCount argc) = some s') :
    Describes s' vars (below stack (Word.u32 argc + 1)) := by
  by_cases hlt : argc < 2 ^ 32
  · rw [Word.u32_of_lt hlt]
    exact h.pop_head hp
  · -- more than is ever tracked
    have hb := h.bound
    have hbig : headCount argc = readySlots + 1 := by
      unfold headCount
      exact if_neg (by simp only [readySlots]; omega)
    rw [hbig] at hp
    unfold ReadyState.pop at hp
    split_ifs at hp with hneg hover <;> obtain rfl := Option.some.inj hp
    · exact describes_unknown hneg h.seen _ _
    · exact absurd hover (by push_cast; omega)

/-- Block arguments are operands nothing is known of. -/
theorem describes_blockArgs (vars : Vars) {args : List Word} {argc : Nat} (h : args.length = argc) :
    Describes (.blockArgs argc) vars args := by
  unfold ReadyState.blockArgs
  refine ⟨?_, ?_, ?_, fun k hk => ?_, by simp⟩
  · simp only
    split_ifs <;> omega
  · simp only
    split_ifs <;> omega
  · simp only
    split_ifs <;> omega
  · have := (get_iff.1 hk).2.2
    simp at this

end Transfer

section Rewrite

theorem readyOp_congr {ops ops' : List Word} {pc : Nat} {s : ReadyState}
    (h : ∀ i, pc ≤ i → slot ops' i = slot ops i) : readyOp ops' pc s = readyOp ops pc s := by
  simp only [readyOp, opAt, h pc (Nat.le_refl pc), Nat.add_zero, Nat.add_assoc,
    h (pc + _) (Nat.le_add_right ..)]

/-- What the ready pass leaves in a slot. -/
theorem slot_readyRewrite {ops : List Word} (states : List ReadyState) (n : Nat) :
    n ≤ ops.length → (readyRewrite ops states n).length = ops.length ∧
      ∀ i, slot (readyRewrite ops states n) i =
        if i < n then ((readyOp ops i (states.getD i .unseen)).map Op.code).getD (slot ops i)
        else slot ops i := by
  induction n with
  | zero => exact fun _ => ⟨rfl, fun i => rfl⟩
  | succ n ih =>
    intro hn
    obtain ⟨hlen, hslot⟩ := ih (by omega)
    have hread : readyOp (readyRewrite ops states n) n (states.getD n .unseen) =
        readyOp ops n (states.getD n .unseen) :=
      readyOp_congr fun i hi => by rw [hslot i, if_neg (by omega)]
    simp only [readyRewrite, hread]
    cases hop : readyOp ops n (states.getD n .unseen) with
    | none =>
      refine ⟨hlen, fun i => ?_⟩
      rcases Nat.lt_trichotomy i n with hlt | rfl | hgt
      · rw [hslot i, if_pos hlt, if_pos (by omega)]
      · rw [hslot i, if_neg (by omega), if_pos (by omega), hop]
        rfl
      · rw [hslot i, if_neg (by omega), if_neg (by omega)]
    | some op =>
      refine ⟨by simp [hlen], fun i => ?_⟩
      rcases Nat.lt_trichotomy i n with hlt | rfl | hgt
      · rw [slot_set_ne (by omega), hslot i, if_pos hlt, if_pos (by omega)]
      · rw [slot_set_self (by omega), if_pos (by omega), hop]
        rfl
      · rw [slot_set_ne (by omega), hslot i, if_neg (by omega), if_neg (by omega)]

end Rewrite

/-- A completed analysis: everything sent to a point is covered by its state. -/
structure Solved (c : PlCode) (states : List ReadyState) : Prop where
  length : states.length = c.nops
  entries : ∀ f ∈ readyEntries c, Worklist.Covered Weaker states f
  settled : ∀ pc, Worklist.Settled (readiness c.ops) Weaker (fun d => d.depth = -1) states pc
  unknown : ∀ {pc : Nat} {s : ReadyState}, states[pc]? = some s → s.depth < 0 → s.vars = 0
  start : ∀ {pc : Nat} {s : ReadyState}, states[pc]? = some s → s.depth ≠ -1 → IsStart c.ops c.nops pc

section Solve

variable {c : PlCode} {flow : Nat → List Nat} {states : List ReadyState}

theorem unknown_kept (ops : List Word) :
    Worklist.Kept (readiness ops) (fun _ => True) (fun _ d => d.depth < 0 → d.vars = 0)
      (fun _ _ => True) where
  joined := fun _ => trivial
  transfer := fun _ _ _ _ _ => trivial
  join := by
    intro pc d s d' hd _ h hneg
    rcases merge_some h with ⟨-, rfl⟩ | rfl | ⟨-, rfl⟩
    · unfold ReadyState.normal at hneg ⊢
      split_ifs at hneg ⊢ with h0
      · rfl
      · exact absurd hneg h0
    · rfl
    · simp [ReadyState.meet, hd hneg]

theorem readyAnalyse_solved (hp : Program c flow) (h : readyAnalyse c = .ok states) :
    Solved c states := by
  have hsolve := readyAnalyse_solve h
  have hj := merge_sound c.ops
  have hinit : ∀ pc, Worklist.Settled (readiness c.ops) Weaker (fun d => d.depth = -1)
      (List.replicate c.nops ReadyState.unseen) pc := by
    intro pc d hd
    obtain ⟨-, rfl⟩ : pc < c.nops ∧ ReadyState.unseen = d := by
      simpa [List.getElem?_replicate] using hd
    exact .inl rfl
  obtain ⟨hset, hcov⟩ := Worklist.solve_stable hj _ _ hsolve fun pc =>
    Worklist.flows_settled hj _ (.inr (hinit pc))
  refine ⟨?_, fun f hf => hcov f (Worklist.flows_covers hj _ hf), hset, fun {pc s} hs => ?_,
    fun hs hd => readyAnalyse_reached hp h hs hd⟩
  · rw [Worklist.solve_length _ _ hsolve, Worklist.flows_length, List.length_replicate]
  · have hholds := Worklist.flows_holds (unknown_kept c.ops) (readyEntries c) _
      (holds_unseen (c := c) fun pc _ => by simp [ReadyState.unseen]) fun _ _ => trivial
    exact (Worklist.solve_invariant (unknown_kept c.ops) _ _ hholds).1 states hsolve pc s hs

end Solve

section Step

/-- The opcode the analysis saw where a ready variant stands. -/
def Op.base : Op → Op
  | .forceReady => .force
  | .retReady => .ret
  | .callReady => .callKnown
  | .tailReady => .tailcall
  | op => op

theorem readyOp_base {ops : List Word} {pc : Nat} {s : ReadyState} {op : Op}
    (h : readyOp ops pc s = some op) : opAt ops pc = some op.base := by
  obtain ⟨-, ⟨⟨hop, rfl⟩ | ⟨hop, rfl⟩, -⟩ | ⟨hop, rfl, -⟩ | ⟨hop, rfl, -⟩⟩ := readyOp_cases h <;>
    exact hop

/-- The code with its ready variants. -/
def PlCode.ready (c : PlCode) (states : List ReadyState) : PlCode :=
  { c with ops := readyRewrite c.ops states c.nops }

variable {c : PlCode} {flow : Nat → List Nat} {states : List ReadyState}

/-- The instruction at a described point: its opcode is the analysed one or the
ready variant that the state found there justifies, and its operands stay. -/
structure ReadyAt (c : PlCode) (states : List ReadyState) (pc : Nat) (s : ReadyState) (op : Op) :
    Prop where
  base : opAt c.ops pc = some op.base
  justified : op.base = op ∨ readyOp c.ops pc s = some op
  operand : ∀ i, pc < i → i < pc + width c.ops pc → slot (c.ready states).ops i = slot c.ops i

theorem Solved.readyAt (h : Solved c states) (hp : Program c flow) {pc : Nat} {s : ReadyState}
    {op : Op} (hs : states[pc]? = some s) (hseen : s.depth ≠ -1)
    (hop : opAt (c.ready states).ops pc = some op) (hplain : ∀ op, opAt c.ops pc = some op → op.base = op) :
    ReadyAt c states pc s op := by
  have hstart := h.start hs hseen
  have hslot := (slot_readyRewrite states c.nops hp.layout.length).2
  have hgetD : states.getD pc .unseen = s := by simp [hs]
  have hpc := hslot pc
  rw [if_pos hstart.2, hgetD] at hpc
  refine ⟨?_, ?_, fun i hlt hi => ?_⟩
  · rw [opAt, PlCode.ready, hpc] at hop
    cases hr : readyOp c.ops pc s with
    | none =>
      have hop' : opAt c.ops pc = some op := by simpa [opAt, hr] using hop
      rw [hplain op hop', hop']
    | some op' =>
      obtain rfl : op' = op := by simpa [hr] using hop
      exact readyOp_base hr
  · rw [opAt, PlCode.ready, hpc] at hop
    cases hr : readyOp c.ops pc s with
    | none =>
      have hop' : opAt c.ops pc = some op := by simpa [opAt, hr] using hop
      exact .inl (hplain op hop')
    | some op' =>
      obtain rfl : op' = op := by simpa [hr] using hop
      exact .inr rfl
  · -- an operand is no start, so the analysis never saw it
    have hfits := hp.layout.fits hstart
    rw [PlCode.ready, hslot i, if_pos (by omega)]
    have hnone : readyOp c.ops i (states.getD i .unseen) = none := by
      rw [readyOp, if_pos]
      have hi' : i < states.length := by rw [h.length]; omega
      have hget : states[i]? = some (states.getD i .unseen) := by simp [hi']
      by_contra hneg
      have := hp.layout.apart hstart (h.start hget (by omega)) hlt
      omega
    rw [hnone]
    rfl

theorem readyTransfer_plain {ops : List Word} {pc : Nat} {s : ReadyState}
    {fs : List (Nat × ReadyState)} (h : readyTransfer ops pc s = .ok fs) (op : Op)
    (hop : opAt ops pc = some op) : op.base = op := by
  simp only [readyTransfer, hop] at h
  cases op <;> first | rfl | cases h

/-- The state found where a frame stands describes its operands. -/
def Known (states : List ReadyState) (vars : Vars) (f : Frame) : Prop :=
  ∃ s, states[f.pc]? = some s ∧ Describes s vars f.stack

/-- The frame is known once a value has been pushed. -/
def Awaits (states : List ReadyState) (vars : Vars) (f : Frame) : Prop :=
  ∀ w : Word, w.isWhnf → Known states vars ⟨f.pc, f.stack ++ [w]⟩

/-- Every frame an outcome leads to is known. -/
def Outcome.Known (states : List ReadyState) (vars : Vars) : Outcome → Prop
  | .raise _ | .leave => True
  | .next pc stack => Bytecode.Known states vars ⟨pc, stack⟩
  | .build pc stack => ∀ w : Word, Bytecode.Known states vars ⟨pc, stack ++ [w]⟩
  | .await pc stack => Awaits states vars ⟨pc, stack⟩
  | .enter target args pc stack =>
    Bytecode.Known states vars ⟨target, args⟩ ∧ Awaits states vars ⟨pc, stack⟩
  | .give v => v.isWhnf

/-- A visit to a known frame sent states on, and a stack that one of them
describes is known where it was sent. -/
theorem Solved.visit (h : Solved c states) {vars : Vars} {pc : Nat} {s : ReadyState}
    {stack : List Word} (hs : states[pc]? = some s) (hd : Describes s vars stack) :
    ∃ fs, readyTransfer c.ops pc s = .ok fs ∧
      ∀ g ∈ fs, g.1 < c.nops → ∀ stack', Describes g.2 vars stack' →
        Known states vars ⟨g.1, stack'⟩ := by
  obtain ⟨fs, hfs, hcov⟩ := (h.settled pc s hs).resolve_left hd.seen
  refine ⟨fs, hfs, fun g hg hlt stack' hd' => ?_⟩
  have hget : states[g.1]? = some (states.getD g.1 .unseen) := by simp [h.length, hlt]
  exact ⟨_, hget, hcov g hg _ hget vars stack' hd'⟩

/-- The operand on top, where the state says it is ready. -/
theorem Describes.top {s : ReadyState} {vars : Vars} {stack : List Word}
    (h : Describes s vars stack) (hpos : 0 < s.depth) (hget : s.get (s.depth - 1).toNat) :
    ∃ v, v.isWhnf ∧ stack.getLast? = some v ∧ stack = below stack 1 ++ [v] := by
  obtain ⟨v, hv, hv'⟩ := h.slots _ hget
  have hlen := h.height (by omega)
  have hidx : (s.depth - 1).toNat = stack.length - 1 := by omega
  rw [hidx] at hv
  have hlast : stack.getLast? = some v := by rw [List.getLast?_eq_getElem?, hv]
  refine ⟨v, hv', hlast, ?_⟩
  obtain ⟨init, rfl⟩ := List.getLast?_eq_some_iff.mp hlast
  simp [below]

theorem ReadyAt.width_eq {pc : Nat} {s : ReadyState} {op : Op} (h : ReadyAt c states pc s op)
    (hop : opAt (c.ready states).ops pc = some op) :
    width (c.ready states).ops pc = width c.ops pc := by
  have h1 := h.operand (pc + 1) (by omega)
  have h2 := h.operand (pc + 2) (by omega)
  have hbase := h.base
  cases op <;> simp only [Op.base] at hbase <;> simp only [width, hop, hbase] at h1 h2 ⊢
  all_goals first
    | rw [h1 (by omega)]
    | rw [h2 (by split <;> omega)]

/-- A ready force or return stands where its operand is a value. -/
theorem ReadyAt.top {pc : Nat} {s : ReadyState} {op : Op} {vars : Vars} {stack : List Word}
    (h : ReadyAt c states pc s op) (hop : op = .forceReady ∨ op = .retReady)
    (hd : Describes s vars stack) :
    ∃ v, v.isWhnf ∧ stack.getLast? = some v ∧ stack = below stack 1 ++ [v] := by
  have hready := h.justified.resolve_left (by rcases hop with rfl | rfl <;> simp [Op.base])
  obtain ⟨-, ⟨-, hpos, hget⟩ | ⟨-, rfl, -⟩ | ⟨-, rfl, -⟩⟩ := readyOp_cases hready
  · exact hd.top hpos hget
  · simp at hop
  · simp at hop

theorem length_above {stack : List Word} {k : Nat} (h : k ≤ stack.length) :
    (above stack k).length = k := by
  simp only [above, List.length_drop]
  omega

/-- A visit of the analysis to the point where a known frame stands. -/
structure Visited (c : PlCode) (states : List ReadyState) (vars : Vars) (f : Frame) (op : Op)
    (s : ReadyState) (fs : List (Nat × ReadyState)) : Prop where
  start : IsStart c.ops c.nops f.pc
  describes : Describes s vars f.stack
  ready : ReadyAt c states f.pc s op
  transfer : readyTransfer c.ops f.pc s = .ok fs
  width : width (c.ready states).ops f.pc = Bytecode.width c.ops f.pc
  /-- The operands are those that the analysis saw. -/
  slot : ∀ k, 0 < k → k < Bytecode.width c.ops f.pc →
    slot (c.ready states).ops (f.pc + k) = Bytecode.slot c.ops (f.pc + k)
  falls : fallsThrough c.ops f.pc → f.pc + Bytecode.width c.ops f.pc < c.nops
  targets : ∀ t ∈ targets c.ops f.pc, t < c.nops ∧ Word.u32 t = t
  sends : ∀ g ∈ fs, g.1 < c.nops → ∀ stack', Describes g.2 vars stack' →
    Known states vars ⟨g.1, stack'⟩

theorem Solved.visited (hp : ClosedProgram c flow) (h : Solved c states) {vars : Vars} {f : Frame}
    {op : Op} (hk : Known states vars f) (hop : opAt (c.ready states).ops f.pc = some op) :
    ∃ s fs, Visited c states vars f op s fs := by
  obtain ⟨s, hs, hdesc⟩ := hk
  obtain ⟨fs, hfs, hsend⟩ := h.visit hs hdesc
  have hr := h.readyAt hp.toProgram hs hdesc.seen hop (readyTransfer_plain hfs)
  have hstart := h.start hs hdesc.seen
  refine ⟨s, fs, hstart, hdesc, hr, hfs, hr.width_eq hop, fun k hk hw => hr.operand _ (by omega) (by omega),
    hp.layout.falls hstart, fun t ht => ?_, hsend⟩
  rw [hp.layout.flow_eq hstart] at ht
  exact ⟨hp.closed ht, Word.u32_of_lt (Nat.lt_trans (hp.closed ht) hp.short)⟩

section Visited

variable {vars : Vars} {f : Frame} {op : Op} {s : ReadyState} {fs : List (Nat × ReadyState)}

theorem Visited.pushVar (h : Visited c states vars f .pushVar s fs) {w : Word}
    (hw : vars.get (Bytecode.slot (c.ready states).ops (f.pc + 1)) = some w) :
    Known states vars ⟨f.pc + 2, f.stack ++ [w]⟩ := by
  have hbase := h.ready.base
  have hfs := h.transfer
  have hlt := h.falls
  simp only [Op.base] at hbase
  simp only [readyTransfer, hbase] at hfs
  obtain rfl := Except.ok.inj hfs
  rw [h.slot 1 (by omega) (by simp [Bytecode.width, hbase])] at hw
  refine h.sends _ (List.mem_singleton_self _) ?_ _ (h.describes.push fun h0 hknown => ?_)
  · simpa [Bytecode.width, fallsThrough, hbase] using hlt
  · simp only [Bool.and_eq_true] at hknown
    obtain ⟨w', hw', hwhnf⟩ := h.describes.vars h0 _ hknown.2
    obtain rfl : w' = w := by simpa [hw] using hw'.symm
    exact hwhnf

/-- Nothing is ever known of the group of a law block. -/
theorem Visited.blockVar (h : Visited c states vars f .pushVar s fs) {n : Nat}
    (hv : vars = .block n) (w : Word) : Known states vars ⟨f.pc + 2, f.stack ++ [w]⟩ := by
  have hbase := h.ready.base
  have hfs := h.transfer
  have hlt := h.falls
  simp only [Op.base] at hbase
  simp only [readyTransfer, hbase] at hfs
  obtain rfl := Except.ok.inj hfs
  refine h.sends _ (List.mem_singleton_self _) ?_ _ (h.describes.push fun h0 hknown => ?_)
  · simpa [Bytecode.width, fallsThrough, hbase] using hlt
  · simp only [Bool.and_eq_true] at hknown
    obtain ⟨w', hw', -⟩ := h.describes.vars h0 _ hknown.2
    simp [hv, Vars.get] at hw'

theorem Visited.pushLit (h : Visited c states vars f .pushLit s fs) :
    Known states vars
      ⟨f.pc + 2, f.stack ++ [(Bytecode.slot (c.ready states).ops (f.pc + 1) : Word)]⟩ := by
  have hbase := h.ready.base
  have hfs := h.transfer
  have hlt := h.falls
  simp only [Op.base] at hbase
  simp only [readyTransfer, hbase] at hfs
  obtain rfl := Except.ok.inj hfs
  rw [h.slot 1 (by omega) (by simp [Bytecode.width, hbase])]
  refine h.sends _ (List.mem_singleton_self _) ?_ _ (h.describes.push fun _ hknown => hknown)
  simpa [Bytecode.width, fallsThrough, hbase] using hlt

theorem Visited.pushSlot (h : Visited c states vars f .pushSlot s fs) {w : Word}
    (hw : f.stack[Bytecode.slot (c.ready states).ops (f.pc + 1)]? = some w) :
    Known states vars ⟨f.pc + 2, f.stack ++ [w]⟩ := by
  have hbase := h.ready.base
  have hfs := h.transfer
  have hlt := h.falls
  simp only [Op.base] at hbase
  simp only [readyTransfer, hbase] at hfs
  obtain rfl := Except.ok.inj hfs
  rw [h.slot 1 (by omega) (by simp [Bytecode.width, hbase])] at hw
  refine h.sends _ (List.mem_singleton_self _) ?_ _ (h.describes.push fun _ hknown => ?_)
  · simpa [Bytecode.width, fallsThrough, hbase] using hlt
  · obtain ⟨w', hw', hwhnf⟩ := h.describes.slots _ hknown
    obtain rfl : w' = w := by simpa [hw] using hw'.symm
    exact hwhnf

/-- A ready force leaves its operand where it is: it is the value a force would push. -/
theorem Visited.forceReady (h : Visited c states vars f .forceReady s fs) :
    Known states vars ⟨f.pc + Bytecode.width c.ops f.pc, f.stack⟩ := by
  have hbase := h.ready.base
  have hfs := h.transfer
  obtain ⟨v, hv, -, hstack⟩ := h.ready.top (.inl rfl) h.describes
  simp only [Op.base] at hbase
  have hlt := h.falls (by simp [fallsThrough, hbase])
  simp only [readyTransfer, hbase] at hfs
  obtain ⟨s', hpop, hfs⟩ := readyPop_bind_ok hfs
  obtain rfl := Except.ok.inj hfs
  simp only [Bytecode.width, hbase] at hlt ⊢
  have hd' : Describes (s'.push true) vars (below f.stack 1 ++ [v]) :=
    (h.describes.pop hpop).push fun _ _ => hv
  rw [← hstack] at hd'
  exact h.sends _ (List.mem_singleton_self _) hlt _ hd'

theorem Visited.stay (h : Visited c states vars f op s fs) (hop : op = .entry ∨ op = .nop) :
    Known states vars ⟨f.pc + Bytecode.width c.ops f.pc, f.stack⟩ := by
  have hbase := h.ready.base
  have hfs := h.transfer
  rcases hop with rfl | rfl
  all_goals
    simp only [Op.base] at hbase
    have hlt := h.falls (by simp [fallsThrough, hbase])
    simp only [readyTransfer, hbase] at hfs
    obtain rfl := Except.ok.inj hfs
    simp only [Bytecode.width, hbase] at hlt ⊢
    exact h.sends _ (List.mem_singleton_self _) hlt _ h.describes

theorem Visited.jmp (h : Visited c states vars f .jmp s fs) :
    Known states vars ⟨Word.u32 (Bytecode.slot (c.ready states).ops (f.pc + 1)), f.stack⟩ := by
  have hbase := h.ready.base
  have hfs := h.transfer
  simp only [Op.base] at hbase
  simp only [readyTransfer, hbase] at hfs
  obtain rfl := Except.ok.inj hfs
  obtain ⟨hlt, hu⟩ := h.targets (Bytecode.slot c.ops (f.pc + 1)) (by simp [Bytecode.targets, hbase])
  rw [h.slot 1 (by omega) (by simp [Bytecode.width, hbase]), hu]
  exact h.sends _ (List.mem_singleton_self _) hlt _ h.describes

theorem Visited.br (h : Visited c states vars f .br s fs)
    (hop : opAt (c.ready states).ops f.pc = some .br) {t : Nat}
    (ht : t ∈ Bytecode.targets (c.ready states).ops f.pc) :
    Known states vars ⟨Word.u32 t, below f.stack 1⟩ := by
  have hbase := h.ready.base
  have hfs := h.transfer
  simp only [Op.base] at hbase
  simp only [readyTransfer, hbase] at hfs
  obtain ⟨s', hpop, hfs⟩ := readyPop_bind_ok hfs
  obtain rfl := Except.ok.inj hfs
  have hw : Bytecode.width c.ops f.pc = 2 + Bytecode.slot c.ops (f.pc + 1) := by
    simp [Bytecode.width, hbase]
  simp only [Bytecode.targets, hop, h.slot 1 (by omega) (by omega)] at ht
  obtain ⟨k, hk, rfl⟩ := List.mem_map.mp ht
  have hk' := List.mem_range.mp hk
  rw [Nat.add_assoc, h.slot (2 + k) (by omega) (by omega)]
  obtain ⟨hlt, hu⟩ := h.targets (Bytecode.slot c.ops (f.pc + (2 + k))) (by
    simp only [Bytecode.targets, hbase]
    exact List.mem_map.mpr ⟨k, hk, by rw [Nat.add_assoc]⟩)
  rw [hu]
  refine h.sends (Bytecode.slot c.ops (f.pc + (2 + k)), s') ?_ hlt _ (h.describes.pop hpop)
  exact List.mem_map.mpr ⟨k, hk, by congr 2; omega⟩

theorem Visited.tailblk (h : Visited c states vars f .tailblk s fs)
    (hle : Bytecode.slot (c.ready states).ops (f.pc + 2) ≤ f.stack.length) :
    Known states vars ⟨Word.u32 (Bytecode.slot (c.ready states).ops (f.pc + 1)),
      above f.stack (Bytecode.slot (c.ready states).ops (f.pc + 2))⟩ := by
  have hbase := h.ready.base
  have hfs := h.transfer
  simp only [Op.base] at hbase
  simp only [readyTransfer, hbase] at hfs
  obtain ⟨s', hpop, hfs⟩ := readyPop_bind_ok hfs
  obtain rfl := Except.ok.inj hfs
  rw [h.slot 2 (by omega) (by simp [Bytecode.width, hbase])] at hle ⊢
  obtain ⟨hlt, hu⟩ := h.targets (Bytecode.slot c.ops (f.pc + 1)) (by simp [Bytecode.targets, hbase])
  rw [h.slot 1 (by omega) (by simp [Bytecode.width, hbase]), hu]
  exact h.sends _ (List.mem_singleton_self _) hlt _ (describes_blockArgs vars (length_above hle))

/-- The block is known, and so is the frame once the block has returned. -/
theorem Visited.call (h : Visited c states vars f .call s fs)
    (hle : Bytecode.slot (c.ready states).ops (f.pc + 2) ≤ f.stack.length) :
    Known states vars ⟨Word.u32 (Bytecode.slot (c.ready states).ops (f.pc + 1)),
        above f.stack (Bytecode.slot (c.ready states).ops (f.pc + 2))⟩ ∧
      Awaits states vars
        ⟨f.pc + 3, below f.stack (Bytecode.slot (c.ready states).ops (f.pc + 2))⟩ := by
  have hbase := h.ready.base
  have hfs := h.transfer
  have hfall := h.falls
  simp only [Op.base] at hbase
  simp only [readyTransfer, hbase] at hfs
  obtain ⟨s', hpop, hfs⟩ := readyPop_bind_ok hfs
  obtain rfl := Except.ok.inj hfs
  rw [h.slot 2 (by omega) (by simp [Bytecode.width, hbase])] at hle ⊢
  obtain ⟨hlt, hu⟩ := h.targets (Bytecode.slot c.ops (f.pc + 1)) (by simp [Bytecode.targets, hbase])
  rw [h.slot 1 (by omega) (by simp [Bytecode.width, hbase]), hu]
  refine ⟨h.sends _ (List.mem_cons_self ..) hlt _ (describes_blockArgs vars (length_above hle)),
    fun w hw => ?_⟩
  refine h.sends (f.pc + 3, s'.push true) (by simp) ?_ _
    ((h.describes.pop hpop).push fun _ _ => hw)
  simpa [Bytecode.width, fallsThrough, hbase] using hfall

theorem Visited.mkThk (h : Visited c states vars f .mkThk s fs) (w : Word) :
    Known states vars ⟨f.pc + Bytecode.width c.ops f.pc,
      below f.stack (Word.u32 (Bytecode.slot (c.ready states).ops (f.pc + 1))) ++ [w]⟩ := by
  have hbase := h.ready.base
  have hfs := h.transfer
  simp only [Op.base] at hbase
  have hlt := h.falls (by simp [fallsThrough, hbase])
  have hw2 := width_counted hbase rfl
  rw [h.slot 1 (by omega) (by omega)]
  simp only [readyTransfer, hbase] at hfs
  obtain ⟨s', hpop, hfs⟩ := readyPop_bind_ok hfs
  obtain rfl := Except.ok.inj hfs
  rw [width_mkThk hbase] at hlt ⊢
  exact h.sends _ (List.mem_singleton_self _) hlt _ ((h.describes.pop_count hpop).push (by simp))

/-- Whatever a handler takes before it evaluates, the analysis took the same. -/
theorem Visited.takes (h : Visited c states vars f op s fs) (hz : SizedAt c.ops f.pc) {k : Nat}
    (hk : k ∈ evalPops (c.ready states).ops f.pc op) :
    fallsThrough c.ops f.pc ∧ ∃ s', (f.pc + Bytecode.width c.ops f.pc, s'.push true) ∈ fs ∧
      Describes s' vars (below f.stack k) := by
  have hbase := h.ready.base
  have hfs := h.transfer
  cases op with
  | force | forceReady =>
    simp only [Op.base] at hbase
    simp only [readyTransfer, hbase] at hfs
    obtain ⟨s', hpop, hfs⟩ := readyPop_bind_ok hfs
    obtain rfl := Except.ok.inj hfs
    obtain rfl : k = 1 := by simpa [evalPops] using hk
    exact ⟨by simp [fallsThrough, hbase], s', by simp [Bytecode.width, hbase], h.describes.pop hpop⟩
  | interp =>
    simp only [Op.base] at hbase
    simp only [readyTransfer, hbase] at hfs
    obtain rfl := Except.ok.inj hfs
    obtain rfl : k = 0 := by simpa [evalPops] using hk
    refine ⟨by simp [fallsThrough, hbase], s, by simp [Bytecode.width, hbase], ?_⟩
    simpa [below] using h.describes
  | mkApp | callFast | callSlow =>
    simp only [Op.base] at hbase
    have hw2 := width_counted hbase rfl
    simp only [evalPops, List.mem_singleton] at hk
    rw [h.slot 1 (by omega) (by omega)] at hk
    simp only [readyTransfer, hbase] at hfs
    obtain ⟨s', hpop, hfs⟩ := readyPop_bind_ok hfs
    obtain rfl := Except.ok.inj hfs
    rw [hk]
    exact ⟨by simp [fallsThrough, hbase], s', by simp [Bytecode.width, hbase],
      h.describes.pop_head_count hpop⟩
  | callKnown | callReady =>
    simp only [Op.base] at hbase
    have hw2 := width_counted hbase rfl
    simp only [evalPops, List.mem_singleton] at hk
    rw [h.slot 1 (by omega) (by omega)] at hk
    simp only [readyTransfer, hbase] at hfs
    obtain ⟨s', hpop, hfs⟩ := readyPop_bind_ok hfs
    obtain rfl := Except.ok.inj hfs
    rw [hk]
    exact ⟨by simp [fallsThrough, hbase], s', by simp [Bytecode.width, hbase],
      h.describes.pop_count hpop⟩
  | add | sub | cmp =>
    simp only [Op.base] at hbase
    have hw2 := width_counted hbase rfl
    -- two operands, whether counted or not
    have htwo := hz.inline hbase rfl
    simp only [evalPops, List.mem_cons, List.not_mem_nil, or_false] at hk
    rw [h.slot 1 (by omega) (by omega), htwo, or_self] at hk
    simp only [readyTransfer, hbase] at hfs
    obtain ⟨s', hpop, hfs⟩ := readyPop_bind_ok hfs
    obtain rfl := Except.ok.inj hfs
    have hpopped := h.describes.pop_count hpop
    rw [htwo] at hpopped
    rw [hk]
    exact ⟨by simp [fallsThrough, hbase], s', by simp [Bytecode.width, hbase], hpopped⟩
  | _ => simp [evalPops] at hk

end Visited

/-- Every outcome of an instruction at a known frame is known. -/
theorem outcome_known (hp : ClosedProgram c flow) (hz : Sized c.ops c.nops) (h : Solved c states)
    {vars : Vars} {f : Frame} {op : Op} {o : Outcome} (hk : Known states vars f)
    (hop : opAt (c.ready states).ops f.pc = some op) (hd : Does (c.ready states) vars f op o) :
    o.Known states vars := by
  obtain ⟨s, fs, hv⟩ := h.visited hp hk hop
  cases hd with
  | raise | leave => trivial
  | pushVar hw => exact hv.pushVar hw
  | blockVar hblock => exact hv.blockVar hblock
  | pushLit => exact hv.pushLit
  | pushSlot hw => exact hv.pushSlot hw
  | stay hmem =>
    rw [hv.width]
    simp only [List.mem_cons, List.not_mem_nil, or_false] at hmem
    rcases hmem with hmem | hmem | rfl
    · exact hv.stay (.inl hmem)
    · exact hv.stay (.inr hmem)
    · exact hv.forceReady
  | jmp => exact hv.jmp
  | br ht _ => exact hv.br hop ht
  | tailblk hle => exact hv.tailblk hle
  | call hle => exact hv.call hle
  | mkThk hle =>
    rw [hv.width]
    exact hv.mkThk
  | give hlast =>
    obtain ⟨v, hw, htop, -⟩ := hv.ready.top (.inr rfl) hv.describes
    obtain rfl := Option.some.inj (hlast.symm.trans htop)
    exact hw
  | await hk _ =>
    obtain ⟨hfalls, s', hmem, hd'⟩ := hv.takes (hz f.pc hv.start) hk
    rw [hv.width]
    exact fun w hw => hv.sends _ hmem (hv.falls hfalls) _ (hd'.push fun _ _ => hw)

end Step

section Run

variable {c : PlCode} {flow : Nat → List Nat} {states : List ReadyState}

/-- The invariant of an execution: the running frame is known, and every caller
will be once its callee has returned a value. -/
def KnownConf (states : List ReadyState) (k : Conf) : Prop :=
  Known states k.vars k.frame ∧ ∀ g ∈ k.callers, Awaits states k.vars g

theorem entry_known (hp : ClosedProgram c flow) (h : Solved c states) {k : Conf}
    (hk : Entry (c.ready states) k) : KnownConf states k := by
  have hsend : ∀ f ∈ readyEntries c, ∀ vars stack, Describes f.2 vars stack →
      Known states vars ⟨f.1, stack⟩ := by
    intro f hf vars stack hd
    have hlt := (readyEntries_start hp.toProgram f hf).2
    have hget : states[f.1]? = some (states.getD f.1 .unseen) := by simp [h.length, hlt]
    exact ⟨_, hget, h.entries f hf _ hget vars stack hd⟩
  cases hk with
  | start slots =>
    refine ⟨hsend (0, ⟨0, 0, 0⟩) (by simp [readyEntries]) _ _ ?_, by simp⟩
    exact ⟨by simp, by simp, by simp, by simp [get_iff], by simp⟩
  | @strict slots hs hargs =>
    refine ⟨hsend (c.strictEntry, ⟨0, 0, c.strictMask * 2⟩) ?_ _ _ ?_, by simp⟩
    · have hs' : c.strictEntry ≠ 0 := hs
      simp [readyEntries, hs']
    · refine ⟨by simp, by simp, by simp, by simp [get_iff], fun _ v hv => ?_⟩
      -- bit `v` of the seed is argument `v`, bit `v - 1` of the mask
      cases v with
      | zero => simp at hv
      | succ i =>
        rw [show c.strictMask * 2 = 2 ^ 1 * c.strictMask by omega] at hv
        simp only [Nat.testBit_two_pow_mul, Nat.add_sub_cancel, Bool.and_eq_true] at hv
        exact hargs i hv.2
  | @block b args hb hargs =>
    refine ⟨hsend (b.target, .blockArgs b.arity) ?_ _ _ (describes_blockArgs _ hargs), by simp⟩
    simp only [readyEntries, List.mem_append]
    exact .inr (List.mem_map_of_mem hb)

theorem step_known (hp : ClosedProgram c flow) (hz : Sized c.ops c.nops) (h : Solved c states)
    {k k' : Conf} (hk : KnownConf states k) (hs : Step (c.ready states) k k') :
    KnownConf states k' := by
  obtain ⟨hframe, hcallers⟩ := hk
  have hout : ∀ {os o}, exec (c.ready states) k.vars k.frame = some os → o ∈ os →
      o.Known states k.vars := by
    intro os o hx ho
    obtain ⟨op, hop, hd⟩ := exec_does hx ho
    exact outcome_known hp hz h hframe hop hd
  cases hs with
  | next hx ho => exact ⟨hout hx ho, hcallers⟩
  | build w hx ho => exact ⟨hout hx ho w, hcallers⟩
  | await hx ho hw => exact ⟨hout hx ho _ hw, hcallers⟩
  | enter hx ho =>
    obtain ⟨hcallee, hret⟩ := hout hx ho
    refine ⟨hcallee, fun g hg => ?_⟩
    rcases List.mem_cons.mp hg with rfl | hg
    · exact hret
    · exact hcallers g hg
  | @leave _ _ g _ _ _ hx ho hw =>
    exact ⟨hcallers g (List.mem_cons_self ..) _ hw, fun g' hg => hcallers g' (List.mem_cons_of_mem _ hg)⟩
  | @give _ _ g _ _ _ hx ho =>
    exact ⟨hcallers g (List.mem_cons_self ..) _ (hout hx ho),
      fun g' hg => hcallers g' (List.mem_cons_of_mem _ hg)⟩

theorem reachable_known (hp : ClosedProgram c flow) (hz : Sized c.ops c.nops) (h : Solved c states)
    {k : Conf} (hk : Reachable (c.ready states) k) : KnownConf states k :=
  hk.induction (entry_known hp h) (step_known hp hz h)

/-- The strict operands of a primop, among the topmost `argc`, are values. -/
def StrictReady (stack : List Word) (argc idx : Nat) : Prop :=
  ∀ k, (plOp idx).strictMask.testBit k → ∃ w, (above stack (Word.u32 argc))[k]? = some w ∧ w.isWhnf

/-- The ready variants, which look at no tag, see values only. -/
def OperandsReady (ops : List Word) (f : Frame) : Prop :=
  match opAt ops f.pc with
  | some .forceReady | some .retReady => ∃ v, f.stack.getLast? = some v ∧ v.isWhnf
  | some .callReady => StrictReady f.stack (slot ops (f.pc + 1)) (slot ops (f.pc + 2))
  | some .tailReady => StrictReady f.stack (slot ops (f.pc + 1)) (slot ops (f.pc + 3))
  | _ => True

theorem Describes.args {s : ReadyState} {vars : Vars} {stack : List Word} {argc idx : Nat}
    (h : Describes s vars stack) (hargs : s.args argc idx) : StrictReady stack argc idx := by
  intro k hk
  have hlt : k < 32 := by
    by_contra hge
    exact absurd (Nat.testBit_lt_two_pow (Nat.lt_of_lt_of_le (strictMask_lt idx)
      (Nat.pow_le_pow_right (by decide) (Nat.le_of_not_lt hge)))) (by simp [hk])
  simp only [ReadyState.args] at hargs
  split_ifs at hargs with hneg
  simp only [not_or, Int.not_lt] at hneg
  have hall := List.all_eq_true.mp hargs k (List.mem_range.mpr hlt)
  simp only [hk, Bool.not_true, Bool.false_or, Bool.and_eq_true, decide_eq_true_eq] at hall
  obtain ⟨w, hw, hwhnf⟩ := h.slots _ hall.2
  have hlen := h.height hneg.1
  refine ⟨w, ?_, hwhnf⟩
  have hb := h.bound
  simp only [readySlots] at hb
  have hcount : argc < 2 ^ 32 := by omega
  rw [Word.u32_of_lt hcount, above, List.getElem?_drop]
  rw [← hw]
  congr 1
  omega

theorem operands_ready (hp : ClosedProgram c flow) (h : Solved c states) {vars : Vars} {f : Frame}
    (hk : Known states vars f) : OperandsReady (c.ready states).ops f := by
  obtain ⟨s, hs, hd⟩ := hk
  obtain ⟨fs, hfs, -⟩ := h.visit hs hd
  cases hop : opAt (c.ready states).ops f.pc with
  | none => simp [OperandsReady, hop]
  | some op =>
    have hr := h.readyAt hp.toProgram hs hd.seen hop (readyTransfer_plain hfs)
    have hbase := hr.base
    cases op with
    | forceReady =>
      obtain ⟨v, hv, hlast, -⟩ := hr.top (.inl rfl) hd
      simp only [OperandsReady, hop]
      exact ⟨v, hlast, hv⟩
    | retReady =>
      obtain ⟨v, hv, hlast, -⟩ := hr.top (.inr rfl) hd
      simp only [OperandsReady, hop]
      exact ⟨v, hlast, hv⟩
    | callReady =>
      have hready := hr.justified.resolve_left (by simp [Op.base])
      obtain ⟨-, ⟨⟨-, h'⟩ | ⟨-, h'⟩, -⟩ | ⟨hop', -, hargs⟩ | ⟨-, h', -⟩⟩ := readyOp_cases hready <;>
        try cases h'
      simp only [OperandsReady, hop]
      have hw : width c.ops f.pc = 4 := by simp [width, hop']
      rw [hr.operand _ (by omega) (by omega), hr.operand _ (by omega) (by omega)]
      exact hd.args hargs
    | tailReady =>
      have hready := hr.justified.resolve_left (by simp [Op.base])
      obtain ⟨-, ⟨⟨-, h'⟩ | ⟨-, h'⟩, -⟩ | ⟨-, h', -⟩ | ⟨hop', -, hknown, hargs⟩⟩ :=
        readyOp_cases hready <;> try cases h'
      simp only [OperandsReady, hop]
      have hw : width c.ops f.pc = 5 := by simp [width, hop', hknown]
      rw [hr.operand _ (by omega) (by omega), hr.operand _ (by omega) (by omega)]
      exact hd.args hargs
    | _ => simp [OperandsReady, hop]

end Run

end Enki.Bytecode
