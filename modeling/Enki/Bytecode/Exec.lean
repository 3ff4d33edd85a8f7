import Enki.Bytecode.Validate
import Mathlib.Logic.Relation

/-!
# Execution of a decoded stream

The `exec` handlers of `eval.c`, one activation at a time: the frames of one
entry into the code, which share its variables. What happens outside the stream
is left open: a call, a force or an interpreted expression may return any value
in weak head normal form, a `MK_THK` may push any word (the thunk, or what its
primop gave when it was computed at once), and fuel may run out anywhere.
-/

namespace Enki.Bytecode

/-- Where `PUSH_VAR` reads: an environment, or the group of a law block, whose
memory is that of the operand stack, so that its contents are not tracked. -/
inductive Vars where
  | env (slots : List Word)
  | block (n : Nat)

def Vars.get : Vars → Nat → Option Word
  | env slots, v => slots[v]?
  | block _, _ => none

/-- An `EXEC` or `EXECV` frame: the next slot, and the operands above its base. -/
structure Frame where
  pc : Nat
  stack : List Word

/-- What one instruction does. -/
inductive Outcome where
  | raise (msg : String)
  /-- Continue with this stack. -/
  | next (pc : Nat) (stack : List Word)
  /-- Push some word and continue. -/
  | build (pc : Nat) (stack : List Word)
  /-- Push the value of an evaluation and continue. -/
  | await (pc : Nat) (stack : List Word)
  /-- Call a block of the same code. -/
  | enter (target : Nat) (args : List Word) (pc : Nat) (stack : List Word)
  /-- Leave the frame; its value goes to the caller. -/
  | leave
  /-- Leave the frame with this word, taken for a value. -/
  | give (v : Word)

/-- The operands below the topmost `k`. -/
def below (stack : List Word) (k : Nat) : List Word := stack.take (stack.length - k)

/-- The topmost `k` operands. -/
def above (stack : List Word) (k : Nat) : List Word := stack.drop (stack.length - k)

def underflow : Option (List Outcome) := some [.raise "bytecode stack underflow"]

/-- `x_call_known`: the primop's operands are replaced by its value. -/
def execKnown (c : PlCode) (f : Frame) : Option (List Outcome) := do
  let argc ← c.ops[f.pc + 1]?
  let _ ← c.ops[f.pc + 2]?
  let _ ← c.ops[f.pc + 3]?
  if argc.u32 = 0 ∨ argc.u32 > f.stack.length then underflow
  else some [.await (f.pc + 4) (below f.stack argc.u32)]

/-- `x_add`, `x_sub` and `x_cmp`: two direct naturals are computed in place,
anything else goes to `x_call_known`. -/
def execNumeric (c : PlCode) (f : Frame) : Option (List Outcome) :=
  if f.stack.length < 2 then underflow
  else do
    let slow ← execKnown c f
    some (.await (f.pc + 4) (below f.stack 2) :: slow)

/-- The two operands behind the bane of a known primop. -/
def execSpare (c : PlCode) (f : Frame) (bane : Word) : Option Word :=
  if isKnown bane then (c.ops[f.pc + 3]?).bind fun _ => c.ops[f.pc + 4]? else some 0

/-- `x_tail`: every way out leaves the frame. -/
def execTail (c : PlCode) (f : Frame) : Option (List Outcome) := do
  let argc ← c.ops[f.pc + 1]?
  let bane ← c.ops[f.pc + 2]?
  let _ ← execSpare c f bane
  if argc.u32 = 0 ∨ argc.u32 > f.stack.length then underflow
  else if (Bane.ofWord bane).isNone then some [.raise "exec: bad bane"]
  else some [.leave]

/-- `x_call_fast` and `x_call_slow`, and the head of `x_mk_app`: `argc` operands
above a head become one value. The count is compared as a `uint32_t`; where it
wraps, the handler reads below the stack. -/
def execHead (next : Nat) (argc : Nat) (stack : List Word) : Option (List Outcome) :=
  if Word.u32 (argc + 1) > stack.length then underflow
  else if argc + 1 > stack.length then none
  else some [.await next (below stack (argc + 1))]

/-- The handlers of `exec`, in the order of `plan/bytecode.h`. `none` is a read
outside the array, or an opcode without a handler. -/
def exec (c : PlCode) (vars : Vars) (f : Frame) : Option (List Outcome) := do
  let op ← c.ops[f.pc]?
  let fetch k := c.ops[f.pc + 1 + k]?
  let height := f.stack.length
  match Op.ofWord op with
  | some .pushVar =>
    let v ← fetch 0
    match vars with
    | .env slots =>
      match slots[v]? with
      | some w => some [.next (f.pc + 2) (f.stack ++ [w])]
      | none => some [.raise "exec: variable out of range"]
    | .block n =>
      if v ≥ n then some [.raise "exec: variable out of range"]
      else some [.build (f.pc + 2) f.stack]
  | some .pushLit =>
    let w ← fetch 0
    some [.next (f.pc + 2) (f.stack ++ [w])]
  | some .mkThk =>
    let argc ← fetch 0
    let bane ← fetch 1
    if argc.u32 = 0 ∨ argc.u32 > height then underflow
    else if (Bane.ofWord bane).isNone then some [.raise "exec: bad bane"]
    else do
      let _ ← execSpare c f bane
      some [.build (f.pc + (if isKnown bane then 5 else 3)) (below f.stack argc.u32)]
  | some .force =>
    if height = 0 then underflow else some [.await (f.pc + 1) (below f.stack 1)]
  | some .call =>
    let target ← fetch 0
    let nargs ← fetch 1
    if nargs > height then underflow
    else some [.enter target.u32 (above f.stack nargs) (f.pc + 3) (below f.stack nargs)]
  | some .tailcall | some .tailReady => execTail c f
  | some .interp =>
    let _ ← fetch 0
    some [.await (f.pc + 2) f.stack]
  | some .ret => if height = 0 then underflow else some [.leave]
  | some .mkApp =>
    let argc ← fetch 0
    if argc.u32 = 0 then underflow else execHead (f.pc + 2) argc.u32 f.stack
  | some .pushSlot =>
    let k ← fetch 0
    match f.stack[k]? with
    | some w => some [.next (f.pc + 2) (f.stack ++ [w])]
    | none => some [.raise "exec: slot out of range"]
  | some .br =>
    let arms ← fetch 0
    match f.stack.getLast? with
    | none => underflow
    | some scrut =>
      if !scrut.isNat63 then some [.raise "exec: branch on non-nat"]
      else if scrut ≥ arms then some [.raise "exec: branch out of range"]
      else do
        let target ← fetch (1 + scrut)
        some [.next target.u32 (below f.stack 1)]
  | some .jmp =>
    let target ← fetch 0
    some [.next target.u32 f.stack]
  | some .entry =>
    let _ ← fetch 0
    some [.next (f.pc + 2) f.stack]
  | some .callKnown | some .callReady => execKnown c f
  | some .callFast =>
    let argc ← fetch 0
    let _ ← fetch 1
    execHead (f.pc + 3) argc.u32 f.stack
  | some .callSlow =>
    let argc ← fetch 0
    execHead (f.pc + 2) argc.u32 f.stack
  | some .add | some .sub | some .cmp => execNumeric c f
  | some .tailAdd | some .tailSub | some .tailCmp =>
    if height < 2 then underflow else (execTail c f).map (.leave :: ·)
  | some .forceReady =>
    -- with fuel left the operand stays as it is; at a checkpoint it is forced
    if height = 0 then underflow
    else some [.next (f.pc + 1) f.stack, .await (f.pc + 1) (below f.stack 1)]
  | some .retReady =>
    match f.stack.getLast? with
    | none => underflow
    | some v => some [.give v, .leave]
  | some .nop => some [.next (f.pc + 1) f.stack]
  | some .tailblk =>
    let target ← fetch 0
    let nargs ← fetch 1
    if nargs > height then underflow
    else some [.next target.u32 (above f.stack nargs)]
  | some .lawblk | none => none

/-- An activation: the variables, the running frame, and the frames that wait
for a block they called. -/
structure Conf where
  vars : Vars
  frame : Frame
  callers : List Frame

/-- One instruction of an activation. -/
inductive Step (c : PlCode) : Conf → Conf → Prop where
  | next {vars f callers os pc stack} : exec c vars f = some os → .next pc stack ∈ os →
      Step c ⟨vars, f, callers⟩ ⟨vars, ⟨pc, stack⟩, callers⟩
  | build {vars f callers os pc stack} (w : Word) : exec c vars f = some os →
      .build pc stack ∈ os → Step c ⟨vars, f, callers⟩ ⟨vars, ⟨pc, stack ++ [w]⟩, callers⟩
  | await {vars f callers os pc stack} {w : Word} : exec c vars f = some os →
      .await pc stack ∈ os → w.isWhnf →
      Step c ⟨vars, f, callers⟩ ⟨vars, ⟨pc, stack ++ [w]⟩, callers⟩
  | enter {vars f callers os target args pc stack} : exec c vars f = some os →
      .enter target args pc stack ∈ os →
      Step c ⟨vars, f, callers⟩ ⟨vars, ⟨target, args⟩, ⟨pc, stack⟩ :: callers⟩
  | leave {vars f g callers os} {w : Word} : exec c vars f = some os → .leave ∈ os → w.isWhnf →
      Step c ⟨vars, f, g :: callers⟩ ⟨vars, ⟨g.pc, g.stack ++ [w]⟩, callers⟩
  | give {vars f g callers os v} : exec c vars f = some os → .give v ∈ os →
      Step c ⟨vars, f, g :: callers⟩ ⟨vars, ⟨g.pc, g.stack ++ [v]⟩, callers⟩

/-- The entries into a code: slot 0, the strict entry once `pl_strict_entry` has
found every strict argument to be a value, and a law block with its arguments. -/
inductive Entry (c : PlCode) : Conf → Prop where
  | start (slots : List Word) : Entry c ⟨.env slots, ⟨0, []⟩, []⟩
  | strict {slots : List Word} : c.strictEntry ≠ 0 →
      (∀ i, c.strictMask.testBit i → ∃ w, slots[i + 1]? = some w ∧ w.isWhnf) →
      Entry c ⟨.env slots, ⟨c.strictEntry, []⟩, []⟩
  | block {b : LawBlk} {args : List Word} : b ∈ c.lawblks → args.length = b.arity →
      Entry c ⟨.block (1 + b.arity), ⟨b.target, args⟩, []⟩

/-- The configurations an execution of the code can get to. -/
def Reachable (c : PlCode) (k : Conf) : Prop :=
  ∃ k₀, Entry c k₀ ∧ Relation.ReflTransGen (Step c) k₀ k

/-- The invariant rule for executions. -/
theorem Reachable.induction {c : PlCode} {I : Conf → Prop} (hentry : ∀ {k}, Entry c k → I k)
    (hstep : ∀ {k k'}, I k → Step c k k' → I k') {k : Conf} (h : Reachable c k) : I k := by
  obtain ⟨k₀, hk₀, hrun⟩ := h
  induction hrun with
  | refl => exact hentry hk₀
  | tail _ hs ih => exact hstep ih hs

theorem slot_of_getElem? {ops : List Word} {i : Nat} {w : Word} (h : ops[i]? = some w) :
    slot ops i = w := by
  simp [slot, h]

/-- How many operands an instruction may take before its value is pushed. A
numeric call takes its two operands, or what its count says. -/
def evalPops (ops : List Word) (pc : Nat) : Op → List Nat
  | .force | .forceReady => [1]
  | .interp => [0]
  | .mkApp | .callFast | .callSlow => [Word.u32 (slot ops (pc + 1)) + 1]
  | .callKnown | .callReady => [Word.u32 (slot ops (pc + 1))]
  | .add | .sub | .cmp => [2, Word.u32 (slot ops (pc + 1))]
  | _ => []

/-- The outcomes of an instruction, one rule for each way a handler ends. -/
inductive Does (c : PlCode) (vars : Vars) (f : Frame) : Op → Outcome → Prop where
  | raise {op} (msg : String) : Does c vars f op (.raise msg)
  | leave {op} : fallsThrough c.ops f.pc = false → targets c.ops f.pc = [] →
      Does c vars f op .leave
  | give {v} : f.stack.getLast? = some v → Does c vars f .retReady (.give v)
  | pushVar {w} : vars.get (slot c.ops (f.pc + 1)) = some w →
      Does c vars f .pushVar (.next (f.pc + 2) (f.stack ++ [w]))
  | blockVar {n} : vars = .block n → Does c vars f .pushVar (.build (f.pc + 2) f.stack)
  | pushLit : Does c vars f .pushLit
      (.next (f.pc + 2) (f.stack ++ [(slot c.ops (f.pc + 1) : Word)]))
  | pushSlot {w} : f.stack[slot c.ops (f.pc + 1)]? = some w →
      Does c vars f .pushSlot (.next (f.pc + 2) (f.stack ++ [w]))
  | stay {op} : op ∈ [Op.entry, .nop, .forceReady] →
      Does c vars f op (.next (f.pc + width c.ops f.pc) f.stack)
  | jmp : Does c vars f .jmp (.next (Word.u32 (slot c.ops (f.pc + 1))) f.stack)
  | br {t} : t ∈ targets c.ops f.pc → f.stack ≠ [] →
      Does c vars f .br (.next (Word.u32 t) (below f.stack 1))
  | tailblk : slot c.ops (f.pc + 2) ≤ f.stack.length → Does c vars f .tailblk
      (.next (Word.u32 (slot c.ops (f.pc + 1))) (above f.stack (slot c.ops (f.pc + 2))))
  | call : slot c.ops (f.pc + 2) ≤ f.stack.length → Does c vars f .call
      (.enter (Word.u32 (slot c.ops (f.pc + 1))) (above f.stack (slot c.ops (f.pc + 2)))
        (f.pc + 3) (below f.stack (slot c.ops (f.pc + 2))))
  | mkThk : Word.u32 (slot c.ops (f.pc + 1)) ≤ f.stack.length → Does c vars f .mkThk
      (.build (f.pc + width c.ops f.pc) (below f.stack (Word.u32 (slot c.ops (f.pc + 1)))))
  | await {op k} : k ∈ evalPops c.ops f.pc op → k ≤ f.stack.length →
      Does c vars f op (.await (f.pc + width c.ops f.pc) (below f.stack k))

section Cases

variable {c : PlCode} {vars : Vars} {f : Frame} {os : List Outcome} {o : Outcome} {op : Op}

theorem underflow_does (h : underflow = some os) (ho : o ∈ os) : Does c vars f op o := by
  obtain rfl := Option.some.inj h
  obtain rfl := List.mem_singleton.mp ho
  exact .raise _

theorem single_does {o' : Outcome} (hd : Does c vars f op o') (h : some [o'] = some os)
    (ho : o ∈ os) : Does c vars f op o := by
  obtain rfl := Option.some.inj h
  obtain rfl := List.mem_singleton.mp ho
  exact hd

theorem execKnown_does (hw : width c.ops f.pc = 4)
    (hk : Word.u32 (slot c.ops (f.pc + 1)) ∈ evalPops c.ops f.pc op)
    (h : execKnown c f = some os) (ho : o ∈ os) : Does c vars f op o := by
  simp only [execKnown, Option.bind_eq_bind, Option.bind_eq_some_iff] at h
  obtain ⟨argc, hargc, _, -, _, -, h⟩ := h
  obtain rfl := slot_of_getElem? hargc
  split_ifs at h with hc
  · exact underflow_does h ho
  · refine single_does ?_ h ho
    rw [← hw]
    exact .await hk (by omega)

theorem execTail_does (hf : fallsThrough c.ops f.pc = false) (ht : targets c.ops f.pc = [])
    (h : execTail c f = some os) (ho : o ∈ os) : Does c vars f op o := by
  simp only [execTail, Option.bind_eq_bind, Option.bind_eq_some_iff] at h
  obtain ⟨argc, -, bane, -, _, -, h⟩ := h
  split_ifs at h
  · exact underflow_does h ho
  · exact single_does (.raise _) h ho
  · exact single_does (.leave hf ht) h ho

theorem execHead_does {next : Nat} (hnext : next = f.pc + width c.ops f.pc)
    (hk : Word.u32 (slot c.ops (f.pc + 1)) + 1 ∈ evalPops c.ops f.pc op)
    (h : execHead next (Word.u32 (slot c.ops (f.pc + 1))) f.stack = some os) (ho : o ∈ os) :
    Does c vars f op o := by
  simp only [execHead] at h
  split_ifs at h with hu hr
  · exact underflow_does h ho
  · refine single_does ?_ h ho
    rw [hnext]
    exact .await hk (by omega)

/-- The handler that runs is that of the opcode at `pc`. -/
theorem exec_fetch (hop : opAt c.ops f.pc = some op) (h : exec c vars f = some os) :
    ∃ w, c.ops[f.pc]? = some w ∧ Op.ofWord w = some op := by
  simp only [exec, Option.bind_eq_bind, Option.bind_eq_some_iff] at h
  obtain ⟨w, hw, -⟩ := h
  refine ⟨w, hw, ?_⟩
  rw [← hop, opAt, slot_of_getElem? hw]

theorem exec_pushVar_does (hop : opAt c.ops f.pc = some .pushVar) (h : exec c vars f = some os)
    (ho : o ∈ os) : Does c vars f .pushVar o := by
  obtain ⟨w, hw, hc⟩ := exec_fetch hop h
  simp only [exec, hw, hc, Option.bind_eq_bind, Option.bind_some] at h
  obtain ⟨v, hv, h⟩ := Option.bind_eq_some_iff.mp h
  obtain rfl := slot_of_getElem? hv
  cases vars with
  | env slots =>
    simp only at h
    split at h
    · exact single_does (.pushVar (by assumption)) h ho
    · exact single_does (.raise _) h ho
  | block n =>
    simp only at h
    split_ifs at h
    · exact single_does (.raise _) h ho
    · exact single_does (.blockVar rfl) h ho

theorem exec_pushSlot_does (hop : opAt c.ops f.pc = some .pushSlot) (h : exec c vars f = some os)
    (ho : o ∈ os) : Does c vars f .pushSlot o := by
  obtain ⟨w, hw, hc⟩ := exec_fetch hop h
  simp only [exec, hw, hc, Option.bind_eq_bind, Option.bind_some] at h
  obtain ⟨k, hk, h⟩ := Option.bind_eq_some_iff.mp h
  obtain rfl := slot_of_getElem? hk
  split at h
  · exact single_does (.pushSlot (by assumption)) h ho
  · exact single_does (.raise _) h ho

theorem exec_mkThk_does (hop : opAt c.ops f.pc = some .mkThk) (h : exec c vars f = some os)
    (ho : o ∈ os) : Does c vars f .mkThk o := by
  obtain ⟨w, hw, hc⟩ := exec_fetch hop h
  simp only [exec, hw, hc, Option.bind_eq_bind, Option.bind_some] at h
  obtain ⟨argc, hargc, h⟩ := Option.bind_eq_some_iff.mp h
  obtain ⟨bane, hbane, h⟩ := Option.bind_eq_some_iff.mp h
  obtain rfl := slot_of_getElem? hargc
  obtain rfl := slot_of_getElem? hbane
  by_cases hu : Word.u32 (slot c.ops (f.pc + 1)) = 0 ∨
      Word.u32 (slot c.ops (f.pc + 1)) > f.stack.length
  · rw [if_pos hu] at h
    exact underflow_does h ho
  · rw [if_neg hu] at h
    split at h
    · exact single_does (.raise _) h ho
    · obtain ⟨_, -, h⟩ := Option.bind_eq_some_iff.mp h
      have hd : Does c vars f .mkThk _ := .mkThk (by omega)
      rw [width_mkThk hop] at hd
      exact single_does hd h ho

/-- The arm that is taken is a target of the branch. -/
theorem exec_br_does (hop : opAt c.ops f.pc = some .br) (h : exec c vars f = some os)
    (ho : o ∈ os) : Does c vars f .br o := by
  obtain ⟨w, hw, hc⟩ := exec_fetch hop h
  simp only [exec, hw, hc, Option.bind_eq_bind, Option.bind_some] at h
  obtain ⟨arms, ha, h⟩ := Option.bind_eq_some_iff.mp h
  obtain rfl := slot_of_getElem? ha
  split at h
  · exact underflow_does h ho
  · rename_i scrut hs
    split_ifs at h with hnat hrange
    · exact single_does (.raise _) h ho
    · exact single_does (.raise _) h ho
    · simp only [Option.bind_eq_some_iff] at h
      obtain ⟨target, ht, h⟩ := h
      obtain rfl := slot_of_getElem? ht
      refine single_does (.br ?_ (by rintro hnil; simp [hnil] at hs)) h ho
      simp only [targets, hop]
      refine List.mem_map.mpr ⟨scrut, List.mem_range.mpr (Nat.lt_of_not_le hrange), ?_⟩
      congr 1
      omega

/-- A block is called with the operands above those of its caller. -/
theorem exec_block_does (hblock : op = .call ∨ op = .tailblk) (hop : opAt c.ops f.pc = some op)
    (h : exec c vars f = some os) (ho : o ∈ os) : Does c vars f op o := by
  obtain ⟨w, hw, hc⟩ := exec_fetch hop h
  rcases hblock with rfl | rfl
  all_goals
    simp only [exec, hw, hc, Option.bind_eq_bind, Option.bind_some] at h
    obtain ⟨target, ht, h⟩ := Option.bind_eq_some_iff.mp h
    obtain ⟨nargs, hn, h⟩ := Option.bind_eq_some_iff.mp h
    obtain rfl := slot_of_getElem? ht
    obtain rfl := slot_of_getElem? hn
    split_ifs at h with hu
  · exact underflow_does h ho
  · exact single_does (.call (Nat.le_of_not_lt hu)) h ho
  · exact underflow_does h ho
  · exact single_does (.tailblk (Nat.le_of_not_lt hu)) h ho

/-- The calls that keep the frame, and the application: a value comes back. -/
theorem exec_call_does
    (hcall : op ∈ [Op.mkApp, .callKnown, .callReady, .callFast, .callSlow, .add, .sub, .cmp])
    (hop : opAt c.ops f.pc = some op) (h : exec c vars f = some os) (ho : o ∈ os) :
    Does c vars f op o := by
  obtain ⟨w, hw, hc⟩ := exec_fetch hop h
  simp only [List.mem_cons, List.not_mem_nil, or_false] at hcall
  rcases hcall with rfl | rfl | rfl | rfl | rfl | hnumeric
  · simp only [exec, hw, hc, Option.bind_eq_bind, Option.bind_some] at h
    obtain ⟨argc, hargc, h⟩ := Option.bind_eq_some_iff.mp h
    obtain rfl := slot_of_getElem? hargc
    split_ifs at h
    · exact underflow_does h ho
    · exact execHead_does (by simp [width, hop]) (by simp [evalPops]) h ho
  · simp only [exec, hw, hc, Option.bind_eq_bind, Option.bind_some] at h
    exact execKnown_does (by simp [width, hop]) (by simp [evalPops]) h ho
  · simp only [exec, hw, hc, Option.bind_eq_bind, Option.bind_some] at h
    exact execKnown_does (by simp [width, hop]) (by simp [evalPops]) h ho
  · simp only [exec, hw, hc, Option.bind_eq_bind, Option.bind_some] at h
    obtain ⟨argc, hargc, h⟩ := Option.bind_eq_some_iff.mp h
    obtain ⟨_, -, h⟩ := Option.bind_eq_some_iff.mp h
    obtain rfl := slot_of_getElem? hargc
    exact execHead_does (by simp [width, hop]) (by simp [evalPops]) h ho
  · simp only [exec, hw, hc, Option.bind_eq_bind, Option.bind_some] at h
    obtain ⟨argc, hargc, h⟩ := Option.bind_eq_some_iff.mp h
    obtain rfl := slot_of_getElem? hargc
    exact execHead_does (by simp [width, hop]) (by simp [evalPops]) h ho
  · -- Two direct naturals are computed in place, the rest is a known call.
    have hwidth : width c.ops f.pc = 4 := by
      rcases hnumeric with rfl | rfl | rfl <;> simp [width, hop]
    have hpops : evalPops c.ops f.pc op = [2, Word.u32 (slot c.ops (f.pc + 1))] := by
      rcases hnumeric with rfl | rfl | rfl <;> rfl
    have hexec : execNumeric c f = some os := by
      rcases hnumeric with rfl | rfl | rfl <;>
        simpa only [exec, hw, hc, Option.bind_eq_bind, Option.bind_some] using h
    unfold execNumeric at hexec
    split_ifs at hexec
    · exact underflow_does hexec ho
    · simp only [Option.bind_eq_bind, Option.bind_eq_some_iff] at hexec
      obtain ⟨slow, hslow, hexec⟩ := hexec
      obtain rfl := Option.some.inj hexec
      rcases List.mem_cons.mp ho with rfl | ho
      · rw [← hwidth]
        exact .await (by simp [hpops]) (by omega)
      · exact execKnown_does hwidth (by simp [hpops]) hslow ho

/-- The instructions after which nothing of the frame is left. -/
theorem exec_leave_does
    (hleave : op ∈ [Op.ret, .retReady, .tailcall, .tailReady, .tailAdd, .tailSub, .tailCmp])
    (hop : opAt c.ops f.pc = some op) (h : exec c vars f = some os) (ho : o ∈ os) :
    Does c vars f op o := by
  obtain ⟨w, hw, hc⟩ := exec_fetch hop h
  simp only [List.mem_cons, List.not_mem_nil, or_false] at hleave
  have hf : fallsThrough c.ops f.pc = false := by
    rcases hleave with rfl | rfl | rfl | rfl | rfl | rfl | rfl <;> simp [fallsThrough, hop]
  have ht : targets c.ops f.pc = [] := by
    rcases hleave with rfl | rfl | rfl | rfl | rfl | rfl | rfl <;> simp [targets, hop]
  rcases hleave with rfl | rfl | rfl | rfl | hnumeric
  · simp only [exec, hw, hc, Option.bind_eq_bind, Option.bind_some] at h
    split_ifs at h
    · exact underflow_does h ho
    · exact single_does (.leave hf ht) h ho
  · simp only [exec, hw, hc, Option.bind_eq_bind, Option.bind_some] at h
    split at h
    · exact underflow_does h ho
    · obtain rfl := Option.some.inj h
      simp only [List.mem_cons, List.not_mem_nil, or_false] at ho
      rcases ho with rfl | rfl
      · exact .give (by assumption)
      · exact .leave hf ht
  · simp only [exec, hw, hc, Option.bind_eq_bind, Option.bind_some] at h
    exact execTail_does hf ht h ho
  · simp only [exec, hw, hc, Option.bind_eq_bind, Option.bind_some] at h
    exact execTail_does hf ht h ho
  · have hexec : (if f.stack.length < 2 then underflow else (execTail c f).map (.leave :: ·)) =
        some os := by
      rcases hnumeric with rfl | rfl | rfl <;>
        simpa only [exec, hw, hc, Option.bind_eq_bind, Option.bind_some] using h
    split_ifs at hexec
    · exact underflow_does hexec ho
    · obtain ⟨os', hos', rfl⟩ := Option.map_eq_some_iff.mp hexec
      rcases List.mem_cons.mp ho with rfl | ho
      · exact .leave hf ht
      · exact execTail_does hf ht hos' ho

/-- The forces: the top operand is replaced by its value. -/
theorem exec_force_does (hforce : op = .force ∨ op = .forceReady) (hop : opAt c.ops f.pc = some op)
    (h : exec c vars f = some os) (ho : o ∈ os) : Does c vars f op o := by
  obtain ⟨w, hw, hc⟩ := exec_fetch hop h
  have hwidth : width c.ops f.pc = 1 := by rcases hforce with rfl | rfl <;> simp [width, hop]
  have hpops : 1 ∈ evalPops c.ops f.pc op := by rcases hforce with rfl | rfl <;> simp [evalPops]
  have hawait : f.stack.length ≠ 0 → Does c vars f op (.await (f.pc + 1) (below f.stack 1)) := by
    intro hne
    rw [← hwidth]
    exact .await (hwidth ▸ hpops) (by omega)
  rcases hforce with rfl | rfl
  · simp only [exec, hw, hc, Option.bind_eq_bind, Option.bind_some] at h
    split_ifs at h with hu
    · exact underflow_does h ho
    · exact single_does (hawait hu) h ho
  · simp only [exec, hw, hc, Option.bind_eq_bind, Option.bind_some] at h
    split_ifs at h with hu
    · exact underflow_does h ho
    · obtain rfl := Option.some.inj h
      simp only [List.mem_cons, List.not_mem_nil, or_false] at ho
      rcases ho with rfl | rfl
      · rw [← hwidth]
        exact .stay (by simp)
      · exact hawait hu

/-- Inversion of `exec`: every outcome follows one of the rules. The later proofs
split on those and never look at the handlers. -/
theorem exec_does (h : exec c vars f = some os) (ho : o ∈ os) :
    ∃ op, opAt c.ops f.pc = some op ∧ Does c vars f op o := by
  have hx := h
  simp only [exec, Option.bind_eq_bind, Option.bind_eq_some_iff] at h
  obtain ⟨w, hw, h⟩ := h
  cases hc : Op.ofWord w with
  | none => simp [hc] at h
  | some op =>
    have hop : opAt c.ops f.pc = some op := by rw [opAt, slot_of_getElem? hw, hc]
    refine ⟨op, hop, ?_⟩
    simp only [hc] at h
    cases op with
    | pushVar => exact exec_pushVar_does hop hx ho
    | pushSlot => exact exec_pushSlot_does hop hx ho
    | mkThk => exact exec_mkThk_does hop hx ho
    | br => exact exec_br_does hop hx ho
    | call => exact exec_block_does (.inl rfl) hop hx ho
    | tailblk => exact exec_block_does (.inr rfl) hop hx ho
    | mkApp | callKnown | callReady | callFast | callSlow | add | sub | cmp =>
      exact exec_call_does (by simp) hop hx ho
    | ret | retReady | tailcall | tailReady | tailAdd | tailSub | tailCmp =>
      exact exec_leave_does (by simp) hop hx ho
    | force => exact exec_force_does (.inl rfl) hop hx ho
    | forceReady => exact exec_force_does (.inr rfl) hop hx ho
    | pushLit =>
      obtain ⟨v, hv, h⟩ := Option.bind_eq_some_iff.mp h
      obtain rfl := slot_of_getElem? hv
      exact single_does .pushLit h ho
    | interp =>
      obtain ⟨_, -, h⟩ := Option.bind_eq_some_iff.mp h
      have hd : Does c vars f .interp _ := .await (k := 0) (by simp [evalPops]) (by omega)
      rw [width, hop] at hd
      simp only [below, Nat.sub_zero, List.take_length] at hd
      exact single_does hd h ho
    | jmp =>
      obtain ⟨target, ht, h⟩ := Option.bind_eq_some_iff.mp h
      obtain rfl := slot_of_getElem? ht
      exact single_does .jmp h ho
    | entry =>
      obtain ⟨_, -, h⟩ := Option.bind_eq_some_iff.mp h
      have hd : Does c vars f .entry _ := .stay (by simp)
      rw [width, hop] at hd
      exact single_does hd h ho
    | nop =>
      have hd : Does c vars f .nop _ := .stay (by simp)
      rw [width, hop] at hd
      exact single_does hd h ho
    | lawblk => simp at h

end Cases

end Enki.Bytecode
