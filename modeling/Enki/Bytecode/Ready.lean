import Enki.Bytecode.Opcode
import Enki.Lib.Worklist

/-!
# The readiness analysis

`ready_analyse` of `bytecode.c`: for every slot of the stream, the height of the
operand stack on entry, which operand slots hold a value in weak head normal
form, and which variables do. It is the worklist loop of `Lib.Worklist`, bounded
by 512 visits for each slot.
-/

namespace Enki.Bytecode

/-- `READY_SLOTS` -/
def readySlots : Nat := 256

/-- `ready_state`. Depth `-1` is unseen and `-2` an unknown or inconsistent
stack shape; bit `k` of `bits` is operand slot `k`, bit `v` of `vars` variable
`v`. The four words of the bit array are one number here. -/
structure ReadyState where
  depth : Int
  bits : Nat
  vars : Nat
  deriving DecidableEq, Repr

namespace ReadyState

def unseen : ReadyState := ⟨-1, 0, 0⟩

def unknown : ReadyState := ⟨-2, 0, 0⟩

/-- `ready_get` -/
def get (s : ReadyState) (k : Nat) : Bool :=
  decide (0 ≤ s.depth) && decide ((k : Int) < s.depth) && s.bits.testBit k

/-- Set bit `k`, or clear it. -/
def putBit (bits k : Nat) (known : Bool) : Nat :=
  (bits ^^^ (bits &&& 2 ^ k)) ||| (if known then 2 ^ k else 0)

/-- `ready_push` -/
def push (s : ReadyState) (known : Bool) : ReadyState :=
  if s.depth < 0 then s
  else if s.depth = readySlots then { s with depth := -2 }
  else { s with depth := s.depth + 1, bits := putBit s.bits s.depth.toNat known }

/-- `ready_pop`, with `none` for a stack that is too short. An unknown shape
cannot prove an underflow. Dead slots are cleared, so that they do not take part
in the fixed point. -/
def pop (s : ReadyState) (n : Nat) : Option ReadyState :=
  if s.depth < 0 then some s
  else if (n : Int) > s.depth then none
  else some { s with depth := s.depth - n, bits := s.bits % 2 ^ (s.depth - n).toNat }

/-- `ready_merge`: the new state of a point, or `none` if it does not change. -/
def merge (dst src : ReadyState) : Option ReadyState :=
  let src := if src.depth < 0 then unknown else src
  if dst.depth = -1 then some src
  else if dst.depth = -2 then none
  else if src.depth ≠ dst.depth then some unknown
  else
    let met : ReadyState := ⟨dst.depth, dst.bits &&& src.bits, dst.vars &&& src.vars⟩
    if met = dst then none else some met

/-- `ready_args`: every strict operand of the primop is ready. -/
def args (s : ReadyState) (argc : Nat) (idx : Nat) : Bool :=
  if s.depth < 0 ∨ (argc : Int) > s.depth then false
  else (List.range 32).all fun k =>
    !((plOp idx).strictMask.testBit k) ||
      (decide (k < argc) && s.get (s.depth.toNat - argc + k))

/-- The arguments of a block are unknown operand slots. -/
def blockArgs (argc : Nat) : ReadyState :=
  ⟨if argc ≤ readySlots then (argc : Int) else -2, 0, 0⟩

end ReadyState

/-- `ready_result` -/
inductive ReadyResult where
  | ok | incomplete | underflow
  deriving DecidableEq, Repr

open ReadyState

/-- The macro `POP` of `ready_analyse`. -/
def readyPop (s : ReadyState) (n : Nat) : Except ReadyResult ReadyState :=
  match s.pop n with
  | some s => .ok s
  | none => .error .underflow

/-- The operand count `MK_APP` and the calls with a head pop: past the tracked
slots it only has to be too large. -/
def headCount (argc : Nat) : Nat := if argc < readySlots then argc + 1 else readySlots + 1

/-- One visit of `ready_analyse`: the states it sends on, in order. -/
def readyTransfer (ops : List Word) (pc : Nat) (s : ReadyState) :
    Except ReadyResult (List (Nat × ReadyState)) :=
  let o k := slot ops (pc + 1 + k)
  match opAt ops pc with
  | some .pushVar => .ok [(pc + 2, s.push (decide (o 0 < 64) && s.vars.testBit (o 0)))]
  | some .pushLit => .ok [(pc + 2, s.push (Word.isWhnf (o 0)))]
  | some .pushSlot => .ok [(pc + 2, s.push (s.get (o 0)))]
  | some .force => do
    let s ← readyPop s 1
    return [(pc + 1, s.push true)]
  | some .interp => .ok [(pc + 2, s.push true)]
  | some .mkApp => do
    let s ← readyPop s (headCount (o 0))
    return [(pc + 2, s.push true)]
  | some .mkThk => do
    let s ← readyPop s (o 0)
    return [(pc + (if isKnown (o 1) then 5 else 3), s.push false)]
  | some .call => do
    let s ← readyPop s (o 1)
    return [(o 0, blockArgs (o 1)), (pc + 3, s.push true)]
  | some .callFast => do
    let s ← readyPop s (headCount (o 0))
    return [(pc + 3, s.push true)]
  | some .callSlow => do
    let s ← readyPop s (headCount (o 0))
    return [(pc + 2, s.push true)]
  | some .callKnown | some .add | some .sub | some .cmp => do
    let s ← readyPop s (o 0)
    return [(pc + 4, s.push true)]
  | some .entry => .ok [(pc + 2, s)]
  | some .nop => .ok [(pc + 1, s)]
  | some .jmp => .ok [(o 0, s)]
  | some .tailblk => do
    let _ ← readyPop s (o 1)
    return [(o 0, blockArgs (o 1))]
  | some .br => do
    let s ← readyPop s 1
    return (List.range (o 0)).map fun k => (o (k + 1), s)
  | some .ret => do
    let _ ← readyPop s 1
    return []
  | some .tailcall | some .tailAdd | some .tailSub | some .tailCmp => do
    let _ ← readyPop s (o 0)
    return []
  | some .forceReady | some .retReady | some .callReady | some .tailReady | some .lawblk | none =>
    .error .incomplete

/-- The analysis of a stream, as an instance of the worklist. -/
def readiness (ops : List Word) : Worklist.Analysis ReadyState ReadyResult :=
  ⟨merge, readyTransfer ops⟩

/-- The points a program is entered at, with what is known there: slot 0, the
strict entry once every strict argument has been seen to be a value, and each
law block with its arguments as unknown operand slots. -/
def readyEntries (c : PlCode) : List (Nat × ReadyState) :=
  [(0, ⟨0, 0, 0⟩)] ++
  (if c.strictEntry ≠ 0 then [(c.strictEntry, ⟨0, 0, c.strictMask * 2⟩)] else []) ++
  c.lawblks.map fun b => (b.target, blockArgs b.arity)

/-- `ready_analyse` -/
def readyAnalyse (c : PlCode) : Except ReadyResult (List ReadyState) :=
  let w := Worklist.flows (readiness c.ops) ⟨List.replicate c.nops unseen, []⟩ (readyEntries c)
  match Worklist.solve (readiness c.ops) (c.nops * 512) w with
  | .ok states => .ok states
  | .error (some r) => .error r
  | .error none => .error .incomplete

/-- The opcode `ready_rewrite` puts at a slot, given the state found there. -/
def readyOp (ops : List Word) (pc : Nat) (s : ReadyState) : Option Op :=
  let o k := slot ops (pc + 1 + k)
  let topReady := decide (s.depth ≠ 0) && s.get (s.depth - 1).toNat
  if s.depth < 0 then none
  else match opAt ops pc with
    | some .force => if topReady then some .forceReady else none
    | some .ret => if topReady then some .retReady else none
    | some .callKnown => if s.args (o 0) (o 1) then some .callReady else none
    | some .tailcall =>
      if isKnown (o 1) && s.args (o 0) (o 2) then some .tailReady else none
    | _ => none

/-- `ready_rewrite`, over the slots below `n`. Opcodes do not change the
operands read at other slots, so the slots are rewritten one after the other. -/
def readyRewrite (ops : List Word) (states : List ReadyState) : Nat → List Word
  | 0 => ops
  | n + 1 =>
    let ops' := readyRewrite ops states n
    match readyOp ops' n (states.getD n unseen) with
    | some op => ops'.set n op.code
    | none => ops'

end Enki.Bytecode
