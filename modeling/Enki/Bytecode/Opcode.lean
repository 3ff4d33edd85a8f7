import Enki.Ops

/-!
# Opcodes and code objects

The opcodes of `plan/bytecode.h`, one slot of the stream for each opcode and
each operand, and the decoded code object. `OP_JIT` and `OP_BUILD` live in
private dispatch overlays only, and never in the stream itself.
-/

namespace Enki.Bytecode

/-- `pl_op` -/
inductive Op where
  | pushVar | pushLit | mkThk | force | call | tailcall | interp | ret | mkApp | pushSlot | br | jmp
  | entry | callKnown | callFast | callSlow | add | sub | cmp | tailAdd | tailSub | tailCmp
  | forceReady | retReady | callReady | tailReady | nop | tailblk | lawblk
  deriving DecidableEq, Repr

namespace Op

/-- The number of an opcode in the stream. -/
def code : Op → Word
  | pushVar => 0 | pushLit => 1 | mkThk => 2 | force => 3 | call => 4 | tailcall => 5 | interp => 6
  | ret => 7 | mkApp => 8 | pushSlot => 9 | br => 10 | jmp => 11 | entry => 12 | callKnown => 13
  | callFast => 14 | callSlow => 15 | add => 16 | sub => 17 | cmp => 18 | tailAdd => 19
  | tailSub => 20 | tailCmp => 21 | forceReady => 22 | retReady => 23 | callReady => 24
  | tailReady => 25 | nop => 26 | tailblk => 27 | lawblk => 28

/-- The opcode a slot holds, if it holds one. -/
def ofWord : Word → Option Op
  | 0 => some pushVar | 1 => some pushLit | 2 => some mkThk | 3 => some force | 4 => some call
  | 5 => some tailcall | 6 => some interp | 7 => some ret | 8 => some mkApp | 9 => some pushSlot
  | 10 => some br | 11 => some jmp | 12 => some entry | 13 => some callKnown
  | 14 => some callFast | 15 => some callSlow | 16 => some add | 17 => some sub | 18 => some cmp
  | 19 => some tailAdd | 20 => some tailSub | 21 => some tailCmp | 22 => some forceReady
  | 23 => some retReady | 24 => some callReady | 25 => some tailReady | 26 => some nop
  | 27 => some tailblk | 28 => some lawblk
  | _ => none

@[simp]
theorem ofWord_code (op : Op) : ofWord op.code = some op := by
  cases op <;> rfl

end Op

/-- `pl_bane`, the executioner of a thunk. -/
inductive Bane where
  | fast | slow | prim | primKnown
  deriving DecidableEq, Repr

/-- The bane in the low three bits of an operand (`PL_BAN_MASK`). -/
def Bane.ofWord (w : Word) : Option Bane :=
  match w % 8 with
  | 1 => some .fast | 2 => some .slow | 3 => some .prim | 4 => some .primKnown
  | _ => none

/-- Is this the bane operand of an ingest-resolved primop? -/
def isKnown (w : Word) : Bool := Bane.ofWord w = some .primKnown

/-- Slot `i` of the stream. The decoder reads only inside the row. -/
def slot (ops : List Word) (i : Nat) : Nat := ops.getD i 0

/-- The opcode at slot `pc`. -/
def opAt (ops : List Word) (pc : Nat) : Option Op := Op.ofWord (slot ops pc)

/-- `pl_bytecode_width`: an opcode with its operands. -/
def width (ops : List Word) (pc : Nat) : Nat :=
  match opAt ops pc with
  | some .pushVar | some .pushLit | some .mkApp | some .interp | some .pushSlot | some .jmp
  | some .entry | some .callSlow => 2
  | some .call | some .callFast | some .tailblk => 3
  | some .callKnown | some .callReady | some .add | some .sub | some .cmp => 4
  | some .br => 2 + slot ops (pc + 1)
  | some .mkThk | some .tailcall | some .tailReady | some .tailAdd | some .tailSub
  | some .tailCmp => if isKnown (slot ops (pc + 2)) then 5 else 3
  | _ => 1

/-- `pl_lawblk`: a block of the code that implements an unpinned law. -/
structure LawBlk where
  law : Word
  target : Nat
  arity : Nat
  deriving DecidableEq, Repr

/-- `pl_code`. The array keeps the length of the row it was copied from;
`nops` bounds the part that is code. -/
structure PlCode where
  ops : List Word
  nops : Nat
  strictMask : Nat
  strictEntry : Nat
  maxVar : Nat
  lawblks : List LawBlk
  deriving DecidableEq, Repr

theorem width_pos (ops : List Word) (pc : Nat) : 0 < width ops pc := by
  unfold width
  split <;> first | omega | (split <;> omega)

/-- The control-flow targets of the instruction at `pc`: the operand of a jump
or of a local call, and every arm of a branch. -/
def targets (ops : List Word) (pc : Nat) : List Nat :=
  match opAt ops pc with
  | some .jmp | some .call | some .tailblk => [slot ops (pc + 1)]
  | some .br => (List.range (slot ops (pc + 1))).map fun k => slot ops (pc + 2 + k)
  | _ => []

/-- Does control ever continue at the slot behind this instruction? -/
def fallsThrough (ops : List Word) (pc : Nat) : Bool :=
  match opAt ops pc with
  | some .jmp | some .br | some .tailblk | some .ret | some .retReady | some .tailcall
  | some .tailReady | some .tailAdd | some .tailSub | some .tailCmp => false
  | _ => true

/-- The instruction starts of a stream: slot 0, and the slot behind each
instruction that starts below `n`. -/
inductive Starts (ops : List Word) (n : Nat) : Nat → Prop where
  | zero : Starts ops n 0
  | next {pc} : Starts ops n pc → pc < n → Starts ops n (pc + width ops pc)

/-- A start of an instruction of the code below `n`. -/
def IsStart (ops : List Word) (n pc : Nat) : Prop := Starts ops n pc ∧ pc < n

end Enki.Bytecode
