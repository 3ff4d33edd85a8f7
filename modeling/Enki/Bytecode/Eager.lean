import Enki.Bytecode.Ready

/-!
# Eager entries and the private-stream rewrites

`eager_rewrite` and `numeric_specialise` of `bytecode.c`, and the order
`bytecode_optimise` runs the passes in. The eager pass turns a `MK_THK` whose
thunk the same block forces on its next evaluation step into the call that the
force would have made.
-/

namespace Enki.Bytecode

/-- `eager_slot`: what the pass knows of one operand slot. -/
structure EagerSlot where
  src : Option Nat
  producer : Option Nat
  evalPc : Int
  var1 : Nat
  lit : Option Word
  whnf : Bool
  deriving DecidableEq, Repr

/-- A slot nothing is known of but whether it holds a value. -/
def EagerSlot.plain (whnf : Bool) : EagerSlot := ⟨none, none, -1, 0, none, whnf⟩

/-- The locals of `eager_rewrite`. The depth is the number of slots. -/
structure EagerState where
  ops : List Word
  slots : List EagerSlot
  live : Bool
  blockStart : Bool
  changed : Bool
  lastImpure : Int

namespace EagerState

/-- The macro `EPUSH`. -/
def push (s : EagerState) (e : EagerSlot) : EagerState :=
  if !s.live then s
  -- too deep to keep track of
  else if s.slots.length ≥ readySlots then { s with live := false }
  else { s with slots := s.slots ++ [e] }

/-- The macro `EPOP`. -/
def pop (s : EagerState) (k : Nat) : EagerState :=
  if !s.live then s
  else if k > s.slots.length then { s with live := false }
  else { s with slots := s.slots.take (s.slots.length - k) }

def slot (s : EagerState) (k : Nat) : EagerSlot := s.slots.getD k (EagerSlot.plain false)

/-- The slot an entry copies, itself when it is no copy. -/
def source (s : EagerState) (k : Nat) : Nat := (s.slot k).src.getD k

end EagerState

/-- `eager_callee_mask` -/
def eagerCalleeMask (m : Mem) (strictMask : Nat) (head : EagerSlot) (nargs : Nat) : Nat :=
  -- variable 0 is the law itself
  if head.var1 = 1 then strictMask
  else match head.lit with
    | none => 0
    | some lit =>
      match m.pin lit with
      | none => 0
      | some (_, body) =>
        match m.law body with
        | none => 0
        -- the mask of its code speaks of saturated calls
        | some (arity, _, _) => if arity ≠ nargs then 0 else m.codeMask lit

/-- `eager_apply`: the stream with the thunk at `p` entered directly. -/
def eagerApply (ops : List Word) (p : Nat) : Option (List Word) :=
  let argc := slot ops (p + 1)
  let bane := slot ops (p + 2)
  if opAt ops p ≠ some .mkThk then none
  else match Bane.ofWord bane with
    -- the strict hint moves to the call
    | some .fast =>
      if argc < 2 then none
      else some (((ops.set p Op.callFast.code).set (p + 1) (argc - 1)).set (p + 2) (bane / 256))
    | some .slow =>
      if argc < 2 then none
      else some (((ops.set p Op.callFast.code).set (p + 1) (argc - 1)).set (p + 2) 0)
    -- one slot is left over, and filled
    | some .primKnown =>
      some ((((ops.set p Op.callKnown.code).set (p + 2) (slot ops (p + 3))).set (p + 3)
        (slot ops (p + 4))).set (p + 4) Op.nop.code)
    | _ => none

/-- Every strict argument before `k` is a value computed before `p`. -/
def eagerOrdered (s : EagerState) (base mask k p : Nat) : Bool :=
  (List.range k).all fun j =>
    !mask.testBit j ||
      ((s.slot (s.source (base + j))).whnf && decide ((s.slot (s.source (base + j))).evalPc < p))

/-- The loop of `eager_consume`, from argument `k` on, over `count` arguments. -/
def eagerConsumeFrom (base mask : Nat) : (count k : Nat) → EagerState → EagerState
  | 0, _, s => s
  | count + 1, k, s =>
    if !mask.testBit k then eagerConsumeFrom base mask count (k + 1) s
    else
      let at_ := s.source (base + k)
      let src := s.slot at_
      -- a value already, also by an earlier rewrite
      if src.whnf then eagerConsumeFrom base mask count (k + 1) s
      else match src.producer with
        -- not a thunk of this block: what comes behind it may not go before it
        | none => s
        | some p =>
          -- something was evaluated behind the producer, which must not come after it
          if s.lastImpure ≥ p then s
          else if !eagerOrdered s base mask k p then s
          else match eagerApply s.ops p with
            | none => s
            | some ops' =>
              eagerConsumeFrom base mask count (k + 1) { s with
                ops := ops'
                slots := s.slots.set at_ { src with producer := none, whnf := true, evalPc := p }
                lastImpure := max s.lastImpure p
                changed := true }

/-- `eager_consume` -/
def eagerConsume (s : EagerState) (base argc mask : Nat) : EagerState :=
  eagerConsumeFrom base mask (min argc 32) 0 s

/-- `eager_call_consume` -/
def eagerCallConsume (m : Mem) (strictMask : Nat) (s : EagerState) (nargs : Nat) : EagerState :=
  let depth := s.slots.length
  if nargs + 1 > depth then s
  else
    let mask := eagerCalleeMask m strictMask (s.slot (depth - nargs - 1)) nargs
    -- a mask with bits beyond the arguments is of another arity
    if mask = 0 ∨ nargs < 64 ∧ mask / 2 ^ nargs ≠ 0 then s
    else eagerConsume s (depth - nargs) nargs (mask % 2 ^ 32)

/-- A block begins: only what the readiness analysis found is known. -/
def eagerBlock (s : EagerState) (st : ReadyState) : EagerState :=
  let live := decide (0 ≤ st.depth) && decide (st.depth ≤ readySlots)
  { s with
    live := live
    slots := if live then (List.range st.depth.toNat).map fun i => EagerSlot.plain (st.get i)
      else []
    lastImpure := -1
    blockStart := false }

/-- The result of an evaluated call: a value, computed at `pc`. -/
def EagerState.evaluated (s : EagerState) (pc pops : Nat) : EagerState :=
  { (s.pop pops).push (EagerSlot.plain true) with lastImpure := pc }

/-- One instruction of `eager_rewrite`, and the slot it continues at. `none` is
an opcode the pass stops at. -/
def eagerStep (m : Mem) (strictMask : Nat) (states : List ReadyState) (pc : Nat)
    (s : EagerState) : Option (EagerState × Nat) :=
  let o k := slot s.ops (pc + 1 + k)
  match opAt s.ops pc with
  | some .pushVar =>
    -- what the analysis knows of the variable at this instruction
    let known := s.live && decide (o 0 < 64) && (states.getD pc .unseen).vars.testBit (o 0)
    some (s.push { EagerSlot.plain known with
      var1 := if o 0 < 2 ^ 32 - 1 then o 0 + 1 else 0 }, pc + 2)
  | some .pushLit =>
    some (s.push { EagerSlot.plain (Word.isWhnf (o 0)) with lit := some (o 0) }, pc + 2)
  | some .pushSlot =>
    if s.live && decide (o 0 < s.slots.length) then
      some (s.push { EagerSlot.plain false with
        -- a copy: what is found out of the original holds of it
        src := some (s.source (o 0)), var1 := (s.slot (o 0)).var1, lit := (s.slot (o 0)).lit },
        pc + 2)
    else some ({ s with live := false }, pc + 2)
  | some .mkThk =>
    some ((s.pop (o 0)).push { EagerSlot.plain false with producer := some pc },
      pc + (if isKnown (o 1) then 5 else 3))
  | some .mkApp => some ((s.pop (o 0 + 1)).push (EagerSlot.plain true), pc + 2)
  | some .nop => some (s, pc + 1)
  | some .entry => some (s, pc + 2)
  | some .force =>
    let s := if s.live && decide (1 ≤ s.slots.length) then
      eagerConsume s (s.slots.length - 1) 1 1 else s
    some (s.evaluated pc 1, pc + 1)
  | some .callKnown =>
    let s' := if s.live && decide (o 0 ≤ s.slots.length) then
      eagerConsume s (s.slots.length - o 0) (o 0) (plOp (o 1)).strictMask else s
    some (s'.evaluated pc (o 0), pc + 4)
  | some .callFast =>
    let s' := if s.live then eagerCallConsume m strictMask s (o 0) else s
    some (s'.evaluated pc (o 0 + 1), pc + 3)
  | some .callSlow => some (s.evaluated pc (o 0 + 1), pc + 2)
  | some .call => some (s.evaluated pc (o 1), pc + 3)
  | some .interp => some (s.evaluated pc 0, pc + 2)
  | some .tailcall =>
    let s' := if isKnown (o 1) && s.live && decide (o 0 ≤ s.slots.length) then
        eagerConsume s (s.slots.length - o 0) (o 0) (plOp (o 2)).strictMask
      else if Bane.ofWord (o 1) = some .fast ∧ s.live ∧ o 0 ≥ 2 then
        eagerCallConsume m strictMask s (o 0 - 1)
      else s
    some ({ s' with blockStart := true }, pc + (if isKnown (o 1) then 5 else 3))
  -- control leaves, so the next instruction begins a block
  | some .br => some ({ s with blockStart := true }, pc + 2 + o 0)
  | some .jmp => some ({ s with blockStart := true }, pc + 2)
  | some .tailblk => some ({ s with blockStart := true }, pc + 3)
  | some .ret => some ({ s with blockStart := true }, pc + 1)
  | some .add | some .sub | some .cmp | some .tailAdd | some .tailSub | some .tailCmp
  | some .forceReady | some .retReady | some .callReady | some .tailReady | some .lawblk | none =>
    none

/-- The loop of `eager_rewrite` from slot `pc`. Each round moves on, so as many
rounds as there are slots reach the end. -/
def eagerLoop (m : Mem) (strictMask n : Nat) (states : List ReadyState) (isTarget : List Nat) :
    Nat → Nat → EagerState → EagerState
  | 0, _, s => s
  | fuel + 1, pc, s =>
    if pc ≥ n then s
    else
      let s := if s.blockStart ∨ pc ∈ isTarget then eagerBlock s (states.getD pc .unseen) else s
      match eagerStep m strictMask states pc s with
      | none => s
      | some (s, next) => eagerLoop m strictMask n states isTarget fuel next s

/-- `eager_rewrite`: the new stream, and whether anything changed. -/
def eagerRewrite (m : Mem) (c : PlCode) (states : List ReadyState) (isTarget : List Nat) :
    List Word × Bool :=
  let s := eagerLoop m c.strictMask c.nops states isTarget c.nops 0
    ⟨c.ops, [], false, true, false, -1⟩
  (s.ops, s.changed)

/-- `numeric_opcode` -/
def numericOpcode (idx : Nat) (tail : Bool) : Op :=
  let d := plOp idx
  if d.opset = 66 ∧ d.argc = 2 ∧ d.name = OpDesc.mote "Add" then
    if tail then .tailAdd else .add
  else if d.opset = 66 ∧ d.argc = 2 ∧ d.name = OpDesc.mote "Sub" then
    if tail then .tailSub else .sub
  else if d.opset = 66 ∧ d.argc = 2 ∧ d.name = OpDesc.mote "Cmp" then
    if tail then .tailCmp else .cmp
  else if tail then .tailcall else .callKnown

/-- One instruction of `numeric_specialise`, and the slot it continues at. -/
def numericStep (ops : List Word) (i : Nat) : List Word × Nat :=
  let o k := slot ops (i + 1 + k)
  match opAt ops i with
  | some .callKnown => (ops.set i (numericOpcode (o 1) false).code, i + 4)
  | some .tailcall =>
    if isKnown (o 1) then (ops.set i (numericOpcode (o 2) true).code, i + 5) else (ops, i + 3)
  | some .mkThk => (ops, i + (if isKnown (o 1) then 5 else 3))
  | some .br => (ops, i + 2 + o 0)
  | some .call | some .callFast | some .tailblk => (ops, i + 3)
  | some .pushVar | some .pushLit | some .mkApp | some .interp | some .pushSlot | some .jmp
  | some .entry | some .callSlow => (ops, i + 2)
  | _ => (ops, i + 1)

/-- A pass over the instructions below `n`, from slot `i` on. Each step moves on,
so as many steps as there are slots reach the end. -/
def walk (n : Nat) (step : List Word → Nat → List Word × Nat) : Nat → Nat → List Word → List Word
  | 0, _, ops => ops
  | fuel + 1, i, ops =>
    if i ≥ n then ops else walk n step fuel (step ops i).2 (step ops i).1

/-- `numeric_specialise` -/
def numericSpecialise (n : Nat) (ops : List Word) : List Word := walk n numericStep n 0 ops

/-- The rounds of `bytecode_optimise`: analyse, then make what can be eager so,
until nothing changes. An analysis that does not complete ends them. -/
def eagerRounds (m : Mem) (isTarget : List Nat) : Nat → PlCode → PlCode × ReadyResult
  | 0, c => (c, .ok)
  | rounds + 1, c =>
    match readyAnalyse c with
    | .error r => (c, r)
    | .ok states =>
      let (ops, changed) := eagerRewrite m c states isTarget
      let c := { c with ops := ops }
      if changed then eagerRounds m isTarget rounds c else (c, .ok)

/-- What `bytecode_optimise` leaves: the code, how the last analysis ended, and
its states when it completed (the C function frees them). -/
structure Optimised where
  code : PlCode
  result : ReadyResult
  states : Option (List ReadyState)
  deriving DecidableEq

/-- The last analysis, and the readiness variants it proves. -/
def readyVariants (c : PlCode) : Optimised :=
  match readyAnalyse c with
  | .ok states => ⟨{ c with ops := readyRewrite c.ops states c.nops }, .ok, some states⟩
  | .error r => ⟨c, r, none⟩

/-- `bytecode_optimise` -/
def bytecodeOptimise (m : Mem) (c : PlCode) (isTarget : List Nat) : Optimised :=
  -- too long to analyse
  if c.nops = 0 ∨ c.nops > 16384 then ⟨c, .incomplete, none⟩
  else
    match eagerRounds m isTarget 64 c with
    | (c, .ok) => readyVariants { c with ops := numericSpecialise c.nops c.ops }
    | (c, r) => ⟨c, r, none⟩

end Enki.Bytecode
