import Enki.Bytecode.Eager

/-!
# Decoding a code row

`pl_bytecode_from_val` of `bytecode.c`: one walk validates every opcode and
operand of the row, resolves the known primops and collects the law directory;
the directory is then cut off, the jump targets are checked against the
instruction starts, a thunk returned at once is fused into a tail call, and the
private rewrites follow. A decode that fails leaves the law interpreted.

`PL_NO_BYTECODE` is taken as unset and allocation as successful. The batch and
JIT overlays, built last, leave the stream as it is.
-/

namespace Enki.Bytecode

/-- `pl_spec`, with its number in the spare operand of `MK_THK`. -/
inductive Spec where
  | none | add | sub | mul | inc | dec | eq | ne | lt | le | gt | ge | cmp | nil | truth | body
  deriving DecidableEq, Repr

def Spec.code : Spec → Nat
  | none => 0 | add => 1 | sub => 2 | mul => 3 | inc => 4 | dec => 5 | eq => 6 | ne => 7 | lt => 8
  | le => 9 | gt => 10 | ge => 11 | cmp => 12 | nil => 13 | truth => 14 | body => 15

/-- The names of `spec_code` with two arguments. -/
def specNames2 : List (String × Spec) :=
  [("Add", .add), ("Sub", .sub), ("Mul", .mul), ("Eq", .eq), ("Ne", .ne), ("Lt", .lt), ("Le", .le),
    ("Gt", .gt), ("Ge", .ge), ("Cmp", .cmp), ("Ix", .body)]

/-- The names of `spec_code` with one argument. -/
def specNames1 : List (String × Spec) :=
  [("Inc", .inc), ("Dec", .dec), ("Nil", .nil), ("Truth", .truth), ("Hd", .body), ("Sz", .body),
    ("Last", .body), ("Type", .body), ("Nat", .body), ("Name", .body), ("Body", .body),
    ("IsPin", .body), ("IsLaw", .body), ("IsApp", .body), ("IsNat", .body), ("Ix0", .body),
    ("Ix1", .body), ("Ix2", .body), ("Ix3", .body), ("Ix4", .body), ("Ix5", .body), ("Ix6", .body),
    ("Ix7", .body)]

/-- `spec_code` -/
def specCode (idx : Nat) : Spec :=
  let d := plOp idx
  let names := if d.argc = 2 then specNames2 else if d.argc = 1 then specNames1 else []
  if d.opset ≠ 66 then .none
  else ((names.find? fun e => OpDesc.mote e.1 == d.name).map (·.2)).getD .none

/-- A failed decode: the message printed, or nothing for a primop this runtime
does not implement. -/
abbrev DecodeError := Option String

def fail (msg : String) : Except DecodeError α := .error (some msg)

/-- The macro `FAIL` behind a test. -/
def failIf (c : Prop) [Decidable c] (msg : String) : Except DecodeError Unit :=
  if c then fail msg else .ok ()

/-- The fields of two literals, in order, each with the budget the last one left. -/
def litFields (eq : Word → Word → Int → Bool × Int) : List (Word × Word) → Int → Bool × Int
  | [], budget => (true, budget)
  | (x, y) :: rest, budget =>
    match eq x y budget with
    | (true, budget) => litFields eq rest budget
    | (false, budget) => (false, budget)

/-- `lit_eq`, within a budget of nodes. Each level of nesting spends one, so a
depth above the budget is never used up. -/
def litEq (m : Mem) : (depth : Nat) → (a b : Word) → (budget : Int) → Bool × Int
  | 0, _, _, budget => (false, budget)
  | depth + 1, a, b, budget =>
    if a = b then (true, budget)
    -- every pair that is looked at costs one, equal words are free
    else if budget - 1 < 0 then (false, budget - 1)
    else if a.isNat ∨ b.isNat then
      (a.isNat && b.isNat && m.natOf a == m.natOf b, budget - 1)
    else if a.tag ≠ b.tag then (false, budget - 1)
    else match m.law a, m.law b with
      | some (arity, name, body), some (arity', name', body') =>
        if arity ≠ arity' then (false, budget - 1)
        else litFields (litEq m depth) [(name, name'), (body, body')] (budget - 1)
      | _, _ =>
        match m.pin a, m.pin b with
        -- pins are the same if they have the same hash
        | some (some h, _), some (some h', _) => (h == h', budget - 1)
        | _, _ =>
          match m.appHead a, m.appHead b, m.appArgs a, m.appArgs b with
          | some head, some head', some args, some args' =>
            if args.length ≠ args'.length then (false, budget - 1)
            else litFields (litEq m depth) ((head, head') :: args.zip args') (budget - 1)
          | _, _, _, _ => (false, budget - 1)

/-- A law-directory entry: the law, its block and its arity. -/
abbrev DirEntry := LawBlk

/-- `lawblk_add`: add the block of `dir` under `law`, unless it is listed. -/
def lawblkAdd (got : List LawBlk) (law : Word) (dir : DirEntry) : List LawBlk :=
  if got.any (·.law == law) then got else got ++ [⟨law, dir.target, dir.arity⟩]

/-- The law at the head of a literal, through partial applications. -/
def litLaw (m : Mem) : (depth : Nat) → Word → Option Word
  | 0, _ => none
  | depth + 1, v =>
    match m.appHead v with
    | some head => litLaw m depth head
    | none => if v.tag = Word.tagLaw then some v else none

/-- Does the literal law `v` name the law of this directory entry? -/
def dirMatches (m : Mem) (v : Word) (d : DirEntry) : Bool :=
  v == d.law ||
    (match m.law v with
      -- not the same object: by arity and structure, within the budget
      | some (arity, _, _) => arity == d.arity && (litEq m 4097 v d.law 4096).1
      | none => false)

/-- Add the block of the first entry the literal at slot `j` names. -/
def resolveLit (m : Mem) (ops : List Word) (dir : List DirEntry) (got : List LawBlk) (j : Nat) :
    List LawBlk :=
  match (litLaw m m.headDepth (slot ops j)).map fun v => (v, dir.find? (dirMatches m v)) with
  | some (v, some d) => lawblkAdd got v d
  | _ => got

/-- `resolve_lawblks`: each entry's own law, then every literal law of the code
equal to one. -/
def resolveLawblks (m : Mem) (ops : List Word) (dir : List DirEntry) (lits : List Nat) :
    List LawBlk :=
  lits.foldl (resolveLit m ops dir) (dir.foldl (fun got d => lawblkAdd got d.law d) [])

/-- The locals of pass 1 of `pl_bytecode_from_val`. `starts` and `isTarget` are
the marks of its two scratch arrays. -/
structure Scan where
  ops : List Word
  i : Nat
  lastOp : Option Op
  dirAt : Option Nat
  dir : List DirEntry
  lits : List Nat
  starts : List Nat
  isTarget : List Nat
  strictMask : Nat
  strictEntry : Nat
  maxVar : Nat

def uint32Max : Nat := 2 ^ 32 - 1

/-- The macro `MARK_TARGET`. The row length bounds the target. -/
def markTarget (n : Nat) (s : Scan) (tgt : Nat) : Except DecodeError Scan := do
  failIf (tgt ≥ n ∨ !Word.isNat63 tgt) "jump target out of range"
  return { s with isTarget := tgt :: s.isTarget }

/-- The arms of `OP_BR`. -/
def markTargets (n : Nat) (s : Scan) (tgts : List Nat) : Except DecodeError Scan :=
  tgts.foldlM (markTarget n) s

/-- The opset and index a known primop resolves to. -/
def resolveOp (m : Mem) (pin name : Word) (argc : Nat) : Except DecodeError Nat :=
  match m.pin pin with
  | none => fail "bad known-primop opset"
  | some (_, body) =>
    if !body.isNat then fail "bad known-primop opset"
    else match m.opLookup (m.natU64Clamp body) name (Word.u32 argc) with
      -- a primop that this runtime does not have, which is not reported
      | none => .error none
      | some idx => .ok idx

/-- Step past an instruction with `k` operands. -/
def Scan.skip (s : Scan) (k : Nat) : Scan := { s with i := s.i + 1 + k }

/-- The operands of the instruction at `i`, once `k` of them are there. -/
def truncated (n : Nat) (s : Scan) (k : Nat) : Except DecodeError Unit :=
  failIf (s.i + 1 + k > n) "truncated operand"

/-- One instruction of pass 1. -/
def scanOp (m : Mem) (n : Nat) (s : Scan) : Except DecodeError Scan :=
  let i := s.i + 1
  let o k := slot s.ops (i + k)
  match opAt s.ops s.i with
  | some .lawblk => do
    truncated n s 2
    match m.law (o 0) with
    | none => fail "bad law directory entry"
    | some (arity, _, _) =>
      failIf (arity > uint32Max) "bad law directory entry"
      let s ← markTarget n s (o 1)
      return { s.skip 2 with
        -- the first entry is where the code ends
        dirAt := s.dirAt.or (some (i - 1))
        dir := s.dir ++ [⟨o 0, Word.u32 (o 1), Word.u32 arity⟩] }
  | some .pushVar => do
    truncated n s 1
    let v : Word := o 0
    return { s.skip 1 with
      -- kept below the value that stands for an interpreted expression
      maxVar := if v.isNat63 ∧ v > s.maxVar ∧ s.maxVar ≠ uint32Max then min v uint32Max
        else s.maxVar }
  -- an expression of the environment may use any variable
  | some .interp => do
    truncated n s 1
    return { s.skip 1 with maxVar := uint32Max }
  | some .pushLit => do
    truncated n s 1
    let v : Word := o 0
    return { s.skip 1 with
      -- literal laws may have a block of the directory
      lits := if v.tag = Word.tagLaw ∨ v.tag = Word.tagApp then s.lits ++ [i] else s.lits }
  | some .pushSlot => do
    truncated n s 1
    return s.skip 1
  | some .mkApp => do
    truncated n s 1
    failIf (!Word.isNat63 (o 0) ∨ o 0 = 0 ∨ o 0 > uint32Max - 2) "bad app argument count"
    return s.skip 1
  | some .ret | some .force => return s.skip 0
  | some .entry => do
    truncated n s 1
    failIf (s.strictEntry ≠ 0 ∨ !Word.isNat63 (o 0) ∨ o 0 = 0) "bad strict entry"
    -- the strict entry is behind the instruction
    return { s.skip 1 with strictMask := o 0, strictEntry := Word.u32 (i + 1) }
  | some .jmp => do
    truncated n s 1
    let s ← markTarget n s (o 0)
    return s.skip 1
  | some .call | some .tailblk => do
    truncated n s 2
    let s ← markTarget n s (o 0)
    return s.skip 2
  | some .callSlow => do
    truncated n s 1
    failIf (o 0 = 0 ∨ !Word.isNat63 (o 0)) "bad call argc"
    return s.skip 1
  | some .callFast => do
    truncated n s 2
    failIf (o 0 = 0 ∨ !Word.isNat63 (o 0) ∨ !Word.isNat63 (o 1)) "bad call argc"
    return s.skip 2
  | some .callKnown => do
    truncated n s 3
    failIf (o 0 = 0 ∨ !Word.isNat63 (o 0)) "bad call argc"
    let idx ← resolveOp m (o 1) (o 2) (o 0)
    -- the pin and the name are replaced by the index, and a spare slot
    return { s.skip 3 with ops := (s.ops.set (i + 1) idx).set (i + 2) 0 }
  | some .br => do
    truncated n s 1
    failIf (o 0 = 0 ∨ !Word.isNat63 (o 0) ∨ i + 1 + o 0 > n) "bad branch arm count"
    let s ← markTargets n s ((List.range (o 0)).map fun arm => o (1 + arm))
    return s.skip (1 + o 0)
  | some .mkThk => do
    truncated n s 2
    let raw := o 1
    -- the low byte holds the bane and the no-update flag, the rest a strict hint
    failIf (raw % 256 / 16 ≠ 0) "bad bane"
    failIf (raw / 256 ≠ 0 ∧ (Bane.ofWord raw ≠ some .fast ∨ !Word.isNat63 (raw / 256)))
      "bad strict hint"
    match Bane.ofWord raw with
    | some .primKnown =>
      truncated n s 4
      let idx ← resolveOp m (o 2) (o 3) (o 0)
      return { s.skip 4 with ops := (s.ops.set (i + 2) idx).set (i + 3) (specCode idx).code }
    -- nothing to resolve
    | some .fast | some .slow | some .prim => return s.skip 2
    | none => fail "bad bane"
  | _ => fail "bad opcode"

/-- Pass 1, from the slot the scan stands at. -/
def scanRow (m : Mem) (n : Nat) : Nat → Scan → Except DecodeError Scan
  | 0, s => .ok s
  | fuel + 1, s =>
    if s.i ≥ n then .ok s
    else do
      let op := opAt s.ops s.i
      failIf (s.dirAt.isSome ∧ op ≠ some .lawblk) "code after the law directory"
      let s ← scanOp m n { s with
        starts := s.i :: s.starts
        lastOp := if op ≠ some .lawblk then op else s.lastOp }
      scanRow m n fuel s

/-- One instruction of pass 3, and the slot it continues at. -/
def fuseStep (n : Nat) (isTarget : List Nat) (ops : List Word) (i : Nat) : List Word × Nat :=
  let o k := slot ops (i + 1 + k)
  match opAt ops i with
  | some .pushVar | some .pushLit | some .mkApp | some .interp | some .pushSlot | some .jmp
  | some .entry | some .callSlow => (ops, i + 2)
  | some .call | some .callFast | some .tailblk => (ops, i + 3)
  | some .callKnown => (ops, i + 4)
  | some .br => (ops, i + 2 + o 0)
  | some .mkThk =>
    let next := i + (if isKnown (o 1) then 5 else 3)
    -- unless something jumps to the `RET`
    if next < n ∧ opAt ops next = some .ret ∧ next ∉ isTarget then
      (ops.set i Op.tailcall.code, next)
    else (ops, next)
  | _ => (ops, i + 1)

/-- Pass 3: a thunk returned at once is entered at once. -/
def fuseTails (n : Nat) (isTarget : List Nat) (ops : List Word) : List Word :=
  walk n (fuseStep n isTarget) n 0 ops

/-- The checks between the passes: the directory is cut off, the code ends in a
`RET`, and no target below its end lies inside an instruction. -/
def cutDirectory (m : Mem) (s : Scan) : Except DecodeError PlCode := do
  let n := s.dirAt.getD s.ops.length
  failIf (s.dirAt.isSome ∧ s.dir.any (fun d => d.target ≥ n)) "law directory target out of range"
  -- control does not run off the end
  failIf (s.lastOp ≠ some .ret) "bad program end"
  failIf (∃ j ∈ s.isTarget, j < n ∧ j ∉ s.starts) "jump target inside an instruction"
  return {
    ops := s.ops
    nops := n
    strictMask := s.strictMask
    strictEntry := s.strictEntry
    maxVar := s.maxVar
    lawblks := if s.dirAt.isSome then resolveLawblks m s.ops s.dir s.lits else [] }

/-- Passes 1 and 2: the validated stream, and the slots marked as targets. -/
def validate (m : Mem) (row : List Word) : Except DecodeError (PlCode × List Nat) := do
  let s ← scanRow m row.length row.length
    ⟨row, 0, none, none, [], [], [], [], 0, 0, 0⟩
  let c ← cutDirectory m s
  return (c, s.isTarget)

/-- Pass 3 and the private rewrites. -/
def rewriteRow (m : Mem) (c : PlCode) (isTarget : List Nat) : Optimised :=
  bytecodeOptimise m { c with ops := fuseTails c.nops isTarget c.ops } isTarget

/-- `pl_bytecode_from_val` on the arguments of a row, with the states of the
last readiness analysis when it completed. -/
def decodeRow (m : Mem) (row : List Word) : Except DecodeError Optimised := do
  let (c, isTarget) ← validate m row
  let o := rewriteRow m c isTarget
  failIf (o.result = .underflow) "operand stack underflow"
  return o

/-- `pl_bytecode_from_val` -/
def plBytecodeFromVal (m : Mem) (val : Word) : Except DecodeError Optimised :=
  match m.appArgs val with
  | none => fail "no app inside pin"
  | some row => decodeRow m row

end Enki.Bytecode
