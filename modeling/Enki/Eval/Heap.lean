import Enki.Ops

/-!
# The evaluator's heap

The objects of `plan/value.h` as the interpreter of `eval.c` sees them, and the
constructors of `plan/build.h`. A heap is the list of the objects allocated so
far; a value is a natural or the index of an object. Tags are left out: a tag
caches the kind of the object it points to, and thunks, blackholes and
indirections share one. A pin stands for what its proxy resolves to.

A function that ends in a failed `pl_check` or `ax_assume` returns `none`.
-/

namespace Enki.Eval

/-- A `pl_val` -/
inductive Val where
  /-- Direct below `2 ^ 63`, boxed from there on. -/
  | nat (n : Nat)
  | ref (r : Nat)
  deriving DecidableEq

namespace Val

/-- `pl_is_nat63` -/
def isNat63 : Val → Bool
  | nat n => n < 2 ^ 63
  | ref _ => false

/-- `pl_is_nat` -/
def isNat : Val → Bool
  | nat _ => true
  | ref _ => false

end Val

/-- An object. Values that can be deeply normal carry the flag `PL_F_NORMAL`. -/
inductive Obj where
  | app (need : Nat) (normal : Bool) (head : Val) (args : List Val)
  | law (normal : Bool) (arity : Nat) (name body : Val)
  | pin (normal : Bool) (body : Val)
  /-- The activation of a law: the law itself, its arguments and its bindings. -/
  | env (self : Val) (locals : List Val)
  | thunk (env expr : Val)
  /-- The expression is in the frame that owns the blackhole. -/
  | bh (env : Val)
  | ind (target : Val)
  deriving DecidableEq

abbrev Heap := List Obj

namespace Heap

variable (h : Heap)

/-- The object behind a value. -/
def obj : Val → Option Obj
  | .nat _ => none
  | .ref r => h[r]?

/-- `pl_is_whnf` -/
def isWhnf (v : Val) : Bool :=
  match v with
  | .nat _ => true
  | .ref r =>
    match h[r]? with
    | some (.thunk _ _) | some (.bh _) | some (.ind _) | none => false
    | _ => true

/-- `pl_as(PL_TAG_APP, v)`, with the head and the arguments. -/
def asApp (v : Val) : Option (Val × List Val) :=
  match h.obj v with
  | some (.app _ _ head args) => some (head, args)
  | _ => none

/-- A spine as pushed on the value stack: the head and then the arguments. -/
def spine (v : Val) : List Val :=
  match h.asApp v with
  | some (head, args) => head :: args
  | none => [v]

/-- `pl_arity` -/
def arity (v : Val) : Option Nat :=
  match v with
  | .nat _ => some 0
  | .ref r =>
    match h[r]? with
    | some (.law _ a _ _) => some a
    | some (.pin _ body) =>
      match h.obj body with
      | some (.law _ a _ _) => some a
      -- a pin of anything but a law takes one argument
      | _ => some 1
    | some (.app need _ _ _) => some need
    | _ => none

/-- `pl_need_after` -/
def needAfter (head : Val) (n : Nat) : Option Nat := do
  let a ← h.arity head
  -- saturated; otherwise the need must fit its field of the header
  if a = 0 ∨ a ≤ n then some 0
  else if a - n < 2 ^ 20 then some (a - n)
  else none

/-- An object is allocated. -/
def alloc (o : Obj) : Heap × Val := (h ++ [o], .ref h.length)

/-- `pl_mk_app_from` -/
def mkAppFrom (head : Val) (args : List Val) : Option (Heap × Val) := do
  let need ← h.needAfter head args.length
  return h.alloc (.app need false head args)

/-- `pl_mk_app_snoc` -/
def mkAppSnoc (f x : Val) : Option (Heap × Val) :=
  match h.obj f with
  -- the cached need is counted down, the head is not asked again
  | some (.app need _ head args) => some (h.alloc (.app (need - 1) false head (args ++ [x])))
  | _ => h.mkAppFrom f [x]

/-- `pl_mk_app_cat` -/
def mkAppCat (f : Val) (xs : List Val) : Option (Heap × Val) :=
  match h.asApp f with
  | some (head, args) => h.mkAppFrom head (args ++ xs)
  | none => h.mkAppFrom f xs

/-- `pl_thunk_update` -/
def thunkUpdate (r : Nat) (result : Val) : Option Heap :=
  match h[r]? with
  | some (.thunk _ _) | some (.bh _) => some (h.set r (.ind result))
  | _ => none

/-- What `pl_unwind_frames` does for an update frame. -/
def restoreThunk (r : Nat) (expr : Val) : Option Heap :=
  match h[r]? with
  | some (.bh env) => some (h.set r (.thunk env expr))
  | _ => none

/-- The slot of an activation: `b <= n` for the number of the last slot `n`. A boxed natural
names none. -/
def envSlot (env : Val) (b : Nat) : Option (Option Val) :=
  match h.obj env with
  | some (.env self locals) =>
    if b < 2 ^ 63 then some ((self :: locals)[b]?) else some none
  | _ => none

/-- An expression of a law body that is no variable. -/
inductive Form where
  /-- `(0 x)` -/
  | escape (x : Val)
  /-- `(0 f x)` -/
  | apply (f x : Val)
  | literal

def form (expr : Val) : Form :=
  match h.asApp expr with
  | some (.nat 0, [x]) => .escape x
  | some (.nat 0, [f, x]) => .apply f x
  | _ => .literal

/-- The node `(1 v k)` of a chain of bindings. -/
def letNode (b : Val) : Option (Val × Val) :=
  match h.asApp b with
  | some (.nat 1, [v, k]) => some (v, k)
  | _ => none

/-- `pl_kal1` -/
def kal1 (env expr : Val) : Option (Heap × Val) :=
  match expr with
  | .nat b => do
    let slot ← h.envSlot env b
    return (h, slot.getD expr)
  | .ref _ =>
    match h.form expr with
    | .escape x => some (h, x)
    | .apply _ _ => some (h.alloc (.thunk env expr))
    | .literal => some (h, expr)

/-- `pl_is_normal` -/
def isNormal (v : Val) : Bool :=
  match v with
  | .nat _ => true
  | .ref r =>
    match h[r]? with
    | some (.app _ normal _ _) | some (.law normal _ _ _) | some (.pin normal _) => normal
    | _ => false

/-- `pl_nf_nfields` -/
def nfNfields (v : Val) : Nat :=
  match h.obj v with
  | some (.app _ _ _ args) => args.length + 1
  | some (.law _ _ _ _) => 2
  | some (.pin _ _) => 1
  | _ => 0

/-- `pl_nf_field` -/
def nfField (v : Val) (i : Nat) : Option Val :=
  match h.obj v with
  | some (.app _ _ head args) => (head :: args)[i]?
  | some (.law _ _ name body) => [name, body][i]?
  | some (.pin false body) => [body][i]?
  | _ => none

/-- `pl_nf_writeback` -/
def nfWriteback (v : Val) (i : Nat) (child : Val) : Option Heap :=
  match v with
  | .nat _ => none
  | .ref r =>
    match h[r]? with
    | some (.app need normal head args) =>
      match i with
      | 0 => some (h.set r (.app need normal child args))
      | i + 1 => some (h.set r (.app need normal head (args.set i child)))
    | some (.law normal a name body) =>
      match i with
      | 0 => some (h.set r (.law normal a child body))
      | _ => some (h.set r (.law normal a name child))
    -- a pin that is normal already is not written to
    | some (.pin false _) => if i = 0 then some (h.set r (.pin false child)) else none
    | _ => none

/-- The flag `PL_F_NORMAL` is set. -/
def setNormal (v : Val) : Heap :=
  match v with
  | .nat _ => h
  | .ref r =>
    match h[r]? with
    | some (.app need _ head args) => h.set r (.app need true head args)
    | some (.law _ a name body) => h.set r (.law true a name body)
    | some (.pin _ body) => h.set r (.pin true body)
    | _ => h

/-- The activation that `judge_scan` builds: the bindings are thunks in it. -/
def knot (head : Val) (args binds : List Val) : Heap × Val :=
  let env := Val.ref h.length
  let thunks := (List.range binds.length).map fun j => Val.ref (h.length + 1 + j)
  (h ++ .env head (args ++ thunks) :: binds.map (.thunk env), env)

end Heap

/-- The comparison of a name with a row of the table. -/
def nameMatches (name : Val) (d : OpDesc) : Bool :=
  match name, d.nameC with
  | .nat n, some s => n == OpDesc.mote s
  | .nat n, none => n < 2 ^ 63 && d.name == n
  | .ref _, _ => false

/-- `pl_op_lookup` -/
def opLookup (opset : Nat) (name : Val) (argc : Nat) : Option Nat :=
  (opLookupBucket opset argc).find? fun i => nameMatches name (plOp i)

end Enki.Eval
