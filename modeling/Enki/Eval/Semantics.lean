import Enki.Eval.Machine

/-!
# What evaluation means

The evaluator without its machine: no frames, no value stack, no fuel to yield on and no
labels. `evalJob n` says how a job ends in a heap, with a depth of at most `n`: with a value in
weak head normal form, or an exception, or a failed check.

A thunk is evaluated under a blackhole and replaced by its value; an exception puts it back.
A law application evaluates the law's body in the activation of the law, its arguments and
its recursive bindings.
-/

namespace Enki.Eval

/-- How a job ends. -/
inductive Res where
  | val (v : Val)
  | raise (e : Exn)
  | abort
  deriving DecidableEq

inductive Job where
  /-- To weak head normal form. -/
  | whnf (v : Val)
  /-- An expression of a law body. -/
  | expr (env expr : Val)
  /-- A value in weak head normal form goes to a continuation. -/
  | deliver (k : Kont) (v : Val)
  /-- The same, to several arguments at once. -/
  | applyn (v : Val) (args : List Val)
  /-- A saturated application. -/
  | enter (head : Val) (args : List Val)
  /-- The body of a law from a node of its chain of bindings on. -/
  | scan (head : Val) (args : List Val) (node : Val) (binds : List Val)
  /-- A primop, with its strict arguments from the `k`-th on to be evaluated. -/
  | prim (op : Nat) (name : Val) (args : List Val) (k : Nat)
  /-- A primop, with its deep arguments from the `k`-th on to be normalised. -/
  | deep (op : Nat) (name : Val) (args : List Val) (k : Nat)
  | body (op : Nat) (name : Val) (args : List Val)
  /-- The fields of an object are normalised from the `k`-th on. -/
  | fields (v : Val) (k : Nat)

variable {W : Type}

abbrev Outcome (W : Type) := Option (Sto W × Res)

namespace Sto

def setHeap (s : Sto W) (h : Heap) : Sto W := { s with heap := h }

/-- The rest, if no check failed. -/
def orAbort {α : Type} (s : Sto W) : Option α → (α → Outcome W) → Outcome W
  | none, _ => some (s, .abort)
  | some a, k => k a

end Sto

/-- On with the value, if there is one. -/
def Outcome.andThen (o : Outcome W) (k : Sto W → Val → Outcome W) : Outcome W :=
  match o with
  | some (s, .val v) => k s v
  | o => o

/-- The answer to a request. -/
def Mode.request (m : Mode W) (request : Val) (s : Sto W) : Sto W × Res :=
  match m with
  | .executor answer =>
    let a := answer request s
    if a.2.heap.isWhnf a.1 then (a.2, .val a.1) else (a.2, .abort)
  | .host => (s, .raise executorMsg)
  | .nested => (s, .abort)

/-- A thunk has been evaluated. -/
def finishThunk (r : Nat) (expr : Val) : Sto W × Res → Outcome W
  | (s, .val v) => s.orAbort (s.heap.thunkUpdate r v) fun h => some (s.setHeap h, .val v)
  | (s, .raise e) => s.orAbort (s.heap.restoreThunk r expr) fun h => some (s.setHeap h, .raise e)
  | (s, .abort) => some (s, .abort)

section

variable (rec : Job → Sto W → Outcome W)

/-- An outcome passes through continuations: a barrier wraps a value and catches an exception. -/
def throughKonts : List Kont → Sto W → Res → Outcome W
  | [], s, r => some (s, r)
  | .tryIn :: ks, s, .raise (.value e) =>
    s.orAbort (s.heap.mkAppFrom (.nat 1) [e]) fun hv =>
      throughKonts ks (s.setHeap hv.1) (.val hv.2)
  | k :: ks, s, .val v => (rec (.deliver k v) s).bind fun o => throughKonts ks o.1 o.2
  | _ :: ks, s, r => throughKonts ks s r

theorem throughKonts_val (k : Kont) (ks : List Kont) (s : Sto W) (v : Val) :
    throughKonts rec (k :: ks) s (.val v) =
      (rec (.deliver k v) s).bind fun o => throughKonts rec ks o.1 o.2 := by
  cases k <;> rfl

@[simp] theorem throughKonts_abort (ks : List Kont) (s : Sto W) :
    throughKonts rec ks s .abort = some (s, .abort) := by
  induction ks with
  | nil => rfl
  | cons k ks ih => cases k <;> exact ih

/-- What is no barrier, or catches no runtime error, lets an exception pass. -/
theorem throughKonts_raise {k : Kont} {e : Exn} (h : ¬(k = .tryIn ∧ ∃ v, e = .value v))
    (ks : List Kont) (s : Sto W) :
    throughKonts rec (k :: ks) s (.raise e) = throughKonts rec ks s (.raise e) := by
  cases e with
  | message msg => cases k <;> rfl
  | value v =>
    cases k with
    | tryIn => exact absurd ⟨rfl, v, rfl⟩ h
    | _ => rfl

/-- A value is evaluated under continuations. -/
def under (v : Val) (ks : List Kont) (s : Sto W) : Outcome W :=
  (rec (.whnf v) s).bind fun o => throughKonts rec ks o.1 o.2

def evalWhnf (v : Val) (s : Sto W) : Outcome W :=
  match v with
  | .nat _ => some (s, .val v)
  | .ref r =>
    match s.heap[r]? with
    | some (.ind target) => rec (.whnf target) s
    | some (.bh _) => some (s, .raise loopMsg)
    | some (.thunk env expr) =>
      (rec (.expr env expr) (s.setHeap (s.heap.set r (.bh env)))).bind (finishThunk r expr)
    | some _ => some (s, .val v)
    | none => some (s, .abort)

def evalExpr (env expr : Val) (s : Sto W) : Outcome W :=
  if !s.heap.isWhnf expr then
    (rec (.whnf expr) s).andThen fun s expr => rec (.expr env expr) s
  else
    match expr with
    | .nat b =>
      s.orAbort (s.heap.envSlot env b) fun slot =>
        match slot with
        | some v => rec (.whnf v) s
        | none => some (s, .val expr)
    | .ref _ =>
      match s.heap.form expr with
      | .escape x => rec (.whnf x) s
      | .apply f x =>
        if s.heap.isWhnf f && s.heap.isWhnf x then
          s.orAbort (s.heap.kal1 env x) fun hx =>
            s.orAbort (hx.1.kal1 env f) fun hf =>
              under rec hf.2 [.apply hx.2] (s.setHeap hf.1)
        else
          -- The operand first, then the function side of the expression as it is by then.
          (rec (.whnf x) s).andThen fun s x =>
            s.orAbort (s.heap.kal1 env x) fun hx =>
              match hx.1.asApp expr with
              | some (_, f :: _) =>
                (rec (.whnf f) (s.setHeap hx.1)).andThen fun s f =>
                  s.orAbort (s.heap.kal1 env f) fun hf =>
                    under rec hf.2 [.apply hx.2] (s.setHeap hf.1)
              | _ => some (s, .abort)
      | .literal => some (s, .val expr)

def evalApplyn (v : Val) (args : List Val) (s : Sto W) : Outcome W :=
  s.orAbort (s.heap.arity v) fun a =>
    if a = 0 ∨ args.length < a then
      s.orAbort (s.heap.mkAppCat v args) fun hv => some (s.setHeap hv.1, .val hv.2)
    else
      let spine := s.heap.spine v
      (rec (.enter (spine.headD v) (spine.tail ++ args.take a)) s).bind fun o =>
        throughKonts rec ((args.drop a).map .apply) o.1 o.2

def evalScan (head : Val) (args : List Val) (node : Val) (binds : List Val) (s : Sto W) :
    Outcome W :=
  if !s.heap.isWhnf node then
    (rec (.whnf node) s).andThen fun s node => rec (.scan head args node binds) s
  else
    match s.heap.letNode node with
    | some (v, k) => rec (.scan head args k (binds ++ [v])) s
    | none =>
      let k := s.heap.knot head args binds
      rec (.expr k.2 node) (s.setHeap k.1)

/-- A law, of the arity of the application. -/
def evalLaw (head : Val) (args : List Val) (law : Option Obj) (s : Sto W) : Outcome W :=
  match law with
  | some (.law _ a _ body) =>
    if a = args.length then rec (.scan head args body []) s else some (s, .abort)
  | _ => some (s, .abort)

def evalDeep (op : Nat) (name : Val) (args : List Val) (k : Nat) (s : Sto W) : Outcome W :=
  match args[k]? with
  | some v =>
    if !(plOp op).deepMask.testBit k then rec (.deep op name args (k + 1)) s
    else
      (under rec v [.nf] s).andThen fun s v => rec (.deep op name (args.set k v) (k + 1)) s
  | none => rec (.body op name args) s

def evalPrim (op : Nat) (name : Val) (args : List Val) (k : Nat) (s : Sto W) : Outcome W :=
  match args[k]? with
  | some v =>
    if !(plOp op).strictMask.testBit k then rec (.prim op name args (k + 1)) s
    else
      (rec (.whnf v) s).andThen fun s v => rec (.prim op name (args.set k v) (k + 1)) s
  | none =>
    if (plOp op).deepMask ≠ 0 then rec (.deep op name args 0) s
    else rec (.body op name args) s

def evalFields (v : Val) (k : Nat) (s : Sto W) : Outcome W :=
  s.orAbort (s.heap.nfField v k) fun child =>
    (under rec child [.nf] s).andThen fun s child =>
      s.orAbort (s.heap.nfWriteback v k child) fun h =>
        if k + 1 < h.nfNfields v then rec (.fields v (k + 1)) (s.setHeap h)
        else some (s.setHeap (h.setNormal v), .val v)

variable (ctx : Ctx W)

def evalDeliver (k : Kont) (v : Val) (s : Sto W) : Outcome W :=
  match k with
  | .apply x =>
    s.orAbort (s.heap.arity v) fun need =>
      if need ≠ 1 then
        s.orAbort (s.heap.mkAppSnoc v x) fun hv => some (s.setHeap hv.1, .val hv.2)
      else
        let spine := s.heap.spine v
        rec (.enter (spine.headD v) (spine.tail ++ [x])) s
  | .seq y => rec (.whnf y) s
  | .nf => if s.heap.isNormal v then some (s, .val v) else rec (.fields v 0) s
  | .nil => some (s, .val (.nat (if v = .nat 0 then 1 else 0)))
  | .tryIn =>
    s.orAbort (s.heap.mkAppFrom (.nat 0) [v]) fun hv => some (s.setHeap hv.1, .val hv.2)
  | .memo f x epoch => some (Thread.retMemo ctx s f x epoch v, .val v)

/-- The primop that an evaluated argument names is found, and run. -/
def evalOpent (opset : Nat) (v : Val) (s : Sto W) : Outcome W :=
  let spine := s.heap.spine v
  let name := spine.headD v
  let argc := spine.length - 1
  if 82 ≤ opset && !ctx.rplan then some (s, .raise rplanMsg)
  else
    match ctx.findOp opset v name argc s with
    | none => some (s, .raise (primopMsg opset argc))
    | some (op, s) => rec (.prim op name spine.tail 0) s

def evalEnter (head : Val) (args : List Val) (s : Sto W) : Outcome W :=
  match s.heap.obj head with
  | some (.pin _ body) =>
    match body with
    | .nat opset =>
      match args with
      | [arg] => (rec (.whnf arg) s).andThen fun s v => evalOpent rec ctx (u64Clamp opset) v s
      | _ => some (s, .abort)
    | .ref _ =>
      match s.heap.obj body with
      | some (.law n a name code) => evalLaw rec head args (some (.law n a name code)) s
      | _ => some (s, .raise pinnedMsg)
  | o => evalLaw rec head args o s

variable (mode : Mode W)

def evalBody (op : Nat) (name : Val) (args : List Val) (s : Sto W) : Outcome W :=
  let s := { s with epoch := s.epoch + if (plOp op).opset ≥ 82 then 1 else 0 }
  match ctx.body op name args s with
  | .aborts => some (s, .abort)
  | .raises e s => some (s, .raise e)
  | .returns v pushed s =>
    if (plOp op).coord then
      throughKonts rec pushed (mode.request v s).1 (mode.request v s).2
    else under rec v pushed s

end

/-- Jobs done to a depth. -/
def evalJob (ctx : Ctx W) (mode : Mode W) : Nat → Job → Sto W → Outcome W
  | 0, _, _ => none
  | n + 1, job, s =>
    let sub := evalJob ctx mode n
    match job with
    | .whnf v => evalWhnf sub v s
    | .expr env expr => evalExpr sub env expr s
    | .deliver k v => evalDeliver sub ctx k v s
    | .applyn v args => evalApplyn sub v args s
    | .enter head args => evalEnter sub ctx head args s
    | .scan head args node binds => evalScan sub head args node binds s
    | .prim op name args k => evalPrim sub op name args k s
    | .deep op name args k => evalDeep sub op name args k s
    | .body op name args => evalBody sub ctx mode op name args s
    | .fields v k => evalFields sub v k s

end Enki.Eval
