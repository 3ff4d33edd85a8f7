import Enki.Eval.Heap
import Enki.OpMemo

/-!
# The machine

`pl_run` of `eval.c` where no law has code attached: every label of the interpreter is a
`Ctl`, and `step` is one pass from a label to the next. Fuel is counted as there, so the
machine yields where the source does. `pl_run_caught` is the step from `raised`, and the
drivers below are `pl_thread_run` called again and again, with whatever quanta, and an
entry from C.

The bodies of the primops are a parameter. They may change the heap and the rest of the
world, push continuations beneath their result, raise, and spend fuel in evaluations of
their own. What a body does not see is the machine's stacks.

Which body runs is looked up as `ret_opent` does it, in the memo of the thread first. There
are no collections here, so the word of a name goes with the name.
-/

namespace Enki.Eval

/-- `t->exn`, or `t->exn_msg` for a runtime error. -/
inductive Exn where
  | value (v : Val)
  | message (msg : String)
  deriving DecidableEq

/-- What a thread shares with the bodies: its heap, `t->effect_epoch`, `t->op_memo` and the
rest. -/
structure Sto (W : Type) where
  heap : Heap
  epoch : Nat
  memo : Fin opMemoSlots → OpMemo := fun _ => .zeroed
  world : W

/-- The continuations that bodies push. -/
inductive Kont where
  | apply (x : Val)
  | seq (y : Val)
  | nf
  | nil
  /-- The barrier of `op_try`. -/
  | tryIn
  | memo (f x : Val) (epoch : Nat)
  deriving DecidableEq

/-- How a body ends; the continuation that is to run first comes first. -/
inductive BodyResult (W : Type) where
  | returns (v : Val) (pushed : List Kont) (s : Sto W)
  | raises (e : Exn) (s : Sto W)
  /-- A check failed. -/
  | aborts

/-- What the interpreter is given. -/
structure Ctx (W : Type) where
  /-- `t->rplan_f` -/
  rplan : Bool
  /-- `ret_opent` looks into the memo. Without, every name is looked up in the table. -/
  memoised : Bool
  /-- The word of a boxed name, in the operand that has it. Two that differ are at two
  addresses. -/
  boxed : Val → Nat → Word
  boxed_ge : ∀ v n, 2 ^ 63 ≤ boxed v n
  boxed_inj : ∀ v n v' n', boxed v n = boxed v' n' → n = n'
  /-- The bodies of `pl_ops`: the name slot, the arguments. -/
  body : Nat → Val → List Val → Sto W → BodyResult W
  /-- The fuel a body leaves; it never spends the last unit. -/
  spend : Nat → List Val → Sto W → Nat → Nat
  spend_pos : ∀ op args s fuel, 0 < fuel → 0 < spend op args s fuel
  /-- `pl_memo_record`, of the hashes of two pins. -/
  memoRecord : Val → Val → Nat → Sto W → W

/-- `pl_frame` -/
inductive Frame where
  | update (thunk : Nat) (expr : Val)
  | kal (env : Val)
  | kapp (env expr : Val) (k argbase : Nat)
  | opent (opset : Nat)
  | oparg (op argbase argc k : Nat)
  | opdeep (op argbase argc k : Nat)
  | nfobj (v : Val) (k : Nat)
  | judge (jbase jargc : Nat)
  | applyn (argbase argc : Nat)
  | apply (x : Val)
  | seq (y : Val)
  | nf
  | nil
  | tryIn (argbase : Nat)
  | memo (f x : Val) (epoch : Nat)
  deriving DecidableEq

/-- The frame of a continuation; `op_try` notes where its arguments begin. -/
def Kont.frame (argbase : Nat) : Kont → Frame
  | apply x => .apply x
  | seq y => .seq y
  | nf => .nf
  | nil => .nil
  | tryIn => .tryIn argbase
  | memo f x epoch => .memo f x epoch

/-- The labels of `pl_run`, and how it ends. -/
inductive Ctl where
  | eval (v : Val)
  | evalExpr (env expr : Val)
  | ret (v : Val)
  | fastApply (hbase : Nat)
  | judgeScan (jbase jargc : Nat)
  /-- `op_args`, before argument `k`. -/
  | opArgs (op argbase argc k : Nat)
  | opArgsReady (op argbase argc : Nat)
  | opargNext
  | opdeepNext
  | opBody (op argbase argc : Nat)
  /-- The next field of the object in the frame is to be normalised. -/
  | nfField
  /-- `pl_longjmp` -/
  | raised (e : Exn)
  /-- `PL_RUN_YIELDED`, to resume with an evaluation. -/
  | yielded (v : Val)
  /-- `PL_RUN_BLOCKED` on a request. -/
  | blocked (request : Val)
  /-- `PL_RUN_DONE` -/
  | done (v : Val)
  /-- `PL_RUN_EXN`, or the exception goes to the caller's handler. -/
  | exn (e : Exn)
  /-- `ax_abort` -/
  | abort
  deriving DecidableEq

/-- A thread: the value stack from the bottom, the frames from the top. -/
structure Thread (W : Type) where
  ctl : Ctl
  vstack : List Val
  frames : List Frame
  sto : Sto W
  fuel : Nat

/-- Who runs the machine. -/
inductive Mode (W : Type) where
  /-- `pl_thread_run`; the executor deposits an answer to every request. -/
  | executor (answer : Val → Sto W → Val × Sto W)
  /-- A C entry outside an executor. -/
  | host
  /-- A C entry below an executor. -/
  | nested

/-- An entry into the machine: its frames begin at `base` and its values at `vbase`. -/
structure Entry (W : Type) where
  mode : Mode W
  base : Nat
  vbase : Nat

/-- `pl_unwind_frames`, where every frame goes. -/
def unwindFrames : List Frame → Heap → Option Heap
  | [], h => some h
  | .update r expr :: fs, h => (h.restoreThunk r expr).bind (unwindFrames fs)
  | _ :: fs, h => unwindFrames fs h

/-- The word of the name in an operand; what is no natural is the name of nothing. -/
def Ctx.nameWord {W : Type} (ctx : Ctx W) (v : Val) : Val → Option Word
  | .nat n => some (if n < 2 ^ 63 then n else ctx.boxed v n)
  | .ref _ => none

/-- The row that `ret_opent` takes for an operand with a name and so many arguments: what the
memo has, or what the table has and the memo has then. -/
def Ctx.findOp {W : Type} (ctx : Ctx W) (opset : Nat) (v name : Val) (argc : Nat) (s : Sto W) :
    Option (Nat × Sto W) :=
  match ctx.nameWord v name with
  | none => none
  | some word =>
    let slot := memoSlot opset word argc
    if ctx.memoised && (s.memo slot).matches opset word argc then some ((s.memo slot).idx.toNat, s)
    else
      (opLookup opset name argc).map fun op =>
        (op, { s with memo := Function.update s.memo slot ⟨word, opset, argc, op⟩ })

/-- Of what a thread has, only the memo changes. -/
theorem Ctx.findOp_sto {W : Type} {ctx : Ctx W} {opset : Nat} {v name : Val} {argc op : Nat}
    {s s' : Sto W} (h : ctx.findOp opset v name argc s = some (op, s')) :
    ∃ memo, s' = { s with memo } := by
  unfold Ctx.findOp at h
  split at h
  · cases h
  · simp only at h
    split at h
    · cases h
      exact ⟨s.memo, rfl⟩
    · obtain ⟨_, _, he⟩ := Option.map_eq_some_iff.mp h
      cases he
      exact ⟨_, rfl⟩

/-- `pl_nat_u64_clamp` -/
def u64Clamp (n : Nat) : Nat := min n (2 ^ 64 - 1)

/-- The messages of runtime errors. -/
def loopMsg : Exn := .message "<<loop>>"
def pinnedMsg : Exn := .message "tried to run a pinned app or pinned pin"
def rplanMsg : Exn := .message "Not in RPLAN Mode"
def executorMsg : Exn := .message "actor op with no executor"
def primopMsg (opset argc : Nat) : Exn := .message s!"no primop {opset} (argc {argc})"

namespace Thread

variable {W : Type} (ctx : Ctx W) (en : Entry W)

def abort (t : Thread W) : Thread W := { t with ctl := .abort }

def raise (t : Thread W) (e : Exn) : Thread W := { t with ctl := .raised e }

def goto (t : Thread W) (c : Ctl) : Thread W := { t with ctl := c }

def setHeap (t : Thread W) (h : Heap) : Thread W := { t with sto.heap := h }

/-- The rest of the step, if no check failed. -/
def orAbort {α : Type} (t : Thread W) : Option α → (α → Thread W) → Thread W
  | none, _ => t.abort
  | some a, k => k a

/-- `pl_fpush`, and on to a label. -/
def push (t : Thread W) (f : Frame) (c : Ctl) : Thread W :=
  { t with frames := f :: t.frames, ctl := c }

/-- `eval`, after the safepoint. -/
def evalVal (t : Thread W) (v : Val) : Thread W :=
  match v with
  | .nat _ => t.goto (.ret v)
  | .ref r =>
    match t.sto.heap[r]? with
    | some (.ind target) => t.goto (.eval target)
    | some (.bh _) => t.raise loopMsg
    -- the thunk is blackholed before its expression is evaluated
    | some (.thunk env expr) =>
      (t.setHeap (t.sto.heap.set r (.bh env))).push (.update r expr) (.evalExpr env expr)
    | some _ => t.goto (.ret v)
    | none => t.abort

/-- `eval` -/
def eval (t : Thread W) (v : Val) : Thread W :=
  if t.fuel = 1 then
    match en.mode with
    -- the quantum is used up, and there is an executor to go back to
    | .executor _ => { t with ctl := .yielded v, fuel := 0 }
    -- nobody to yield to: the fuel is filled up, or below an executor stays at its last unit
    | .host => { t with fuel := 2 ^ 64 - 1 }.evalVal v
    | .nested => { t with fuel := 1 }.evalVal v
  else { t with fuel := t.fuel - 1 }.evalVal v

/-- `eval_expr` -/
def evalExpr (t : Thread W) (env expr : Val) : Thread W :=
  let h := t.sto.heap
  if !h.isWhnf expr then t.push (.kal env) (.eval expr)
  else
    match expr with
    | .nat b =>
      t.orAbort (h.envSlot env b) fun slot =>
        match slot with
        -- a variable of the environment, or a natural past its end, which is itself
        | some v => t.goto (.eval v)
        | none => t.goto (.ret expr)
    | .ref _ =>
      match h.form expr with
      | .escape x => t.goto (.eval x)
      | .apply f x =>
        -- both parts are values, so they can be suspended at once
        if h.isWhnf f && h.isWhnf x then
          t.orAbort (h.kal1 env x) fun hx =>
            t.orAbort (hx.1.kal1 env f) fun hf =>
              (t.setHeap hf.1).push (.apply hx.2) (.eval hf.2)
        else
          -- otherwise the parts are evaluated one by one, the argument first
          { t with vstack := t.vstack ++ [Val.nat 0] }.push
            (.kapp env expr 0 t.vstack.length) (.eval x)
      | .literal => t.goto (.ret expr)

/-- `judge` -/
def judge (t : Thread W) (jbase jargc : Nat) (law : Option Obj) : Thread W :=
  match law with
  | some (.law _ a _ body) =>
    if a = jargc then { t with vstack := t.vstack ++ [body], ctl := .judgeScan jbase jargc }
    else t.abort
  | _ => t.abort

/-- `fast_apply` -/
def fastApply (t : Thread W) (hbase : Nat) : Thread W :=
  let h := t.sto.heap
  let argc := t.vstack.length - hbase - 1
  match t.vstack[hbase]? with
  | none => t.abort
  | some head =>
    match h.obj head with
    | some (.pin _ body) =>
      match body with
      | .nat n =>
        -- a pin of a natural is an opset, and takes one argument
        match t.vstack.drop (hbase + 1) with
        | [arg] => { t with vstack := t.vstack.take hbase }.push (.opent (u64Clamp n)) (.eval arg)
        | _ => t.abort
      | .ref _ =>
        match h.obj body with
        | some (.law n a name code) => t.judge hbase argc (some (.law n a name code))
        -- neither an opset nor a law
        | _ => t.raise pinnedMsg
    | o => t.judge hbase argc o

/-- `judge_scan`, one node of the chain. -/
def judgeScan (t : Thread W) (jbase jargc : Nat) : Thread W :=
  let h := t.sto.heap
  let cursor := jbase + 1 + jargc
  match t.vstack[cursor]? with
  | none => t.abort
  | some b =>
    if !h.isWhnf b then t.push (.judge jbase jargc) (.eval b)
    else
      match h.letNode b with
      | some (v, k) =>
        -- a binding: its expression is kept, and the scan goes on behind it
        { t with vstack := t.vstack.set cursor k ++ [v], ctl := .judgeScan jbase jargc }
      | none =>
        match t.vstack.drop jbase with
        | [] => t.abort
        | head :: rest =>
          -- the body: environment and bindings are allocated at once, as they refer to each
          -- other
          let k := h.knot head (rest.take jargc) (rest.drop (jargc + 1))
          { t.setHeap k.1 with vstack := t.vstack.take jbase, ctl := .evalExpr k.2 b }

/-- `op_args`, one argument. -/
def opArgs (t : Thread W) (op argbase argc k : Nat) : Thread W :=
  if k < argc then
    -- an argument the primop is not strict in is left alone
    if !(plOp op).strictMask.testBit k then t.goto (.opArgs op argbase argc (k + 1))
    else
      match t.vstack[argbase + k]? with
      | none => t.abort
      | some v =>
        if !t.sto.heap.isWhnf v || t.fuel = 1 then t.push (.oparg op argbase argc k) (.eval v)
        else { t with fuel := t.fuel - 1, ctl := .opArgs op argbase argc (k + 1) }
  else t.goto (.opArgsReady op argbase argc)

/-- `op_args_ready` -/
def opArgsReady (t : Thread W) (op argbase argc : Nat) : Thread W :=
  if (plOp op).deepMask ≠ 0 then t.push (.opdeep op argbase argc 0) .opdeepNext
  else t.goto (.opBody op argbase argc)

/-- `oparg_next`, one argument. -/
def opargNext (t : Thread W) : Thread W :=
  match t.frames with
  | .oparg op argbase argc k :: fs =>
    if k < argc then
      if !(plOp op).strictMask.testBit k then
        { t with frames := .oparg op argbase argc (k + 1) :: fs }
      else
        match t.vstack[argbase + k]? with
        | none => t.abort
        | some v =>
          if t.fuel = 1 || !t.sto.heap.isWhnf v then t.goto (.eval v)
          else
            { t with fuel := t.fuel - 1, frames := .oparg op argbase argc (k + 1) :: fs }
    else if (plOp op).deepMask ≠ 0 then
      { t with frames := .opdeep op argbase argc 0 :: fs, ctl := .opdeepNext }
    else { t with frames := fs, ctl := .opBody op argbase argc }
  | _ => t.abort

/-- `opdeep_next`, one argument. -/
def opdeepNext (t : Thread W) : Thread W :=
  match t.frames with
  | .opdeep op argbase argc k :: fs =>
    if k < argc then
      if !(plOp op).deepMask.testBit k then
        { t with frames := .opdeep op argbase argc (k + 1) :: fs }
      else
        t.orAbort t.vstack[argbase + k]? fun v => t.push .nf (.eval v)
    else { t with frames := fs, ctl := .opBody op argbase argc }
  | _ => t.abort

/-- A request to who runs the machine. -/
def request (t : Thread W) (v : Val) : Thread W :=
  match en.mode with
  | .executor _ => t.goto (.blocked v)
  | .host => t.raise executorMsg
  | .nested => t.abort

/-- `op_body_ready`: an op-82 or op-83 body moves the epoch before it runs. -/
def opBody (t : Thread W) (op argbase argc : Nat) : Thread W :=
  let name := (t.vstack[argbase - 1]?).getD (Val.nat 0)
  let args := (t.vstack.drop argbase).take argc
  let s := { t.sto with epoch := t.sto.epoch + if (plOp op).opset ≥ 82 then 1 else 0 }
  let t := { t with fuel := ctx.spend op args s t.fuel }
  match ctx.body op name args s with
  | .aborts => t.abort
  | .raises e s => { t with sto := s }.raise e
  | .returns v pushed s =>
    let t := { t with
      sto := s
      vstack := t.vstack.take (argbase - 1)
      frames := pushed.map (Kont.frame (argbase - 1)) ++ t.frames }
    -- the value of a coordination primop is its request
    if (plOp op).coord then t.request en v
    -- a value is returned without going through `eval`, for the same unit of fuel
    else if 1 < t.fuel && s.heap.isWhnf v then { t with fuel := t.fuel - 1, ctl := .ret v }
    else t.goto (.eval v)

/-- `ret_apply` -/
def retApply (t : Thread W) (v x : Val) : Thread W :=
  let h := t.sto.heap
  t.orAbort (h.arity v) fun need =>
    -- not saturated: one more argument in the spine
    if need ≠ 1 then
      t.orAbort (h.mkAppSnoc v x) fun hv => (t.setHeap hv.1).goto (.ret hv.2)
    else
      { t with vstack := t.vstack ++ h.spine v ++ [x], ctl := .fastApply t.vstack.length }

/-- `ret_applyn` -/
def retApplyn (t : Thread W) (v : Val) (argbase argc : Nat) : Thread W :=
  let h := t.sto.heap
  let args := (t.vstack.drop argbase).take argc
  t.orAbort (h.arity v) fun a =>
    -- not saturated
    if a = 0 ∨ argc < a then
      t.orAbort (h.mkAppCat v args) fun hv =>
        { t.setHeap hv.1 with vstack := t.vstack.take (argbase - 1), ctl := .ret hv.2 }
    else
      { t with
        -- what is left over is applied to the result
        frames := (args.drop a).map .apply ++ t.frames
        vstack := t.vstack.take (argbase - 1) ++ h.spine v ++ args.take a
        ctl := .fastApply (argbase - 1) }

/-- `ret_opent` -/
def retOpent (t : Thread W) (v : Val) (opset : Nat) : Thread W :=
  let spine := t.sto.heap.spine v
  let argc := spine.length - 1
  -- a value that is no application is a name without arguments
  let name := spine.headD v
  let listbase := t.vstack.length
  if 82 ≤ opset && !ctx.rplan then t.raise rplanMsg
  else
    match ctx.findOp opset v name argc t.sto with
    | none => t.raise (primopMsg opset argc)
    | some (op, s) =>
      { t with sto := s, vstack := t.vstack ++ spine, ctl := .opArgs op (listbase + 1) argc 0 }

/-- `ret_kapp` -/
def retKapp (t : Thread W) (v env expr : Val) (k argbase : Nat) (fs : List Frame) : Thread W :=
  let h := t.sto.heap
  t.orAbort (h.kal1 env v) fun hv =>
    match k with
    -- the argument is done, now for the function
    | 0 =>
      match hv.1.asApp expr with
      | some (_, f :: _) =>
        { t.setHeap hv.1 with
          vstack := t.vstack.set argbase hv.2
          frames := .kapp env expr 1 argbase :: fs
          ctl := .eval f }
      | _ => t.abort
    | _ =>
      t.orAbort t.vstack[argbase]? fun xv =>
        { t.setHeap hv.1 with
          vstack := t.vstack.take argbase
          frames := .apply xv :: fs
          ctl := .eval hv.2 }

/-- `ret_memo` -/
def retMemo (s : Sto W) (f x : Val) (epoch : Nat) (v : Val) : Sto W :=
  match v with
  | .nat n =>
    -- a small result is recorded if nothing with an effect has run since
    if n < 2 ^ 63 ∧ epoch = s.epoch then { s with world := ctx.memoRecord f x n s } else s
  | .ref _ => s

/-- `ret`, to a frame above the others. -/
def retTo (t : Thread W) (f : Frame) (fs : List Frame) (v : Val) : Thread W :=
  let pop := { t with frames := fs }
  match f with
  | .update r _ => t.orAbort (t.sto.heap.thunkUpdate r v) fun h => (pop.setHeap h).goto (.ret v)
  | .apply x => pop.retApply v x
  | .seq y => pop.goto (.eval y)
  | .kal env => pop.goto (.evalExpr env v)
  | .kapp env expr k argbase => t.retKapp v env expr k argbase fs
  | .opent opset => pop.retOpent ctx v opset
  | .oparg op argbase argc k =>
    { t with
      vstack := t.vstack.set (argbase + k) v
      frames := .oparg op argbase argc (k + 1) :: fs
      ctl := .opargNext }
  | .opdeep op argbase argc k =>
    { t with
      vstack := t.vstack.set (argbase + k) v
      frames := .opdeep op argbase argc (k + 1) :: fs
      ctl := .opdeepNext }
  | .nf =>
    -- normal already, or to be normalised field by field
    if t.sto.heap.isNormal v then pop.goto (.ret v)
    else { t with frames := .nfobj v 0 :: fs, ctl := .nfField }
  | .nfobj o k =>
    t.orAbort (t.sto.heap.nfWriteback o k v) fun h =>
      if k + 1 < h.nfNfields o then
        { t.setHeap h with frames := .nfobj o (k + 1) :: fs, ctl := .nfField }
      else (pop.setHeap (h.setNormal o)).goto (.ret o)
  | .judge jbase jargc =>
    { pop with
      vstack := t.vstack.set (jbase + 1 + jargc) v
      ctl := .judgeScan jbase jargc }
  -- `op_nil`: is the value zero?
  | .nil => pop.goto (.ret (.nat (if v = .nat 0 then 1 else 0)))
  | .tryIn _ =>
    t.orAbort (t.sto.heap.mkAppFrom (.nat 0) [v]) fun hv =>
      (pop.setHeap hv.1).goto (.ret hv.2)
  | .memo f x epoch => { pop with sto := retMemo ctx t.sto f x epoch v, ctl := .ret v }
  | .applyn argbase argc => pop.retApplyn v argbase argc

/-- `ret` -/
def ret (t : Thread W) (v : Val) : Thread W :=
  if t.frames.length = en.base then t.goto (.done v)
  else
    match t.frames with
    | [] => t.abort
    | f :: fs => t.retTo ctx f fs v

/-- The field that an object's normalisation has come to. -/
def nfField (t : Thread W) : Thread W :=
  match t.frames with
  | .nfobj o k :: _ => t.orAbort (t.sto.heap.nfField o k) fun v => t.push .nf (.eval v)
  | _ => t.abort

/-- The frames above the topmost barrier, its value mark and the frames below it. -/
def splitTry : List Frame → Option (List Frame × Nat × List Frame)
  | [] => none
  | .tryIn argbase :: fs => some ([], argbase, fs)
  | f :: fs => (splitTry fs).map fun (above, argbase, below) => (f :: above, argbase, below)

/-- `pl_run_caught` -/
def caught (t : Thread W) (e : Exn) : Thread W :=
  let own := t.frames.length - en.base
  let outer := t.frames.drop own
  let uncaught : Thread W :=
    t.orAbort (unwindFrames (t.frames.take own) t.sto.heap) fun h =>
      { t.setHeap h with frames := outer, vstack := t.vstack.take en.vbase, ctl := .exn e }
  -- a runtime error passes every barrier
  match e, splitTry (t.frames.take own) with
  | .value v, some (above, argbase, below) =>
    t.orAbort (unwindFrames above t.sto.heap) fun h =>
      t.orAbort (h.mkAppFrom (.nat 1) [v]) fun hv =>
        { t.setHeap hv.1 with
          frames := below ++ outer, vstack := t.vstack.take argbase, ctl := .ret hv.2 }
  | _, _ => uncaught

/-- One step of `pl_run` under `pl_run_caught`. -/
def step (t : Thread W) : Thread W :=
  match t.ctl with
  | .eval v => t.eval en v
  | .evalExpr env expr => t.evalExpr env expr
  | .ret v => t.ret ctx en v
  | .fastApply hbase => t.fastApply hbase
  | .judgeScan jbase jargc => t.judgeScan jbase jargc
  | .opArgs op argbase argc k => t.opArgs op argbase argc k
  | .opArgsReady op argbase argc => t.opArgsReady op argbase argc
  | .opargNext => t.opargNext
  | .opdeepNext => t.opdeepNext
  | .opBody op argbase argc => t.opBody ctx en op argbase argc
  | .nfField => t.nfField
  | .raised e => t.caught en e
  | .yielded _ | .blocked _ | .done _ | .exn _ | .abort => t

end Thread

/-- A thread and the number of quanta it has been given. -/
structure Run (W : Type) where
  thread : Thread W
  quanta : Nat := 0

/-- A step of the machine, or of the executor: a thread that has yielded gets another quantum,
and one that is blocked gets its answer. -/
def Run.next {W : Type} (ctx : Ctx W) (en : Entry W) (quantum : Nat → Nat) (r : Run W) :
    Option (Run W) :=
  match r.thread.ctl, en.mode with
  | .done _, _ | .exn _, _ | .abort, _ => none
  | .yielded v, _ =>
    some ⟨{ r.thread with ctl := .eval v, fuel := quantum r.quanta }, r.quanta + 1⟩
  | .blocked request, .executor answer =>
    let a := answer request r.thread.sto
    -- `pl_thread_deposit` takes no thunk.
    if a.2.heap.isWhnf a.1 then
      some ⟨{ r.thread with ctl := .ret a.1, sto := a.2, fuel := quantum r.quanta }, r.quanta + 1⟩
    else some ⟨{ r.thread with ctl := .abort, sto := a.2 }, r.quanta⟩
  | _, _ => some { r with thread := r.thread.step ctx en }

end Enki.Eval
