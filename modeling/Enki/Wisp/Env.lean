import Enki.Ops
import Enki.Bignum.Exact
import Mathlib.Data.Tree.Basic

/-!
# The environment of the Wisp loader

`en_wisp_getenv`, `en_wisp_putenv`, `#bind`, `#macro` and `#export` of `wisp.c`, and
the tree that macros get to see. The environment is a linked list, here from its head
on; a pointer to an entry is its position. Keys are naturals, direct or boxed, and are
compared as numbers by the limb routines.

An operation that fails jumps out: what it changed before that stays changed. The
evaluation inside a `#bind` runs operations of its own; in a sequence they come before
the `#bind` itself.
-/

namespace Enki.Wisp

open Bignum

/-- A natural as environments keep it. -/
abbrev Key := {k : NatVal // k.Canonical}

def Key.val (k : Key) : Nat := NatVal.val k.1

/-- `en_env_entry` -/
structure Entry (V : Type) where
  key : Key
  val : V
  mac : Bool

inductive Failure where
  | stop (s : Stop)
  | msg (s : String)
  /-- What the evaluation of an operand failed with. -/
  | eval
  deriving DecidableEq

/-- What the operations change: the environment, and how many entries were asked for. -/
structure World (V : Type) where
  env : List (Entry V) := []
  requests : Nat := 0

variable {V : Type} (m : Mpn) (grant : Nat → Bool)

/-! ## Lookup and update -/

/-- The loop of `en_wisp_getenv`. -/
def find (key : Key) : List (Entry V) → Except Failure (Option Nat)
  | [] => .ok none
  | e :: es =>
    match Bignum.eq m e.key.1 key.1 with
    | .error s => .error (.stop s)
    | .ok true => .ok (some 0)
    -- positions count from the head of the list
    | .ok false => (find key es).map (Option.map (· + 1))

/-- `en_wisp_getenv`; `none` is a value that is no natural. -/
def getenv (key : Option Key) (w : World V) : Except Failure (Option Nat) :=
  match key with
  | none => .ok none
  | some k => find m k w.env

/-- `en_wisp_putenv` -/
def putenv (key : Option Key) (mac : Bool) (val : V) (w : World V) :
    Except Failure Unit × World V :=
  match key with
  | none => (.error (.msg "bad env key"), w)
  | some k =>
    match getenv m (some k) w with
    | .error f => (.error f, w)
    -- a known key changes in place, a new one becomes the head
    | .ok (some i) =>
      (.ok (), { w with env := w.env.modify i fun e => { e with mac := mac, val := val } })
    | .ok none =>
      if grant w.requests then
        (.ok (), { env := ⟨k, val, mac⟩ :: w.env, requests := w.requests + 1 })
      else (.error (.msg "oom"), { w with requests := w.requests + 1 })

/-! ## The system macros -/

/-- `en_bind`, for `#bind` and `#macro`; `value` is what the operand evaluates to. -/
def enBind (nam : Option Key) (mac : Bool) (value : Option V) (w : World V) :
    Except Failure Unit × World V :=
  match nam, value with
  | none, _ => (.error (.msg "bad env key"), w)
  | some _, none => (.error .eval, w)
  | some k, some v => putenv m grant (some k) mac v w

/-- The first loop of `en_export`: the entries to keep. -/
def keep (env : List (Entry V)) : List (Option Key) → Except Failure (List (Entry V))
  | [] => .ok []
  | none :: _ => .error (.msg "bad export")
  | some k :: syms =>
    match find m k env with
    | .error f => .error f
    -- nothing has been changed yet
    | .ok none => .error (.msg "unbound export")
    | .ok (some i) =>
      match env[i]? with
      | none => .error (.msg "unbound export")
      | some e => (keep env syms).map (e :: ·)

/-- The second loop of `en_export`. -/
def rebuild : List (Entry V) → World V → Except Failure Unit × World V
  | [], w => (.ok (), w)
  | e :: es, w =>
    match putenv m grant (some e.key) e.mac e.val w with
    | (.ok (), w) => rebuild es w
    | (.error f, w) => (.error f, w)

/-- `en_export` -/
def enExport (syms : List (Option Key)) (w : World V) : Except Failure Unit × World V :=
  match keep m w.env syms with
  | .error f => (.error f, w)
  -- The old list stays readable until the new one is there.
  | .ok kept => rebuild m grant kept { w with env := [] }

inductive Op (V : Type) where
  | putenv (key : Option Key) (mac : Bool) (val : V)
  | bind (nam : Option Key) (mac : Bool) (value : Option V)
  | exports (syms : List (Option Key))

def step (op : Op V) (w : World V) : Except Failure Unit × World V :=
  match op with
  | .putenv key mac val => putenv m grant key mac val w
  | .bind nam mac value => enBind m grant nam mac value w
  | .exports syms => enExport m grant syms w

/-- A sequence of operations, and whether each succeeded. -/
def run : List (Op V) → World V → World V × List Bool
  | [], w => (w, [])
  | op :: ops, w =>
    let r := step m grant op w
    let rest := run ops r.2
    (rest.1, r.1.isOk :: rest.2)

/-! ## The environment as a value -/

/-- What macros get: 0, or `(key tag val left right)`. -/
inductive EnvVal (V : Type) where
  | zero
  | app (head : Key) (tag : Nat) (val : V) (left right : EnvVal V)

/-- `en_env_tmp_put`, where `granted` says whether a node can be had. -/
def tmpPut (granted : Bool) (ent : Entry V) :
    BinaryTree (Entry V) → Except Failure (BinaryTree (Entry V))
  | .nil => if granted then .ok (.node ent .nil .nil) else .error (.msg "oom")
  | .node root left right =>
    match Bignum.cmp m ent.key.1 root.key.1 with
    | .error s => .error (.stop s)
    | .ok c =>
      if c < 0 then (tmpPut granted ent left).map (.node root · right)
      else if c > 0 then (tmpPut granted ent right).map (.node root left ·)
      -- the entry that comes later takes its place
      else .ok (.node ent left right)

/-- The insertions of `en_env_value`. -/
def tmpPutAll : List (Entry V) → Nat → BinaryTree (Entry V) →
    Except Failure (BinaryTree (Entry V))
  | [], _, root => .ok root
  | ent :: ents, request, root =>
    match tmpPut m (grant request) ent root with
    | .error f => .error f
    | .ok root => tmpPutAll ents (request + 1) root

/-- `MOTE_MACRO` and `MOTE_VALUE`. -/
def tag (mac : Bool) : Nat := if mac then OpDesc.mote "macro" else OpDesc.mote "value"

/-- `en_env_tmp_value` -/
def tmpValue : BinaryTree (Entry V) → EnvVal V
  | .nil => .zero
  | .node ent left right =>
    .app ent.key (tag ent.mac) ent.val (tmpValue left) (tmpValue right)

/-- `en_env_value`: the entries are inserted from the last one on. -/
def envValue (w : World V) : Except Failure (EnvVal V) :=
  (tmpPutAll m grant w.env.reverse w.requests .nil).map tmpValue

end Enki.Wisp
