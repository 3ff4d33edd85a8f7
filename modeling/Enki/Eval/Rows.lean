import Enki.Eval.Spines

/-!
# Rows

The bodies of `op.c` that take applications apart and put them together: `op_elim`, `op_init`,
`op_up`, `op_slice`, `op_weld`, `op_rep`, `op_row` and `op_coup`. All but the last keep a heap
flat. `op_coup` gives its first argument the arguments of a row as they are: where that is a
partial application with more room than the row has arguments, it becomes the head of another.
-/

namespace Enki.Eval

open Running StateTransition

variable {W : Type}

/-- `pl_nat_coerce` -/
def Val.coerce : Val → Nat
  | .nat n => n
  | .ref _ => 0

/-- `pl_mk_app_take` -/
def Heap.mkAppTake (h : Heap) (app : Val) (n : Nat) : Option (Heap × Val) :=
  match h.asApp app with
  | some (head, args) =>
    if 1 ≤ n ∧ n < args.length then h.mkAppFrom head (args.take n) else none
  | none => none

/-- The arguments of a row; what is no application has none. -/
def Heap.elems (h : Heap) (v : Val) : List Val :=
  match h.asApp v with
  | some (_, args) => args
  | none => []

/-- The elements of a lazy row from the object with the index `base` on: each is a thunk in an
activation of its own that holds the prefix, and so is the prefix of the next. -/
def lazyElems (ix0 ix1 : Val) : Nat → Nat → Val → List Obj × List Val
  | 0, _, _ => ([], [])
  | 1, base, pre => ([.env (.nat 0) [pre], .thunk (.ref base) ix0], [.ref (base + 1)])
  | n + 2, base, pre =>
    let rest := lazyElems ix0 ix1 (n + 1) (base + 3) (.ref (base + 2))
    (.env (.nat 0) [pre] :: .thunk (.ref base) ix0 :: .thunk (.ref base) ix1 :: rest.1,
      .ref (base + 1) :: rest.2)

/-- What a body has built, unless a check failed. -/
def BodyResult.built (s : Sto W) (pushed : Val → List Kont) (v : Val → Val) :
    Option (Heap × Val) → BodyResult W
  | none => .aborts
  | some hv => .returns (v hv.2) (pushed hv.2) (s.setHeap hv.1)

section

variable (args : List Val) (s : Sto W)

/-- `op_elim` -/
def opElim : BodyResult W :=
  match args with
  | [p, l, a, z, m, o] =>
    match o with
    | .nat 0 => .returns z [] s
    | .nat (n + 1) => .returns m [.apply (.nat n)] s
    | .ref r =>
      match s.heap[r]? with
      | some (.pin _ body) => .returns p [.apply body] s
      | some (.law _ arity name body) =>
        if arity < 2 ^ 63 then .returns l [.apply (.nat arity), .apply name, .apply body] s
        else .aborts
      | some (.app _ _ head [x]) => .returns a [.apply head, .apply x] s
      | some (.app _ _ _ xs) =>
        .built s (fun ini => [.apply ini, .apply (xs.getLastD (.nat 0))]) (fun _ => a)
          (s.heap.mkAppTake o (xs.length - 1))
      | _ => .aborts
  | _ => .aborts

/-- `op_init` -/
def opInit : BodyResult W :=
  match args with
  | [v] =>
    match s.heap.asApp v with
    | none => .returns (.nat 0) [] s
    | some (head, [_]) => .returns head [] s
    | some (_, xs) => .built s (fun _ => []) id (s.heap.mkAppTake v (xs.length - 1))
  | _ => .aborts

/-- `op_up` -/
def opUp : BodyResult W :=
  match args with
  | [i, v, row] =>
    match s.heap.asApp row with
    | none => .returns row [] s
    | some (head, xs) =>
      if xs.length ≤ u64Clamp i.coerce then .returns row [] s
      else .built s (fun _ => []) id (s.heap.mkAppFrom head (xs.set (u64Clamp i.coerce) v))
  | _ => .aborts

/-- `op_slice` -/
def opSlice : BodyResult W :=
  match args with
  | [o, n, row] =>
    match s.heap.asApp row with
    | none => .returns (.nat 0) [] s
    | some (head, xs) =>
      let o := u64Clamp o.coerce
      if xs.length < o then .returns (.nat 0) [] s
      else
        let size := min (xs.length - o) (u64Clamp n.coerce)
        if size = 0 then .returns (.nat 0) [] s
        else if o = 0 ∧ size = xs.length ∧ head = .nat 0 then .returns row [] s
        else .built s (fun _ => []) id (s.heap.mkAppFrom (.nat 0) ((xs.drop o).take size))
  | _ => .aborts

/-- `op_weld` -/
def opWeld : BodyResult W :=
  match args with
  | [x, y] =>
    match s.heap.elems x ++ s.heap.elems y with
    | [] => .returns (.nat 0) [] s
    | xs => .built s (fun _ => []) id (some (s.heap.alloc (.app 0 false (.nat 0) xs)))
  | _ => .aborts

/-- `op_rep` -/
def opRep : BodyResult W :=
  match args with
  | [hd, item, n] =>
    let hd := Val.nat hd.coerce
    let n := u64Clamp n.coerce
    if n = 0 then .returns hd [] s
    else if n < 2 ^ 24 then
      .built s (fun _ => []) id (some (s.heap.alloc (.app 0 false hd (List.replicate n item))))
    else .aborts
  | _ => .aborts

/-- `op_row`. The store's expressions for an element and for the rest are given. -/
def opRow (ix0 ix1 : Val) : BodyResult W :=
  match args with
  | [hd, n, xs] =>
    let hd := Val.nat hd.coerce
    let n := u64Clamp n.coerce
    if n = 0 then .returns hd [] s
    else if n < 2 ^ 22 then
      let elems := lazyElems ix0 ix1 n (s.heap.length + 1) xs
      .built s (fun _ => []) id
        (some (s.heap ++ .app 0 false hd elems.2 :: elems.1, .ref s.heap.length))
    else .aborts
  | _ => .aborts

/-- `op_coup` -/
def opCoup : BodyResult W :=
  match args with
  | [hd, row] =>
    match s.heap.asApp row with
    | none => .returns hd [] s
    | some (_, xs) =>
      match s.heap.arity hd with
      | none => .aborts
      | some a =>
        if xs.length < a then .built s (fun _ => []) id (s.heap.mkAppFrom hd xs)
        else .returns hd (xs.map .apply) s
  | _ => .aborts

end

inductive RowOp where
  | elim | init | up | slice | weld | rep | row | coup
  deriving DecidableEq

/-- The rows of the table that these bodies have in op set 66. -/
def rowNames : List (String × RowOp) :=
  [("Elim", .elim), ("Row", .row), ("Rep", .rep), ("Slice", .slice), ("Weld", .weld), ("Up", .up),
    ("UpUniq", .up), ("Coup", .coup), ("Init", .init)]

/-- The body of a row of the table, if it is one of these. Op set 0 has `op_elim` under 2. -/
def rowOp (op : Nat) : Option RowOp :=
  let d := plOp op
  if d.opset = 0 ∧ d.name = 2 then some .elim
  else if d.opset = 66 then
    (rowNames.find? fun r => OpDesc.mote r.1 == d.name).map Prod.snd
  else none

def RowOp.body (ix0 ix1 : Val) (args : List Val) (s : Sto W) : RowOp → BodyResult W
  | elim => opElim args s
  | init => opInit args s
  | up => opUp args s
  | slice => opSlice args s
  | weld => opWeld args s
  | rep => opRep args s
  | row => opRow args s ix0 ix1
  | coup => opCoup args s

section

variable {h : Heap} {v head : Val} {xs args : List Val}

theorem Heap.Flat.asApp (hflat : h.Flat) (hv : h.asApp v = some (head, xs)) :
    h.asApp head = none ∧ xs ≠ [] := by
  unfold Heap.asApp at hv
  cases hobj : h.obj v with
  | none =>
    rw [hobj] at hv
    cases hv
  | some o =>
    rw [hobj] at hv
    cases o with
    | app need normal head' xs' =>
      cases hv
      obtain ⟨hplain, hne, -⟩ := hflat.app hobj
      exact ⟨hplain, hne⟩
    | _ => cases hv

namespace Heap.KeepsSpines

theorem ofNat {n : Nat} {hv : Heap × Val} (hxs : xs ≠ [])
    (hmk : h.mkAppFrom (.nat n) xs = some hv) : h.KeepsSpines hv.1 :=
  (mkAppFrom rfl hxs hmk).1

/-- The beginning of an application has its head. -/
theorem mkAppTake {n : Nat} {hv : Heap × Val} (hmk : h.mkAppTake v n = some hv) :
    h.KeepsSpines hv.1 := by
  intro hflat
  unfold Heap.mkAppTake at hmk
  cases happ : h.asApp v with
  | none =>
    rw [happ] at hmk
    cases hmk
  | some p =>
    obtain ⟨head, xs⟩ := p
    simp only [happ] at hmk
    split at hmk
    · rename_i hn
      have htake : xs.take n ≠ [] := by
        intro hnil
        rw [List.take_eq_nil_iff] at hnil
        obtain rfl | rfl := hnil
        · omega
        · simp at hn
      exact (mkAppFrom (hflat.asApp happ).1 htake hmk).1 hflat
    · cases hmk

end Heap.KeepsSpines

end

section

variable {s : Sto W} {pushed : Val → List Kont} {f : Val → Val} {o : Option (Heap × Val)}

variable (args : List Val) (s)

open BodyResult

end

/-! ## Runs -/

section

variable {ctx : Ctx W} {ix0 ix1 : Val} {r : Run W}

end

section

variable {ctx : Ctx W} {mode : Mode W} {quantum : Nat → Nat} {ks : List Kont} {v : Val}
  {S : List Val} {F : List Frame} {s : Sto W} {fuel : Nat}

end

/-! ## Two calls of `Coup` -/

end Enki.Eval
