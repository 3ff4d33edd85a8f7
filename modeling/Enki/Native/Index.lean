import Enki.Native.Arena

/-!
# The hash index

A Patricia tree over the 256 bits of a hash, for the objects and for the compiler
cache. Committed nodes are records of the arena; the nodes that `ninsert` makes
live in an overlay that both trees share. An even reference is the offset of a
committed node, an odd one a slot of the overlay. `nemit` writes a working tree
back to the arena and remembers where each node went.
-/

namespace Enki.Native

/-- `nworking_node` -/
def Store.workingNode (n : Store) (ref : Nat) : Option Index :=
  if ref % 2 = 0 then n.disk.node ref n.committed.hi
  else (n.nodes[ref / 2]?).map (·.node)

/-- The loop of `nlookup_inner`, from a reference on; `none` is an error. -/
def lookupFrom (node : Nat → Option Index) (key : Key) : Nat → Option Nat → Nat → Option Nat
  | depth, prior, ref =>
    if ref = 0 then some 0
    else match depth with
    | 0 => none
    | depth + 1 =>
      match node ref with
      | none => none
      | some p =>
        if p.bit > 256 ∨ prior.any (p.bit ≤ ·) then none
        else if p.bit = 256 then some (if p.key = key then p.value else 0)
        else if p.child (nbit key p.bit) = 0 then none
        else lookupFrom node key depth (some p.bit) (p.child (nbit key p.bit))

/-- `nlookup`: of a tree that lies in the arena before `hi`. -/
def Disk.lookup (d : Disk) (root : Nat) (key : Key) (hi : Nat) : Option Nat :=
  lookupFrom (d.node · hi) key 257 none root

/-- `nworking_lookup` -/
def Store.workingLookup (n : Store) (root : Nat) (key : Key) : Option Nat :=
  lookupFrom n.workingNode key 257 none root

/-! ## Insertion -/

/-- One entry of the arrays that record a descent. -/
structure Ancestor where
  ref : Nat
  node : Index
  dir : Bool

/-- Follow the bits of a key to a leaf. The ancestors passed are recorded, the last
one first; there are at most 256. -/
def Store.descend (n : Store) (key : Key) :
    Nat → List Ancestor → Nat → Option (List Ancestor × Nat × Index)
  | room, path, cur =>
    match n.workingNode cur with
    | none => none
    | some p =>
      if p.bit > 256 ∨ path.head?.any (p.bit ≤ ·.node.bit) then none
      else if p.bit = 256 then some (path, cur, p)
      else match room with
      | 0 => none
      | room + 1 =>
        n.descend key room (⟨cur, p, nbit key p.bit⟩ :: path) (p.child (nbit key p.bit))

/-- Drop the ancestors at or after the split bit. -/
def popAncestors (split : Nat) : List Ancestor → Nat → List Ancestor × Nat
  | [], cur => ([], cur)
  | a :: path, cur => if split ≤ a.node.bit then popAncestors split path a.ref else (a :: path, cur)

/-- `nworking_new` -/
def Store.workingNew (n : Store) (src : Index) : Nat × Store :=
  (2 * n.nodes.length + 1, { n with nodes := n.nodes ++ [{ node := src }] })

/-- An overlay node is replaced in place, a committed one by a new node. -/
def Store.replace (n : Store) (ref : Nat) (src : Index) : Nat × Store :=
  if ref % 2 = 1 then (ref, { n with nodes := n.nodes.set (ref / 2) { node := src } })
  else n.workingNew src

/-- The new leaf, and the branch that puts it beside `cur` if the keys differ. -/
def Store.graft (n : Store) (key : Key) (value split cur : Nat) : Nat × Store :=
  if split = 256 then n.replace cur (.leaf key value)
  else
    let (leaf, n) := n.workingNew (.leaf key value)
    n.workingNew ⟨split, zeroKey, fun d => if d = nbit key split then leaf else cur, 0⟩

/-- Point every ancestor left at what has changed below it. -/
def rebuild : List Ancestor → Nat × Store → Nat × Store
  | [], r => r
  | a :: path, (changed, n) =>
    rebuild path (n.replace a.ref { a.node with child := Function.update a.node.child a.dir changed })

/-- `ninsert`: success, and the new root. -/
def Store.insert (n : Store) (root : Nat) (key : Key) (value : Nat) : Bool × Nat × Store :=
  if root = 0 then (true, n.workingNew (.leaf key value))
  else match n.descend key 256 [] root with
  | none => (false, root, n)
  | some (path, cur, p) =>
    let split := nsplit key p.key
    if split = 256 ∧ p.value = value then (true, root, n)
    else
      let (path, cur) := popAncestors split path cur
      (true, rebuild path (n.graft key value split cur))

/-! ## Emission -/

/-- Write the record of an overlay node whose children are written. -/
def Store.emitRecord (n : Store) (slot : Nat) (record : Index) : Option Nat × Store :=
  match n.alloc indexBytes with
  | (none, n) => (none, n)
  | (some off, n) =>
    let n := { n with
      disk := n.disk.write off (.index record)
      nodes := n.nodes.modify slot ({ · with emitted := off }) }
    let (ok, n) := n.point
    (if ok then some off else none, n)

/-- `nemit`: the offset of the tree in the arena, if all of it could be written. -/
def Store.emit (n : Store) (ref minimum : Nat) : Option Nat × Store :=
  if ref % 2 = 0 then
    (if ref = 0 ∨ nbound ref indexBytes n.committed.hi then some ref else none, n)
  else match n.nodes[ref / 2]? with
  | none => (none, n)
  | some w =>
    if h : w.node.bit < minimum ∨ w.node.bit > 256 then (none, n)
    else if w.emitted ≠ 0 then (some w.emitted, n)
    else if h' : w.node.bit < 256 then
      if w.node.child false = 0 ∨ w.node.child true = 0 then (none, n)
      else match n.emit (w.node.child false) (w.node.bit + 1) with
      | (none, n) => (none, n)
      | (some c0, n) =>
        match n.emit (w.node.child true) (w.node.bit + 1) with
        | (none, n) => (none, n)
        | (some c1, n) =>
          n.emitRecord (ref / 2) { w.node with child := fun d => if d then c1 else c0 }
    else n.emitRecord (ref / 2) w.node
termination_by 257 - minimum
decreasing_by all_goals omega

end Enki.Native
