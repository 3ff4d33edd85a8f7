import Enki.Cheney.Heap
import Enki.Lib.LittleEndian
import Enki.Native.Publish

/-!
# Staging a body

`pl_native_stage` on the cells of memory: the nodes of a body are found with a stack and
given offsets in one extent, the extent is allocated, and the nodes are copied to their
offsets with their references translated. Memory and words are those of the copying
collector; an offset of the arena is a cell by `nptr`. `stageGraph_stage` connects it to
`Store.stage`, to which a body is the list of its cells.
-/

namespace Enki.Native

open Cheney

/-! ## Addresses -/

/-- `PL_NATIVE_BASE`, in cells. -/
def nativeBase : Nat := 0x7a0000000000 / 8

def nptr (off : Nat) : Nat := nativeBase + off / 8

/-- Between `native_lo` and `native_hi`. -/
def isNative (p : Nat) : Bool := decide (nptr start ≤ p) && decide (p < nptr nativeBytes)

/-- The PIN of the record at an offset. -/
def pinAt (off : Nat) : Nat := make pinTag (nptr (off + recordBytes))

/-- `pl_pin_resolved` -/
def pinResolved (mem : Mem) (p : Nat) : Nat :=
  if isProxy (mem p) = true ∧ mem (p + 6) ≠ 0 then ptr (mem (p + 6)) else p

def natTag : Nat := tagForKind (some .nat)

def lawTag : Nat := tagForKind (some .law)

def appTag : Nat := tagForKind (some .app)

/-- `PL_F_NORMAL` -/
def normalFlag : Nat := 1

/-- `PL_F_PIN_HASHED` -/
def hashedFlag : Nat := 4

/-- `pl_hdr_set_flag` -/
def hdrSetFlag (hdr flags : Nat) : Nat := hdr ||| ((hdrFlags hdr ||| flags) % 2 ^ 4) * 2 ^ 8

/-! ## The nodes -/

/-- `native_copy`: a node of the body, and its offset in the record. -/
abbrev CopyMap := List (Nat × Nat)

/-- What the traversal pushes for a node; none if that is not normal. -/
def bodyFields (mem : Mem) (v : Nat) : Option (List Nat) :=
  if tag v = natTag then some []
  else if tag v = lawTag then some [mem (ptr v + 2), mem (ptr v + 3)]
  else if tag v = appTag then
    some ((List.range' 1 (hdrCells (mem (ptr v)) - 1)).map fun i => mem (ptr v + i))
  else none

/-- The traversal of `pl_native_stage`, its stack `todo` with the top first. -/
def walk (mem : Mem) (map : CopyMap) (size : Nat) (todo : List Nat) : Option (CopyMap × Nat) :=
  match todo with
  | [] => some (map, size)
  | v :: todo =>
    if isNat63 v then walk mem map size todo
    else if tag v = pinTag then
      if isNative (pinResolved mem (ptr v)) then walk mem map size todo else none
    else if (map.lookup v).isSome then walk mem map size todo
    else
      let bytes := hdrCells (mem (ptr v)) * 8
      if bytes < 8 ∨ size > nativeBytes - bytes then none
      else match bodyFields mem v with
      | none => none
      | some fields => walk mem (map ++ [(v, size)]) (size + bytes) (fields.reverse ++ todo)
termination_by (nativeBytes - size, todo.length)
decreasing_by
  · exact Prod.Lex.right _ (by simp)
  · exact Prod.Lex.right _ (by simp)
  · exact Prod.Lex.right _ (by simp)
  · refine Prod.Lex.left _ _ ?_
    simp only [nativeBytes] at *
    omega

/-! ## The copy -/

/-- `ntranslate`; none where a node is missing. -/
def ntranslate (mem : Mem) (map : CopyMap) (v off : Nat) : Option Nat :=
  if isNat63 v then some v
  else if tag v = pinTag then some (make pinTag (pinResolved mem (ptr v)))
  else (map.lookup v).map fun o => make (tag v) (nptr (off + o))

/-- Copy a node, and translate its references. -/
def copyNode (map : CopyMap) (off : Nat) (mem : Mem) (e : Nat × Nat) : Option Mem :=
  let src := ptr e.1
  let dst := nptr (off + e.2)
  let cells := hdrCells (mem src)
  let copied := copyCells mem src dst cells
  let copied := Function.update copied dst (hdrSetFlag (copied dst) normalFlag)
  if tag e.1 = natTag then some copied
  else
    let first := if tag e.1 = appTag then 1 else 2
    (List.range' first (cells - first)).foldlM (fun mem j =>
      (ntranslate mem map (mem (src + j)) off).map (Function.update mem (dst + j))) copied

/-- Cell `i` of the hash of a PIN. -/
def hashCell (hash : Key) (i : Nat) : Nat :=
  LittleEndian.toNat ((hash.toList.drop (8 * i)).take 8)

/-- The cells of the PIN: its header, hash, body, identifier and table. -/
def writePin (mem : Mem) (hash : Key) (body id : Nat) (subpins : List Nat) (p : Nat) : Mem := fun a =>
  if a = p then hdrMake .pin (normalFlag + hashedFlag) subpins.length (pinCells subpins.length)
  else if p < a ∧ a < p + 5 then hashCell hash (a - p - 1)
  else if a = p + 5 then body
  else if a = p + 6 then id
  else if p + 7 ≤ a ∧ a < p + 7 + subpins.length then subpins.getD (a - p - 7) 0
  else mem a

/-- The extent is zeroed. -/
def zeroed (mem : Mem) (off len : Nat) : Mem := fun a =>
  if nptr off ≤ a ∧ a < nptr (off + len) then 0 else mem a

/-- The body as the record has it. -/
def bodyRef (mem : Mem) (map : CopyMap) (body off : Nat) : Body :=
  if isNat63 body then .nat body
  else if tag body = pinTag then .pin ((pinResolved mem (ptr body) - nativeBase) * 8)
  else .node (off + (map.lookup body).getD 0)

/-- `pl_native_stage`: a value, or an error (`none`), and what was written. It is none
altogether where an assumption fails. -/
def Store.stageGraph (n : Store) (mem : Mem) (hash : Key) (body : Nat) (subpins : List Nat) :
    Option (Option Nat × Store × Mem) :=
  if n.writable = false then some (none, n, mem)
  else match n.workingLookup n.work.objects hash with
  | none => some (none, n, mem)
  | some found =>
    if found ≠ 0 then some ((n.load hash).map pinAt, n, mem)
    else if subpins.length > hdrMetaMax ∨ n.work.nextId ≥ slotCount then some (none, n, mem)
    else if subpins.all (fun v => tag v = pinTag ∧ isNative (ptr v)) = false then some (none, n, mem)
    else match walk mem [] (recordBytes + pinCells subpins.length * 8) [body] with
    | none => some (none, n, mem)
    | some (map, size) =>
      match n.alloc size with
      | (none, n) => some (none, n, mem)
      | (some off, n) => do
        let pin : Pin := ⟨size, hash, subpins.length, bodyRef mem map body off, n.work.nextId⟩
        let mem := zeroed mem off size
        let body ← ntranslate mem map body off
        let mem := writePin mem hash body n.work.nextId subpins (nptr (off + recordBytes))
        let mem ← map.foldlM (copyNode map off) mem
        let n := { n with
          disk := n.disk.write off (.object pin)
          work := { n.work with nextId := n.work.nextId + 1 } }
        let (ok, n) := n.point
        if ok = false then some (none, n, mem)
        else
          let (ok, root, n) := n.insert n.work.objects hash off
          some (if ok then some (pinAt off) else none,
            { n with work := { n.work with objects := root } }, mem)

end Enki.Native
