import Enki.Word

/-!
# The primop table

`pl_ops` of `op.c` and its lookup by opset, name and argument count. A name of
an op-66 primop is compared as a number (its mote); an op-82 or op-83 name may
be longer than seven bytes, and is compared byte by byte.
-/

namespace Enki

/-- A row of `pl_ops`, less its body. -/
structure OpDesc where
  opset : Nat
  name : Nat
  nameC : Option String
  argc : Nat
  strictMask : Nat
  deepMask : Nat
  hostEffect : Bool
  coord : Bool
  deriving DecidableEq, Repr

namespace OpDesc

/-- `ax_s1` to `ax_s7`: the bytes of a short name as a little-endian number. -/
def mote (s : String) : Nat := s.toList.foldr (fun c n => c.toNat + 256 * n) 0

def op0 (name argc mask : Nat) : OpDesc := ⟨0, name, none, argc, mask, 0, false, false⟩

def op66 (name : String) (argc mask deep : Nat) : OpDesc :=
  ⟨66, mote name, none, argc, mask, deep, false, false⟩

def op82 (name : String) (argc mask : Nat) : OpDesc :=
  ⟨82, 0, some name, argc, mask, 0, true, false⟩

/-- Coordination effects: the machine blocks instead of running a body. -/
def op82C (name : String) (argc mask deep : Nat) : OpDesc :=
  ⟨82, 0, some name, argc, mask, deep, true, true⟩

def op83Local (name : String) (argc mask : Nat) : OpDesc :=
  ⟨83, 0, some name, argc, mask, 0, false, false⟩

def op83LocalDeep (name : String) (argc mask deep : Nat) : OpDesc :=
  ⟨83, 0, some name, argc, mask, deep, false, false⟩

def op83C (name : String) (argc mask deep : Nat) : OpDesc :=
  ⟨83, 0, some name, argc, mask, deep, true, true⟩

end OpDesc

open OpDesc in
/-- `pl_ops` -/
def plOps : List OpDesc := [
  op0 0 1 0b1, op0 1 3 0b111, op0 2 6 0b100000, op66 "Pin" 1 0b1 0, op66 "Law" 3 0b111 0,
  op66 "Elim" 6 0b100000 0, op66 "Inc" 1 0b1 0, op66 "Dec" 1 0b1 0, op66 "Add" 2 0b11 0,
  op66 "Sub" 2 0b11 0, op66 "Mul" 2 0b11 0, op66 "Div" 2 0b11 0, op66 "Mod" 2 0b11 0,
  op66 "Rsh" 2 0b11 0, op66 "Lsh" 2 0b11 0, op66 "Case2" 3 0b1 0, op66 "Case3" 4 0b1 0,
  op66 "Case4" 5 0b1 0, op66 "Case5" 6 0b1 0, op66 "Case6" 7 0b1 0, op66 "Case7" 8 0b1 0,
  op66 "Case8" 9 0b1 0, op66 "Case9" 10 0b1 0, op66 "Case10" 11 0b1 0, op66 "Case11" 12 0b1 0,
  op66 "Case12" 13 0b1 0, op66 "Case13" 14 0b1 0, op66 "Case14" 15 0b1 0, op66 "Case15" 16 0b1 0,
  op66 "Case16" 17 0b1 0, op66 "Case" 3 0b11 0, op66 "Test" 2 0b11 0, op66 "Nib" 2 0b11 0,
  op66 "Load8" 2 0b11 0, op66 "LoadVar" 3 0b111 0, op66 "Store8" 3 0b111 0, op66 "Set" 2 0b11 0,
  op66 "Clear" 2 0b11 0, op66 "Bex" 1 0b1 0, op66 "Trunc8" 1 0b1 0, op66 "Trunc16" 1 0b1 0,
  op66 "Trunc32" 1 0b1 0, op66 "Trunc64" 1 0b1 0, op66 "Trunc" 2 0b11 0, op66 "Bits" 1 0b1 0,
  op66 "Bytes" 1 0b1 0, op66 "Unpin" 1 0b1 0, op66 "Seq" 2 0b1 0, op66 "Seq2" 3 0b11 0,
  op66 "Seq3" 4 0b111 0, op66 "Sap" 2 0b10 0, op66 "Sap2" 3 0b110 0, op66 "Type" 1 0b1 0,
  op66 "IsPin" 1 0b1 0, op66 "IsLaw" 1 0b1 0, op66 "IsApp" 1 0b1 0, op66 "IsNat" 1 0b1 0,
  op66 "Nat" 1 0b1 0, op66 "Arity" 1 0b1 0, op66 "Name" 1 0b1 0, op66 "Body" 1 0b1 0,
  op66 "Row" 3 0b11 0, op66 "Rep" 3 0b101 0, op66 "Slice" 3 0b111 0, op66 "Weld" 2 0b11 0,
  op66 "Force" 1 0 0, op66 "DeepSeq" 2 0 0, op66 "Up" 3 0b101 0, op66 "UpUniq" 3 0b101 0,
  op66 "Coup" 2 0b11 0, op66 "Try" 2 0 0, op66 "Throw" 1 0b1 0b1, op66 "Hd" 1 0b1 0,
  op66 "Ix" 2 0b11 0, op66 "Ix0" 1 0b1 0, op66 "Ix1" 1 0b1 0, op66 "Ix2" 1 0b1 0,
  op66 "Ix3" 1 0b1 0, op66 "Ix4" 1 0b1 0, op66 "Ix5" 1 0b1 0, op66 "Ix6" 1 0b1 0,
  op66 "Ix7" 1 0b1 0, op66 "Save" 1 0b1 0b1, op66 "Load" 1 0b1 0, op66 "Trace" 2 0 0b1,
  op66 "Nil" 1 0b1 0, op66 "Truth" 1 0b1 0, op66 "Or" 2 0b1 0, op66 "Nor" 2 0b1 0,
  op66 "And" 2 0b1 0, op66 "If" 3 0b1 0, op66 "Ifz" 3 0b1 0, op66 "Eq" 2 0b11 0,
  op66 "Ne" 2 0b11 0, op66 "Lt" 2 0b11 0, op66 "Le" 2 0b11 0, op66 "Gt" 2 0b11 0,
  op66 "Ge" 2 0b11 0, op66 "Cmp" 2 0b11 0, op66 "Sz" 1 0b1 0, op66 "Last" 1 0b1 0,
  op66 "Init" 1 0b1 0, op66 "Equal" 2 0b11 0b11, op66 "Install" 1 0b1 0b1,
  op66 "Compile" 1 0b1 0b1, op82 "Input" 1 0b1, op82 "Output" 1 0b1, op82 "Warn" 1 0b1,
  op82 "ReadFile" 1 0b1, op82 "WriteFile" 2 0b11, op82 "Print" 1 0b1, op82 "Stamp" 1 0b1,
  op82 "Now" 1 0, op82 "CloseFd" 1 0b1, op82 "Listen" 1 0b1, op82 "Accept" 1 0b1,
  op82 "Read" 2 0b11, op82 "Write" 2 0b11, op82C "Spawn" 1 0 0b1, op82C "Send" 2 0b1 0b10,
  op82C "SendCaps" 3 0b1 0b110, op82C "Recv" 1 0b1 0, op82C "CloseHandle" 1 0b1 0,
  op82 "Connect" 3 0b111, op83C "ReadFolder" 1 0b1 0, op83C "Fetch" 2 0b11 0b11,
  op83C "Sleep" 1 0b1 0, op83Local "ZoneStart" 1 0b1, op83Local "ZoneEnd" 1 0b1,
  op66 "scan8" 4 0b1111 0, op66 "StrTree" 1 0b1 0b1, op83LocalDeep "scan8" 4 0b1111 0,
  op83LocalDeep "StrTree" 1 0b1 0b1, op66 "Memo" 2 0b11 0, op83Local "Blake3" 1 0b1,
  op83Local "Sha256" 1 0b1, op83Local "Ed25519PublicKey" 1 0b1, op83Local "Ed25519Sign" 2 0b11,
  op83Local "Ed25519Verify" 3 0b111, op83Local "Blake3Keyed" 2 0b11, op83Local "HmacSha256" 2 0b11,
  op66 "Ice" 1 0b1 0b1, op83C "ReadBat" 1 0b1 0, op83LocalDeep "BatEq" 2 0b11 0b11,
  op83LocalDeep "BatHash" 1 0b1 0b1]

/-- `pl_ops[idx]`, for an index the lookup returned. -/
def plOp (idx : Nat) : OpDesc := plOps.getD idx (OpDesc.op0 0 0 0)

/-- Every strict mask is a `uint32_t`. -/
theorem strictMask_lt (idx : Nat) : (plOp idx).strictMask < 2 ^ 32 := by
  have hall : ∀ d ∈ plOps, d.strictMask < 2 ^ 32 := by decide +kernel
  rw [plOp, List.getD_eq_getElem?_getD]
  cases h : plOps[idx]? with
  | none => decide
  | some d => exact hall d (List.mem_of_getElem? h)

/-- `pl_op_lookup_bucket` -/
def opLookupBucket : (opset argc : Nat) → List Nat
  | 0, 1 => [0]
  | 0, 3 => [1]
  | 0, 6 => [2]
  | 66, 1 =>
    [3, 6, 7, 38, 39, 40, 41, 42, 44, 45, 46, 52, 53, 54, 55, 56, 57, 58, 59, 60, 65, 71, 72, 74,
      75, 76, 77, 78, 79, 80, 81, 82, 83, 85, 86, 99, 100, 101, 103, 104, 130, 141]
  | 66, 2 =>
    [8, 9, 10, 11, 12, 13, 14, 31, 32, 33, 36, 37, 43, 47, 50, 64, 66, 69, 70, 73, 84, 87, 88,
      89, 92, 93, 94, 95, 96, 97, 98, 102, 133]
  | 66, 3 => [4, 15, 30, 34, 35, 48, 51, 61, 62, 63, 67, 68, 90, 91]
  | 66, 4 => [16, 49, 129]
  | 66, 5 => [17]
  | 66, 6 => [5, 18]
  | 66, 7 => [19]
  | 66, 8 => [20]
  | 66, 9 => [21]
  | 66, 10 => [22]
  | 66, 11 => [23]
  | 66, 12 => [24]
  | 66, 13 => [25]
  | 66, 14 => [26]
  | 66, 15 => [27]
  | 66, 16 => [28]
  | 66, 17 => [29]
  | 82, 1 => [105, 106, 107, 108, 110, 111, 112, 113, 114, 115, 118, 121, 122]
  | 82, 2 => [109, 116, 117, 119]
  | 82, 3 => [120, 123]
  | 83, 1 => [124, 126, 127, 128, 132, 134, 135, 136, 142, 144]
  | 83, 2 => [125, 137, 139, 140, 143]
  | 83, 3 => [138]
  | 83, 4 => [131]
  | _, _ => []

/-- Every bucket lists, in table order, the rows of its opset and argument
count: the assumption `pl_op_lookup` no longer checks. -/
theorem mem_opLookupBucket {opset argc idx : Nat} (h : idx ∈ opLookupBucket opset argc) :
    idx < plOps.length ∧ (plOp idx).opset = opset ∧ (plOp idx).argc = argc := by
  revert h idx
  unfold opLookupBucket
  split <;> first | decide +kernel | simp

namespace Mem

/-- `nat_name_eq`: same byte length and same bytes, so the same number, since
no name ends in a zero byte. -/
def natNameEq (m : Mem) (v : Word) (s : String) : Bool :=
  v.isNat && m.natOf v == OpDesc.mote s

/-- The test of one row in `pl_op_lookup`. -/
def nameMatches (m : Mem) (name : Word) (d : OpDesc) : Bool :=
  match d.nameC with
  | some s => m.natNameEq name s
  | none => name.isNat63 && d.name == name

/-- `pl_op_lookup`, with `-1` as `none`. -/
def opLookup (m : Mem) (opset : Nat) (name : Word) (argc : Nat) : Option Nat :=
  (opLookupBucket opset argc).find? fun i => m.nameMatches name (plOp i)

variable {m : Mem}

/-- The row found has the opset and argument count asked for. -/
theorem opLookup_some {opset argc idx : Nat} {name : Word}
    (h : m.opLookup opset name argc = some idx) :
    idx < plOps.length ∧ (plOp idx).opset = opset ∧ (plOp idx).argc = argc :=
  mem_opLookupBucket (List.mem_of_find?_eq_some h)

end Mem

end Enki
