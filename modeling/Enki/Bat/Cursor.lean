import Enki.Silo.Format

/-!
# Byte trees and their cursor

`plan/src/bat.c` up to `pl_bat_read`, and the operators on byte trees in `plan/src/op.c`.
`pl_bat_open` turns a tree into a list of spans with a stack of tasks; a span is a part
of a natural, or a byte over and over (`source` is then 0). A length is a `uint64_t`
that is checked before it is added to, so it is a natural number here.
-/

namespace Enki.Bat

open LittleEndian Silo

/-- The natural with the bytes of a string, `ax_s3` and its like. -/
def tag (s : String) : Val := .nat (toNat s.toUTF8.toList)

/-- `bat_size` -/
def batSize : Val → Option Nat
  | .nat n => if n > uint64Max then none else some n
  | _ => none

/-- `pl_bat_span` -/
structure Span where
  source : Nat
  offset : Nat
  length : Nat
  byte : UInt8
  deriving DecidableEq

/-- `pl_bat_cursor` -/
structure Cursor where
  spans : List Span := []
  length : Nat := 0
  position : Nat := 0
  index : Nat := 0
  within : Nat := 0

/-- `bat_span` -/
def batSpan (c : Cursor) (source off len : Nat) (byte : UInt8) : Option Cursor :=
  if len = 0 then some c
  -- the sum would wrap
  else if len > uint64Max - c.length then none
  else some { c with spans := c.spans ++ [⟨source, off, len, byte⟩], length := c.length + len }

/-- `bat_task`: a node to lay out, or what is to be done once a node is (`finish`). -/
inductive Task where
  | node (v : Val)
  /-- 1: check wrapper length. -/
  | check (start length : Nat)
  /-- 2: crop a range. -/
  | crop (start offset length first : Nat)

/-- The natural that a text or a slice is about; it may be pinned. -/
def textSource : Val → Option Nat
  | .nat n => some n
  | .pin _ (.nat n) => some n
  | _ => none

/-- Bytes of a natural, and zeros past its end. -/
def layText (c : Cursor) (n off len : Nat) : Option Cursor := do
  let available := if off < byteLen n then byteLen n - off else 0
  let available := if available > len then len else available
  let c ← batSpan c n off available 0
  batSpan c 0 0 (len - available) 0

/-- What `pl_bat_open` does with a node: spans are added, or tasks are pushed, the first
one on top. -/
def openNode (c : Cursor) : Val → Option (Cursor × List Task)
  | .app _ (.nat 0) [f₀, f₁, f₂] =>
    if f₀ = tag "cat" then some (c, [.node f₁, .node f₂])
    else if f₀ = tag "bat" then
      -- the wrapped tree first, then its length is compared
      (batSize f₁).map fun len => (c, [.node f₂, .check c.length len])
    else if f₀ = tag "repeat" then
      match f₁ with
      | .nat n => do
        let len ← batSize f₂
        let c ← batSpan c 0 0 len (natByteAt n 0)
        return (c, [])
      | _ => none
    else none
  | .app _ (.nat 0) [f₀, f₁, f₂, f₃] =>
    if f₀ = tag "range" then do
      let len ← batSize f₃
      let off ← batSize f₂
      -- the whole tree is laid out, and cut down after that
      return (c, [.node f₁, .crop c.length off len c.spans.length])
    else if f₀ = tag "slice" then do
      let n ← textSource f₁
      let off ← batSize f₂
      let len ← batSize f₃
      let c ← layText c n off len
      return (c, [])
    else none
  | .app _ (.nat 0) [f₀, f₁] =>
    if f₀ = tag "text" then do
      let n ← textSource f₁
      let c ← layText c n 0 (byteLen n)
      return (c, [])
    else none
  | _ => none

/-- The loop that crops the spans of a range, in place in the source. -/
def cropSpans : Nat → Nat → List Span → List Span
  | _, _, [] => []
  | skip, remain, s :: spans =>
    if remain = 0 then []
    -- the span lies before the range
    else if skip ≥ s.length then cropSpans (skip - s.length) remain spans
    else
      let s := { s with offset := s.offset + skip, length := s.length - skip }
      let s := if s.length > remain then { s with length := remain } else s
      s :: cropSpans 0 (remain - s.length) spans

/-- How many bytes spans have. -/
def spansLength (spans : List Span) : Nat := (spans.map Span.length).sum

/-- Work for a task; a node has more than what it pushes. -/
noncomputable def Task.weight : Task → Nat
  | .node v => 2 * sizeOf v + 1
  | .check _ _ => 1
  | .crop _ _ _ _ => 1

/-- Work for the stack. -/
noncomputable def stackWeight (stack : List Task) : Nat := (stack.map Task.weight).sum

theorem openNode_weight {c c' : Cursor} {v : Val} {tasks : List Task}
    (h : openNode c v = some (c', tasks)) : stackWeight tasks < 2 * sizeOf v + 1 := by
  unfold openNode at h
  split at h
  · split_ifs at h
    · cases h
      simp [stackWeight, Task.weight]
      omega
    · obtain ⟨len, -, heq⟩ := Option.map_eq_some_iff.mp h
      cases heq
      simp [stackWeight, Task.weight]
      omega
    · split at h
      · obtain ⟨len, -, h⟩ := Option.bind_eq_some_iff.mp h
        obtain ⟨c₁, -, h⟩ := Option.bind_eq_some_iff.mp h
        cases h
        simp [stackWeight]
      · cases h
  · split_ifs at h
    · obtain ⟨len, -, h⟩ := Option.bind_eq_some_iff.mp h
      obtain ⟨off, -, h⟩ := Option.bind_eq_some_iff.mp h
      cases h
      simp [stackWeight, Task.weight]
      omega
    · obtain ⟨n, -, h⟩ := Option.bind_eq_some_iff.mp h
      obtain ⟨off, -, h⟩ := Option.bind_eq_some_iff.mp h
      obtain ⟨len, -, h⟩ := Option.bind_eq_some_iff.mp h
      obtain ⟨c₁, -, h⟩ := Option.bind_eq_some_iff.mp h
      cases h
      simp [stackWeight]
  · split_ifs at h
    obtain ⟨n, -, h⟩ := Option.bind_eq_some_iff.mp h
    obtain ⟨c₁, -, h⟩ := Option.bind_eq_some_iff.mp h
    cases h
    simp [stackWeight]
  · cases h

/-- The loop of `pl_bat_open`. -/
def openLoop (stack : List Task) (c : Cursor) : Option Cursor :=
  match stack with
  | [] => some c
  | .check start length :: stack =>
    if c.length - start ≠ length then none else openLoop stack c
  | .crop start offset length first :: stack =>
    let size := c.length - start
    -- the range must lie in what it is a range of
    if offset > size ∨ length > size - offset then none
    else
      let spans := cropSpans offset length (c.spans.drop first)
      openLoop stack
        { c with spans := c.spans.take first ++ spans, length := start + spansLength spans }
  | .node v :: stack =>
    match _h : openNode c v with
    | none => none
    | some (c, tasks) => openLoop (tasks ++ stack) c
termination_by stackWeight stack
decreasing_by
  · simp [stackWeight, Task.weight]
  · simp [stackWeight, Task.weight]
  · have := openNode_weight _h
    simp only [stackWeight, List.map_append, List.sum_append, List.map_cons, List.sum_cons,
      Task.weight] at this ⊢
    omega

/-- `pl_bat_open` -/
def batOpen (tree : Val) : Option Cursor := openLoop [.node tree] {}

/-! ## Reading -/

/-- The loop of `pl_bat_seek`: the span and the place in it. -/
def seekLoop : List Span → Nat → Nat → Nat × Nat
  | [], offset, index => (index, offset)
  | s :: spans, offset, index =>
    if offset ≥ s.length then seekLoop spans (offset - s.length) (index + 1) else (index, offset)

/-- `pl_bat_seek` -/
def seek (c : Cursor) (offset : Nat) : Option Cursor :=
  if offset > c.length then none
  else
    let (index, within) := seekLoop c.spans offset 0
    some { c with position := offset, index, within }

/-- Bytes of a span, from the `i`-th on. -/
def Span.bytes (s : Span) (i n : Nat) : List UInt8 :=
  if s.source = 0 then List.replicate n s.byte else natByteRange s.source (s.offset + i) n

/-- `pl_bat_read`: the bytes it stores. Where a span is not used up the output is full. -/
def read (c : Cursor) (size : Nat) : Cursor × List UInt8 :=
  if h : 0 < size ∧ c.index < c.spans.length then
    let s := c.spans[c.index]
    let remain := s.length - c.within
    let n := if remain < size then remain else size
    let out := s.bytes c.within n
    -- the span is used up, so on to the next one
    if c.within + n = s.length then
      let next := { c with position := c.position + n, index := c.index + 1, within := 0 }
      let (c, rest) := read next (size - n)
      (c, out ++ rest)
    else ({ c with position := c.position + n, within := c.within + n }, out)
  else (c, [])
termination_by c.spans.length - c.index

/-! ## Operators -/

/-- `op_strtree`: a natural, or an exception. -/
def opStrtree (v : Val) : Except String Nat :=
  match batOpen v with
  | none => .ok 0
  | some c =>
    if c.length > maxNatBytes then .error "StrTree: output too large"
    else .ok (toNat (read c c.length).2)

/-- The loop of `op_bateq`. Every round but the last reads a byte at least. -/
def eqLoop : Nat → Cursor → Cursor → Bool
  | 0, _, _ => true
  | fuel + 1, a, b =>
    let (a, x) := read a 16384
    if x.length = 0 then true
    else
      let (b, y) := read b x.length
      -- the spans of the other tree may be cut elsewhere
      if y.length = x.length ∧ x = y then eqLoop fuel a b else false

/-- `op_bateq` -/
def opBateq (v w : Val) : Bool :=
  match batOpen v with
  | none => false
  | some a =>
    match batOpen w with
    | none => false
    | some b => if a.length = b.length then eqLoop (a.length + 1) a b else false

/-- What `op_bathash` feeds to the hash, piece by piece. -/
def hashLoop : Nat → Cursor → List UInt8
  | 0, _ => []
  | fuel + 1, c =>
    let (c, x) := read c 16384
    if x.length = 0 then [] else x ++ hashLoop fuel c

/-- `op_bathash` -/
def opBathash (sha256 : List UInt8 → Hash) (v : Val) : Except String Nat :=
  match batOpen v with
  | none => .error "BatHash: malformed BAT"
  | some c => .ok (toNat ((sha256 (hashLoop (c.length + 1) c)).bytes ++ [1]))

end Enki.Bat
