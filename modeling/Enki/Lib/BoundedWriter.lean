import Enki.Lib.ExceptState

/-!
# Byte writers with a length limit

A writer appends to the bytes written so far and fails once they would exceed
`limit`. `Emits x out a` pins a writer down completely: it appends exactly
`out` and returns `a`, unless that overflows.
-/

namespace BoundedWriter

open ExceptState

variable {α β : Type}

/-- Writers over the bytes written so far. -/
abbrev ByteWriter := StateT (List UInt8) (Except String)

/-- Append `bs`, or fail with `msg` past `limit` bytes. -/
def write (limit : Nat) (msg : String) (bs : List UInt8) : ByteWriter Unit := fun w =>
  if bs.length > limit - w.length then .error msg else .ok ((), w ++ bs)

variable (limit : Nat) (msg : String)

/-- `x` appends exactly `out` and returns `a`, or overflows. -/
def Emits (x : ByteWriter α) (out : List UInt8) (a : α) : Prop :=
  ∀ w, w.length ≤ limit →
    x w = if w.length + out.length ≤ limit then .ok (a, w ++ out) else .error msg

variable {limit msg}

theorem Emits.write (bs : List UInt8) : Emits limit msg (write limit msg bs) bs () := by
  intro w hw
  unfold BoundedWriter.write
  by_cases h : w.length + bs.length ≤ limit
  · rw [if_pos h, if_neg (by omega)]
  · rw [if_neg h, if_pos (by omega)]

theorem Emits.pure (a : α) : Emits limit msg (pure a : ByteWriter α) [] a := by
  intro w hw
  simp [hw]

theorem Emits.bind {x : ByteWriter α} {f : α → ByteWriter β} {o₁ o₂ : List UInt8} {a : α} {b : β}
    (hx : Emits limit msg x o₁ a) (hf : Emits limit msg (f a) o₂ b) :
    Emits limit msg (x >>= f) (o₁ ++ o₂) b := by
  intro w hw
  by_cases h₁ : w.length + o₁.length ≤ limit
  · have hxw := hx w hw
    rw [if_pos h₁] at hxw
    rw [run_bind_eq hxw, hf (w ++ o₁) (by simpa using h₁)]
    simp only [List.length_append, List.append_assoc, Nat.add_assoc]
  · have hxw := hx w hw
    rw [if_neg h₁] at hxw
    rw [run_bind_error hxw, if_neg (by rw [List.length_append]; omega)]

/-- A successful run appends the emitted bytes. -/
theorem Emits.run {x : ByteWriter α} {out w w' : List UInt8} {a b : α}
    (hx : Emits limit msg x out a) (hw : w.length ≤ limit) (h : x w = .ok (b, w')) :
    b = a ∧ w' = w ++ out ∧ w'.length ≤ limit := by
  rw [hx w hw] at h
  split at h
  · next hfit =>
    cases h
    exact ⟨rfl, rfl, by simpa using hfit⟩
  · cases h

/-- A run that fits succeeds. -/
theorem Emits.run_of_fits {x : ByteWriter α} {out w : List UInt8} {a : α}
    (hx : Emits limit msg x out a) (h : w.length + out.length ≤ limit) :
    x w = .ok (a, w ++ out) := by
  rw [hx w (by omega), if_pos h]

end BoundedWriter
