import Mathlib.Algebra.Ring.Nat
import Mathlib.Data.List.Induction

/-!
# PLAN values in normal form

The tree a normal-form `pl_val` denotes (`plan/value.h`): naturals, pins, laws
and applications. Direct and boxed naturals denote the same number, so both are
`Val.nat`. An application carries the `need` cached in its header, because the
codec reads and recomputes it. `arity` and `needAfter` are `pl_arity` and
`pl_need_after` of `plan/build.h`.
-/

namespace Enki

/-- `pl_hash`: a 32-byte content hash. -/
structure Hash where
  bytes : List UInt8
  length_eq : bytes.length = 32
  deriving DecidableEq

/-- The hash in the first 32 bytes of a buffer. -/
def Hash.ofBytes (b : List UInt8) : Hash :=
  ⟨(b ++ List.replicate 32 0).take 32, by simp⟩

theorem Hash.ofBytes_bytes (h : Hash) : Hash.ofBytes h.bytes = h := by
  obtain ⟨b, hb⟩ := h
  simp [Hash.ofBytes, ← hb]

theorem Hash.bytes_ofBytes {b : List UInt8} (hb : b.length = 32) : (Hash.ofBytes b).bytes = b := by
  simp [Hash.ofBytes, ← hb]

/-- Normal-form PLAN values. A pin without a hash is provisional. -/
inductive Val where
  | nat (n : Nat)
  | pin (hash : Option Hash) (body : Val)
  | law (arity : Nat) (name body : Val)
  | app (need : Nat) (head : Val) (args : List Val)

namespace Val

mutual

/-- Structural equality is decidable. -/
def decEq : (a b : Val) → Decidable (a = b)
  | nat n, nat m => decidable_of_iff (n = m) (by simp)
  | pin h b, pin h' b' =>
    have := decEq b b'
    decidable_of_iff (h = h' ∧ b = b') (by simp)
  | law a n b, law a' n' b' =>
    have := decEq n n'
    have := decEq b b'
    decidable_of_iff (a = a' ∧ n = n' ∧ b = b') (by simp)
  | app k h as, app k' h' as' =>
    have := decEq h h'
    have := decEqList as as'
    decidable_of_iff (k = k' ∧ h = h' ∧ as = as') (by simp)
  | nat _, pin _ _ | nat _, law _ _ _ | nat _, app _ _ _
  | pin _ _, nat _ | pin _ _, law _ _ _ | pin _ _, app _ _ _
  | law _ _ _, nat _ | law _ _ _, pin _ _ | law _ _ _, app _ _ _
  | app _ _ _, nat _ | app _ _ _, pin _ _ | app _ _ _, law _ _ _ =>
    isFalse (by simp)

/-- Structural equality of argument lists is decidable. -/
def decEqList : (as bs : List Val) → Decidable (as = bs)
  | [], [] => isTrue rfl
  | a :: as, b :: bs =>
    have := decEq a b
    have := decEqList as bs
    decidable_of_iff (a = b ∧ as = bs) (by simp)
  | [], _ :: _ | _ :: _, [] => isFalse (by simp)

end

instance : DecidableEq Val := decEq

/-- `PL_TAG_APP`. -/
def isApp : Val → Bool
  | app _ _ _ => true
  | _ => false

/-- `PL_TAG_PIN`. -/
def isPin : Val → Bool
  | pin _ _ => true
  | _ => false

/-- `pl_arity`: a pin counts as the law it pins, and as 1 otherwise. -/
def arity : Val → Nat
  | nat _ => 0
  | law a _ _ => a
  | pin _ (law a _ _) => a
  | pin _ _ => 1
  | app need _ _ => need

/-- `pl_need_after`: arguments missing once `n` are supplied. -/
def needAfter (head : Val) (n : Nat) : Nat :=
  if head.arity = 0 ∨ head.arity ≤ n then 0 else head.arity - n

/-- `pl_pin_hash`: the hash of a pin, `NULL` for anything provisional. -/
def pinHash : Val → Option Hash
  | pin h _ => h
  | _ => none

mutual

/-- The pins occurring directly in a value (not inside other pins), head or
name first, then left to right, repetitions included. -/
def directPins : Val → List Val
  | nat _ => []
  | pin h b => [pin h b]
  | law _ n b => directPins n ++ directPins b
  | app _ h as => directPins h ++ directPinsList as

/-- `directPins` of an argument list. -/
def directPinsList : List Val → List Val
  | [] => []
  | a :: as => directPins a ++ directPinsList as

end

end Val

/-- First occurrences, in order. -/
def firstOccurrences {α : Type} [DecidableEq α] (l : List α) : List α :=
  l.foldl (fun acc x => if x ∈ acc then acc else acc ++ [x]) []

section FirstOccurrences

variable {α : Type} [DecidableEq α]

theorem firstOccurrences_concat (l : List α) (x : α) :
    firstOccurrences (l ++ [x]) =
      if x ∈ firstOccurrences l then firstOccurrences l else firstOccurrences l ++ [x] := by
  rw [firstOccurrences, List.foldl_append]
  rfl

theorem firstOccurrences_le_append (l m : List α) :
    firstOccurrences l <+: firstOccurrences (l ++ m) := by
  induction m using List.reverseRecOn with
  | nil => simp
  | append_singleton m x ih =>
    rw [← List.append_assoc, firstOccurrences_concat]
    split
    · exact ih
    · exact ih.trans (List.prefix_append _ _)

end FirstOccurrences

end Enki
