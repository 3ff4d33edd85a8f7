import Enki.Cheney.Heap
import Mathlib.Algebra.Order.BigOperators.Group.List
import Mathlib.Data.List.Perm.Subperm

/-!
# The graph of a heap

What a collection must preserve: the objects that can be reached, with their headers,
their data and their references. References go through indirections, and the body of
a resolved proxy is not one. `Iso` relates the graph before to the graph after.
-/

namespace Enki.Cheney

/-! ## Values and what they stand for -/

/-- What a value stands for: itself, or an object of the heap. -/
inductive Target where
  | imm (v : Nat)
  | obj (p : Nat)

/-- Follow indirections. -/
def resolve (owns : Nat → Bool) (mem : Mem) : Nat → Nat → Option Target
  | 0, _ => none
  | n + 1, v =>
    if isNat63 v = true ∨ owns (ptr v) = true then some (.imm v)
    else if hdrKind (mem (ptr v)) = some .ind then resolve owns mem n (mem (ptr v + 1))
    else some (.obj (ptr v))

def Resolves (owns : Nat → Bool) (mem : Mem) (v : Nat) (t : Target) : Prop :=
  ∃ n, resolve owns mem n v = some t

theorem resolve_succ (owns : Nat → Bool) (mem : Mem) (n v : Nat) :
    resolve owns mem (n + 1) v =
      if isNat63 v = true ∨ owns (ptr v) = true then some (.imm v)
      else if hdrKind (mem (ptr v)) = some .ind then resolve owns mem n (mem (ptr v + 1))
      else some (.obj (ptr v)) :=
  rfl

theorem resolve_mono {owns : Nat → Bool} {mem : Mem} {n m v : Nat} {t : Target} (hle : n ≤ m)
    (h : resolve owns mem n v = some t) : resolve owns mem m v = some t := by
  induction n generalizing m v with
  | zero => cases h
  | succ n ih =>
    obtain ⟨m, rfl⟩ : ∃ k, m = k + 1 := ⟨m - 1, by omega⟩
    rw [resolve_succ] at h ⊢
    split at h
    · rename_i himm
      rwa [if_pos himm]
    · rename_i himm
      rw [if_neg himm]
      split at h
      · rename_i hind
        rw [if_pos hind]
        exact ih (by omega) h
      · rename_i hind
        rwa [if_neg hind]

theorem Resolves.unique {owns : Nat → Bool} {mem : Mem} {v : Nat} {t t' : Target}
    (h : Resolves owns mem v t) (h' : Resolves owns mem v t') : t = t' := by
  obtain ⟨n, h⟩ := h
  obtain ⟨m, h'⟩ := h'
  have := (resolve_mono (Nat.le_max_left n m) h).symm.trans (resolve_mono (Nat.le_max_right n m) h')
  exact Option.some.inj this

theorem resolves_imm {owns : Nat → Bool} {mem : Mem} {v : Nat}
    (h : isNat63 v = true ∨ owns (ptr v) = true) : Resolves owns mem v (.imm v) :=
  ⟨1, by rw [resolve_succ, if_pos h]⟩

theorem resolves_obj {owns : Nat → Bool} {mem : Mem} {v : Nat}
    (h : ¬(isNat63 v = true ∨ owns (ptr v) = true)) (hind : hdrKind (mem (ptr v)) ≠ some .ind) :
    Resolves owns mem v (.obj (ptr v)) :=
  ⟨1, by rw [resolve_succ, if_neg h, if_neg hind]⟩

theorem resolve_imm {owns : Nat → Bool} {mem : Mem} {n v u : Nat}
    (h : resolve owns mem n v = some (.imm u)) : isNat63 u = true ∨ owns (ptr u) = true := by
  induction n generalizing v with
  | zero => cases h
  | succ n ih =>
    rw [resolve_succ] at h
    split at h
    · rename_i himm
      cases h
      exact himm
    · split at h
      · exact ih h
      · cases h

/-! ## Objects -/

/-- What a collection does with a cell of an object. -/
inductive Field where
  | raw
  | traced
  | dropped
  deriving DecidableEq

def field (mem : Mem) (p i : Nat) : Field :=
  match hdrKind (mem p) with
  | some .app | some .env => if 1 ≤ i then .traced else .raw
  | some .law => if i = 2 ∨ i = 3 then .traced else .raw
  | some .thunk => if i = 1 ∨ i = 2 then .traced else .raw
  | some .thke => if 2 ≤ i then .traced else .raw
  | some .ind | some .bh => if i = 1 then .traced else .raw
  | some .pin => if i = 5 then if mem (p + 6) = 0 then .traced else .dropped else .raw
  | some .nat | some .fwd | none => .raw

/-- The size of an object. -/
def cellsAt (mem : Mem) (p : Nat) : Nat := hdrCells (mem p)

/-- The objects that can be reached. -/
inductive Reach (owns : Nat → Bool) (mem : Mem) (roots : List Nat) : Nat → Prop where
  | root {v p} : v ∈ roots → Resolves owns mem v (.obj p) → Reach owns mem roots p
  | field {p i q} : Reach owns mem roots p → i < cellsAt mem p → field mem p i = .traced →
      Resolves owns mem (mem (p + i)) (.obj q) → Reach owns mem roots q

/-- The values in the slots of a thread. -/
def Thread.values (t : Thread) : List Nat :=
  t.vstack ++ t.ustack ++ t.frames.flatMap (fun f => [f.a, f.b]) ++
    [t.exn, t.resumeVal, t.blockedOn, t.result] ++ t.zones

def Source.values : Source → List Nat
  | .thread t => t.values
  | .slots vs => vs

def rootValues (sources : List Source) : List Nat := sources.flatMap Source.values

/-- Threads whose slots are related one by one. -/
structure Thread.Rel (R : Nat → Nat → Prop) (t t' : Thread) : Prop where
  vstack : List.Forall₂ R t.vstack t'.vstack
  ustack : List.Forall₂ R t.ustack t'.ustack
  frames : List.Forall₂ (fun f f' => R f.a f'.a ∧ R f.b f'.b) t.frames t'.frames
  exn : R t.exn t'.exn
  resumeVal : R t.resumeVal t'.resumeVal
  blockedOn : R t.blockedOn t'.blockedOn
  result : R t.result t'.result
  zones : List.Forall₂ R t.zones t'.zones

inductive Source.Rel (R : Nat → Nat → Prop) : Source → Source → Prop where
  | thread {t t'} : t.Rel R t' → Source.Rel R (.thread t) (.thread t')
  | slots {vs vs'} : List.Forall₂ R vs vs' → Source.Rel R (.slots vs) (.slots vs')

/-- The value that stands for the same in the new heap. -/
def Target.value (mem : Mem) (φ : Nat → Nat) : Target → Nat
  | .imm v => v
  | .obj p => make (tagForKind (hdrKind (mem p))) (φ p)

/-- The value stands for the same as before, without indirections. -/
def Same (owns : Nat → Bool) (mem : Mem) (φ : Nat → Nat) (v v' : Nat) : Prop :=
  ∃ t, Resolves owns mem v t ∧ v' = t.value mem φ

/-- The cell of an object after the collection. -/
def SameCell (owns : Nat → Bool) (mem : Mem) (φ : Nat → Nat) (p i w : Nat) : Prop :=
  match field mem p i with
  | .raw => w = mem (p + i)
  | .traced => Same owns mem φ (mem (p + i)) w
  | .dropped => w = 0

/-- The graph reachable before is isomorphic to the graph reachable after: `φ` says where
each object went. -/
structure Iso (owns : Nat → Bool) (mem : Mem) (sources : List Source) (mem' : Mem)
    (sources' : List Source) (φ : Nat → Nat) : Prop where
  injective : ∀ p q, Reach owns mem (rootValues sources) p → Reach owns mem (rootValues sources) q →
    φ p = φ q → p = q
  reach : ∀ q, Reach owns mem' (rootValues sources') q ↔
    ∃ p, Reach owns mem (rootValues sources) p ∧ φ p = q
  place : ∀ p, Reach owns mem (rootValues sources) p → φ p < 2 ^ 53 ∧ owns (φ p) = false
  roots : List.Forall₂ (Source.Rel (Same owns mem φ)) sources sources'
  header : ∀ p, Reach owns mem (rootValues sources) p → mem' (φ p) = mem p
  cells : ∀ p, Reach owns mem (rootValues sources) p → ∀ i < cellsAt mem p,
    SameCell owns mem φ p i (mem' (φ p + i))

/-! ## Well-formed heaps -/

/-- A value of the heap. -/
def Valid (owns : Nat → Bool) (mem : Mem) (objs : List Nat) (v : Nat) : Prop :=
  isNat63 v = true ∨ owns (ptr v) = true ∨
    ∃ p ∈ objs, v = make (tagForKind (hdrKind (mem p))) p

/-- The objects lie one after another. -/
inductive Tiles (mem : Mem) : Nat → List Nat → Nat → Prop where
  | nil {a} : Tiles mem a [] a
  | cons {a l b} : Tiles mem (a + cellsAt mem a) l b → Tiles mem a (a :: l) b

/-- An object as the builders make it and the evaluator leaves it. -/
structure ObjOK (owns : Nat → Bool) (mem : Mem) (objs : List Nat) (p : Nat) : Prop where
  kind : ∃ k, hdrKind (mem p) = some k ∧ k ≠ .fwd
  cells : 2 ≤ cellsAt mem p
  law : hdrKind (mem p) = some .law → 4 ≤ cellsAt mem p
  thunk : hdrKind (mem p) = some .thunk → 3 ≤ cellsAt mem p
  pin : hdrKind (mem p) = some .pin → isProxy (mem p) = true ∧ hdrMeta (mem p) = 0 ∧
    cellsAt mem p = proxyCells ∧ (mem (p + 6) = 0 ∨
      owns (ptr (mem (p + 6))) = true ∧ canonical mem (mem (p + 6)) = true)
  values : ∀ i < cellsAt mem p, field mem p i = .traced → Valid owns mem objs (mem (p + i))

/-- The cells from `start` to `free` hold objects whose references are to each other or to
the store, and every chain of indirections ends. -/
structure WF (owns : Nat → Bool) (mem : Mem) (start : Nat) (objs : List Nat) (free : Nat) :
    Prop where
  tiles : Tiles mem start objs free
  ok : ∀ p ∈ objs, ObjOK owns mem objs p
  chains : ∀ v, Valid owns mem objs v → ∃ t, Resolves owns mem v t
  bound : free ≤ 2 ^ 53
  notOwned : ∀ a, start ≤ a → a < free → owns a = false

end Enki.Cheney
