import Enki.Value

/-!
# Words and the cells they point at

A `pl_val` (`plan/value.h`) is a 64-bit word: with bit 63 clear a direct
natural, otherwise a tag in the top byte and an address below it. Code that
looks at raw words, such as the bytecode decoder and the primop memo, is
modelled at this level. The store is a function from addresses to cells; a word
whose tag promises another kind of cell reads as nothing.
-/

namespace Enki

/-- A `pl_val` or `pl_op_t`. -/
abbrev Word := Nat

namespace Word

def tagNat : Nat := 0x80
def tagApp : Nat := 0x82
def tagLaw : Nat := 0x83
def tagPin : Nat := 0x84
def tagDefer : Nat := 0x86

/-- `pl_is_nat63` -/
def isNat63 (w : Word) : Bool := w < 2 ^ 63

/-- `pl_tag` -/
def tag (w : Word) : Nat := w / 2 ^ 56

/-- `pl_addr` -/
def addr (w : Word) : Nat := w % 2 ^ 56

/-- `pl_make` -/
def make (tag addr : Nat) : Word := tag * 2 ^ 56 + addr % 2 ^ 56

/-- `pl_is_whnf`: only the tag is looked at. -/
def isWhnf (w : Word) : Bool := w.tag ≠ tagDefer

/-- `pl_is_nat` -/
def isNat (w : Word) : Bool := w.tag ≤ tagNat

/-- A conversion to `uint32_t`. -/
def u32 (w : Word) : Nat := w % 2 ^ 32

theorem u32_of_lt {w : Word} (h : w < 2 ^ 32) : w.u32 = w := Nat.mod_eq_of_lt h

end Word

/-- The objects of `plan/value.h` that a decoder looks into. -/
inductive Cell where
  | nat (n : Nat)
  | app (head : Word) (args : List Word)
  | law (arity : Nat) (name body : Word)
  | pin (hash : Option Hash) (body : Word)
  | other

/-- What a decode can see of the world: the cells, and for a pin the strict
mask of the code installed on it or demanded from the store (`pl_pin_code`,
`pl_store_code_demand`), zero when there is none. Heads of applications nest
less than `headDepth` deep, and the size of a cell is a `uint32_t`, so that an
application has fewer than `2 ^ 32` arguments. -/
structure Mem where
  cell : Nat → Cell
  codeMask : Word → Nat
  headDepth : Nat
  args_lt : ∀ {a head args}, cell a = .app head args → args.length < 2 ^ 32

namespace Mem

variable (m : Mem)

/-- `pl_as(PL_TAG_APP, v)`: the arguments behind an application word. -/
def appArgs (v : Word) : Option (List Word) :=
  if v.tag = Word.tagApp then
    match m.cell v.addr with
    | .app _ args => some args
    | _ => none
  else none

theorem length_appArgs {v : Word} {args : List Word} (h : m.appArgs v = some args) :
    args.length < 2 ^ 32 := by
  unfold appArgs at h
  split at h
  · split at h
    · rename_i hcell
      obtain rfl := Option.some.inj h
      exact m.args_lt hcell
    · simp at h
  · simp at h

/-- `pl_app_head` -/
def appHead (v : Word) : Option Word :=
  if v.tag = Word.tagApp then
    match m.cell v.addr with
    | .app head _ => some head
    | _ => none
  else none

/-- The arity, name and body behind a `PL_TAG_LAW` word. -/
def law (v : Word) : Option (Nat × Word × Word) :=
  if v.tag = Word.tagLaw then
    match m.cell v.addr with
    | .law arity name body => some (arity, name, body)
    | _ => none
  else none

/-- The hash and body behind a `PL_TAG_PIN` word. -/
def pin (v : Word) : Option (Option Hash × Word) :=
  if v.tag = Word.tagPin then
    match m.cell v.addr with
    | .pin hash body => some (hash, body)
    | _ => none
  else none

/-- The number a natural word denotes. -/
def natOf (v : Word) : Nat :=
  if v.isNat63 then v else
    match m.cell v.addr with
    | .nat n => n
    | _ => 0

/-- `pl_nat_u64_clamp` -/
def natU64Clamp (v : Word) : Nat := min (m.natOf v) (2 ^ 64 - 1)

end Mem

end Enki
