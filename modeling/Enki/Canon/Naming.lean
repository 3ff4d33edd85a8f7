import Enki.Canon.Doc
import Mathlib.Data.List.Sort
import Mathlib.Data.Nat.Digits.Lemmas

/-!
# The names that the printer gives

The passes of `plan/src/canon.c` between extraction and layout. The names of laws are
reserved as they stand; every PIN that is referred to gets the tag of its law or a piece of
its hash, with a number behind it where that is taken; the variables of laws get the short names that
are left. A result `none` is where the source does not come to an end or an
assumption of it fails.
-/

namespace Enki.Canon

/-! ## Base 58 -/

/-- Multiply digits by 256 and add, the least significant first. -/
def base58Carry : List Nat → Nat → List Nat
  -- what is carried out at the top makes new digits
  | [], carry => Nat.digits 58 carry
  | d :: ds, carry => (carry + d * 256) % 58 :: base58Carry ds ((carry + d * 256) / 58)

def base58Alphabet : List UInt8 :=
  text "123456789ABCDEFGHJKLMNPQRSTUVWXYZabcdefghijkmnopqrstuvwxyz"

/-- `ax_base58` -/
def base58 (bs : List UInt8) : Name :=
  let digits := (bs.dropWhile (· == 0)).foldl (fun ds b => base58Carry ds b.toNat) []
  List.replicate (bs.takeWhile (· == 0)).length '1'.toUInt8 ++
    digits.reverse.map fun d => base58Alphabet.getD d 0

/-! ## Globals -/

/-- The PINs that are referred to, and the names of laws, in the order they are met. -/
structure Globals where
  pins : List PinRef := []
  used : List Name := []

mutual

/-- `cn_collect_doc` -/
def collectDoc (c : Globals) : Doc Ref → Globals
  | .num _ | .str _ | .liquid => c
  | .pin inner => collectDoc c inner
  | .ref (.pin p) => if p ∈ c.pins then c else { c with pins := c.pins ++ [p] }
  | .ref _ => c
  | .app head args => collectDocs (collectDoc c head) args
  | .law tag self _ lets body =>
    -- the name of a law is reserved before anything in it is looked at
    let c := if self ∈ c.used then c else { c with used := c.used ++ [self] }
    collectExpr (collectLets (collectDoc c tag) lets) body

def collectDocs (c : Globals) : List (Doc Ref) → Globals
  | [] => c
  | d :: ds => collectDocs (collectDoc c d) ds

def collectLets (c : Globals) : List (Ref × Expr Ref) → Globals
  | [] => c
  | (_, e) :: lets => collectLets (collectExpr c e) lets

/-- `cn_collect_expr` -/
def collectExpr (c : Globals) : Expr Ref → Globals
  | .var _ => c
  | .app f x => collectExpr (collectExpr c f) x
  | .const d | .esc d => collectDoc c d

end

/-! ## The names of PINs -/

/-- What `%d` prints. -/
def decimal (n : Nat) : Name :=
  if n = 0 then ['0'.toUInt8] else (Nat.digits 10 n).reverse.map fun d => UInt8.ofNat (48 + d)

theorem mem_decimal {n : Nat} {b : UInt8} (h : b ∈ decimal n) : 48 ≤ b.toNat ∧ b.toNat < 58 := by
  unfold decimal at h
  split at h
  · rw [List.mem_singleton.1 h]
    decide
  · obtain ⟨d, hd, rfl⟩ := List.mem_map.1 h
    have hlt := Nat.digits_lt_base (by decide) (List.mem_reverse.1 hd)
    rw [UInt8.toNat_ofNat']
    omega

theorem decimal_ne_nil (n : Nat) : decimal n ≠ [] := by
  unfold decimal
  split
  · exact List.cons_ne_nil _ _
  · rename_i hn
    simpa [Nat.digits_eq_nil_iff_eq_zero] using hn

/-- `snprintf(buf, sizeof(buf), "%s_%d", base, i)` with a buffer of 256 bytes. -/
def suffixed (base : Name) (i : Nat) : Name := (base ++ '_'.toUInt8 :: decimal i).take 255

/-- The loop of `cn_fresh_name` from `i` on, which ends before `int` overflows. -/
def suffixFrom (used : List Name) (base : Name) : (count i : Nat) → Option Name
  | 0, _ => none
  | count + 1, i =>
    let buf := suffixed base i
    if buf ∈ used then suffixFrom used base count (i + 1) else some buf

/-- How many `i` there are, from 2 to `INT_MAX`. -/
def suffixCount : Nat := 2 ^ 31 - 2

/-- `cn_fresh_name` -/
def freshName (used : List Name) (base : Name) : Option Name :=
  if base ∈ used then suffixFrom used base suffixCount 2 else some base

/-- `cn_hash_order` -/
def hashOrder (a b : PinRef) : Bool := decide (a.hash.bytes ≤ b.hash.bytes)

/-- `cn_global_order`, of PINs with their hints. -/
def globalOrder (a b : PinRef × Name) : Bool :=
  if a.2 = b.2 then hashOrder a.1 b.1 else decide (a.2 ≤ b.2)

/-- `<%.8s>` -/
def stub (p : PinRef) : Name := text "<" ++ (base58 p.hash.bytes).take 8 ++ text ">"

/-- The PINs with the names they are to have, in the order in which they get them: those
with a hint first. -/
def bases (pins : List PinRef) : List (PinRef × Name) :=
  -- by hint and then by hash; those without a hint by hash
  (pins.filterMap fun p => p.hint.map (p, ·)).mergeSort globalOrder ++
    ((pins.filter fun p => p.hint.isNone).mergeSort hashOrder).map fun p => (p, stub p)

/-- Names for PINs, and all names in use after that. -/
def nameEach (used : List Name) :
    List (PinRef × Name) → Option (List (PinRef × Name) × List Name)
  | [] => some ([], used)
  | (p, base) :: rest => do
    let name ← freshName used base
    let (names, used) ← nameEach (used ++ [name]) rest
    return ((p, name) :: names, used)

/-- `cn_assign_global_names` -/
def assignGlobalNames (c : Globals) : Option (List (PinRef × Name) × List Name) :=
  nameEach c.used (bases c.pins)

/-! ## The names of references to PINs -/

section

variable (names : List (PinRef × Name))

mutual

/-- `cn_resolve_doc` -/
def resolveDoc : Doc Ref → Option (Doc Ref)
  | .num n => some (.num n)
  | .str n => some (.str n)
  | .liquid => some .liquid
  | .pin inner => do return .pin (← resolveDoc inner)
  | .ref (.pin p) => do return .ref (.named (← names.lookup p))
  | .ref r => some (.ref r)
  | .app head args => do return .app (← resolveDoc head) (← resolveDocs args)
  | .law tag self args lets body => do
    return .law (← resolveDoc tag) self args (← resolveLets lets) (← resolveExpr body)

def resolveDocs : List (Doc Ref) → Option (List (Doc Ref))
  | [] => some []
  | d :: ds => do return (← resolveDoc d) :: (← resolveDocs ds)

def resolveLets : List (Ref × Expr Ref) → Option (List (Ref × Expr Ref))
  | [] => some []
  | (r, e) :: lets => do return (r, ← resolveExpr e) :: (← resolveLets lets)

/-- `cn_resolve_expr` -/
def resolveExpr : Expr Ref → Option (Expr Ref)
  | .var r => some (.var r)
  | .app f x => do return .app (← resolveExpr f) (← resolveExpr x)
  | .const d => do return .const (← resolveDoc d)
  | .esc d => do return .esc (← resolveDoc d)

end

end

/-! ## The names of variables -/

/-- `cn_gen_local`: a, b, …, z, aa, ab, … -/
def genLocal (i : Nat) : Name :=
  if i < 26 then [UInt8.ofNat (97 + i)]
  else genLocal (i / 26 - 1) ++ [UInt8.ofNat (97 + i % 26)]
termination_by i

/-- The loop of `cn_next_fresh`. -/
def nextFreshFrom (used : List Name) : (count nc : Nat) → Option (Name × Nat)
  | 0, _ => none
  | count + 1, nc =>
    if genLocal nc ∈ used then nextFreshFrom used count (nc + 1) else some (genLocal nc, nc + 1)

/-- `cn_next_fresh`, which has found a name after as many steps as there are names in use. -/
def nextFresh (used : List Name) (nc : Nat) : Option (Name × Nat) :=
  nextFreshFrom used (used.length + 1) nc

/-- `tbl`, the last entry first. -/
abbrev Table := List (Nat × Name)

section

variable (used : List Name)

/-- The names of the arguments of a law, or of its bindings. -/
def nameBinders (tbl : Table) (nc : Nat) : List Ref → Option (List Name × Table × Nat)
  | [] => some ([], tbl, nc)
  | .var i :: rs => do
    let (name, nc) ← nextFresh used nc
    let (names, tbl, nc) ← nameBinders ((i, name) :: tbl) nc rs
    return (name :: names, tbl, nc)
  | _ :: _ => none

mutual

/-- `cn_namevars_doc` -/
def namevarsDoc (nc : Nat) : Doc Ref → Option (Doc Name × Nat)
  | .num n => some (.num n, nc)
  | .str n => some (.str n, nc)
  | .liquid => some (.liquid, nc)
  | .pin inner => do
    let (inner, nc) ← namevarsDoc nc inner
    return (.pin inner, nc)
  | .ref (.named name) => some (.ref name, nc)
  | .ref _ => none
  | .app head args => do
    let (head, nc) ← namevarsDoc nc head
    let (args, nc) ← namevarsDocs nc args
    return (.app head args, nc)
  | .law tag self args lets body => do
    let (tag, nc) ← namevarsDoc nc tag
    -- every law has a table of its own, and its variable 0 is itself
    let (args, tbl, nc) ← nameBinders used [(0, self)] nc args
    -- all bindings are named before their right-hand sides are looked at
    let (binders, tbl, nc) ← nameBinders used tbl nc (lets.map Prod.fst)
    let (rhss, nc) ← namevarsLets tbl nc lets
    let (body, nc) ← namevarsExpr tbl nc body
    return (.law tag self args (binders.zip rhss) body, nc)

def namevarsDocs (nc : Nat) : List (Doc Ref) → Option (List (Doc Name) × Nat)
  | [] => some ([], nc)
  | d :: ds => do
    let (d, nc) ← namevarsDoc nc d
    let (ds, nc) ← namevarsDocs nc ds
    return (d :: ds, nc)

def namevarsLets (tbl : Table) (nc : Nat) : List (Ref × Expr Ref) → Option (List (Expr Name) × Nat)
  | [] => some ([], nc)
  | (_, e) :: lets => do
    let (e, nc) ← namevarsExpr tbl nc e
    let (es, nc) ← namevarsLets tbl nc lets
    return (e :: es, nc)

/-- `cn_namevars_expr` -/
def namevarsExpr (tbl : Table) (nc : Nat) : Expr Ref → Option (Expr Name × Nat)
  | .var (.var i) => do return (.var (← tbl.lookup i), nc)
  | .var (.named name) => some (.var name, nc)
  | .var (.pin _) => none
  | .app f x => do
    let (f, nc) ← namevarsExpr tbl nc f
    let (x, nc) ← namevarsExpr tbl nc x
    return (.app f x, nc)
  | .const d => do
    let (d, nc) ← namevarsDoc nc d
    return (.const d, nc)
  | .esc d => do
    let (d, nc) ← namevarsDoc nc d
    return (.esc d, nc)

end

end

/-- `cn_pipeline`, and the names of the PINs. -/
def pipeline (v : Value) : Option (List (PinRef × Name) × Doc Name) := do
  let doc := extract v
  let (names, used) ← assignGlobalNames (collectDoc {} doc)
  let doc ← resolveDoc names doc
  let (doc, _) ← namevarsDoc used 0 doc
  return (names, doc)

end Enki.Canon
