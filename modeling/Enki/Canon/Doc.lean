import Enki.Lib.LittleEndian
import Enki.Value

/-!
# The documents of the printer

`plan/src/canon.c` prints a normal value by way of a tree (`Doc`) in which PINs and the
variables of laws are references. A pass of the printer is a function on documents:
`extract` makes them, and the passes after it give every reference its name.
-/

namespace Enki.Canon

open LittleEndian

/-- A string, without its NUL. -/
abbrev Name := List UInt8

scoped instance : LawfulBEq Name := inferInstanceAs (LawfulBEq (List UInt8))

/-- The bytes of an ASCII literal. -/
def text (s : String) : Name := s.toList.map Char.toUInt8

/-! ## Values -/

/-- What the printer reads of the body of a PIN: a natural, or the name of a law, if that
is a natural. -/
inductive PinBody where
  | nat (n : Nat)
  | law (name : Option Nat)
  | other

/-- A PIN is known by its address. -/
structure Pin where
  addr : Nat
  hash : Option Hash
  body : PinBody

/-- A normal value, to the printer. -/
inductive Value where
  | nat (n : Nat)
  | pin (p : Pin)
  | law (arity : Nat) (name body : Value)
  | app (head : Value) (args : List Value)

/-! ## Naturals as strings -/

/-- `pl_nat_byte_at`, for the whole natural. -/
def natBytes (n : Nat) : List UInt8 := bytes (byteLen n) n

/-- `cn_str_byte_ok` -/
def strByteOk (b : UInt8) : Bool :=
  if b = '\n'.toUInt8 then true
  else if b = '"'.toUInt8 then false
  else decide (0x20 ≤ b) && decide (b < 0x7f)

/-- `pl_nat_is_str`, and `cn_nat_is_str` -/
def natIsStr (n : Nat) : Bool :=
  match natBytes n with
  | [] => false
  | [b] =>
    decide ('a'.toUInt8 ≤ b ∧ b ≤ 'z'.toUInt8) || decide ('A'.toUInt8 ≤ b ∧ b ≤ 'Z'.toUInt8) ||
      b == '_'.toUInt8
  | bs => bs.all strByteOk

/-- `pl_nat_to_cstr`, `cn_tag_name` -/
def tagName (n : Nat) : Option Name := if natIsStr n then some (natBytes n) else none

/-! ## Documents -/

/-- A reference to a PIN, `CN_RPIN`. -/
structure PinRef where
  pin : Nat
  hash : Hash
  hint : Option Name
  deriving DecidableEq

/-- `cn_ref`: a PIN, a variable of a law, or a name. -/
inductive Ref where
  | pin (p : PinRef)
  | var (i : Nat)
  | named (name : Name)

mutual

/-- `cn_doc`, with references `ρ`. A law has its tag, its own name, its arguments, its
bindings and its body. -/
inductive Doc (ρ : Type) where
  | num (n : Nat)
  | str (n : Nat)
  | ref (r : ρ)
  | pin (inner : Doc ρ)
  | liquid
  | law (tag : Doc ρ) (self : Name) (args : List ρ) (lets : List (ρ × Expr ρ)) (body : Expr ρ)
  | app (head : Doc ρ) (args : List (Doc ρ))

/-- `cn_expr` -/
inductive Expr (ρ : Type) where
  | var (r : ρ)
  | const (doc : Doc ρ)
  | app (f x : Expr ρ)
  | esc (doc : Doc ρ)

end

/-! ## Extraction -/

/-- `cn_extract` of a natural. -/
def natDoc (n : Nat) : Doc Ref := if natIsStr n then .str n else .num n

/-- `cn_extract` of a PIN. -/
def pinDoc (p : Pin) : Doc Ref :=
  match p.hash, p.body with
  | none, _ => .liquid
  | some _, .nat n => .pin (natDoc n)
  | some h, .law name => .ref (.pin ⟨p.addr, h, name.bind tagName⟩)
  | some h, .other => .ref (.pin ⟨p.addr, h, none⟩)

/-- The name of a law, by its tag. -/
def selfName : Value → Name
  | .nat n => (tagName n).getD (text "self")
  | _ => text "self"

/-- How many bindings the body of a law begins with. -/
def countLets : Value → Nat
  | .app (.nat 1) [_, k] => countLets k + 1
  | _ => 0

mutual

/-- `cn_extract`, and `cn_extract_law` -/
def extract : Value → Doc Ref
  | .nat n => natDoc n
  | .pin p => pinDoc p
  | .law arity name body =>
    let maxref := arity + countLets body
    let (lets, body) := extractLets (selfName name) maxref (arity + 1) body
    .law (extract name) (selfName name) ((List.range' 1 arity).map .var) lets body
  | .app head args => .app (extract head) (extractArgs args)
termination_by v => (sizeOf v, 0)

def extractArgs : List Value → List (Doc Ref)
  | [] => []
  | v :: vs => extract v :: extractArgs vs
termination_by vs => (sizeOf vs, 0)

/-- The bindings of a law from number `i` on, and its body. -/
def extractLets (self : Name) (maxref i : Nat) : Value → List (Ref × Expr Ref) × Expr Ref
  | .app (.nat 1) [v, k] =>
    let (lets, body) := extractLets self maxref (i + 1) k
    ((.var i, extractExpr self maxref v) :: lets, body)
  | v => ([], extractExpr self maxref v)
termination_by v => (sizeOf v, 2)

/-- `cn_extract_expr`: applications by 0 are those of the law, and a 0 applied to one value
quotes it. -/
def extractExpr (self : Name) (maxref : Nat) : Value → Expr Ref
  | .app (.nat 0) [f, x] => .app (extractExpr self maxref f) (extractExpr self maxref x)
  | .app (.nat 0) [x] => .const (extract x)
  | .nat n =>
    if n < 2 ^ 63 ∧ n ≤ maxref then .var (if n = 0 then .named self else .var n) else .esc (natDoc n)
  | v => .esc (extract v)
termination_by v => (sizeOf v, 1)

end

end Enki.Canon
