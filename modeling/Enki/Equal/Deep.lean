import Enki.Bignum.Arith
import Enki.Value

/-!
# Structural equality

`pl_eq_deep` of `plan/src/op.c`: the comparison behind `Equal`. It works on a stack
of pairs instead of by recursion. A pair of pins of which one is hashed leaves a
marker below the pair of their bodies; when the marker comes up the bodies were
equal, and the proxy is published: from then on it points to the canonical pin.

A pin is a proxy, with a body and perhaps a target, or canonical, with a hash and a
body. Values are words with a tag, and the object behind a pointer is in the heap.
Loops are bounded by a number of rounds; running out is an error without a reason.
-/

namespace Enki.Equal

open Bignum

/-- Addresses of heap and store objects. -/
abbrev Addr := Nat

/-- `PL_TAG_NAT`, `PL_TAG_APP` and so on. -/
inductive Tag where
  | nat | app | law | pin | env | defer
  deriving DecidableEq

/-- `pl_val` -/
inductive Ref where
  | direct (w : UInt64)
  | ptr (tag : Tag) (a : Addr)
  deriving DecidableEq

/-- An object. Thunks and environments are `other`: normal forms have none. -/
inductive Cell where
  | nat (limbs : List UInt64)
  | app (head : Ref) (args : List Ref)
  | law (arity : UInt64) (name body : Ref)
  | proxy (body : Ref) (target : Option Ref)
  | canonical (hash : Hash) (body : Ref)
  | ind (target : Ref)
  | other

/-- The objects behind pointers. -/
abbrev Heap := Addr → Cell

/-- `pl_eq_pair` -/
structure Pair where
  a : Ref
  b : Ref
  publish : Bool

namespace Ref

/-- `pl_is_nat63` -/
def isDirect : Ref → Bool
  | .direct _ => true
  | .ptr _ _ => false

/-- `pl_is_nat` -/
def isNat : Ref → Bool
  | .direct _ => true
  | .ptr tag _ => tag == .nat

/-- `pl_tag`; a direct natural has its own. -/
def tag : Ref → Tag
  | .direct _ => .nat
  | .ptr tag _ => tag

end Ref

section

variable (h : Heap)

/-- `pl_resolve`, at most `rounds` indirections. -/
def resolve : Nat → Ref → Option Ref
  | 0, _ => none
  | rounds + 1, .ptr .defer a =>
    match h a with
    | .ind v => resolve rounds v
    | _ => some (.ptr .defer a)
  | _ + 1, v => some v

/-- The natural a value is. -/
def natVal : Ref → NatVal
  | .direct w => .direct w
  | .ptr _ a =>
    match h a with
    | .nat ls => .boxed ls
    | _ => .boxed []

/-- `pl_pin_proxy_target` -/
def pinProxyTarget : Ref → Option Ref
  | .direct _ => none
  | .ptr _ a =>
    match h a with
    | .proxy _ target => target
    | _ => none

/-- `pl_eq_resolve_pin` -/
def eqResolvePin (v : Ref) : Ref := (pinProxyTarget h v).getD v

/-- `pl_pin_hash` -/
def pinHash (v : Ref) : Option Hash :=
  match eqResolvePin h v with
  | .direct _ => none
  | .ptr _ a =>
    match h a with
    | .canonical hash _ => some hash
    | _ => none

/-- `pl_pin_body` -/
def pinBody (v : Ref) : Ref :=
  match eqResolvePin h v with
  | .direct w => .direct w
  | .ptr tag a =>
    match h a with
    | .canonical _ body => body
    | .proxy body _ => body
    | _ => .ptr tag a

/-- Whether a value is a canonical pin, as `pl_pin_set_target` demands. -/
def isCanonical : Ref → Bool
  | .ptr .pin a =>
    match h a with
    | .canonical _ _ => true
    | _ => false
  | _ => false

/-- `pl_eq_publish` with `pl_pin_set_target`. `owns` is `pl_store_owns`; without a store
nothing is published. -/
def eqPublish (owns : Option (Ref → Bool)) (proxy target : Ref) : Except Stop Heap :=
  let target := eqResolvePin h target
  match owns, proxy with
  | some owns, .ptr _ a =>
    -- only a target of the store stays where it is
    if owns target then
      match h a with
      | .proxy body none =>
        if isCanonical h target then .ok (Function.update h a (.proxy body (some target)))
        else .error (.assume "PIN proxy target is not canonical")
      -- it has a target already
      | _ => .ok h
    else .ok h
  | _, _ => .ok h

end

section

variable (m : Mpn) (owns : Option (Ref → Bool))

/-- The pin case of `pl_eq_deep`: what is pushed, or `none` if the pins differ. -/
def eqPins (h : Heap) (a b : Ref) : Option (List Pair) :=
  let a := eqResolvePin h a
  let b := eqResolvePin h b
  if a = b then some []
  else match pinHash h a, pinHash h b with
    -- two hashed pins are told apart by their hashes, their bodies are not looked at
    | some x, some y => if x = y then some [] else none
    -- the proxy is the first of the marker, the hashed one its target
    | none, some _ => some [⟨pinBody h a, pinBody h b, false⟩, ⟨a, b, true⟩]
    | some _, none => some [⟨pinBody h a, pinBody h b, false⟩, ⟨b, a, true⟩]
    | none, none => some [⟨pinBody h a, pinBody h b, false⟩]

/-- Compare two values that are no naturals and have one tag. -/
def eqObjects (h : Heap) (a b : Ref) : Option (List Pair) :=
  match a, b with
  | .ptr .pin _, .ptr _ _ => eqPins h a b
  | .ptr _ x, .ptr _ y =>
    match h x, h y with
    | .law arity name body, .law arity' name' body' =>
      if arity ≠ arity' then none else some [⟨name, name', false⟩, ⟨body, body', false⟩]
    | .app head args, .app head' args' =>
      if args.length ≠ args'.length then none
      else some (⟨head, head', false⟩ :: List.zipWith (fun x y => ⟨x, y, false⟩) args args')
    | _, _ => none
  | _, _ => none

/-- One comparison: `none` if the values differ here, else the pairs that are pushed, the
top of the stack first. -/
def eqPair (h : Heap) (a b : Ref) : Except Stop (Option (List Pair)) :=
  if a = b then .ok (some [])
  else if a.isNat && b.isNat then do
    let same ← eq m (natVal h a) (natVal h b)
    return if same then some [] else none
  else if a.isDirect || b.isDirect || a.tag != b.tag then .ok none
  else .ok (eqObjects h a b)

/-- The loop of `pl_eq_deep`. -/
def eqLoop (rounds : Nat) : Nat → Heap → List Pair → Except (Option Stop) (Bool × Heap)
  | _, h, [] => .ok (true, h)
  | 0, _, _ :: _ => .error none
  | n + 1, h, p :: rest =>
    -- a marker: everything above it was equal
    if p.publish then
      match eqPublish h owns p.a p.b with
      | .error e => .error (some e)
      | .ok h => eqLoop rounds n h rest
    else
      match resolve h rounds p.a, resolve h rounds p.b with
      | some a, some b =>
        match eqPair m h a b with
        | .error e => .error (some e)
        | .ok none => .ok (false, h)
        | .ok (some pushed) => eqLoop rounds n h (pushed ++ rest)
      | _, _ => .error none

/-- `pl_eq_deep`, with as many rounds of each loop. -/
def eqDeep (rounds : Nat) (h : Heap) (a b : Ref) : Except (Option Stop) (Bool × Heap) :=
  eqLoop m owns rounds rounds h [⟨a, b, false⟩]

end

end Enki.Equal
