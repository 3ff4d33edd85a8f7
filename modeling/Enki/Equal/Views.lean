import Enki.Bignum.Exact
import Enki.Equal.Deep
import Mathlib.Data.List.Forall2

/-!
# Structural equality: what a value denotes

The tree of a normal form (`Views`), pins without their representation: a proxy with a
target denotes what the target does. `Published` says that a heap differs from another
only by targets, each of a pin whose body denotes the same tree as the proxy's.
Denotations do not depend on that (`Published.views_iff`).
-/

namespace Enki.Equal

open Bignum NatVal

/-- Normal forms up to the representation of pins and naturals. -/
inductive Tree where
  | nat (n : Nat)
  | pin (body : Tree)
  | law (arity : UInt64) (name body : Tree)
  | app (head : Tree) (args : List Tree)

instance : DecidablePred NatVal.Canonical := fun v =>
  match v with
  | .direct w => inferInstanceAs (Decidable (w ≤ nat63Max))
  | .boxed ls =>
    inferInstanceAs (Decidable (ls.getLast? ≠ some 0 ∧ 2 ^ 63 ≤ Limbs.toNat ls ∧ ls.length < limbMax))

/-- The tree of an object whose parts are seen by `sub`. -/
def viewCell (h : Heap) (sub : Ref → Option Tree) : Tag → Cell → Option Tree
  | .nat, .nat ls => if (NatVal.boxed ls).Canonical then some (.nat (Limbs.toNat ls)) else none
  | .app, .app head args => do
    let t ← sub head
    let ts ← args.mapM sub
    return .app t ts
  | .law, .law arity name body => do
    let t ← sub name
    let u ← sub body
    return .law arity t u
  | .pin, .proxy body none => (sub body).map .pin
  | .pin, .proxy _ (some (.ptr .pin c)) =>
    match h c with
    | .canonical _ body => (sub body).map .pin
    | _ => none
  | .pin, .canonical _ body => (sub body).map .pin
  | .defer, .ind v => sub v
  | _, _ => none

/-- The tree below a value, down to a depth. -/
def view (h : Heap) : Nat → Ref → Option Tree
  | 0, _ => none
  | _ + 1, .direct w => if (NatVal.direct w).Canonical then some (.nat w.toNat) else none
  | n + 1, .ptr tag a => viewCell h (view h n) tag (h a)

/-- The value denotes the tree. -/
def Views (h : Heap) (v : Ref) (t : Tree) : Prop := ∃ n, view h n v = some t

/-! ## Shapes -/

/-- What an object denotes, if `P` says what its parts denote. -/
inductive Shape (h : Heap) (P : Ref → Tree → Prop) : Tag → Cell → Tree → Prop
  | nat {ls : List UInt64} : (NatVal.boxed ls).Canonical →
    Shape h P .nat (.nat ls) (.nat (Limbs.toNat ls))
  | app {head : Ref} {args : List Ref} {t : Tree} {ts : List Tree} : P head t →
    List.Forall₂ P args ts → Shape h P .app (.app head args) (.app t ts)
  | law {arity : UInt64} {name body : Ref} {t u : Tree} : P name t → P body u →
    Shape h P .law (.law arity name body) (.law arity t u)
  | proxy {body : Ref} {t : Tree} : P body t → Shape h P .pin (.proxy body none) (.pin t)
  | resolved {own body : Ref} {c : Addr} {hash : Hash} {t : Tree} : h c = .canonical hash body →
    P body t → Shape h P .pin (.proxy own (some (.ptr .pin c))) (.pin t)
  | canonical {hash : Hash} {body : Ref} {t : Tree} : P body t →
    Shape h P .pin (.canonical hash body) (.pin t)
  | ind {v : Ref} {t : Tree} : P v t → Shape h P .defer (.ind v) t

theorem mapM_eq_some {f : Ref → Option Tree} : ∀ {vs : List Ref} {ts : List Tree},
    vs.mapM f = some ts ↔ List.Forall₂ (fun v t => f v = some t) vs ts
  | [], ts => by
    constructor
    · intro hm
      obtain rfl : [] = ts := by simpa using hm
      exact .nil
    · rintro ⟨⟩
      rfl
  | v :: vs, ts => by
    simp only [List.mapM_cons, bind, Option.bind_eq_some_iff, pure, Option.some.injEq, mapM_eq_some]
    constructor
    · rintro ⟨t, ht, us, hus, rfl⟩
      exact .cons ht hus
    · rintro (_ | ⟨ht, hus⟩)
      exact ⟨_, ht, _, hus, rfl⟩

theorem viewCell_eq_some {h : Heap} {sub : Ref → Option Tree} {tag : Tag} {cell : Cell} {t : Tree} :
    viewCell h sub tag cell = some t ↔ Shape h (fun v t => sub v = some t) tag cell t := by
  constructor
  · intro hv
    unfold viewCell at hv
    split at hv
    next ls =>
      split at hv
      next hc =>
        obtain rfl := Option.some.inj hv
        exact .nat hc
      next => cases hv
    next head args =>
      simp only [bind, Option.bind_eq_some_iff, pure, Option.some.injEq] at hv
      obtain ⟨t, ht, ts, hts, rfl⟩ := hv
      exact .app ht (mapM_eq_some.1 hts)
    next arity name body =>
      simp only [bind, Option.bind_eq_some_iff, pure, Option.some.injEq] at hv
      obtain ⟨t, ht, u, hu, rfl⟩ := hv
      exact .law ht hu
    next body =>
      obtain ⟨t, ht, rfl⟩ := Option.map_eq_some_iff.mp hv
      exact .proxy ht
    next own c =>
      split at hv
      next hash body hc =>
        obtain ⟨t, ht, rfl⟩ := Option.map_eq_some_iff.mp hv
        exact .resolved hc ht
      next => cases hv
    next hash body =>
      obtain ⟨t, ht, rfl⟩ := Option.map_eq_some_iff.mp hv
      exact .canonical ht
    next v => exact .ind hv
    next => cases hv
  · intro hs
    cases hs with
    | nat hc => exact if_pos hc
    | app ht hts => simp [viewCell, ht, mapM_eq_some.2 hts]
    | law ht hu => simp [viewCell, ht, hu]
    | proxy ht => simp [viewCell, ht]
    | resolved hc ht => simp [viewCell, hc, ht]
    | canonical ht => simp [viewCell, ht]
    | ind ht => exact ht

theorem Shape.mono {h : Heap} {P Q : Ref → Tree → Prop} {tag : Tag} {cell : Cell} {t : Tree}
    (hpq : ∀ v t, P v t → Q v t) (hs : Shape h P tag cell t) : Shape h Q tag cell t := by
  cases hs with
  | nat hc => exact .nat hc
  | app ht hts => exact .app (hpq _ _ ht) (hts.imp hpq)
  | law ht hu => exact .law (hpq _ _ ht) (hpq _ _ hu)
  | proxy ht => exact .proxy (hpq _ _ ht)
  | resolved hc ht => exact .resolved hc (hpq _ _ ht)
  | canonical ht => exact .canonical (hpq _ _ ht)
  | ind ht => exact .ind (hpq _ _ ht)

/-! ## Depth -/

theorem view_succ (h : Heap) : ∀ (n : Nat) (v : Ref) (t : Tree), view h n v = some t →
    view h (n + 1) v = some t
  | 0, _, _, hv => by cases hv
  | _ + 1, .direct _, _, hv => hv
  | n + 1, .ptr _ _, _, hv =>
    viewCell_eq_some.2 ((viewCell_eq_some.1 hv).mono (view_succ h n))

theorem view_le {h : Heap} {v : Ref} {t : Tree} {n k : Nat} (hle : n ≤ k) (hv : view h n v = some t) :
    view h k v = some t := by
  induction hle with
  | refl => exact hv
  | step _ ih => exact view_succ h _ v t ih

/-- A value denotes one tree. -/
theorem Views.unique {h : Heap} {v : Ref} {t u : Tree} (ht : Views h v t) (hu : Views h v u) : t = u := by
  obtain ⟨n, hn⟩ := ht
  obtain ⟨k, hk⟩ := hu
  have ht' := view_le (Nat.le_max_left n k) hn
  have hu' := view_le (Nat.le_max_right n k) hk
  exact Option.some.inj (ht'.symm.trans hu')

/-- Values that denote trees do so at one depth. -/
theorem forall₂_depth {h : Heap} {vs : List Ref} {ts : List Tree} (hall : List.Forall₂ (Views h) vs ts) :
    ∃ n, List.Forall₂ (fun v t => view h n v = some t) vs ts := by
  induction hall with
  | nil => exact ⟨0, .nil⟩
  | cons ht _ ih =>
    obtain ⟨n, hn⟩ := ht
    obtain ⟨k, hk⟩ := ih
    exact ⟨max n k, .cons (view_le (Nat.le_max_left n k) hn)
      (hk.imp fun _ _ ht => view_le (Nat.le_max_right n k) ht)⟩

theorem Views.direct_iff {h : Heap} {w : UInt64} {t : Tree} :
    Views h (.direct w) t ↔ (NatVal.direct w).Canonical ∧ t = .nat w.toNat := by
  constructor
  · rintro ⟨n, hn⟩
    cases n with
    | zero => cases hn
    | succ n =>
      rw [view] at hn
      split at hn
      next hc => exact ⟨hc, (Option.some.inj hn).symm⟩
      next => cases hn
  · rintro ⟨hc, rfl⟩
    exact ⟨1, by rw [view, if_pos hc]⟩

/-- An object denotes what its parts make. -/
theorem Views.ptr_iff {h : Heap} {tag : Tag} {a : Addr} {t : Tree} :
    Views h (.ptr tag a) t ↔ Shape h (Views h) tag (h a) t := by
  constructor
  · rintro ⟨n, hn⟩
    cases n with
    | zero => cases hn
    | succ n => exact (viewCell_eq_some.1 hn).mono fun v t ht => ⟨n, ht⟩
  · intro hs
    -- The parts denote their trees at one depth.
    have hdepth : ∃ n, Shape h (fun v t => view h n v = some t) tag (h a) t := by
      generalize h a = cell at hs
      cases hs with
      | nat hc => exact ⟨0, .nat hc⟩
      | app ht hts =>
        obtain ⟨n, hn⟩ := ht
        obtain ⟨k, hk⟩ := forall₂_depth hts
        exact ⟨max n k, .app (view_le (Nat.le_max_left n k) hn)
          (hk.imp fun _ _ ht => view_le (Nat.le_max_right n k) ht)⟩
      | law ht hu =>
        obtain ⟨n, hn⟩ := ht
        obtain ⟨k, hk⟩ := hu
        exact ⟨max n k, .law (view_le (Nat.le_max_left n k) hn) (view_le (Nat.le_max_right n k) hk)⟩
      | proxy ht => exact ⟨ht.choose, .proxy ht.choose_spec⟩
      | resolved hc ht => exact ⟨ht.choose, .resolved hc ht.choose_spec⟩
      | canonical ht => exact ⟨ht.choose, .canonical ht.choose_spec⟩
      | ind ht => exact ⟨ht.choose, .ind ht.choose_spec⟩
    obtain ⟨n, hn⟩ := hdepth
    exact ⟨n + 1, viewCell_eq_some.2 hn⟩

/-! ## Publication -/

/-- The target of a proxy: a canonical pin whose body denotes the tree of the proxy's. -/
def Fitting (h : Heap) (body target : Ref) : Prop :=
  ∃ c hash body' t, target = .ptr .pin c ∧ h c = .canonical hash body' ∧ Views h body t ∧
    Views h body' t

/-- The heap got targets, and nothing else changed. -/
def Published (h h' : Heap) : Prop :=
  ∀ a, h' a = h a ∨ ∃ body target, h a = .proxy body none ∧ h' a = .proxy body (some target) ∧
    Fitting h body target

theorem forall₂_imp_mem {P Q : Ref → Tree → Prop} {vs : List Ref} {ts : List Tree}
    (hall : List.Forall₂ P vs ts) : (∀ v, ∀ t ∈ ts, P v t → Q v t) → List.Forall₂ Q vs ts := by
  induction hall with
  | nil => exact fun _ => .nil
  | cons ht _ ih =>
    exact fun himp => .cons (himp _ _ (by simp) ht) (ih fun v t hmem => himp v t (by simp [hmem]))

/-- The arguments of an application are smaller than it. -/
theorem sub_arg {t u : Tree} {ts : List Tree} {bound : Nat} (hsize : sizeOf (Tree.app t ts) < bound + 1)
    (hmem : u ∈ ts) : sizeOf u < bound := by
  have hlt := List.sizeOf_lt_of_mem hmem
  simp at hsize
  omega

namespace Published

variable {h h' : Heap}

theorem refl (h : Heap) : Published h h := fun _ => .inl rfl

theorem canonical_iff (hp : Published h h') {c : Addr} {hash : Hash} {body : Ref} :
    h' c = .canonical hash body ↔ h c = .canonical hash body := by
  rcases hp c with heq | ⟨own, target, hc, hc', -⟩
  · rw [heq]
  · rw [hc, hc']
    simp

/-- What a value denotes it still denotes: a proxy that got a target denotes what the
target does, and that is smaller than the proxy. -/
theorem view_after (hp : Published h h') : ∀ (bound n : Nat) (v : Ref) (t : Tree), sizeOf t < bound →
    view h n v = some t → Views h' v t := by
  intro bound
  induction bound with
  | zero => exact fun _ _ _ hsize => absurd hsize (Nat.not_lt_zero _)
  | succ bound ihN =>
  intro n
  induction n with
  | zero => exact fun _ _ _ hv => by cases hv
  | succ n ihn =>
  intro v t hsize hv
  cases v with
  | direct w => exact Views.direct_iff.2 (Views.direct_iff.1 ⟨_, hv⟩)
  | ptr tag a =>
    have hs := viewCell_eq_some.1 hv
    rw [Views.ptr_iff]
    rcases hp a with heq | ⟨body, target, hc, hc', c, hash, body', u, rfl, hcanon, hb, hb'⟩
    · rw [heq]
      generalize h a = cell at hs
      cases hs with
      | nat hc => exact .nat hc
      | app ht hts =>
        exact .app (ihN n _ _ (by simp at hsize; omega) ht)
          (forall₂_imp_mem hts fun v u hmem hu => ihN n v u (sub_arg hsize hmem) hu)
      | law ht hu =>
        exact .law (ihN n _ _ (by simp at hsize; omega) ht) (ihN n _ _ (by simp at hsize; omega) hu)
      | proxy ht => exact .proxy (ihN n _ _ (by simp at hsize; omega) ht)
      | resolved hc ht => exact .resolved (hp.canonical_iff.mpr hc) (ihN n _ _ (by simp at hsize; omega) ht)
      | canonical ht => exact .canonical (ihN n _ _ (by simp at hsize; omega) ht)
      | ind ht => exact .ind (ihn _ _ hsize ht)
    · rw [hc] at hs
      rw [hc']
      cases hs with
      | @proxy _ t ht =>
        obtain rfl : u = t := hb.unique ⟨n, ht⟩
        obtain ⟨k, hk⟩ := hb'
        exact .resolved (hp.canonical_iff.mpr hcanon) (ihN k body' u (by simp at hsize; omega) hk)

/-- What a value denotes it denoted before. -/
theorem view_before (hp : Published h h') : ∀ (bound n : Nat) (v : Ref) (t : Tree), sizeOf t < bound →
    view h' n v = some t → Views h v t := by
  intro bound
  induction bound with
  | zero => exact fun _ _ _ hsize => absurd hsize (Nat.not_lt_zero _)
  | succ bound ihN =>
  intro n
  induction n with
  | zero => exact fun _ _ _ hv => by cases hv
  | succ n ihn =>
  intro v t hsize hv
  cases v with
  | direct w => exact Views.direct_iff.2 (Views.direct_iff.1 ⟨_, hv⟩)
  | ptr tag a =>
    have hs := viewCell_eq_some.1 hv
    rw [Views.ptr_iff]
    rcases hp a with heq | ⟨body, target, hc, hc', c, hash, body', u, rfl, hcanon, hb, hb'⟩
    · rw [heq] at hs
      generalize h a = cell at hs
      cases hs with
      | nat hc => exact .nat hc
      | app ht hts =>
        exact .app (ihN n _ _ (by simp at hsize; omega) ht)
          (forall₂_imp_mem hts fun v u hmem hu => ihN n v u (sub_arg hsize hmem) hu)
      | law ht hu =>
        exact .law (ihN n _ _ (by simp at hsize; omega) ht) (ihN n _ _ (by simp at hsize; omega) hu)
      | proxy ht => exact .proxy (ihN n _ _ (by simp at hsize; omega) ht)
      | resolved hc ht => exact .resolved (hp.canonical_iff.mp hc) (ihN n _ _ (by simp at hsize; omega) ht)
      | canonical ht => exact .canonical (ihN n _ _ (by simp at hsize; omega) ht)
      | ind ht => exact .ind (ihn _ _ hsize ht)
    · rw [hc'] at hs
      rw [hc]
      cases hs with
      | @resolved _ body'' _ hash' t hcanon' ht =>
        obtain ⟨rfl, rfl⟩ : hash = hash' ∧ body' = body'' := by
          have := hcanon.symm.trans (hp.canonical_iff.mp hcanon')
          injection this with h1 h2
          exact ⟨h1, h2⟩
        obtain rfl : u = t := hb'.unique (ihN n body' t (by simp at hsize; omega) ht)
        exact .proxy hb

/-- Publication changes no denotation. -/
theorem views_iff (hp : Published h h') {v : Ref} {t : Tree} : Views h' v t ↔ Views h v t :=
  ⟨fun ⟨n, hn⟩ => hp.view_before _ n v t (Nat.lt_succ_self _) hn,
    fun ⟨n, hn⟩ => hp.view_after _ n v t (Nat.lt_succ_self _) hn⟩

theorem trans {h'' : Heap} (hp : Published h h') (hp' : Published h' h'') : Published h h'' := by
  intro a
  rcases hp' a with heq' | ⟨body, target, hc, hc', c, hash, body', u, rfl, hcanon, hb, hb'⟩
  · rw [heq']
    exact hp a
  · -- The proxy was there before and had no target.
    have hbefore : h a = .proxy body none := by
      rcases hp a with heq | ⟨_, _, _, hset, -⟩
      · rw [← heq, hc]
      · rw [hset] at hc
        cases hc
    exact .inr ⟨body, _, hbefore, hc', c, hash, body', u, rfl, hp.canonical_iff.mp hcanon,
      hp.views_iff.mp hb, hp.views_iff.mp hb'⟩

end Published

/-- Hashes stand for contents: canonical pins have one hash exactly if their bodies denote one
tree. -/
def Faithful (h : Heap) : Prop :=
  ∀ c c' x x' body body' t t', h c = .canonical x body → h c' = .canonical x' body' →
    Views h body t → Views h body' t' → (x = x' ↔ t = t')

theorem Faithful.published {h h' : Heap} (hf : Faithful h) (hp : Published h h') : Faithful h' := by
  intro c c' x x' body body' t t' hc hc' ht ht'
  exact hf c c' x x' body body' t t' (hp.canonical_iff.mp hc) (hp.canonical_iff.mp hc')
    (hp.views_iff.mp ht) (hp.views_iff.mp ht')

end Enki.Equal
