import Enki.Eval.Holes

/-!
# Shapes

What the evaluator never changes of a value: of an application its head, how many arguments it
has and how many more the head needs, of a law its arity, of a pin what it holds. In a flat
heap the head of an application is never an application and the need it carries is the one
its head has. What the evaluator does to a heap keeps it flat and its values' shapes.
-/

namespace Enki.Eval

/-! ## Shapes -/

/-- What of a value's object evaluation leaves alone. -/
inductive Shape where
  | app (need : Nat) (head : Val) (n : Nat)
  | law (arity : Nat)
  | pin (body : Val)
  | env
  deriving DecidableEq

def Obj.shape : Obj → Option Shape
  | .app need _ head args => some (.app need head args.length)
  | .law _ a _ _ => some (.law a)
  | .pin _ body => some (.pin body)
  | .env _ _ => some .env
  | _ => none

/-- The field that has its place among the others for being a value. -/
def Shape.key : Shape → Option Val
  | .app _ head _ => some head
  | .pin body => some body
  | _ => none

namespace Heap

/-- The shape of the object, if it is a value. -/
def shape (h : Heap) (r : Nat) : Option Shape := h[r]?.bind Obj.shape

/-- The key of the value. -/
def key (h : Heap) : Val → Option Val
  | .nat _ => none
  | .ref r => (h.shape r).bind Shape.key

/-- An application is flat, with the need of its head; a pin holds a value. -/
def Sits (h : Heap) : Shape → Prop
  | .app need head n => h.asApp head = none ∧ n ≠ 0 ∧ h.needAfter head n = some need
  | .pin body => h.isWhnf body = true
  | _ => True

/-- Every value sits as it should. -/
def Flat (h : Heap) : Prop := ∀ r s, h.shape r = some s → h.Sits s

/-- Values keep their shapes. -/
def Stable (h h' : Heap) : Prop := ∀ r s, h.shape r = some s → h'.shape r = some s

/-- What evaluation does to a flat heap. -/
def KeepsSpines (h h' : Heap) : Prop := h.Flat → h'.Flat ∧ h.Stable h'

variable {h h' h'' : Heap}

/-- A heap is stable in itself. -/
theorem Stable.refl (h : Heap) : h.Stable h := fun _ _ hs => hs

/-- What stays twice has stayed. -/
theorem Stable.trans (hl : h.Stable h') (hr : h'.Stable h'') : h.Stable h'' :=
  fun r s hs => hr r s (hl r s hs)

/-- Values are the objects with a shape. -/
theorem isWhnf_shape (r : Nat) : h.isWhnf (.ref r) = (h.shape r).isSome := by
  simp only [isWhnf, shape]
  rcases h[r]? with _ | o
  · rfl
  · cases o <;> rfl

/-- Whether something is an application is seen from its shape, -/
theorem asApp_shape (r : Nat) :
    h.asApp (.ref r) = none ↔ ∀ need head n, h.shape r ≠ some (.app need head n) := by
  simp only [asApp, obj, shape]
  rcases h[r]? with _ | o
  · simp
  · cases o <;> simp [Obj.shape]

/-- The arity of a pin with this body. -/
def bodyArity (h : Heap) : Val → Nat
  | .nat _ => 1
  | .ref r =>
    match h.shape r with
    | some (.law a) => a
    | _ => 1

/-- and so is its arity, a pin apart, whose body is looked at. -/
theorem arity_shape (r : Nat) :
    h.arity (.ref r) =
      (h.shape r).bind fun s =>
        match s with
        | .app need _ _ => some need
        | .law a => some a
        | .pin body => some (h.bodyArity body)
        | .env => none := by
  simp only [arity, shape]
  rcases h[r]? with _ | o
  · rfl
  · cases o with
    | pin normal body =>
      cases body with
      | nat n => rfl
      | ref b =>
        simp only [obj, Option.bind_some, Obj.shape, bodyArity, shape]
        rcases h[b]? with _ | o
        · rfl
        · cases o <;> rfl
    | _ => rfl

/-- Only values have an arity. -/
theorem isWhnf_of_arity {v : Val} {a : Nat} (ha : h.arity v = some a) : h.isWhnf v = true := by
  cases v with
  | nat n => rfl
  | ref r =>
    rw [arity_shape] at ha
    obtain ⟨s, hs, -⟩ := Option.bind_eq_some_iff.1 ha
    rw [isWhnf_shape, hs]
    rfl

/-- A value stays one, -/
theorem Stable.whnf (hst : h.Stable h') {v : Val} (hv : h.isWhnf v = true) :
    h'.isWhnf v = true := by
  cases v with
  | nat n => rfl
  | ref r =>
    rw [isWhnf_shape] at hv ⊢
    obtain ⟨s, hs⟩ := Option.isSome_iff_exists.1 hv
    rw [hst r s hs]
    rfl

/-- with its key, -/
theorem Stable.key (hst : h.Stable h') {v : Val} (hv : h.isWhnf v = true) : h'.key v = h.key v := by
  cases v with
  | nat n => rfl
  | ref r =>
    rw [isWhnf_shape] at hv
    obtain ⟨s, hs⟩ := Option.isSome_iff_exists.1 hv
    simp only [Heap.key, hs, hst r s hs]

/-- and as the body of a pin with its arity. -/
theorem Stable.bodyArity (hst : h.Stable h') {v : Val} (hv : h.isWhnf v = true) :
    h'.bodyArity v = h.bodyArity v := by
  cases v with
  | nat n => rfl
  | ref r =>
    rw [isWhnf_shape] at hv
    obtain ⟨s, hs⟩ := Option.isSome_iff_exists.1 hv
    simp only [Heap.bodyArity, hs, hst r s hs]

/-- What may head an application still may, and needs as many arguments. -/
theorem Stable.head (hst : h.Stable h') (hflat : h.Flat) {v : Val} {a : Nat}
    (ha : h.arity v = some a) (hv : h.asApp v = none) : h'.arity v = some a ∧ h'.asApp v = none := by
  cases v with
  | nat n => exact ⟨ha, rfl⟩
  | ref r =>
    rw [arity_shape] at ha
    obtain ⟨s, hs, ha⟩ := Option.bind_eq_some_iff.1 ha
    have hs' := hst r s hs
    rw [asApp_shape] at hv ⊢
    rw [arity_shape, hs', Option.bind_some]
    cases s with
    | app need head n => exact absurd hs (hv need head n)
    | law a => exact ⟨ha, by simp⟩
    | env => cases ha
    -- what a pin holds is a value, so its arity stays
    | pin body =>
      refine ⟨?_, by simp⟩
      simp only [hst.bodyArity (hflat r _ hs)]
      exact ha

/-- The need is what the head still lacks, and fits its field. -/
theorem needAfter_eq {head : Val} {n need : Nat} (hneed : h.needAfter head n = some need) :
    ∃ a, h.arity head = some a ∧ need = a - n ∧ need < 2 ^ 20 := by
  obtain ⟨a, ha, hsome⟩ := Option.bind_eq_some_iff.1 hneed
  refine ⟨a, ha, ?_⟩
  split at hsome
  · cases hsome
    omega
  · split at hsome
    · cases hsome
      exact ⟨rfl, ‹_›⟩
    · cases hsome

/-- It is found where it fits. -/
theorem needAfter_of {head : Val} {n a : Nat} (ha : h.arity head = some a) (hlt : a - n < 2 ^ 20) :
    h.needAfter head n = some (a - n) := by
  unfold needAfter
  rw [ha, Option.bind_eq_bind, Option.bind_some]
  by_cases hle : a = 0 ∨ a ≤ n
  · rw [if_pos hle]
    congr 1
    omega
  · rw [if_neg hle, if_pos hlt]

/-- What sits well in a flat heap does in a stable one. -/
theorem Stable.sits (hst : h.Stable h') (hflat : h.Flat) {s : Shape} (hs : h.Sits s) :
    h'.Sits s := by
  cases s with
  | app need head n =>
    obtain ⟨happ, hn, hneed⟩ := hs
    obtain ⟨a, ha, rfl, hlt⟩ := needAfter_eq hneed
    obtain ⟨ha', happ'⟩ := hst.head hflat ha happ
    exact ⟨happ', hn, needAfter_of ha' hlt⟩
  | pin body => exact hst.whnf hs
  | law a => trivial
  | env => trivial

/-- An application, as it sits in a flat heap. -/
theorem Flat.app (hflat : h.Flat) {f : Val} {need : Nat} {normal : Bool} {head : Val}
    {args : List Val} (hf : h.obj f = some (.app need normal head args)) :
    h.asApp head = none ∧ args ≠ [] ∧ h.needAfter head args.length = some need := by
  cases f with
  | nat n => cases hf
  | ref r =>
    have hs : h.shape r = some (.app need head args.length) := by
      rw [shape, show h[r]? = _ from hf]
      rfl
    obtain ⟨happ, hn, hneed⟩ := hflat r _ hs
    exact ⟨happ, by simpa using hn, hneed⟩

/-- The first field of an object that has a key is the key, and a value. -/
theorem Flat.nfField (hflat : h.Flat) {o c v : Val} (hkey : h.key o = some c)
    (hv : h.nfField o 0 = some v) : v = c ∧ h.isWhnf v = true := by
  cases o with
  | nat n => cases hkey
  | ref r =>
    obtain ⟨s, hs, hc⟩ := Option.bind_eq_some_iff.1 hkey
    have hsits := hflat r s hs
    obtain ⟨o, ho, hs⟩ := Option.bind_eq_some_iff.1 hs
    have hobj : h.obj (.ref r) = some o := ho
    unfold Heap.nfField at hv
    rw [hobj] at hv
    cases o with
    | app need normal head args =>
      cases hs
      cases hc
      cases hv
      obtain ⟨-, -, hneed⟩ := hsits
      obtain ⟨a, ha, -⟩ := needAfter_eq hneed
      exact ⟨rfl, isWhnf_of_arity ha⟩
    | pin normal body =>
      cases hs
      cases hc
      cases normal with
      | true => cases hv
      | false =>
        cases hv
        exact ⟨rfl, hsits⟩
    | law normal a name body =>
      cases hs
      cases hc
    | env self locals =>
      cases hs
      cases hc
    | _ => cases hs

namespace KeepsSpines

/-- Nothing done. -/
theorem refl (h : Heap) : h.KeepsSpines h := fun hflat => ⟨hflat, .refl h⟩

/-- One thing after another. -/
theorem trans (hl : h.KeepsSpines h') (hr : h'.KeepsSpines h'') : h.KeepsSpines h'' := by
  intro hflat
  obtain ⟨hflat', hst⟩ := hl hflat
  obtain ⟨hflat'', hst'⟩ := hr hflat'
  exact ⟨hflat'', hst.trans hst'⟩

/-- New shapes sit well, and old ones stay. -/
theorem of_shapes (hst : h.Stable h')
    (hnew : ∀ r s, h'.shape r = some s → h.shape r = some s ∨ h.Sits s) : h.KeepsSpines h' := by
  intro hflat
  refine ⟨fun r s hs => hst.sits hflat ?_, hst⟩
  obtain hold | hsits := hnew r s hs
  · exact hflat r s hold
  · exact hsits

/-- New objects are allocated behind the old ones. -/
theorem append {os : List Obj} (hos : ∀ o ∈ os, ∀ s, o.shape = some s → h.Sits s) :
    h.KeepsSpines (h ++ os) := by
  refine .of_shapes ?_ ?_
  · intro r s hs
    obtain ⟨o, ho, hs⟩ := Option.bind_eq_some_iff.1 hs
    have hlt := (List.getElem?_eq_some_iff.1 ho).1
    rw [shape, List.getElem?_append_left hlt, ho]
    exact hs
  · intro r s hs
    obtain ⟨o, ho, hs⟩ := Option.bind_eq_some_iff.1 hs
    -- an old object, or a new one
    by_cases hlt : r < h.length
    · rw [List.getElem?_append_left hlt] at ho
      refine .inl ?_
      rw [shape, ho]
      exact hs
    · rw [List.getElem?_append_right (by omega)] at ho
      exact .inr (hos o (List.mem_of_getElem? ho) s hs)

/-- One new object. -/
theorem alloc {o : Obj} (ho : ∀ s, o.shape = some s → h.Sits s) : h.KeepsSpines (h.alloc o).1 :=
  append fun _ hmem => List.mem_singleton.1 hmem ▸ ho

/-- An object of the same shape takes the place of another. -/
theorem set {r : Nat} {o o' : Obj} (hr : h[r]? = some o) (hshape : o'.shape = o.shape) :
    h.KeepsSpines (h.set r o') := by
  have hsame : ∀ x, shape (h.set r o') x = h.shape x := by
    intro x
    unfold shape
    by_cases hx : r = x
    · subst hx
      rw [List.getElem?_set_self (List.getElem?_eq_some_iff.1 hr).1, hr]
      exact hshape
    · rw [List.getElem?_set_ne hx]
  exact .of_shapes (fun x s hs => (hsame x).trans hs) fun x s hs => .inl ((hsame x).symm.trans hs)

/-- An application is made of a head that is none. -/
theorem mkAppFrom {head : Val} {args : List Val} {hv : Heap × Val} (hhead : h.asApp head = none)
    (hargs : args ≠ []) (hmk : h.mkAppFrom head args = some hv) :
    h.KeepsSpines hv.1 ∧ hv.1.isWhnf hv.2 = true := by
  obtain ⟨need, hneed, hsome⟩ := Option.bind_eq_some_iff.1 hmk
  cases hsome
  refine ⟨alloc fun s hs => ?_, ?_⟩
  · cases hs
    exact ⟨hhead, by simpa using hargs, hneed⟩
  · simp [isWhnf_shape, shape, Heap.alloc, Obj.shape]

/-- The shape of a delayed object, which has none. -/
theorem delayed {r : Nat} {o o' : Obj} (hr : h[r]? = some o) (ho : o.shape = none)
    (ho' : o'.shape = none) : h.KeepsSpines (h.set r o') :=
  set hr (ho'.trans ho.symm)

/-- The result of a thunk takes its place, -/
theorem thunkUpdate {r : Nat} {v : Val} (hupdate : h.thunkUpdate r v = some h') :
    h.KeepsSpines h' := by
  unfold Heap.thunkUpdate at hupdate
  split at hupdate
  · cases hupdate
    exact delayed ‹_› rfl rfl
  · cases hupdate
    exact delayed ‹_› rfl rfl
  · cases hupdate

/-- or the thunk comes back, -/
theorem restoreThunk {r : Nat} {e : Val} (hrestore : h.restoreThunk r e = some h') :
    h.KeepsSpines h' := by
  unfold Heap.restoreThunk at hrestore
  split at hrestore
  · cases hrestore
    exact delayed ‹_› rfl rfl
  · cases hrestore

/-- for every frame that is unwound. By induction on them. -/
theorem unwindFrames {fs : List Frame} (hunwind : Eval.unwindFrames fs h = some h') :
    h.KeepsSpines h' := by
  induction fs generalizing h with
  | nil =>
    cases hunwind
    exact refl _
  | cons f fs ih =>
    cases f with
    | update r e =>
      obtain ⟨h₁, hrestore, hunwind⟩ := Option.bind_eq_some_iff.1 hunwind
      exact (restoreThunk hrestore).trans (ih hunwind)
    | _ => exact ih hunwind

/-- An expression is suspended, unless it is a value or a variable. -/
theorem kal1 {env expr : Val} {hv : Heap × Val} (hkal : h.kal1 env expr = some hv) :
    h.KeepsSpines hv.1 := by
  unfold Heap.kal1 at hkal
  split at hkal
  · obtain ⟨slot, -, hsome⟩ := Option.bind_eq_some_iff.1 hkal
    cases hsome
    exact refl h
  · split at hkal
    · cases hkal
      exact refl h
    · cases hkal
      exact alloc fun s hs => by cases hs
    · cases hkal
      exact refl h

/-- The environment of a law and its suspended bindings. -/
theorem knot (head : Val) (args binds : List Val) : h.KeepsSpines (h.knot head args binds).1 := by
  refine append fun o hmem s hs => ?_
  rcases List.mem_cons.1 hmem with rfl | hmem
  · cases hs
    trivial
  · obtain ⟨b, -, rfl⟩ := List.mem_map.1 hmem
    cases hs

/-- One more argument. The head has taken one more, or is saturated as before. -/
theorem mkAppSnoc {f x : Val} {hv : Heap × Val} (hflat : h.Flat)
    (hmk : h.mkAppSnoc f x = some hv) : h.KeepsSpines hv.1 ∧ hv.1.isWhnf hv.2 = true := by
  unfold Heap.mkAppSnoc at hmk
  cases hobj : h.obj f with
  | none =>
    rw [hobj] at hmk
    exact mkAppFrom (by simp [asApp, hobj]) (List.cons_ne_nil x []) hmk
  | some o =>
    rw [hobj] at hmk
    cases o with
    | app need normal head args =>
      cases hmk
      obtain ⟨happ, -, hneed⟩ := hflat.app hobj
      -- the need is counted down, which is what the head says too
      obtain ⟨a, ha, rfl, hlt⟩ := needAfter_eq hneed
      refine ⟨alloc fun s hs => ?_, ?_⟩
      · cases hs
        refine ⟨happ, by simp, ?_⟩
        rw [List.length_append, List.length_singleton, Nat.sub_sub]
        exact needAfter_of ha (by omega)
      · simp [isWhnf_shape, shape, Heap.alloc, Obj.shape]
    | _ => exact mkAppFrom (by simp [asApp, hobj]) (List.cons_ne_nil x []) hmk

/-- A field that is a value by its place is written back as it was. -/
theorem nfWriteback {v child : Val} {i : Nat} (hwrite : h.nfWriteback v i child = some h')
    (hkey : i = 0 → ∀ c, h.key v = some c → child = c) : h.KeepsSpines h' := by
  cases v with
  | nat n => cases hwrite
  | ref r =>
    unfold Heap.nfWriteback at hwrite
    cases hr : h[r]? with
    | none =>
      simp only [hr] at hwrite
      cases hwrite
    | some o =>
      simp only [hr] at hwrite
      -- at the place of the key its value comes back
      have hshape : ∀ s, o.shape = some s → i = 0 → ∀ c, s.key = some c → child = c := by
        intro s hs hi c hc
        refine hkey hi c ?_
        rw [key, shape, hr, Option.bind_some, hs]
        exact hc
      cases o with
      | app need normal head args =>
        cases i with
        | zero =>
          cases hwrite
          exact set hr (by rw [hshape _ rfl rfl head rfl])
        | succ i =>
          cases hwrite
          exact set hr (by simp [Obj.shape])
      | law normal a name body =>
        cases i with
        | zero =>
          cases hwrite
          exact set hr rfl
        | succ i =>
          cases hwrite
          exact set hr rfl
      | pin normal body =>
        cases normal with
        | true => cases hwrite
        | false =>
          by_cases hi : i = 0
          · simp only [if_pos hi] at hwrite
            cases hwrite
            exact set hr (by rw [hshape _ rfl hi body rfl])
          · simp only [if_neg hi] at hwrite
            cases hwrite
      | _ => cases hwrite

/-- The flag is in no shape. -/
theorem setNormal (v : Val) : h.KeepsSpines (h.setNormal v) := by
  cases v with
  | nat n => exact refl h
  | ref r =>
    cases hr : h[r]? with
    | none =>
      simp only [Heap.setNormal, hr]
      exact refl h
    | some o =>
      simp only [Heap.setNormal, hr]
      cases o with
      | app need normal head args => exact set hr rfl
      | law normal a name body => exact set hr rfl
      | pin normal body => exact set hr rfl
      | _ => exact refl h

end KeepsSpines

end Heap

end Enki.Eval
