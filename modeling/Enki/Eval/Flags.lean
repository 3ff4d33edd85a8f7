import Enki.Eval.Heap

/-!
# Normality flags

The flag `PL_F_NORMAL` promises that an object is normal through and through: the evaluator
never descends into it again. What the evaluator does to a heap keeps the promise. Delayed
objects only become other delayed ones, a field is only replaced by a normal value, and the
flag is only set where every field is normal.
-/

namespace Enki.Eval

namespace Obj

/-- What is still to be evaluated. -/
def delayed : Obj → Bool
  | .thunk _ _ | .bh _ | .ind _ => true
  | _ => false

/-- The flag `PL_F_NORMAL`. -/
def normal : Obj → Bool
  | .app _ n _ _ | .law n _ _ _ | .pin n _ => n
  | _ => false

/-- The values that normalisation descends into. -/
def fields : Obj → List Val
  | .app _ _ head args => head :: args
  | .law _ _ name body => [name, body]
  | .pin _ body => [body]
  | _ => []

end Obj

namespace Heap

def fields (h : Heap) (v : Val) : List Val := ((h.obj v).map Obj.fields).getD []

variable {h h' h'' : Heap}

theorem isNormal_ref (r : Nat) : h.isNormal (.ref r) = ((h[r]?).map Obj.normal).getD false := by
  simp only [isNormal]
  rcases h[r]? with _ | o
  · rfl
  · cases o <;> rfl

theorem isWhnf_ref (r : Nat) :
    h.isWhnf (.ref r) = ((h[r]?).map fun o => !o.delayed).getD false := by
  simp only [isWhnf]
  rcases h[r]? with _ | o
  · rfl
  · cases o <;> rfl

theorem fields_ref (r : Nat) : h.fields (.ref r) = ((h[r]?).map Obj.fields).getD [] := rfl

theorem isWhnf_of_isNormal {v : Val} (hv : h.isNormal v = true) : h.isWhnf v = true := by
  cases v with
  | nat n => rfl
  | ref r =>
    rw [isNormal_ref] at hv
    rw [isWhnf_ref]
    rcases hr : h[r]? with _ | o
    · rw [hr] at hv
      cases hv
    · rw [hr] at hv
      cases o <;> simp_all [Obj.normal, Obj.delayed]

theorem nfNfields_eq (v : Val) : h.nfNfields v = (h.fields v).length := by
  unfold nfNfields fields
  rcases h.obj v with _ | o
  · rfl
  · cases o <;> rfl

theorem fields_of_nfField {v c : Val} {i : Nat} (hc : h.nfField v i = some c) :
    (h.fields v)[i]? = some c := by
  unfold nfField at hc
  unfold fields
  rcases hobj : h.obj v with _ | o
  · rw [hobj] at hc
    cases hc
  · rw [hobj] at hc
    cases o with
    | pin n body =>
      cases n with
      | false => exact hc
      | true => cases hc
    | app need n head args => exact hc
    | law n a name body => exact hc
    | _ => cases hc

/-- The flags keep their promise. -/
def Sound (h : Heap) : Prop :=
  ∀ v, h.isNormal v = true → ∀ c ∈ h.fields v, h.isNormal c = true

/-- Values stay values, normal ones normal, and a field is only replaced by a normal one. -/
structure Grows (h h' : Heap) : Prop where
  whnf : ∀ v, h.isWhnf v = true → h'.isWhnf v = true
  normal : ∀ v, h.isNormal v = true → h'.isNormal v = true
  fields : ∀ (v : Val) (i : Nat) (c : Val), (h.fields v)[i]? = some c →
    ∃ c', (h'.fields v)[i]? = some c' ∧ (h.isNormal c = true → h'.isNormal c' = true)

/-- What evaluation does to a heap whose flags keep their promise. -/
def Keeps (h h' : Heap) : Prop := h.Sound → h'.Sound ∧ h.Grows h'

theorem Grows.refl (h : Heap) : h.Grows h :=
  ⟨fun _ hv => hv, fun _ hv => hv, fun _ _ c hc => ⟨c, hc, id⟩⟩

theorem Grows.trans (hl : h.Grows h') (hr : h'.Grows h'') : h.Grows h'' where
  whnf v hv := hr.whnf v (hl.whnf v hv)
  normal v hv := hr.normal v (hl.normal v hv)
  fields v i c hc := by
    obtain ⟨c', hc', himp'⟩ := hl.fields v i c hc
    obtain ⟨c'', hc'', himp''⟩ := hr.fields v i c' hc'
    exact ⟨c'', hc'', fun hn => himp'' (himp' hn)⟩

theorem Keeps.refl (h : Heap) : h.Keeps h := fun hs => ⟨hs, .refl h⟩

theorem Keeps.trans (hl : h.Keeps h') (hr : h'.Keeps h'') : h.Keeps h'' := by
  intro hs
  obtain ⟨hs', hg⟩ := hl hs
  obtain ⟨hs'', hg'⟩ := hr hs'
  exact ⟨hs'', hg.trans hg'⟩

/-! ### Allocation and replacement -/

theorem fields_getElem? {v : Val} {i : Nat} {c : Val} (hc : (h.fields v)[i]? = some c) :
    ∃ r o, v = .ref r ∧ h[r]? = some o ∧ o.fields[i]? = some c := by
  cases v with
  | nat n => cases hc
  | ref r =>
    rw [fields_ref] at hc
    rcases hr : h[r]? with _ | o
    · rw [hr] at hc
      cases hc
    · rw [hr] at hc
      exact ⟨r, o, rfl, hr, hc⟩

/-- Where every object stays, or is replaced by one that is at least as far, values grow. -/
theorem Keeps.of_objects
    (hnew : ∀ (r : Nat) (o' : Obj), h'[r]? = some o' → o'.normal = true →
      (∃ o, h[r]? = some o ∧ o = o') ∨ ∀ c ∈ o'.fields, h.isNormal c = true)
    (hold : ∀ (r : Nat) (o : Obj), h[r]? = some o → ∃ o', h'[r]? = some o' ∧
      (o.delayed = false → o'.delayed = false) ∧ (o.normal = true → o'.normal = true) ∧
      ∀ (i : Nat) (c : Val), o.fields[i]? = some c →
        ∃ c', o'.fields[i]? = some c' ∧ (h.isNormal c = true → h.isNormal c' = true)) :
    h.Keeps h' := by
  intro hs
  have hnormal : ∀ v, h.isNormal v = true → h'.isNormal v = true := by
    intro v hv
    cases v with
    | nat n => rfl
    | ref r =>
      rw [isNormal_ref] at hv ⊢
      rcases hr : h[r]? with _ | o
      · rw [hr] at hv
        cases hv
      · obtain ⟨o', hr', -, hflag, -⟩ := hold r o hr
        rw [hr] at hv
        rw [hr']
        exact hflag hv
  refine ⟨?_, ?_, hnormal, ?_⟩
  · intro v hv c hc
    cases v with
    | nat n => cases hc
    | ref r =>
      rw [isNormal_ref] at hv
      rw [fields_ref] at hc
      rcases hr' : h'[r]? with _ | o'
      · rw [hr'] at hv
        cases hv
      · rw [hr'] at hv hc
        obtain ⟨o, hr, rfl⟩ | hall := hnew r o' hr' hv
        · have hv' : h.isNormal (.ref r) = true := by
            rw [isNormal_ref, hr]
            exact hv
          have hc' : c ∈ h.fields (.ref r) := by
            rw [fields_ref, hr]
            exact hc
          exact hnormal c (hs _ hv' c hc')
        · exact hnormal c (hall c hc)
  · intro v hv
    cases v with
    | nat n => rfl
    | ref r =>
      rw [isWhnf_ref] at hv ⊢
      rcases hr : h[r]? with _ | o
      · rw [hr] at hv
        cases hv
      · obtain ⟨o', hr', hdelayed, -⟩ := hold r o hr
        rw [hr] at hv
        rw [hr']
        have ho : o.delayed = false := by simpa using hv
        simp [hdelayed ho]
  · intro v i c hc
    obtain ⟨r, o, rfl, hr, hc⟩ := fields_getElem? hc
    obtain ⟨o', hr', -, -, hfields⟩ := hold r o hr
    obtain ⟨c', hc', himp⟩ := hfields i c hc
    refine ⟨c', ?_, fun hn => hnormal c' (himp hn)⟩
    rw [fields_ref, hr']
    exact hc'

theorem Keeps.append {os : List Obj} (hos : ∀ o ∈ os, o.normal = false) : h.Keeps (h ++ os) := by
  refine .of_objects ?_ ?_
  · intro r o' hr' hflag
    by_cases hlt : r < h.length
    · rw [List.getElem?_append_left hlt] at hr'
      exact .inl ⟨o', hr', rfl⟩
    · rw [List.getElem?_append_right (by omega)] at hr'
      rw [hos o' (List.mem_of_getElem? hr')] at hflag
      cases hflag
  · intro r o hr
    refine ⟨o, ?_, id, id, fun i c hc => ⟨c, hc, id⟩⟩
    rw [List.getElem?_append_left (List.getElem?_eq_some_iff.1 hr).1, hr]

/-- An object is replaced. -/
theorem Keeps.set {r : Nat} {o o' : Obj} (hr : h[r]? = some o)
    (hdelayed : o.delayed = false → o'.delayed = false) (hflag : o.normal = true → o'.normal = true)
    (hfields : ∀ (i : Nat) (c : Val), o.fields[i]? = some c →
      ∃ c', o'.fields[i]? = some c' ∧ (h.isNormal c = true → h.isNormal c' = true))
    (hsound : h.Sound → o'.normal = true → ∀ c ∈ o'.fields, h.isNormal c = true) :
    h.Keeps (h.set r o') := by
  intro hs
  have hlt : r < h.length := (List.getElem?_eq_some_iff.1 hr).1
  refine Keeps.of_objects ?_ ?_ hs
  · intro x p hx hp
    by_cases hrx : r = x
    · subst hrx
      rw [List.getElem?_set_self hlt] at hx
      cases hx
      exact .inr (hsound hs hp)
    · rw [List.getElem?_set_ne hrx] at hx
      exact .inl ⟨p, hx, rfl⟩
  · intro x p hx
    by_cases hrx : r = x
    · subst hrx
      rw [hr] at hx
      cases hx
      exact ⟨o', List.getElem?_set_self hlt, hdelayed, hflag, hfields⟩
    · exact ⟨p, by rw [List.getElem?_set_ne hrx, hx], id, id, fun i c hc => ⟨c, hc, id⟩⟩

/-- What is delayed is replaced by what is delayed. -/
theorem Keeps.delayed {r : Nat} {o o' : Obj} (hr : h[r]? = some o) (ho : o.delayed = true)
    (ho' : o'.delayed = true) : h.Keeps (h.set r o') := by
  refine .set hr ?_ ?_ ?_ ?_
  all_goals cases o <;> cases o' <;> simp_all [Obj.delayed, Obj.normal, Obj.fields]

theorem Keeps.alloc {o : Obj} (ho : o.normal = false) : h.Keeps (h.alloc o).1 :=
  .append fun _ hmem => List.mem_singleton.1 hmem ▸ ho

/-- What an allocation returns. -/
theorem alloc_whnf {o : Obj} (ho : o.delayed = false) :
    (h.alloc o).1.isWhnf (h.alloc o).2 = true := by
  have hget : (h.alloc o).1[h.length]? = some o := by simp [Heap.alloc]
  rw [show (h.alloc o).2 = .ref h.length from rfl, isWhnf_ref, hget]
  simp [ho]

/-! ### The evaluator's operations -/

theorem Keeps.mkAppFrom {head : Val} {args : List Val} {hv : Heap × Val}
    (hmk : h.mkAppFrom head args = some hv) : h.Keeps hv.1 ∧ hv.1.isWhnf hv.2 = true := by
  obtain ⟨need, -, hsome⟩ := Option.bind_eq_some_iff.1 hmk
  cases hsome
  exact ⟨.alloc rfl, alloc_whnf rfl⟩

theorem Keeps.mkAppSnoc {f x : Val} {hv : Heap × Val} (hmk : h.mkAppSnoc f x = some hv) :
    h.Keeps hv.1 ∧ hv.1.isWhnf hv.2 = true := by
  unfold Heap.mkAppSnoc at hmk
  split at hmk
  · cases hmk
    exact ⟨.alloc rfl, alloc_whnf rfl⟩
  · exact Keeps.mkAppFrom hmk

theorem Keeps.mkAppCat {f : Val} {xs : List Val} {hv : Heap × Val}
    (hmk : h.mkAppCat f xs = some hv) : h.Keeps hv.1 ∧ hv.1.isWhnf hv.2 = true := by
  unfold Heap.mkAppCat at hmk
  split at hmk
  · exact Keeps.mkAppFrom hmk
  · exact Keeps.mkAppFrom hmk

theorem Keeps.kal1 {env expr : Val} {hv : Heap × Val} (hkal : h.kal1 env expr = some hv) :
    h.Keeps hv.1 := by
  unfold Heap.kal1 at hkal
  split at hkal
  · obtain ⟨slot, -, hsome⟩ := Option.bind_eq_some_iff.1 hkal
    cases hsome
    exact .refl h
  · split at hkal
    · cases hkal
      exact .refl h
    · cases hkal
      exact .alloc rfl
    · cases hkal
      exact .refl h

theorem Keeps.knot (head : Val) (args binds : List Val) : h.Keeps (h.knot head args binds).1 := by
  refine .append fun o hmem => ?_
  rcases List.mem_cons.1 hmem with rfl | hmem
  · rfl
  · obtain ⟨b, -, rfl⟩ := List.mem_map.1 hmem
    rfl

theorem Keeps.thunkUpdate {r : Nat} {v : Val} (hupdate : h.thunkUpdate r v = some h') :
    h.Keeps h' := by
  unfold Heap.thunkUpdate at hupdate
  split at hupdate
  · cases hupdate
    exact .delayed ‹_› rfl rfl
  · cases hupdate
    exact .delayed ‹_› rfl rfl
  · cases hupdate

theorem Keeps.restoreThunk {r : Nat} {e : Val} (hrestore : h.restoreThunk r e = some h') :
    h.Keeps h' := by
  unfold Heap.restoreThunk at hrestore
  split at hrestore
  · cases hrestore
    exact .delayed ‹_› rfl rfl
  · cases hrestore

/-- A field of an object is replaced by a normal value. -/
theorem Keeps.setField {r i : Nat} {o o' : Obj} {c child : Val} (hr : h[r]? = some o)
    (hc : o.fields[i]? = some c) (hfields : o'.fields = o.fields.set i child)
    (hdelayed : o'.delayed = o.delayed) (hflag : o'.normal = o.normal)
    (hchild : h.isNormal child = true) :
    h.Keeps (h.set r o') ∧ (fields (h.set r o') (.ref r))[i]? = some child := by
  have hlt : i < o.fields.length := (List.getElem?_eq_some_iff.1 hc).1
  constructor
  · refine .set hr (fun hd => hdelayed.trans hd) (fun hn => hflag.trans hn) ?_ ?_
    · intro j c hj
      by_cases hij : i = j
      · subst hij
        exact ⟨child, by rw [hfields, List.getElem?_set_self hlt], fun _ => hchild⟩
      · exact ⟨c, by rw [hfields, List.getElem?_set_ne hij, hj], id⟩
    · intro hs hn c hmem
      rw [hfields] at hmem
      rcases List.mem_or_eq_of_mem_set hmem with hmem | rfl
      · refine hs (.ref r) ?_ c ?_
        · rw [isNormal_ref, hr]
          exact hflag.symm.trans hn
        · rw [fields_ref, hr]
          exact hmem
      · exact hchild
  · rw [fields_ref, List.getElem?_set_self (List.getElem?_eq_some_iff.1 hr).1]
    show (Obj.fields o')[i]? = some child
    rw [hfields, List.getElem?_set_self hlt]

/-- A normal child is written back in its place. -/
theorem Keeps.nfWriteback {v child c : Val} {i : Nat} (hwrite : h.nfWriteback v i child = some h')
    (hc : (h.fields v)[i]? = some c) (hchild : h.isNormal child = true) :
    h.Keeps h' ∧ (h'.fields v)[i]? = some child := by
  obtain ⟨r, o, rfl, hr, hc⟩ := fields_getElem? hc
  simp only [Heap.nfWriteback, hr] at hwrite
  cases o with
  | app need n head args =>
    cases i with
    | zero =>
      cases hwrite
      exact Keeps.setField hr hc rfl rfl rfl hchild
    | succ i =>
      cases hwrite
      exact Keeps.setField hr hc rfl rfl rfl hchild
  | law n a name body =>
    match i with
    | 0 =>
      cases hwrite
      exact Keeps.setField hr hc rfl rfl rfl hchild
    | 1 =>
      cases hwrite
      exact Keeps.setField hr hc rfl rfl rfl hchild
    | i + 2 => cases hc
  | pin n body =>
    cases n with
    | true => cases hwrite
    | false =>
      cases i with
      | zero =>
        cases hwrite
        exact Keeps.setField hr hc rfl rfl rfl hchild
      | succ i => cases hc
  | _ => cases hc

/-- The flag is set when every field is normal. -/
theorem Keeps.setNormal {v : Val} (hv : h.fields v ≠ [])
    (hall : ∀ c ∈ h.fields v, h.isNormal c = true) :
    h.Keeps (h.setNormal v) ∧ (h.setNormal v).isNormal v = true := by
  cases v with
  | nat n => exact absurd rfl hv
  | ref r =>
    rw [fields_ref] at hv hall
    rcases hr : h[r]? with _ | o
    · rw [hr] at hv
      exact absurd rfl hv
    · rw [hr] at hv hall
      have hlt : r < h.length := (List.getElem?_eq_some_iff.1 hr).1
      have hset : ∀ o' : Obj, o'.fields = o.fields → o'.delayed = o.delayed → o'.normal = true →
          h.Keeps (h.set r o') ∧ isNormal (h.set r o') (.ref r) = true := by
        intro o' hf hd hn
        refine ⟨.set hr (fun h => hd.trans h) (fun _ => hn) ?_ ?_, ?_⟩
        · exact fun i c hc => ⟨c, by rw [hf, hc], id⟩
        · exact fun _ _ c hc => hall c (by rwa [hf] at hc)
        · rw [isNormal_ref, List.getElem?_set_self hlt]
          exact hn
      simp only [Heap.setNormal, hr]
      cases o with
      | app need n head args => exact hset _ rfl rfl rfl
      | law n a name body => exact hset _ rfl rfl rfl
      | pin n body => exact hset _ rfl rfl rfl
      | _ => exact absurd rfl hv

end Heap

end Enki.Eval
