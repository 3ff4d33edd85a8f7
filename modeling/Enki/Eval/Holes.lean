import Enki.Eval.Entries

/-!
# Blackholes and their owners

A thunk under evaluation is a blackhole, and the expression it had is in the update frame that
will give it its value. In every state that a run reaches, suspended or not, each blackhole
belongs to exactly one frame of the run, or was there when the run began. So an exception, or
`pl_thread_abandon`, can always put back the thunks of the frames it discards.
-/

namespace Enki.Eval

open StateTransition

variable {W : Type}

/-! ## What keeps blackholes as they are -/

namespace Heap

/-- The blackholes are the same. -/
def SameHoles (h h' : Heap) : Prop :=
  ∀ (r : Nat) (env : Val), h'[r]? = some (Obj.bh env) ↔ h[r]? = some (Obj.bh env)

namespace SameHoles

variable {h h' h'' : Heap}

theorem refl (h : Heap) : SameHoles h h := fun _ _ => Iff.rfl

theorem trans (hl : SameHoles h h') (hr : SameHoles h' h'') : SameHoles h h'' :=
  fun r env => (hr r env).trans (hl r env)

/-- New objects are no blackholes. -/
theorem append {os : List Obj} (hos : ∀ env, Obj.bh env ∉ os) : SameHoles h (h ++ os) := by
  intro r env
  by_cases hr : r < h.length
  · rw [List.getElem?_append_left hr]
  · rw [List.getElem?_append_right (by omega), List.getElem?_eq_none (l := h) (by omega)]
    constructor
    · intro hmem
      exact absurd (List.mem_of_getElem? hmem) (hos env)
    · intro hnone
      cases hnone

/-- Nor is an object that is written over another one. -/
theorem set {r : Nat} {o : Obj} (hold : ∀ env, h[r]? ≠ some (Obj.bh env))
    (hnew : ∀ env, o ≠ .bh env) : SameHoles h (h.set r o) := by
  intro x env
  by_cases hx : r = x
  · subst hx
    rw [List.getElem?_set_self']
    cases hr : h[r]? with
    | none => simp
    | some old =>
      have hneq : old ≠ .bh env := by
        rintro rfl
        exact hold env hr
      simp [hnew env, hneq]
  · rw [List.getElem?_set_ne hx]

theorem alloc {o : Obj} (ho : ∀ env, o ≠ .bh env) : SameHoles h (h.alloc o).1 :=
  append fun env hmem => ho env (List.mem_singleton.1 hmem).symm

theorem mkAppFrom {head : Val} {args : List Val} {hv : Heap × Val}
    (hmk : h.mkAppFrom head args = some hv) : SameHoles h hv.1 := by
  obtain ⟨need, -, hsome⟩ := Option.bind_eq_some_iff.1 hmk
  cases hsome
  exact alloc fun env => by simp

theorem mkAppSnoc {f x : Val} {hv : Heap × Val} (hmk : h.mkAppSnoc f x = some hv) :
    SameHoles h hv.1 := by
  unfold Heap.mkAppSnoc at hmk
  split at hmk
  · cases hmk
    exact alloc fun env => by simp
  · exact mkAppFrom hmk

theorem mkAppCat {f : Val} {xs : List Val} {hv : Heap × Val} (hmk : h.mkAppCat f xs = some hv) :
    SameHoles h hv.1 := by
  unfold Heap.mkAppCat at hmk
  split at hmk
  · exact mkAppFrom hmk
  · exact mkAppFrom hmk

theorem kal1 {env expr : Val} {hv : Heap × Val} (hkal : h.kal1 env expr = some hv) :
    SameHoles h hv.1 := by
  unfold Heap.kal1 at hkal
  split at hkal
  · obtain ⟨slot, -, hsome⟩ := Option.bind_eq_some_iff.1 hkal
    cases hsome
    exact refl h
  · split at hkal
    · cases hkal
      exact refl h
    · cases hkal
      exact alloc fun env => by simp
    · cases hkal
      exact refl h

theorem knot (head : Val) (args binds : List Val) : SameHoles h (h.knot head args binds).1 := by
  refine append fun env hmem => ?_
  simp at hmem

/-- Normalisation writes into laws, pins and applications. -/
theorem nfWriteback {v : Val} {i : Nat} {child : Val} (hwrite : h.nfWriteback v i child = some h') :
    SameHoles h h' := by
  unfold Heap.nfWriteback at hwrite
  split at hwrite
  · cases hwrite
  · split at hwrite
    · split at hwrite <;> cases hwrite <;> exact set (by simp_all) (by simp)
    · split at hwrite <;> cases hwrite <;> exact set (by simp_all) (by simp)
    · split at hwrite
      · cases hwrite
        exact set (by simp_all) (by simp)
      · cases hwrite
    · cases hwrite

/-- And sets their flag. -/
theorem setNormal (v : Val) : SameHoles h (h.setNormal v) := by
  unfold Heap.setNormal
  split
  · exact refl h
  · split
    · exact set (by simp_all) (by simp)
    · exact set (by simp_all) (by simp)
    · exact set (by simp_all) (by simp)
    · exact refl h

end SameHoles

end Heap

/-- What a body did to the heap, unless a check failed in it. -/
def BodyResult.Left (R : Heap → Heap → Prop) (h : Heap) : BodyResult W → Prop
  | .returns _ _ s | .raises _ s => R h s.heap
  | .aborts => True

/-- What the bodies do to the heap. -/
def Ctx.Respects (ctx : Ctx W) (R : Heap → Heap → Prop) : Prop :=
  ∀ op name args s, (ctx.body op name args s).Left R s.heap

/-- What the executor does to the heap when it answers. -/
def Mode.Respects (mode : Mode W) (R : Heap → Heap → Prop) : Prop :=
  match mode with
  | .executor answer => ∀ request s, R s.heap (answer request s).2.heap
  | _ => True

/-! ## Owners -/

/-- The thunk that a frame will update. -/
def Frame.target : Frame → Option Nat
  | .update r _ => some r
  | _ => none

/-- The thunks that frames will update. -/
def updates (fs : List Frame) : List Nat := fs.filterMap Frame.target

/-- The frames own the blackholes that were not in the first heap. -/
structure Owned (h₀ h : Heap) (above : List Frame) : Prop where
  nodup : (updates above).Nodup
  held : ∀ r ∈ updates above, ∃ env, h[r]? = some (Obj.bh env)
  fresh : ∀ r ∈ updates above, ∀ env, h₀[r]? ≠ some (Obj.bh env)
  others : ∀ r ∉ updates above, ∀ env, h[r]? = some (Obj.bh env) ↔ h₀[r]? = some (Obj.bh env)

namespace Owned

variable {h₀ h h' : Heap} {above : List Frame}

/-- The blackholes do not change. -/
theorem heap (ho : Owned h₀ h above) (hh : h.SameHoles h') : Owned h₀ h' above where
  nodup := ho.nodup
  held r hr := by
    obtain ⟨env, henv⟩ := ho.held r hr
    exact ⟨env, (hh r env).2 henv⟩
  fresh := ho.fresh
  others r hr env := (hh r env).trans (ho.others r hr env)

/-- Nor do the update frames. -/
theorem frames {above' : List Frame} (ho : Owned h₀ h above) (hu : updates above' = updates above) :
    Owned h₀ h above' :=
  ⟨hu ▸ ho.nodup, hu ▸ ho.held, hu ▸ ho.fresh, hu ▸ ho.others⟩

/-- A thunk is entered. -/
theorem enter {r : Nat} {env expr e : Val} (ho : Owned h₀ h above)
    (hr : h[r]? = some (.thunk env expr)) : Owned h₀ (h.set r (.bh env)) (.update r e :: above) := by
  -- a thunk is no blackhole, and so no frame is to update it yet
  have hnot : r ∉ updates above := by
    intro hmem
    obtain ⟨env', henv'⟩ := ho.held r hmem
    rw [hr] at henv'
    cases henv'
  have hlt : r < h.length := (List.getElem?_eq_some_iff.1 hr).1
  constructor
  · exact List.nodup_cons.2 ⟨hnot, ho.nodup⟩
  · intro x hx
    rcases List.mem_cons.1 hx with rfl | hx
    · exact ⟨env, by rw [List.getElem?_set_self hlt]⟩
    · have hne : r ≠ x := fun heq => hnot (heq ▸ hx)
      rw [List.getElem?_set_ne hne]
      exact ho.held x hx
  · intro x hx env'
    rcases List.mem_cons.1 hx with rfl | hx
    · intro h0
      rw [← ho.others _ hnot, hr] at h0
      cases h0
    · exact ho.fresh x hx env'
  · intro x hx env'
    obtain ⟨hne, hx⟩ := not_or.1 (mt List.mem_cons.2 hx)
    rw [List.getElem?_set_ne (Ne.symm hne)]
    exact ho.others x hx env'

/-- The target of the topmost update frame is no blackhole any longer. -/
theorem leave {r : Nat} {e : Val} {o : Obj} (ho : Owned h₀ h (.update r e :: above))
    (hnew : ∀ env, o ≠ .bh env) : Owned h₀ (h.set r o) above := by
  obtain ⟨hnot, hnodup⟩ := List.nodup_cons.1 ho.nodup
  constructor
  · exact hnodup
  · intro x hx
    have hne : r ≠ x := fun heq => hnot (heq ▸ hx)
    rw [List.getElem?_set_ne hne]
    exact ho.held x (List.mem_cons_of_mem _ hx)
  · exact fun x hx => ho.fresh x (List.mem_cons_of_mem _ hx)
  · intro x hx env
    by_cases hrx : r = x
    · subst hrx
      obtain ⟨env', henv'⟩ := ho.held r List.mem_cons_self
      have hlt := (List.getElem?_eq_some_iff.1 henv').1
      rw [List.getElem?_set_self hlt]
      -- the thunk was a blackhole, and was none in the first heap
      constructor
      · intro heq
        exact absurd (Option.some.inj heq) (hnew env)
      · intro h0
        exact absurd h0 (ho.fresh r List.mem_cons_self env)
    · rw [List.getElem?_set_ne hrx]
      exact ho.others x (mt List.mem_cons.1 (not_or.2 ⟨Ne.symm hrx, hx⟩)) env

/-- The thunk gets its value. -/
theorem update {r : Nat} {e v : Val} (ho : Owned h₀ h (.update r e :: above))
    (hupdate : h.thunkUpdate r v = some h') : Owned h₀ h' above := by
  unfold Heap.thunkUpdate at hupdate
  split at hupdate
  · cases hupdate
    exact ho.leave (by simp)
  · cases hupdate
    exact ho.leave (by simp)
  · cases hupdate

/-- The thunks of discarded frames can be put back. -/
theorem unwind {discarded : List Frame} (ho : Owned h₀ h (discarded ++ above)) :
    ∃ h', unwindFrames discarded h = some h' ∧ Owned h₀ h' above := by
  induction discarded generalizing h with
  | nil => exact ⟨h, rfl, ho⟩
  | cons f fs ih =>
    cases f with
    -- the topmost frame puts its thunk back, and the rest is unwound from there
    | update r e =>
      obtain ⟨env, henv⟩ := ho.held r List.mem_cons_self
      obtain ⟨h', hunwind, ho'⟩ := ih (ho.leave (o := .thunk env e) (by simp))
      refine ⟨h', ?_, ho'⟩
      rw [unwindFrames, Heap.restoreThunk, henv]
      exact hunwind
    | _ => exact ih (ho.frames rfl)

end Owned

/-! ## Along a run -/

/-- A label that goes on with the topmost frame. -/
def Ctl.Framed : Ctl → Prop
  | .opargNext | .opdeepNext | .nfField => True
  | _ => False

/-- No check has failed yet, and the frames of the run own its blackholes. -/
def Held (h₀ : Heap) (F : List Frame) (t : Thread W) : Prop :=
  t.ctl = .abort ∨
    ∃ above, t.frames = above ++ F ∧ Owned h₀ t.sto.heap above ∧ (t.ctl.Framed → above ≠ [])

namespace Held

variable {h₀ : Heap} {F : List Frame} {t : Thread W} {above : List Frame}

theorem abort (t : Thread W) : Held h₀ F t.abort := .inl rfl

theorem orAbort {α : Type} {o : Option α} {k : α → Thread W}
    (h : ∀ a, o = some a → Held h₀ F (k a)) : Held h₀ F (t.orAbort o k) := by
  cases o with
  | none => exact abort t
  | some a => exact h a rfl

section

variable (hf : t.frames = above ++ F) (ho : Owned h₀ t.sto.heap above)
include hf ho

/-- A step that pushes no update frame and leaves the blackholes alone. -/
theorem keep {t' : Thread W} (pushed : List Frame) (hframes : t'.frames = pushed ++ t.frames)
    (hu : updates pushed = []) (hh : t.sto.heap.SameHoles t'.sto.heap)
    (hctl : t'.ctl.Framed → pushed ≠ []) : Held h₀ F t' := by
  refine .inr ⟨pushed ++ above, ?_, (ho.heap hh).frames ?_, fun hframed => ?_⟩
  · rw [hframes, hf, List.append_assoc]
  · rw [updates, List.filterMap_append, ← updates, hu, List.nil_append, ← updates]
  · simp [hctl hframed]

/-- Evaluating a value: only a thunk pushes an update frame, and it becomes a blackhole. -/
theorem evalVal (v : Val) : Held h₀ F (t.evalVal v) := by
  unfold Thread.evalVal
  split
  · exact keep hf ho [] rfl rfl (.refl _) False.elim
  · split
    · exact keep hf ho [] rfl rfl (.refl _) False.elim
    · exact keep hf ho [] rfl rfl (.refl _) False.elim
    · rename_i r _ env expr hr
      refine .inr ⟨.update r expr :: above, ?_, ho.enter hr, fun hframed => by simp⟩
      rw [List.cons_append, ← hf]
      rfl
    · exact keep hf ho [] rfl rfl (.refl _) False.elim
    · exact abort t

/-- Fuel is counted and may run out, which suspends the run or refills it. -/
theorem eval (en : Entry W) (v : Val) : Held h₀ F (t.eval en v) := by
  unfold Thread.eval
  split
  · split
    · exact keep hf ho [] rfl rfl (.refl _) False.elim
    · exact evalVal (t := { t with fuel := 2 ^ 64 - 1 }) hf ho v
    · exact evalVal (t := { t with fuel := 1 }) hf ho v
  · exact evalVal (t := { t with fuel := t.fuel - 1 }) hf ho v

/-- The body of a law pushes frames for operands, and allocates. -/
theorem evalExpr (env expr : Val) : Held h₀ F (t.evalExpr env expr) := by
  unfold Thread.evalExpr
  simp only
  split
  · exact keep hf ho [_] rfl rfl (.refl _) False.elim
  · split
    · refine orAbort fun slot _ => ?_
      split
      · exact keep hf ho [] rfl rfl (.refl _) False.elim
      · exact keep hf ho [] rfl rfl (.refl _) False.elim
    · split
      · exact keep hf ho [] rfl rfl (.refl _) False.elim
      · split
        · refine orAbort fun hx hkx => orAbort fun hfn hkf => ?_
          exact keep hf ho [_] rfl rfl ((Heap.SameHoles.kal1 hkx).trans (.kal1 hkf)) False.elim
        · exact keep hf ho [_] rfl rfl (.refl _) False.elim
      · exact keep hf ho [] rfl rfl (.refl _) False.elim

theorem judge (jbase jargc : Nat) (law : Option Obj) : Held h₀ F (t.judge jbase jargc law) := by
  unfold Thread.judge
  split
  · split
    · exact keep hf ho [] rfl rfl (.refl _) False.elim
    · exact abort t
  · exact abort t

/-- An entry pushes at most a frame for the name of a primop. -/
theorem fastApply (hbase : Nat) : Held h₀ F (t.fastApply hbase) := by
  unfold Thread.fastApply
  simp only
  split
  · exact abort t
  · split
    · split
      · split
        · exact keep hf ho [_] rfl rfl (.refl _) False.elim
        · exact abort t
      · split
        · exact judge hf ho _ _ _
        · exact keep hf ho [] rfl rfl (.refl _) False.elim
    · exact judge hf ho _ _ _

/-- The knot of a law's environment is a row of new objects. -/
theorem judgeScan (jbase jargc : Nat) : Held h₀ F (t.judgeScan jbase jargc) := by
  unfold Thread.judgeScan
  simp only
  split
  · exact abort t
  · split
    · exact keep hf ho [_] rfl rfl (.refl _) False.elim
    · split
      · exact keep hf ho [] rfl rfl (.refl _) False.elim
      · split
        · exact abort t
        · exact keep hf ho [] rfl rfl (.knot _ _ _) False.elim

theorem opArgs (op argbase argc k : Nat) : Held h₀ F (t.opArgs op argbase argc k) := by
  unfold Thread.opArgs
  split
  · split
    · exact keep hf ho [] rfl rfl (.refl _) False.elim
    · split
      · exact abort t
      · split
        · exact keep hf ho [_] rfl rfl (.refl _) False.elim
        · exact keep hf ho [] rfl rfl (.refl _) False.elim
  · exact keep hf ho [] rfl rfl (.refl _) False.elim

theorem opArgsReady (op argbase argc : Nat) : Held h₀ F (t.opArgsReady op argbase argc) := by
  unfold Thread.opArgsReady
  split
  · exact keep hf ho [_] rfl rfl (.refl _) fun _ => List.cons_ne_nil _ _
  · exact keep hf ho [] rfl rfl (.refl _) False.elim

theorem request (en : Entry W) (v : Val) : Held h₀ F (t.request en v) := by
  unfold Thread.request
  split
  · exact keep hf ho [] rfl rfl (.refl _) False.elim
  · exact keep hf ho [] rfl rfl (.refl _) False.elim
  · exact abort t

/-- A body does to the blackholes what `Respects` says, and pushes continuations. -/
theorem opBody {ctx : Ctx W} (hctx : ctx.Respects Heap.SameHoles) (en : Entry W)
    (op argbase argc : Nat) : Held h₀ F (t.opBody ctx en op argbase argc) := by
  unfold Thread.opBody
  simp only
  generalize hs : ({ t.sto with epoch := _ } : Sto W) = s
  have hheap : t.sto.heap = s.heap := by rw [← hs]
  have hbody := hctx op ((t.vstack[argbase - 1]?).getD (Val.nat 0))
    ((t.vstack.drop argbase).take argc) s
  split
  · exact abort _
  · rename_i e s' heq
    rw [heq] at hbody
    exact keep hf ho [] rfl rfl (hheap ▸ hbody) False.elim
  · rename_i v pushed s' heq
    rw [heq] at hbody
    -- continuations are no update frames
    have hplain : updates (pushed.map (Kont.frame (argbase - 1))) = [] := by
      rw [updates, List.filterMap_map, List.filterMap_eq_nil_iff]
      intro k _
      cases k <;> rfl
    split
    · have ho' : Owned h₀ s'.heap (pushed.map (Kont.frame (argbase - 1)) ++ above) := by
        refine (ho.heap (hheap ▸ hbody)).frames ?_
        rw [updates, List.filterMap_append, ← updates, hplain, List.nil_append, ← updates]
      refine request ?_ ho' en v
      rw [List.append_assoc, ← hf]
    · split
      · exact keep hf ho _ rfl hplain (hheap ▸ hbody) False.elim
      · exact keep hf ho _ rfl hplain (hheap ▸ hbody) False.elim

theorem retApply (v x : Val) : Held h₀ F (t.retApply v x) := by
  refine orAbort fun need _ => ?_
  split
  · refine orAbort fun hv hmk => ?_
    exact keep hf ho [] rfl rfl (.mkAppSnoc hmk) False.elim
  · exact keep hf ho [] rfl rfl (.refl _) False.elim

/-- The arguments that are left over become frames. -/
theorem retApplyn (v : Val) (argbase argc : Nat) : Held h₀ F (t.retApplyn v argbase argc) := by
  refine orAbort fun a _ => ?_
  split
  · refine orAbort fun hv hmk => ?_
    exact keep hf ho [] rfl rfl (.mkAppCat hmk) False.elim
  · refine keep hf ho _ rfl ?_ (.refl _) False.elim
    rw [updates, List.filterMap_map, List.filterMap_eq_nil_iff]
    exact fun x _ => rfl

theorem retOpent (ctx : Ctx W) (v : Val) (opset : Nat) : Held h₀ F (t.retOpent ctx v opset) := by
  unfold Thread.retOpent
  simp only
  split
  · exact keep hf ho [] rfl rfl (.refl _) False.elim
  · split
    · exact keep hf ho [] rfl rfl (.refl _) False.elim
    · rename_i hfound
      obtain ⟨memo, rfl⟩ := Ctx.findOp_sto hfound
      exact keep hf ho [] rfl rfl (.refl _) False.elim

end

/-! ### Steps that take a frame -/

/-- A frame that updates nothing is taken off. -/
theorem pop {f : Frame} {h : Heap} (ho : Owned h₀ h (f :: above)) (hplain : f.target = none) :
    Owned h₀ h above := by
  refine ho.frames ?_
  rw [updates, updates, List.filterMap_cons, hplain]

theorem retKapp {v env expr : Val} {k argbase : Nat} {fs : List Frame} (hf : fs = above ++ F)
    (ho : Owned h₀ t.sto.heap above) : Held h₀ F (t.retKapp v env expr k argbase fs) := by
  refine orAbort fun hv hkal => ?_
  split
  · split
    · exact keep (t := { t with frames := fs }) hf ho [_] rfl rfl (.kal1 hkal) False.elim
    · exact abort t
  · refine orAbort fun xv _ => ?_
    exact keep (t := { t with frames := fs }) hf ho [_] rfl rfl (.kal1 hkal) False.elim

/-- A value comes back to a frame: an update frame gives its thunk the value, and any other
leaves the blackholes alone. -/
theorem retTo {ctx : Ctx W} {f : Frame} {fs : List Frame} {v : Val} (hf : fs = above ++ F)
    (ho : Owned h₀ t.sto.heap (f :: above)) : Held h₀ F (t.retTo ctx f fs v) := by
  cases f with
  -- the one case in which a blackhole goes away
  | update r expr =>
    refine orAbort fun h hupdate => .inr ⟨above, hf, ho.update hupdate, False.elim⟩
  | apply x => exact retApply (t := { t with frames := fs }) hf (pop ho rfl) v x
  | applyn argbase argc =>
    exact retApplyn (t := { t with frames := fs }) hf (pop ho rfl) v argbase argc
  | opent opset => exact retOpent (t := { t with frames := fs }) hf (pop ho rfl) ctx v opset
  | kapp env expr k argbase => exact retKapp hf (pop ho rfl)
  | oparg op argbase argc k =>
    exact keep (t := { t with frames := fs }) hf (pop ho rfl) [_] rfl rfl (.refl _)
      fun _ => List.cons_ne_nil _ _
  | opdeep op argbase argc k =>
    exact keep (t := { t with frames := fs }) hf (pop ho rfl) [_] rfl rfl (.refl _)
      fun _ => List.cons_ne_nil _ _
  | nf =>
    unfold Thread.retTo
    simp only
    split
    · exact keep (t := { t with frames := fs }) hf (pop ho rfl) [] rfl rfl (.refl _) False.elim
    · exact keep (t := { t with frames := fs }) hf (pop ho rfl) [_] rfl rfl (.refl _)
        fun _ => List.cons_ne_nil _ _
  | nfobj o k =>
    refine orAbort fun h hwrite => ?_
    split
    · exact keep (t := { t with frames := fs }) hf (pop ho rfl) [_] rfl rfl (.nfWriteback hwrite)
        fun _ => List.cons_ne_nil _ _
    · exact keep (t := { t with frames := fs }) hf (pop ho rfl) [] rfl rfl
        ((Heap.SameHoles.nfWriteback hwrite).trans (.setNormal o)) False.elim
  | tryIn mark =>
    refine orAbort fun hv hmk => ?_
    exact keep (t := { t with frames := fs }) hf (pop ho rfl) [] rfl rfl (.mkAppFrom hmk) False.elim
  | memo f x epoch =>
    refine keep (t := { t with frames := fs }) hf (pop ho rfl) [] rfl rfl ?_ False.elim
    show Heap.SameHoles _ (Thread.retMemo ctx t.sto f x epoch v).heap
    unfold Thread.retMemo
    split
    · split
      · exact .refl _
      · exact .refl _
    · exact .refl _
  | _ => exact keep (t := { t with frames := fs }) hf (pop ho rfl) [] rfl rfl (.refl _) False.elim

/-- A return ends the run at its own base, or goes to the topmost frame. -/
theorem ret {ctx : Ctx W} {mode : Mode W} {S : List Val} {v : Val} (hf : t.frames = above ++ F)
    (ho : Owned h₀ t.sto.heap above) : Held h₀ F (t.ret ctx (.above mode S F) v) := by
  unfold Thread.ret
  split
  · exact keep hf ho [] rfl rfl (.refl _) False.elim
  · rename_i hbase
    split
    · exact abort t
    · rename_i f fs hfs
      cases above with
      | nil => exact absurd (congrArg List.length hf) hbase
      | cons g above =>
        obtain ⟨rfl, rfl⟩ := List.cons.inj (hfs.symm.trans hf)
        exact retTo rfl ho

/-- The next argument of a primop; the frame is changed in place. -/
theorem opargNext (hf : t.frames = above ++ F) (ho : Owned h₀ t.sto.heap above)
    (hne : above ≠ []) : Held h₀ F t.opargNext := by
  unfold Thread.opargNext
  split
  · rename_i op argbase argc k fs hfs
    obtain ⟨g, above, rfl⟩ := List.exists_cons_of_ne_nil hne
    obtain ⟨rfl, rfl⟩ := List.cons.inj (hfs.symm.trans hf)
    -- one frame is taken off and one put back
    have hstep : ∀ t' : Thread W, t'.sto = t.sto →
        (∃ k', t'.frames = .oparg op argbase argc k' :: (above ++ F)) → Held h₀ F t' := by
      rintro t' hsto ⟨k', hframes⟩
      refine keep (t := { t with frames := above ++ F }) rfl (pop ho rfl) [_] hframes rfl ?_
        fun _ => List.cons_ne_nil _ _
      rw [hsto]
      exact .refl _
    split
    · split
      · exact hstep _ rfl ⟨_, rfl⟩
      · split
        · exact abort t
        · split
          · exact hstep _ rfl ⟨_, hfs⟩
          · exact hstep _ rfl ⟨_, rfl⟩
    · split
      · exact keep (t := { t with frames := above ++ F }) rfl (pop ho rfl) [_] rfl rfl (.refl _)
          fun _ => List.cons_ne_nil _ _
      · exact keep (t := { t with frames := above ++ F }) rfl (pop ho rfl) [] rfl rfl (.refl _)
          False.elim
  · exact abort t

/-- The same for the arguments that have to be normal. -/
theorem opdeepNext (hf : t.frames = above ++ F) (ho : Owned h₀ t.sto.heap above)
    (hne : above ≠ []) : Held h₀ F t.opdeepNext := by
  unfold Thread.opdeepNext
  split
  · rename_i op argbase argc k fs hfs
    split
    · split
      · obtain ⟨g, above, rfl⟩ := List.exists_cons_of_ne_nil hne
        obtain ⟨rfl, rfl⟩ := List.cons.inj (hfs.symm.trans hf)
        exact keep (t := { t with frames := above ++ F }) rfl (pop ho rfl) [_] rfl rfl (.refl _)
          fun _ => List.cons_ne_nil _ _
      · refine orAbort fun v _ => ?_
        exact keep hf ho [_] rfl rfl (.refl _) False.elim
    · obtain ⟨g, above, rfl⟩ := List.exists_cons_of_ne_nil hne
      obtain ⟨rfl, rfl⟩ := List.cons.inj (hfs.symm.trans hf)
      exact keep (t := { t with frames := above ++ F }) rfl (pop ho rfl) [] rfl rfl (.refl _)
        False.elim
  · exact abort t

theorem nfField (hf : t.frames = above ++ F) (ho : Owned h₀ t.sto.heap above) :
    Held h₀ F t.nfField := by
  unfold Thread.nfField
  split
  · refine orAbort fun v _ => ?_
    exact keep hf ho [_] rfl rfl (.refl _) False.elim
  · exact abort t

/-- The barrier that catches an exception is where the frames are split. -/
theorem splitTry_spec {fs a b : List Frame} {mark : Nat}
    (h : Thread.splitTry fs = some (a, mark, b)) : fs = a ++ .tryIn mark :: b := by
  induction fs generalizing a with
  | nil => cases h
  | cons f fs ih =>
    cases f with
    | tryIn m =>
      cases h
      rfl
    | _ =>
      obtain ⟨⟨a', m, b'⟩, hsplit, heq⟩ := Option.map_eq_some_iff.1 h
      cases heq
      rw [ih hsplit]
      rfl

/-- An exception discards frames up to the barrier, or all of them; their thunks are put back.
-/
theorem caught {mode : Mode W} {S : List Val} {e : Exn} (hf : t.frames = above ++ F)
    (ho : Owned h₀ t.sto.heap above) : Held h₀ F (t.caught (.above mode S F) e) := by
  -- the frames of the run are those above its base
  have htake : t.frames.take (t.frames.length - F.length) = above := by
    rw [hf, List.length_append, Nat.add_sub_cancel, List.take_left']
    rfl
  have hdrop : t.frames.drop (t.frames.length - F.length) = F := by
    rw [hf, List.length_append, Nat.add_sub_cancel, List.drop_left']
    rfl
  unfold Thread.caught
  simp only [Entry.above, htake, hdrop]
  split
  · rename_i v a mark b hsplit
    rw [splitTry_spec hsplit] at ho
    obtain ⟨h, hunwind, ho⟩ := ho.unwind
    rw [hunwind, Thread.orAbort]
    refine orAbort fun hv hmk => ?_
    refine .inr ⟨b, rfl, (pop ho rfl).heap (.mkAppFrom hmk), False.elim⟩
  · rw [← List.append_nil above] at ho
    obtain ⟨h, hunwind, ho⟩ := ho.unwind
    rw [hunwind]
    exact .inr ⟨[], rfl, ho, False.elim⟩

/-- A step of the machine. -/
theorem step {ctx : Ctx W} {mode : Mode W} {S : List Val} (hctx : ctx.Respects Heap.SameHoles)
    (h : Held h₀ F t) : Held h₀ F (t.step ctx (.above mode S F)) := by
  obtain habort | ⟨above, hf, ho, hframed⟩ := h
  · refine .inl ?_
    rw [Thread.step, habort]
    exact habort
  · unfold Thread.step
    split
    · exact eval hf ho _ _
    · exact evalExpr hf ho _ _
    · exact ret hf ho
    · exact fastApply hf ho _
    · exact judgeScan hf ho _ _
    · exact opArgs hf ho _ _ _ _
    · exact opArgsReady hf ho _ _ _
    · exact opargNext hf ho (hframed (by simp_all [Ctl.Framed]))
    · exact opdeepNext hf ho (hframed (by simp_all [Ctl.Framed]))
    · exact opBody hf ho hctx _ _ _ _
    · exact nfField hf ho
    · exact caught hf ho
    all_goals exact .inr ⟨above, hf, ho, hframed⟩

/-- A step of the machine, or of its executor. -/
theorem next {ctx : Ctx W} {mode : Mode W} {S : List Val} {quantum : Nat → Nat} {r r' : Run W}
    (hctx : ctx.Respects Heap.SameHoles) (hmode : mode.Respects Heap.SameHoles)
    (hstep : Run.next ctx (.above mode S F) quantum r = some r') (h : Held h₀ F r.thread) :
    Held h₀ F r'.thread := by
  unfold Run.next at hstep
  split at hstep
  · cases hstep
  · cases hstep
  · cases hstep
  · -- a yield is resumed as it was
    rename_i hctl
    cases hstep
    obtain habort | ⟨above, hf, ho, -⟩ := h
    · rw [habort] at hctl
      cases hctl
    · exact .inr ⟨above, hf, ho, False.elim⟩
  · rename_i request answer hctl hexec
    obtain habort | ⟨above, hf, ho, -⟩ := h
    · rw [habort] at hctl
      cases hctl
    · have hanswer : r.thread.sto.heap.SameHoles (answer request r.thread.sto).2.heap := by
        simp only [Entry.above] at hexec
        rw [hexec] at hmode
        exact hmode request r.thread.sto
      simp only at hstep
      split at hstep
      · cases hstep
        exact .inr ⟨above, hf, ho.heap hanswer, False.elim⟩
      · cases hstep
        exact .inl rfl
  · cases hstep
    exact step hctx h

end Held

/-- **Blackholes are owned.** In every state that a run reaches, whatever its quanta, unless a
check has failed: the blackholes that were not there at the beginning are the targets of the
run's update frames, one frame each; and discarding these frames puts back every thunk. -/
theorem blackholes_owned {ctx : Ctx W} {mode : Mode W} {quantum : Nat → Nat}
    (hctx : ctx.Respects Heap.SameHoles) (hmode : mode.Respects Heap.SameHoles) (ks : List Kont)
    (v : Val) (S : List Val) (F : List Frame) (s : Sto W) (fuel : Nat) {r : Run W}
    (hr : Reaches (Run.next ctx (.above mode S F) quantum) (.enter ks v S F s fuel) r) :
    r.thread.ctl = .abort ∨
      ∃ above h', r.thread.frames = above ++ F ∧ Owned s.heap r.thread.sto.heap above ∧
        unwindFrames above r.thread.sto.heap = some h' ∧ s.heap.SameHoles h' := by
  have hheld : Held s.heap F r.thread := by
    induction hr with
    | refl =>
      have hplain : updates (ks.map (Kont.frame S.length)) = [] := by
        rw [updates, List.filterMap_map, List.filterMap_eq_nil_iff]
        intro k _
        cases k <;> rfl
      refine .inr ⟨_, rfl, ⟨?_, ?_, ?_, ?_⟩, False.elim⟩
      all_goals simp [hplain, Run.enter]
    | tail _ hstep ih => exact Held.next hctx hmode hstep ih
  obtain habort | ⟨above, hf, ho, -⟩ := hheld
  · exact .inl habort
  · rw [← List.append_nil above] at ho
    obtain ⟨h', hunwind, ho'⟩ := ho.unwind
    rw [List.append_nil] at ho
    exact .inr ⟨above, h', hf, ho, hunwind, fun x env => ho'.others x (by simp [updates]) env⟩

/-- The thunk of the sample has been entered. -/
def sampleEntered : Run Unit :=
  .at (.evalExpr (.ref 1) (.ref 3)) [] [.update 4 (.ref 3)]
    { sample with heap := sample.heap.set 4 (.bh (.ref 1)) } 8 0

theorem blackholes_owned_sample :
    sampleEntered.thread.ctl = .abort ∨
      ∃ above h', sampleEntered.thread.frames = above ++ [] ∧
        Owned sample.heap sampleEntered.thread.sto.heap above ∧
        unwindFrames above sampleEntered.thread.sto.heap = some h' ∧ sample.heap.SameHoles h' :=
  have hr : Reaches (Run.next firstOf (.above .host [] []) fun _ => 2)
      (.enter [] (.ref 4) [] [] sample 9) sampleEntered := .single rfl
  have hctx : firstOf.Respects Heap.SameHoles := fun _ _ _ s => Heap.SameHoles.refl s.heap
  have hmode : Mode.Respects (W := Unit) .host Heap.SameHoles := trivial
  blackholes_owned hctx hmode [] (.ref 4) [] [] sample 9 hr

end Enki.Eval
