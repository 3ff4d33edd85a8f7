import Enki.Eval.Shapes

/-!
# Flat spines

In every state that a run from a flat heap reaches the heap is flat, and a law is only entered
with as many arguments as it takes. What has to be known of the frames is that normalisation,
which writes every field of an object back, writes heads and the bodies of pins back as they
were: they are values already, and a value is what its own evaluation and normalisation return.
-/

namespace Enki.Eval

open StateTransition

variable {W : Type}

/-! ## What frames wait for -/

/-- The value is what the frames take: an object is given back the field it began with. -/
def Awaits (h : Heap) : List Frame → Val → Prop
  | .nf :: fs, v => Awaits h fs v
  | .nfobj o 0 :: _, v => ∀ c, h.key o = some c → v = c
  | _, _ => True

/-- The frames take any value. -/
def TakesAny (h : Heap) (fs : List Frame) : Prop := ∀ v, Awaits h fs v

/-- Every frame takes what the frames above it come to. A frame for several arguments belongs
to attached code. -/
def Stacked (h : Heap) : List Frame → Prop
  | [] => True
  | .nf :: fs => Stacked h fs
  | .nfobj o _ :: fs => h.isWhnf o = true ∧ Awaits h fs o ∧ Stacked h fs
  | .applyn _ _ :: _ => False
  | _ :: fs => TakesAny h fs ∧ Stacked h fs

/-- A head that is about to be entered has as many arguments as it takes. -/
def Heap.Exact (h : Heap) : List Val → Prop
  | [] => False
  | head :: args => h.asApp head = none ∧ args ≠ [] ∧ h.arity head = some args.length

/-- A frame that gives the ones below it some value or other. -/
def Frame.Loose : Frame → Prop
  | .nf | .nfobj _ _ | .applyn _ _ => False
  | _ => True

section

variable {h h' : Heap} {fs : List Frame} {f : Frame} {v : Val}

/-- Above such a frame any value may come. -/
theorem Frame.Loose.takesAny (hf : f.Loose) (h : Heap) (fs : List Frame) : TakesAny h (f :: fs) := by
  intro v
  cases f with
  | nf => cases hf
  | nfobj o k => cases hf
  | _ => trivial

/-- It asks the frames below to take any. -/
theorem Frame.Loose.stacked (hf : f.Loose) : Stacked h (f :: fs) ↔ TakesAny h fs ∧ Stacked h fs := by
  cases f with
  | nf => cases hf
  | nfobj o k => cases hf
  | applyn b n => cases hf
  | _ => exact Iff.rfl

/-- What frames wait for is a key of a value, which stays. By induction on the frames. -/
theorem Awaits.stable (hst : h.Stable h') (hstk : Stacked h fs) (hv : Awaits h fs v) :
    Awaits h' fs v := by
  induction fs with
  | nil => trivial
  | cons f fs ih =>
    cases f with
    | nf => exact ih hstk hv
    | nfobj o k =>
      cases k with
      | zero =>
        intro c hc
        rw [hst.key hstk.1] at hc
        exact hv c hc
      | succ k => trivial
    | _ => trivial

/-- Nor do frames become choosy. -/
theorem TakesAny.stable (hst : h.Stable h') (hstk : Stacked h fs) (hv : TakesAny h fs) :
    TakesAny h' fs :=
  fun v => (hv v).stable hst hstk

/-- Frames stay stacked. -/
theorem Stacked.stable (hst : h.Stable h') (hstk : Stacked h fs) : Stacked h' fs := by
  induction fs with
  | nil => trivial
  | cons f fs ih =>
    cases f with
    | nf => exact ih hstk
    | nfobj o k =>
      obtain ⟨ho, hv, hstk⟩ := hstk
      exact ⟨hst.whnf ho, hv.stable hst hstk, ih hstk⟩
    | applyn b n => cases hstk
    | _ => exact ⟨hstk.1.stable hst hstk.2, ih hstk.2⟩

/-- Continuations above frames that take any value. -/
theorem TakesAny.konts (hany : TakesAny h fs) (ks : List Kont) (mark : Nat) :
    TakesAny h (ks.map (Kont.frame mark) ++ fs) := by
  induction ks with
  | nil => exact hany
  | cons k ks ih =>
    intro v
    cases k with
    | nf => exact ih v
    | _ => trivial

/-- And they are stacked. -/
theorem Stacked.konts (hany : TakesAny h fs) (hstk : Stacked h fs) (ks : List Kont) (mark : Nat) :
    Stacked h (ks.map (Kont.frame mark) ++ fs) := by
  induction ks with
  | nil => exact hstk
  | cons k ks ih =>
    cases k with
    | nf => exact ih
    | _ => exact ⟨hany.konts ks mark, ih⟩

/-- The frames below a barrier. -/
theorem Stacked.below {a b : List Frame} {mark : Nat} (hstk : Stacked h (a ++ .tryIn mark :: b)) :
    TakesAny h b ∧ Stacked h b := by
  induction a with
  | nil => exact hstk
  | cons f a ih =>
    cases f with
    | nf => exact ih hstk
    | nfobj o k => exact ih hstk.2.2
    | applyn _ _ => cases hstk
    | _ => exact ih hstk.2

end

/-! ## Along a run -/

/-- What the body that is about to run will come to. -/
def Thread.result (ctx : Ctx W) (t : Thread W) (op argbase argc : Nat) : BodyResult W :=
  ctx.body op ((t.vstack[argbase - 1]?).getD (Val.nat 0)) ((t.vstack.drop argbase).take argc)
    { t.sto with epoch := t.sto.epoch + if (plOp op).opset ≥ 82 then 1 else 0 }

/-- The step runs no body that does what evaluation does not do to a flat heap. -/
def Run.KeepsSpines (ctx : Ctx W) (r : Run W) : Prop :=
  ∀ op argbase argc, r.thread.ctl = .opBody op argbase argc →
    (r.thread.result ctx op argbase argc).Left Heap.KeepsSpines r.thread.sto.heap

/-- What a label has to do with the frames. -/
def Poised (h : Heap) (vs : List Val) (fs : List Frame) : Ctl → Prop
  | .ret v => h.isWhnf v = true ∧ Awaits h fs v
  | .eval v | .yielded v => (h.isWhnf v = true ∧ Awaits h fs v) ∨ TakesAny h fs
  | .fastApply hbase => TakesAny h fs ∧ h.Exact (vs.drop hbase)
  | .opargNext | .opdeepNext | .nfField => fs ≠ []
  | .raised _ | .done _ | .exn _ | .abort => True
  | _ => TakesAny h fs

/-- No check has failed yet, the heap is flat and every frame gets what it takes. -/
def Spun (F : List Frame) (t : Thread W) : Prop :=
  t.ctl = .abort ∨ ∃ above, t.frames = above ++ F ∧ t.sto.heap.Flat ∧
    Stacked t.sto.heap above ∧ Poised t.sto.heap t.vstack above t.ctl

namespace Spun

variable {F : List Frame} {t : Thread W} {above : List Frame}

/-- A failed check is allowed for. -/
theorem abort (t : Thread W) : Spun F t.abort := .inl rfl

/-- So is one that may fail. -/
theorem orAbort {α : Type} {o : Option α} {k : α → Thread W}
    (h : ∀ a, o = some a → Spun F (k a)) : Spun F (t.orAbort o k) := by
  cases o with
  | none => exact abort t
  | some a => exact h a rfl

section

variable (hf : t.frames = above ++ F) (hflat : t.sto.heap.Flat) (hstk : Stacked t.sto.heap above)
include hf hflat hstk

/-- A step that leaves the frames alone. -/
theorem stay {t' : Thread W} (hframes : t'.frames = t.frames)
    (hk : t.sto.heap.KeepsSpines t'.sto.heap)
    (hp : t.sto.heap.Stable t'.sto.heap → Poised t'.sto.heap t'.vstack above t'.ctl) :
    Spun F t' := by
  obtain ⟨hflat', hst⟩ := hk hflat
  exact .inr ⟨above, hframes.trans hf, hflat', hstk.stable hst, hp hst⟩

variable (hany : TakesAny t.sto.heap above)
include hany

/-- A step that leaves the frames alone, with any value to come. -/
theorem go {t' : Thread W} (hframes : t'.frames = t.frames)
    (hk : t.sto.heap.KeepsSpines t'.sto.heap)
    (hp : TakesAny t'.sto.heap above → Poised t'.sto.heap t'.vstack above t'.ctl) : Spun F t' :=
  stay hf hflat hstk hframes hk fun hst => hp (hany.stable hst hstk)

/-- A frame is pushed for which some value is to come. -/
theorem push {t' : Thread W} {f : Frame} (hloose : f.Loose) (hframes : t'.frames = f :: t.frames)
    (hk : t.sto.heap.KeepsSpines t'.sto.heap)
    (hp : TakesAny t'.sto.heap (f :: above) → Poised t'.sto.heap t'.vstack (f :: above) t'.ctl) :
    Spun F t' := by
  obtain ⟨hflat', hst⟩ := hk hflat
  refine .inr ⟨f :: above, ?_, hflat', hloose.stacked.2 ⟨hany.stable hst hstk, hstk.stable hst⟩,
    hp (hloose.takesAny _ _)⟩
  rw [hframes, hf, List.cons_append]

end

section

variable (hf : t.frames = above ++ F) (hflat : t.sto.heap.Flat) (hstk : Stacked t.sto.heap above)
include hf hflat hstk

/-- A value is returned, an indirection is followed, a thunk is entered under its update frame.
-/
theorem evalVal {v : Val}
    (hv : (t.sto.heap.isWhnf v = true ∧ Awaits t.sto.heap above v) ∨ TakesAny t.sto.heap above) :
    Spun F (t.evalVal v) := by
  have hret : t.sto.heap.isWhnf v = true → Spun F (t.goto (.ret v)) := by
    intro hwhnf
    refine stay hf hflat hstk rfl (.refl _) fun _ => ⟨hwhnf, ?_⟩
    obtain ⟨-, hv⟩ | hany := hv
    · exact hv
    · exact hany v
  cases v with
  | nat n => exact hret rfl
  | ref r =>
    have hwhnf := t.sto.heap.isWhnf_shape r
    unfold Heap.shape at hwhnf
    cases hr : t.sto.heap[r]? with
    | none =>
      simp only [Thread.evalVal, hr]
      exact abort t
    | some o =>
      simp only [Thread.evalVal, hr]
      rw [hr, Option.bind_some] at hwhnf
      -- what is no value may become any
      have hdelayed : o.shape = none → TakesAny t.sto.heap above := by
        intro ho
        obtain ⟨hwhnf', -⟩ | hany := hv
        · rw [hwhnf, ho] at hwhnf'
          cases hwhnf'
        · exact hany
      cases o with
      | ind target => exact go hf hflat hstk (hdelayed rfl) rfl (.refl _) .inr
      | bh env => exact go hf hflat hstk (hdelayed rfl) rfl (.refl _) fun _ => trivial
      | thunk env expr =>
        exact push hf hflat hstk (hdelayed rfl) (f := .update r expr) trivial rfl
          (.delayed hr rfl rfl) id
      | app need normal head args => exact hret hwhnf
      | law normal a name body => exact hret hwhnf
      | pin normal body => exact hret hwhnf
      | env self locals => exact hret hwhnf

/-- A slice may end first. -/
theorem eval (en : Entry W) {v : Val}
    (hv : (t.sto.heap.isWhnf v = true ∧ Awaits t.sto.heap above v) ∨ TakesAny t.sto.heap above) :
    Spun F (t.eval en v) := by
  unfold Thread.eval
  split
  · -- no fuel: the thread yields, or nobody is there to yield to
    split
    · refine stay hf hflat hstk rfl (.refl _) fun _ => hv
    · exact evalVal (t := { t with fuel := 2 ^ 64 - 1 }) hf hflat hstk hv
    · exact evalVal (t := { t with fuel := 1 }) hf hflat hstk hv
  · exact evalVal (t := { t with fuel := t.fuel - 1 }) hf hflat hstk hv

variable (hany : TakesAny t.sto.heap above)
include hany

/-- An expression of a law, one case a form. -/
theorem evalExpr (env expr : Val) : Spun F (t.evalExpr env expr) := by
  unfold Thread.evalExpr
  simp only
  split
  · exact push hf hflat hstk hany (f := .kal env) trivial rfl (.refl _) .inr
  · rename_i hwhnf
    have hwhnf' : t.sto.heap.isWhnf expr = true := by simpa using hwhnf
    cases expr with
    | nat b =>
      refine orAbort fun slot _ => ?_
      cases slot with
      | some v => exact go hf hflat hstk hany rfl (.refl _) .inr
      | none => exact go hf hflat hstk hany rfl (.refl _) fun h => ⟨rfl, h _⟩
    | ref r =>
      simp only
      cases hform : t.sto.heap.form (.ref r) with
      | escape x => exact go hf hflat hstk hany rfl (.refl _) .inr
      | literal => exact go hf hflat hstk hany rfl (.refl _) fun h => ⟨hwhnf', h _⟩
      | apply f x =>
        simp only
        split
        · refine orAbort fun hx hkx => orAbort fun hfn hkf => ?_
          exact push hf hflat hstk hany (f := .apply hx.2) trivial rfl
            ((Heap.KeepsSpines.kal1 hkx).trans (.kal1 hkf)) .inr
        · exact push hf hflat hstk hany (f := .kapp env (.ref r) 0 t.vstack.length) trivial rfl
            (.refl _) .inr

/-- A law is judged with its arguments on the stack. -/
theorem judge (jbase jargc : Nat) (law : Option Obj) : Spun F (t.judge jbase jargc law) := by
  unfold Thread.judge
  split
  · split
    · exact go hf hflat hstk hany rfl (.refl _) id
    · exact abort t
  · exact abort t

/-- Of a pin that is no law only the opset is known yet. -/
theorem fastApply (hbase : Nat) : Spun F (t.fastApply hbase) := by
  unfold Thread.fastApply
  simp only
  split
  · exact abort t
  · split
    · split
      · rename_i n _
        split
        · exact push hf hflat hstk hany (f := .opent (u64Clamp n)) trivial rfl (.refl _) .inr
        · exact abort t
      · split
        · exact judge hf hflat hstk hany _ _ _
        · exact go hf hflat hstk hany rfl (.refl _) fun _ => trivial
    · exact judge hf hflat hstk hany _ _ _

/-- Bindings are collected until the body is found. -/
theorem judgeScan (jbase jargc : Nat) : Spun F (t.judgeScan jbase jargc) := by
  unfold Thread.judgeScan
  simp only
  split
  · exact abort t
  · split
    · exact push hf hflat hstk hany (f := .judge jbase jargc) trivial rfl (.refl _) .inr
    · split
      · exact go hf hflat hstk hany rfl (.refl _) id
      · split
        · exact abort t
        · exact go hf hflat hstk hany rfl (.knot _ _ _) id

/-- Arguments that are to be values are evaluated from the first on, -/
theorem opArgs (op argbase argc k : Nat) : Spun F (t.opArgs op argbase argc k) := by
  unfold Thread.opArgs
  split
  · split
    · exact go hf hflat hstk hany rfl (.refl _) id
    · split
      · exact abort t
      · split
        · exact push hf hflat hstk hany (f := .oparg op argbase argc k) trivial rfl (.refl _) .inr
        · exact go hf hflat hstk hany rfl (.refl _) id
  · exact go hf hflat hstk hany rfl (.refl _) id

/-- and those that are to be normal after that. -/
theorem opArgsReady (op argbase argc : Nat) : Spun F (t.opArgsReady op argbase argc) := by
  unfold Thread.opArgsReady
  split
  · exact push hf hflat hstk hany (f := .opdeep op argbase argc 0) trivial rfl (.refl _)
      fun _ => List.cons_ne_nil _ _
  · exact go hf hflat hstk hany rfl (.refl _) id

/-- Who is asked answers later, raises, or cannot be asked. -/
theorem request (en : Entry W) (v : Val) : Spun F (t.request en v) := by
  unfold Thread.request
  split
  · exact go hf hflat hstk hany rfl (.refl _) id
  · exact go hf hflat hstk hany rfl (.refl _) fun _ => trivial
  · exact abort t

/-- A body leaves the heap flat, and then continuations for its value. -/
theorem opBody {ctx : Ctx W} (en : Entry W) (op argbase argc : Nat)
    (hbody : (t.result ctx op argbase argc).Left Heap.KeepsSpines t.sto.heap) :
    Spun F (t.opBody ctx en op argbase argc) := by
  unfold Thread.result at hbody
  unfold Thread.opBody
  simp only
  generalize hs : ({ t.sto with epoch := _ } : Sto W) = s at hbody ⊢
  have hheap : t.sto.heap = s.heap := by rw [← hs]
  split
  · exact abort _
  · rename_i e s' heq
    rw [heq] at hbody
    exact go hf hflat hstk hany rfl (hheap ▸ hbody) fun _ => trivial
  · rename_i v pushed s' heq
    rw [heq] at hbody
    obtain ⟨hflat', hst⟩ := hbody (hheap ▸ hflat)
    have hany' : TakesAny s'.heap above := hany.stable (hheap ▸ hst) hstk
    have hstk' : Stacked s'.heap above := hstk.stable (hheap ▸ hst)
    -- its frames come above those that were there
    have hframes : pushed.map (Kont.frame (argbase - 1)) ++ t.frames =
        pushed.map (Kont.frame (argbase - 1)) ++ above ++ F := by
      rw [hf, List.append_assoc]
    have hkonts := hany'.konts pushed (argbase - 1)
    have hkstk := Stacked.konts hany' hstk' pushed (argbase - 1)
    split
    · exact request hframes hflat' hkstk hkonts en v
    · split
      · rename_i hready
        simp only [Bool.and_eq_true] at hready
        exact .inr ⟨_, hframes, hflat', hkstk, hready.2, hkonts v⟩
      · exact .inr ⟨_, hframes, hflat', hkstk, .inr hkonts⟩

/-- The dispatch finds the primop, in the memo or in the table, or raises. -/
theorem retOpent (ctx : Ctx W) (v : Val) (opset : Nat) : Spun F (t.retOpent ctx v opset) := by
  unfold Thread.retOpent
  simp only
  split
  · exact go hf hflat hstk hany rfl (.refl _) fun _ => trivial
  · split
    · exact go hf hflat hstk hany rfl (.refl _) fun _ => trivial
    · rename_i hfound
      obtain ⟨memo, rfl⟩ := Ctx.findOp_sto hfound
      exact go hf hflat hstk hany rfl (.refl _) id

/-- What needs one argument more gets it, and is exact. -/
theorem retApply {v : Val} (x : Val) (hv : t.sto.heap.isWhnf v = true) :
    Spun F (t.retApply v x) := by
  refine orAbort fun need hneed => ?_
  split
  · -- it still needs more afterwards
    refine orAbort fun hv' hmk => ?_
    obtain ⟨hk, hwhnf⟩ := Heap.KeepsSpines.mkAppSnoc hflat hmk
    exact go hf hflat hstk hany rfl hk fun h => ⟨hwhnf, h _⟩
  · rename_i hone
    obtain rfl : need = 1 := by simpa using hone
    refine go hf hflat hstk hany rfl (.refl _) fun h => ⟨h, ?_⟩
    show t.sto.heap.Exact ((t.vstack ++ t.sto.heap.spine v ++ [x]).drop t.vstack.length)
    rw [List.append_assoc, List.drop_left]
    unfold Heap.spine
    cases happ : t.sto.heap.asApp v with
    | none => exact ⟨happ, List.cons_ne_nil x [], hneed⟩
    | some p =>
      obtain ⟨head, args⟩ := p
      unfold Heap.asApp at happ
      cases hobj : t.sto.heap.obj v with
      | none =>
        rw [hobj] at happ
        cases happ
      | some o =>
        rw [hobj] at happ
        cases o with
        | app need normal head' args' =>
          cases happ
          obtain ⟨hplain, -, hneed'⟩ := hflat.app hobj
          -- the need counts what the head lacks, and that is one
          obtain ⟨a, ha, rfl, -⟩ := Heap.needAfter_eq hneed'
          have hlen : a - args.length = 1 := by
            cases v with
            | nat n => cases hobj
            | ref r =>
              have hr : t.sto.heap[r]? = some (.app (a - args.length) normal head args) := hobj
              simp only [Heap.arity, hr] at hneed
              exact Option.some.inj hneed
          refine ⟨hplain, by simp, ?_⟩
          show t.sto.heap.arity head = some (args ++ [x]).length
          rw [ha, List.length_append, List.length_singleton]
          congr 1
          omega
        | _ => cases happ

end

/-! ### Steps that take a frame -/

/-- The function is suspended next, and then the argument is. -/
theorem retKapp {v env expr : Val} {k argbase : Nat} {fs : List Frame} (hf : fs = above ++ F)
    (hflat : t.sto.heap.Flat) (hstk : Stacked t.sto.heap above)
    (hany : TakesAny t.sto.heap above) : Spun F (t.retKapp v env expr k argbase fs) := by
  refine orAbort fun hv hkal => ?_
  split
  · split
    · exact push (t := { t with frames := fs }) hf hflat hstk hany (f := .kapp env expr 1 argbase)
        trivial rfl (.kal1 hkal) .inr
    · exact abort t
  · refine orAbort fun xv _ => ?_
    exact push (t := { t with frames := fs }) hf hflat hstk hany (f := .apply xv) trivial rfl
      (.kal1 hkal) .inr

/-- A value is returned to the frame that waits for it. -/
theorem retTo {ctx : Ctx W} {f : Frame} {fs : List Frame} {v : Val} (hf : fs = above ++ F)
    (hflat : t.sto.heap.Flat) (hstk : Stacked t.sto.heap (f :: above))
    (hwhnf : t.sto.heap.isWhnf v = true) (hv : Awaits t.sto.heap (f :: above) v) :
    Spun F (t.retTo ctx f fs v) := by
  have hloose : f.Loose → TakesAny t.sto.heap above ∧ Stacked t.sto.heap above :=
    fun hl => hl.stacked.1 hstk
  cases f with
  | update r expr =>
    obtain ⟨hany, hstk⟩ := hloose trivial
    refine orAbort fun h hupdate => ?_
    have hk := Heap.KeepsSpines.thunkUpdate hupdate
    refine stay (t := { t with frames := fs }) hf hflat hstk rfl hk fun hst => ?_
    exact ⟨hst.whnf hwhnf, hany.stable hst hstk v⟩
  | apply x =>
    obtain ⟨hany, hstk⟩ := hloose trivial
    exact retApply (t := { t with frames := fs }) hf hflat hstk hany x hwhnf
  | seq y =>
    obtain ⟨hany, hstk⟩ := hloose trivial
    exact go (t := { t with frames := fs }) hf hflat hstk hany rfl (.refl _) .inr
  | kal env =>
    obtain ⟨hany, hstk⟩ := hloose trivial
    exact go (t := { t with frames := fs }) hf hflat hstk hany rfl (.refl _) id
  | kapp env expr k argbase =>
    obtain ⟨hany, hstk⟩ := hloose trivial
    exact retKapp hf hflat hstk hany
  | opent opset =>
    obtain ⟨hany, hstk⟩ := hloose trivial
    exact retOpent (t := { t with frames := fs }) hf hflat hstk hany ctx v opset
  | oparg op argbase argc k =>
    obtain ⟨hany, hstk⟩ := hloose trivial
    exact push (t := { t with frames := fs }) hf hflat hstk hany
      (f := .oparg op argbase argc (k + 1)) trivial rfl (.refl _) fun _ => List.cons_ne_nil _ _
  | opdeep op argbase argc k =>
    obtain ⟨hany, hstk⟩ := hloose trivial
    exact push (t := { t with frames := fs }) hf hflat hstk hany
      (f := .opdeep op argbase argc (k + 1)) trivial rfl (.refl _) fun _ => List.cons_ne_nil _ _
  | judge jbase jargc =>
    obtain ⟨hany, hstk⟩ := hloose trivial
    exact go (t := { t with frames := fs }) hf hflat hstk hany rfl (.refl _) id
  | nil =>
    obtain ⟨hany, hstk⟩ := hloose trivial
    exact go (t := { t with frames := fs }) hf hflat hstk hany rfl (.refl _) fun h => ⟨rfl, h _⟩
  | tryIn mark =>
    obtain ⟨hany, hstk⟩ := hloose trivial
    refine orAbort fun hv' hmk => ?_
    obtain ⟨hk, hwhnf'⟩ := Heap.KeepsSpines.mkAppFrom rfl (List.cons_ne_nil v []) hmk
    exact go (t := { t with frames := fs }) hf hflat hstk hany rfl hk fun h => ⟨hwhnf', h _⟩
  | memo f x epoch =>
    obtain ⟨hany, hstk⟩ := hloose trivial
    have hheap : (Thread.retMemo ctx t.sto f x epoch v).heap = t.sto.heap := by
      unfold Thread.retMemo
      split
      · split <;> rfl
      · rfl
    refine go (t := { t with frames := fs }) hf hflat hstk hany rfl ?_ fun h => ⟨?_, h v⟩
    · show t.sto.heap.KeepsSpines (Thread.retMemo ctx t.sto f x epoch v).heap
      rw [hheap]
      exact .refl _
    · show (Thread.retMemo ctx t.sto f x epoch v).heap.isWhnf v = true
      rwa [hheap]
  | applyn argbase argc => cases hstk
  | nf =>
    unfold Thread.retTo
    simp only
    split
    · exact stay (t := { t with frames := fs }) hf hflat hstk rfl (.refl _) fun _ => ⟨hwhnf, hv⟩
    · refine .inr ⟨.nfobj v 0 :: above, ?_, hflat, ⟨hwhnf, hv, hstk⟩, List.cons_ne_nil _ _⟩
      rw [hf, List.cons_append]
  | nfobj o k =>
    -- the child is what the frame waits for, so the key is written back
    obtain ⟨ho, hawaits, hstk⟩ := hstk
    refine orAbort fun h hwrite => ?_
    have hk : t.sto.heap.KeepsSpines h := by
      refine .nfWriteback hwrite fun hk c hc => ?_
      subst hk
      exact hv c hc
    split
    · obtain ⟨hflat', hst⟩ := hk hflat
      refine .inr ⟨.nfobj o (k + 1) :: above, ?_, hflat',
        ⟨hst.whnf ho, hawaits.stable hst hstk, hstk.stable hst⟩, List.cons_ne_nil _ _⟩
      rw [hf, List.cons_append]
    · refine stay (t := { t with frames := fs }) hf hflat hstk rfl (hk.trans (.setNormal o))
        fun hst => ?_
      exact ⟨hst.whnf ho, hawaits.stable hst hstk⟩

/-- At the base the entry is done. -/
theorem ret {ctx : Ctx W} {mode : Mode W} {S : List Val} {v : Val} (hf : t.frames = above ++ F)
    (hflat : t.sto.heap.Flat) (hstk : Stacked t.sto.heap above)
    (hwhnf : t.sto.heap.isWhnf v = true) (hv : Awaits t.sto.heap above v) :
    Spun F (t.ret ctx (.above mode S F) v) := by
  unfold Thread.ret
  split
  · exact stay hf hflat hstk rfl (.refl _) fun _ => trivial
  · rename_i hbase
    cases hfs : t.frames with
    | nil => exact abort t
    | cons f fs =>
      cases above with
      | nil => exact absurd (congrArg List.length hf) hbase
      | cons g above =>
        obtain ⟨rfl, rfl⟩ := List.cons.inj (hfs.symm.trans hf)
        exact retTo rfl hflat hstk hwhnf hv

/-- The next argument that is no value yet. -/
theorem opargNext (hf : t.frames = above ++ F) (hflat : t.sto.heap.Flat)
    (hstk : Stacked t.sto.heap above) (hctl : t.ctl = .opargNext) (hne : above ≠ []) :
    Spun F t.opargNext := by
  obtain ⟨g, above, rfl⟩ := List.exists_cons_of_ne_nil hne
  rw [List.cons_append] at hf
  unfold Thread.opargNext
  cases g with
  | oparg op argbase argc k =>
    simp only [hf]
    obtain ⟨hany, hstk'⟩ := hstk
    -- the frame stays, at another argument
    have hstep : ∀ t' : Thread W, t'.sto = t.sto →
        (∃ k', t'.frames = .oparg op argbase argc k' :: (above ++ F)) →
        (t'.ctl = .opargNext ∨ ∃ v, t'.ctl = .eval v) → Spun F t' := by
      rintro t' hsto ⟨k', hframes⟩ hctl
      refine .inr ⟨.oparg op argbase argc k' :: above, hframes, ?_, ?_, ?_⟩
      · rwa [hsto]
      · rw [hsto]
        exact ⟨hany, hstk'⟩
      · obtain hctl | ⟨v, hctl⟩ := hctl
        · rw [hctl]
          exact List.cons_ne_nil _ _
        · rw [hctl]
          exact .inr fun _ => trivial
    split
    · split
      · exact hstep _ rfl ⟨_, rfl⟩ (.inl hctl)
      · split
        · exact abort t
        · split
          · exact hstep _ rfl ⟨_, hf⟩ (.inr ⟨_, rfl⟩)
          · exact hstep _ rfl ⟨_, rfl⟩ (.inl hctl)
    · split
      · exact push (t := { t with frames := above ++ F }) rfl hflat hstk' hany
          (f := .opdeep op argbase argc 0) trivial rfl (.refl _) fun _ => List.cons_ne_nil _ _
      · exact go (t := { t with frames := above ++ F }) rfl hflat hstk' hany rfl (.refl _) id
  | _ =>
    simp only [hf]
    exact abort t

/-- The next argument that is not normal yet. -/
theorem opdeepNext (hf : t.frames = above ++ F) (hflat : t.sto.heap.Flat)
    (hstk : Stacked t.sto.heap above) (hctl : t.ctl = .opdeepNext) (hne : above ≠ []) :
    Spun F t.opdeepNext := by
  obtain ⟨g, above, rfl⟩ := List.exists_cons_of_ne_nil hne
  rw [List.cons_append] at hf
  unfold Thread.opdeepNext
  cases g with
  | opdeep op argbase argc k =>
    simp only [hf]
    have hbelow := hstk
    obtain ⟨hany, hstk'⟩ := hstk
    split
    · split
      · refine .inr ⟨.opdeep op argbase argc (k + 1) :: above, rfl, hflat, ⟨hany, hstk'⟩, ?_⟩
        show Poised _ _ _ t.ctl
        rw [hctl]
        exact List.cons_ne_nil _ _
      · refine orAbort fun v _ => ?_
        refine .inr ⟨.nf :: .opdeep op argbase argc k :: above, ?_, hflat, hbelow, ?_⟩
        · show Frame.nf :: t.frames = _
          rw [hf, List.cons_append, List.cons_append]
        · exact .inr fun _ => trivial
    · exact go (t := { t with frames := above ++ F }) rfl hflat hstk' hany rfl (.refl _) id
  | _ =>
    simp only [hf]
    exact abort t

/-- The field that comes first is a value, and is to come back. -/
theorem nfField (hf : t.frames = above ++ F) (hflat : t.sto.heap.Flat)
    (hstk : Stacked t.sto.heap above) (hne : above ≠ []) : Spun F t.nfField := by
  obtain ⟨g, above, rfl⟩ := List.exists_cons_of_ne_nil hne
  rw [List.cons_append] at hf
  unfold Thread.nfField
  cases g with
  | nfobj o k =>
    simp only [hf]
    refine orAbort fun v hv => ?_
    refine .inr ⟨.nf :: .nfobj o k :: above, ?_, hflat, hstk, ?_⟩
    · show Frame.nf :: t.frames = _
      rw [hf, List.cons_append, List.cons_append]
    · cases k with
      | succ k => exact .inr fun _ => trivial
      | zero =>
        cases hkey : t.sto.heap.key o with
        | none =>
          exact .inr fun w c hc => absurd (hkey.symm.trans hc) (by simp)
        | some c =>
          obtain ⟨rfl, hwhnf⟩ := hflat.nfField hkey hv
          exact .inl ⟨hwhnf, fun c hc => Option.some.inj (hkey.symm.trans hc)⟩
  | _ =>
    simp only [hf]
    exact abort t

/-- An exception goes to the innermost handler, or ends the entry. -/
theorem caught {mode : Mode W} {S : List Val} {e : Exn} (hf : t.frames = above ++ F)
    (hflat : t.sto.heap.Flat) (hstk : Stacked t.sto.heap above) :
    Spun F (t.caught (.above mode S F) e) := by
  have htake : t.frames.take (t.frames.length - F.length) = above := by
    rw [hf, List.length_append, Nat.add_sub_cancel, List.take_left']
    rfl
  have hdrop : t.frames.drop (t.frames.length - F.length) = F := by
    rw [hf, List.length_append, Nat.add_sub_cancel, List.drop_left']
    rfl
  unfold Thread.caught
  simp only [Entry.above, htake, hdrop]
  split
  · rename_i v a mark b hsplit
    rw [Held.splitTry_spec hsplit] at hstk
    -- the handler was stacked on what is below it
    obtain ⟨hany, hstk'⟩ := hstk.below
    refine orAbort fun h hunwind => orAbort fun hv hmk => ?_
    obtain ⟨hk, hwhnf⟩ := Heap.KeepsSpines.mkAppFrom rfl (List.cons_ne_nil v []) hmk
    exact go (t := { t with frames := b ++ F }) rfl hflat hstk' hany rfl
      ((Heap.KeepsSpines.unwindFrames hunwind).trans hk) fun h => ⟨hwhnf, h _⟩
  · refine orAbort fun h hunwind => ?_
    obtain ⟨hflat', -⟩ := Heap.KeepsSpines.unwindFrames hunwind hflat
    exact .inr ⟨[], rfl, hflat', trivial, trivial⟩

/-- A step of the machine. -/
theorem step {ctx : Ctx W} {mode : Mode W} {S : List Val}
    (hbody : ∀ op argbase argc, t.ctl = .opBody op argbase argc →
      (t.result ctx op argbase argc).Left Heap.KeepsSpines t.sto.heap)
    (h : Spun F t) : Spun F (t.step ctx (.above mode S F)) := by
  obtain habort | ⟨above, hf, hflat, hstk, hp⟩ := h
  · refine .inl ?_
    rw [Thread.step, habort]
    exact habort
  · unfold Thread.step
    cases hctl : t.ctl with
    | eval v =>
      rw [hctl] at hp
      exact eval hf hflat hstk _ hp
    | evalExpr env expr =>
      rw [hctl] at hp
      exact evalExpr hf hflat hstk hp env expr
    | ret v =>
      rw [hctl] at hp
      exact ret hf hflat hstk hp.1 hp.2
    | fastApply hbase =>
      rw [hctl] at hp
      exact fastApply hf hflat hstk hp.1 hbase
    | judgeScan jbase jargc =>
      rw [hctl] at hp
      exact judgeScan hf hflat hstk hp jbase jargc
    | opArgs op argbase argc k =>
      rw [hctl] at hp
      exact opArgs hf hflat hstk hp op argbase argc k
    | opArgsReady op argbase argc =>
      rw [hctl] at hp
      exact opArgsReady hf hflat hstk hp op argbase argc
    | opargNext =>
      rw [hctl] at hp
      exact opargNext hf hflat hstk hctl hp
    | opdeepNext =>
      rw [hctl] at hp
      exact opdeepNext hf hflat hstk hctl hp
    | opBody op argbase argc =>
      rw [hctl] at hp
      exact opBody hf hflat hstk hp _ op argbase argc (hbody op argbase argc hctl)
    | nfField =>
      rw [hctl] at hp
      exact nfField hf hflat hstk hp
    | raised e => exact caught hf hflat hstk
    -- the other labels wait for someone else
    | _ => exact .inr ⟨above, hf, hflat, hstk, hp⟩

/-- A step of the machine, or of its executor. -/
theorem next {ctx : Ctx W} {mode : Mode W} {S : List Val} {quantum : Nat → Nat} {r r' : Run W}
    (hbody : r.KeepsSpines ctx) (hmode : mode.Respects Heap.KeepsSpines)
    (hstep : Run.next ctx (.above mode S F) quantum r = some r') (h : Spun F r.thread) :
    Spun F r'.thread := by
  unfold Run.next at hstep
  split at hstep
  · cases hstep
  · cases hstep
  · cases hstep
  · rename_i v hctl
    cases hstep
    obtain habort | ⟨above, hf, hflat, hstk, hp⟩ := h
    · rw [habort] at hctl
      cases hctl
    · rw [hctl] at hp
      exact .inr ⟨above, hf, hflat, hstk, hp⟩
  · rename_i request answer hctl hexec
    obtain habort | ⟨above, hf, hflat, hstk, hp⟩ := h
    · rw [habort] at hctl
      cases hctl
    · rw [hctl] at hp
      have hanswer : r.thread.sto.heap.KeepsSpines (answer request r.thread.sto).2.heap := by
        simp only [Entry.above] at hexec
        rw [hexec] at hmode
        exact hmode request r.thread.sto
      -- an answer must be a value, and is checked to be one
      obtain ⟨hflat', hst⟩ := hanswer hflat
      simp only at hstep
      split at hstep
      · rename_i hwhnf
        cases hstep
        exact .inr ⟨above, hf, hflat', hstk.stable hst, hwhnf, hp.stable hst hstk _⟩
      · cases hstep
        exact .inl rfl
  · cases hstep
    exact step hbody h

end Spun

/-- An exact head is entered. -/
theorem Heap.Exact.fastApply {t : Thread W} {hbase : Nat}
    (hexact : t.sto.heap.Exact (t.vstack.drop hbase)) : (t.fastApply hbase).ctl ≠ .abort := by
  unfold Thread.fastApply
  have hlen : t.vstack.length - hbase - 1 = (t.vstack.drop hbase).length - 1 := by
    rw [List.length_drop]
  have hhead : t.vstack[hbase]? = (t.vstack.drop hbase)[0]? := by rw [List.getElem?_drop]; rfl
  have hargs : t.vstack.drop (hbase + 1) = (t.vstack.drop hbase).tail := by
    rw [List.tail_drop]
  rw [hlen, hhead, hargs]
  cases hdrop : t.vstack.drop hbase with
  | nil =>
    rw [hdrop] at hexact
    cases hexact
  | cons head args =>
    rw [hdrop] at hexact
    obtain ⟨happ, hne, harity⟩ := hexact
    simp only [List.getElem?_cons_zero, List.tail_cons, List.length_cons, Nat.add_sub_cancel]
    have hjudge : ∀ normal name code,
        (t.judge hbase args.length (some (.law normal args.length name code))).ctl ≠ .abort := by
      intro normal name code
      simp [Thread.judge]
    cases head with
    | nat n =>
      have hzero : args.length = 0 := (Option.some.inj harity).symm
      exact absurd (List.length_eq_zero_iff.1 hzero) hne
    | ref r =>
      unfold Heap.asApp at happ
      unfold Heap.arity at harity
      simp only [Heap.obj] at happ ⊢
      cases hr : t.sto.heap[r]? with
      | none => simp [hr] at harity
      | some o =>
        cases o with
        | law normal a name code =>
          simp only [hr, Option.some.injEq] at harity ⊢
          subst harity
          exact hjudge normal name code
        | app need normal head' args' => simp [hr] at happ
        | pin normal body =>
          simp only [hr] at harity ⊢
          cases body with
          | nat n =>
            -- a pin of a natural takes its one argument
            have hone : 1 = args.length := Option.some.inj harity
            obtain ⟨arg, rfl⟩ := List.length_eq_one_iff.1 hone.symm
            simp [Thread.push]
          | ref b =>
            simp only [Heap.obj] at harity ⊢
            cases hb : t.sto.heap[b]? with
            | none => simp [Thread.raise]
            | some o =>
              cases o with
              | law normal' a name code =>
                simp only [hb, Option.some.injEq] at harity ⊢
                subst harity
                exact hjudge normal' name code
              | _ => simp [Thread.raise]
        | _ => simp [hr] at harity

/-- The heap is flat, and what is about to be entered is a law, or the pin of one, with as many
arguments as it takes, or another pin with one. So the check of arities there does not fail. -/
def Run.Flat (r : Run W) : Prop :=
  r.thread.sto.heap.Flat ∧ ∀ hbase, r.thread.ctl = .fastApply hbase →
    r.thread.sto.heap.Exact (r.thread.vstack.drop hbase) ∧ (r.thread.fastApply hbase).ctl ≠ .abort

/-- Flatness, and exact heads at `fast_apply`, where a check would fail otherwise. -/
theorem Spun.flat {F : List Frame} {r : Run W} (h : Spun F r.thread) :
    r.thread.ctl = .abort ∨ r.Flat := by
  obtain habort | ⟨above, hf, hflat, -, hp⟩ := h
  · exact .inl habort
  · refine .inr ⟨hflat, fun hbase hctl => ?_⟩
    rw [hctl] at hp
    exact ⟨hp.2, hp.2.fastApply⟩

section

variable {ctx : Ctx W} {mode : Mode W} {quantum : Nat → Nat} {ks : List Kont} {v : Val}
  {S : List Val} {F : List Frame} {s : Sto W} {fuel : Nat}

/-- A run from a flat heap, as long as the bodies that it runs do what evaluation does. -/
theorem Spun.of_reaches (hs : s.heap.Flat) (hmode : mode.Respects Heap.KeepsSpines)
    {r : Run W}
    (hbody : ∀ r', Reaches (Run.next ctx (.above mode S F) quantum) (.enter ks v S F s fuel) r' →
      r'.KeepsSpines ctx)
    (hr : Reaches (Run.next ctx (.above mode S F) quantum) (.enter ks v S F s fuel) r) :
    Spun F r.thread := by
  induction hr with
  | refl =>
    have hany : TakesAny s.heap [] := fun _ => trivial
    have hkonts := hany.konts ks S.length
    have hstk := Stacked.konts hany trivial ks S.length
    rw [List.append_nil] at hkonts hstk
    exact .inr ⟨_, rfl, hs, hstk, .inr hkonts⟩
  | tail hreach hstep ih => exact Spun.next (hbody _ hreach) hmode hstep ih

/-- **Spines are flat.** As long as the bodies that a run runs, and the answers it gets, leave the
heap flat and the values' shapes alone: in every state that it reaches from a flat heap, whatever
its quanta, unless a check has failed, the head of every application is no application, its
cached need is the arity of the head less its arguments, and what is about to be entered is
exact. -/
theorem spines_flat (hs : s.heap.Flat) (hmode : mode.Respects Heap.KeepsSpines) {r : Run W}
    (hbody : ∀ r', Reaches (Run.next ctx (.above mode S F) quantum) (.enter ks v S F s fuel) r' →
      r'.KeepsSpines ctx)
    (hr : Reaches (Run.next ctx (.above mode S F) quantum) (.enter ks v S F s fuel) r) :
    r.thread.ctl = .abort ∨ r.Flat :=
  (Spun.of_reaches hs hmode hbody hr).flat

end

/-- No object of the sample has anything to sit on. -/
theorem sample_flat : sample.heap.Flat := by
  have hempty : Heap.Flat [] := fun r s hs => by cases hs
  have hsits : ∀ o ∈ sample.heap, ∀ s, o.shape = some s → Heap.Sits [] s := by
    intro o ho s hs
    simp only [sample, List.mem_cons, List.not_mem_nil, or_false] at ho
    rcases ho with rfl | rfl | rfl | rfl | rfl | rfl <;> cases hs
    all_goals trivial
  exact (Heap.KeepsSpines.append (h := []) hsits hempty).1

/-- The identity is about to be entered. -/
def sampleExact : Run Unit := .at (.fastApply 0) [.ref 0, .nat 7] [] sample 8 0

theorem spines_flat_sample : sampleExact.thread.ctl = .abort ∨ sampleExact.Flat :=
  have hr : Reaches (Run.next firstOf (.above .host [] []) fun _ => 2)
      (.enter [.apply (.nat 7)] (.ref 0) [] [] sample 9) sampleExact := .tail (.single rfl) rfl
  have hmode : Mode.Respects (W := Unit) .host Heap.KeepsSpines := trivial
  have hbody (r : Run Unit) : r.KeepsSpines firstOf := fun _ _ _ _ =>
    Heap.KeepsSpines.refl r.thread.sto.heap
  spines_flat sample_flat hmode (fun r _ => hbody r) hr

end Enki.Eval
