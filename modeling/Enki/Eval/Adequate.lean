import Enki.Eval.Jobs

/-!
# The machine does every job

One theorem for each job, in the order of the labels they begin at, and `does` from them by
induction on the depth.
-/

namespace Enki.Eval

open Running StateTransition

variable {W : Type} {ctx : Ctx W} {en : Entry W} {quantum : Nat → Nat}

/-- A value with the context as it was found is an end. -/
theorem Ends.value {S : List Val} {F : List Frame} {s : Sto W} {v : Val} {fuel i : Nat}
    (hfuel : 0 < fuel) : Ends S F (s, .val v) (.at (.ret v) S F s fuel i) :=
  ⟨fuel, hfuel, rfl⟩

/-- An exception where it is raised. -/
theorem Ends.raised {S vs : List Val} {F : List Frame} {s : Sto W} {e : Exn} {fuel i : Nat}
    (hvs : S <+: vs) (hfuel : 0 < fuel) :
    Ends S F (s, .raise e) (.at (.raised e) vs F s fuel i) := by
  refine ⟨vs, [], s.heap, fuel, hfuel, rfl, hvs, ?_, rfl⟩
  -- no frame has been left on the way, so that none could catch
  intro v hv mark hmem
  cases hmem

/-- A return to a frame above the base of the entry. -/
theorem Tracks.ret {n : Nat} {v : Val} {S : List Val} {f : Frame} {F : List Frame} {s : Sto W}
    {fuel i : Nat} {o : Outcome W} {E : Sto W × Res → Run W → Prop} (hbase : en.base ≤ F.length)
    (h : Tracks (Run.next ctx en quantum) n
      ⟨(⟨.ret v, S, f :: F, s, fuel⟩ : Thread W).retTo ctx f F v, i⟩ o E) :
    Tracks (Run.next ctx en quantum) (n + 1) (.at (.ret v) S (f :: F) s fuel i) o E := by
  have habove : (f :: F).length ≠ en.base := by
    rw [List.length_cons]
    omega
  have hret : (⟨.ret v, S, f :: F, s, fuel⟩ : Thread W).ret ctx en v =
      (⟨.ret v, S, f :: F, s, fuel⟩ : Thread W).retTo ctx f F v := if_neg habove
  exact Tracks.step (congrArg some (congrArg (Run.mk · i) hret)) h

/-- Above a context lie a name, or the head of an application, and its arguments. -/
theorem args_get (S : List Val) (name : Val) (args : List Val) (k : Nat) :
    (S ++ name :: args)[S.length + 1 + k]? = args[k]? := by
  rw [Nat.add_assoc, Nat.add_comm 1, List.getElem?_append_right (Nat.le_add_right _ _),
    Nat.add_sub_cancel_left, List.getElem?_cons_succ]

/-- Replacing the `k`-th argument in place. -/
theorem args_set (S : List Val) (name : Val) (args : List Val) (k : Nat) (v : Val) :
    (S ++ name :: args).set (S.length + 1 + k) v = S ++ name :: args.set k v := by
  rw [Nat.add_assoc, Nat.add_comm 1, List.set_append_right _ _ (Nat.le_add_right _ _),
    Nat.add_sub_cancel_left, List.set_cons_succ]

theorem set_of_get {args : List Val} {k : Nat} {v : Val} (h : args[k]? = some v) :
    args.set k v = args := by
  obtain ⟨hk, rfl⟩ := List.getElem?_eq_some_iff.1 h
  exact List.set_getElem_self hk

/-- A value in weak head normal form is what it evaluates to. -/
theorem evalJob_whnf {mode : Mode W} {m : Nat} {v : Val} {s : Sto W}
    (h : s.heap.isWhnf v = true) :
    evalJob ctx mode (m + 1) (.whnf v) s = some (s, .val v) := by
  show evalWhnf (evalJob ctx mode m) v s = _
  cases v with
  | nat _ => rfl
  | ref r =>
    rcases hobj : s.heap[r]? with _ | o
    · simp_all [Heap.isWhnf]
    · cases o <;> simp_all [evalWhnf, Heap.isWhnf]

theorem headD_cons_tail (h : Heap) (v : Val) : (h.spine v).headD v :: (h.spine v).tail = h.spine v := by
  unfold Heap.spine
  cases h.asApp v <;> rfl

section

variable {n : Nat} (hq : ∀ i, 2 ≤ quantum i) (hdo : ∀ j, Does ctx en quantum n j)

/-- A thunk has been evaluated, or not. -/
theorem Tracks.finishThunk {S : List Val} {F : List Frame} {t : Nat} {expr : Val} {o : Sto W × Res}
    {r : Run W} (hbase : en.base ≤ F.length) (hends : Ends S (.update t expr :: F) o r) :
    Tracks (Run.next ctx en quantum) n r (finishThunk t expr o) (Ends S F) := by
  obtain ⟨s, res⟩ := o
  cases res with
  | val v =>
    obtain ⟨fuel, hfuel, hr⟩ := hends
    obtain ⟨thread, i⟩ := r
    cases hr
    refine Tracks.mono (Tracks.ret hbase ?_) (Nat.le_succ n)
    exact Tracks.orAbort fun h _ => Tracks.done (Ends.value hfuel)
  | abort => exact Tracks.done hends
  -- The exception passes the update frame, which puts the thunk back as it was.
  | raise e =>
    obtain ⟨vs, above, h, fuel, hfuel, hr, hvs, huncaught, hunwind⟩ := hends
    obtain ⟨thread, i⟩ := r
    cases hr
    have happend : unwindFrames (above ++ [.update t expr]) h = s.heap.restoreThunk t expr := by
      rw [unwindFrames_append, hunwind]
      simp [unwindFrames]
    have huncaught' : Uncaught e (above ++ [.update t expr]) := by
      intro v he mark hmem
      rcases List.mem_append.1 hmem with hmem | hmem
      · exact huncaught v he mark hmem
      · cases List.mem_singleton.1 hmem
    show Tracks _ _ _ (s.orAbort (s.heap.restoreThunk t expr) _) _
    cases hrestore : s.heap.restoreThunk t expr with
    -- the thunk cannot be put back, and unwinding aborts
    | none =>
      rw [hrestore] at happend
      have habort := caught_abort
        (t := ⟨.raised e, vs, above ++ .update t expr :: F, s.setHeap h, fuel⟩) hbase huncaught'
        (List.append_cons ..) happend
      exact Tracks.mono (Tracks.step rfl (Tracks.done habort)) (Nat.le_succ n)
    -- the frames left so far are those above, and this one
    | some h' =>
      rw [hrestore] at happend
      refine Tracks.done ⟨vs, above ++ [.update t expr], h, fuel, hfuel, ?_, hvs, huncaught', happend⟩
      rw [← List.append_cons]
      rfl

include hdo

include hq in
/-- A value is its own result, an indirection is followed, and a thunk is run under an update
frame with a blackhole in its place. -/
theorem Does.whnf (v : Val) : Does ctx en quantum (n + 1) (.whnf v) := by
  intro s S F ctl vs fs hstarts hbase fuel i hfuel
  cases hstarts
  refine Tracks.eval hq hfuel fun fuel i hfuel => ?_
  show Tracks _ _ _ (evalWhnf (evalJob ctx en.mode n) v s) _
  cases v with
  | nat m => exact Tracks.done (Ends.value hfuel)
  | ref r =>
    simp only [evalWhnf, Thread.evalVal]
    cases hobj : s.heap[r]? with
    | none => exact Tracks.done rfl
    | some o =>
      cases o with
      | ind target => exact hdo (.whnf target) s S F _ _ _ (.whnf target) hbase fuel i hfuel
      -- a blackhole that is met again is a loop
      | bh env => exact Tracks.done (Ends.raised (List.prefix_refl S) hfuel)
      | thunk env expr =>
        have hrun := hdo (.expr env expr) (s.setHeap (s.heap.set r (.bh env))) S
          (.update r expr :: F) _ _ _ (.expr env expr) (Nat.le_succ_of_le hbase) fuel i hfuel
        exact Tracks.bind hrun fun o b hb => Tracks.finishThunk hbase hb
      | _ => exact Tracks.done (Ends.value hfuel)

/-- An application neither of whose sides is a value yet: its operand and then its function. -/
theorem Tracks.kapp {S : List Val} {F : List Frame} {s : Sto W} {env expr x : Val} {fuel i : Nat}
    (hbase : en.base ≤ F.length) (hfuel : 0 < fuel) :
    Tracks (Run.next ctx en quantum) n
      (.at (.eval x) (S ++ [.nat 0]) (.kapp env expr 0 S.length :: F) s fuel i)
      ((evalJob ctx en.mode n (.whnf x) s).andThen fun s x =>
        s.orAbort (s.heap.kal1 env x) fun hx =>
          match hx.1.asApp expr with
          | some (_, f :: _) =>
            (evalJob ctx en.mode n (.whnf f) (s.setHeap hx.1)).andThen fun s f =>
              s.orAbort (s.heap.kal1 env f) fun hf =>
                Eval.under (evalJob ctx en.mode n) hf.2 [.apply hx.2] (s.setHeap hf.1)
          | _ => some (s, .abort)) (Ends S F) := by
  refine Tracks.andThen (f := .kapp env expr 0 S.length) (List.prefix_append S _) trivial
    (hdo (.whnf x) s _ (.kapp env expr 0 S.length :: F) _ _ _ (.whnf x) (Nat.le_succ_of_le hbase)
      fuel i hfuel) ?_
  -- The operand is there, and goes into its slot; the function follows.
  intro s x fuel i hfuel
  refine Tracks.mono (Tracks.ret hbase ?_) (Nat.le_succ n)
  refine Tracks.orAbort fun hx _ => ?_
  rcases happ : hx.1.asApp expr with _ | ⟨head, _ | ⟨f, rest⟩⟩
  · exact Tracks.done rfl
  · exact Tracks.done rfl
  · have hset : (S ++ [Val.nat 0]).set S.length hx.2 = S ++ [hx.2] := by simp
    rw [hset]
    refine Tracks.andThen (f := .kapp env expr 1 S.length) (List.prefix_append S [hx.2]) trivial
      (hdo (.whnf f) (s.setHeap hx.1) _ (.kapp env expr 1 S.length :: F) _ _ _ (.whnf f)
        (Nat.le_succ_of_le hbase) fuel i hfuel) ?_
    -- Both are there: the frames of the evaluation are gone again.
    intro s f fuel i hfuel
    refine Tracks.mono (Tracks.ret hbase ?_) (Nat.le_succ n)
    refine Tracks.orAbort fun hf _ => ?_
    have hget : (S ++ [hx.2])[S.length]? = some hx.2 := by simp
    have htake : (S ++ [hx.2]).take S.length = S := by simp
    simp only [hget, htake, Thread.orAbort]
    exact Tracks.under hdo _ hbase hfuel

/-- The body of a law, by its form. A node that is not a value yet is forced first, and looked
at again. -/
theorem Does.expr (env e : Val) : Does ctx en quantum (n + 1) (.expr env e) := by
  intro s S F ctl vs fs hstarts hbase fuel i hfuel
  cases hstarts
  refine Tracks.step rfl ?_
  show Tracks _ _ (⟨Thread.evalExpr _ env e, i⟩ : Run W) (evalExpr (evalJob ctx en.mode n) env e s) _
  unfold evalExpr Thread.evalExpr
  cases hwhnf : s.heap.isWhnf e with
  | false =>
    simp only [hwhnf, Bool.not_false, if_true]
    refine Tracks.andThen (f := .kal env) (List.prefix_refl S) trivial
      (hdo (.whnf e) s S (.kal env :: F) _ _ _ (.whnf e) (Nat.le_succ_of_le hbase) fuel i hfuel) ?_
    intro s v fuel i hfuel
    refine Tracks.mono (Tracks.ret hbase ?_) (Nat.le_succ n)
    exact hdo (.expr env v) s S F _ _ _ (.expr env v) hbase fuel i hfuel
  | true =>
    simp only [hwhnf, Bool.not_true, Bool.false_eq_true, if_false]
    cases e with
    -- a number is a variable of the environment, or stands for itself
    | nat b =>
      refine Tracks.orAbort fun slot _ => ?_
      cases slot with
      | none => exact Tracks.done (Ends.value hfuel)
      | some v => exact hdo (.whnf v) s S F _ _ _ (.whnf v) hbase fuel i hfuel
    | ref r =>
      simp only
      cases hform : s.heap.form (.ref r) with
      | escape x => exact hdo (.whnf x) s S F _ _ _ (.whnf x) hbase fuel i hfuel
      | literal => exact Tracks.done (Ends.value hfuel)
      | apply f x =>
        simp only
        -- with two values there is nothing to wait for
        cases hboth : s.heap.isWhnf f && s.heap.isWhnf x with
        | true =>
          simp only [if_true]
          refine Tracks.orAbort fun hx _ => Tracks.orAbort fun hf _ => ?_
          exact Tracks.under hdo _ hbase hfuel
        | false =>
          simp only [Bool.false_eq_true, if_false]
          exact Tracks.kapp hdo hbase hfuel

/-- A value comes back to a continuation. -/
theorem Does.deliver (k : Kont) (v : Val) : Does ctx en quantum (n + 1) (.deliver k v) := by
  intro s S F ctl vs fs hstarts hbase fuel i hfuel
  cases hstarts
  refine Tracks.ret hbase ?_
  cases k with
  -- Short of its arity the value only grows; at it the spine is entered.
  | apply x =>
    refine Tracks.orAbort fun need _ => ?_
    by_cases hneed : need ≠ 1
    · simp only [if_pos hneed]
      exact Tracks.orAbort fun hv _ => Tracks.done (Ends.value hfuel)
    · simp only [if_neg hneed]
      have hrun := hdo
        (.enter ((s.heap.spine v).headD v) ((s.heap.spine v).tail ++ [x])) s S F _ _ _
        (.enter _ _) hbase fuel i hfuel
      rw [← List.cons_append, headD_cons_tail, ← List.append_assoc] at hrun
      exact hrun
  | seq y => exact hdo (.whnf y) s S F _ _ _ (.whnf y) hbase fuel i hfuel
  -- a value that is normal already has no field to visit
  | nf =>
    show Tracks _ _ (⟨Thread.retTo ctx _ .nf F v, i⟩ : Run W)
      (if s.heap.isNormal v then _ else _) _
    cases hnormal : s.heap.isNormal v with
    | true =>
      simp only [Thread.retTo, hnormal, if_true]
      exact Tracks.done (Ends.value hfuel)
    | false =>
      simp only [Thread.retTo, hnormal, Bool.false_eq_true, if_false]
      exact hdo (.fields v 0) s S F _ _ _ (.fields v 0) hbase fuel i hfuel
  | nil => exact Tracks.done (Ends.value hfuel)
  | tryIn =>
    show Tracks _ _ (⟨Thread.retTo ctx _ (.tryIn S.length) F v, i⟩ : Run W)
      (evalDeliver (evalJob ctx en.mode n) ctx .tryIn v s) _
    simp only [Thread.retTo, evalDeliver]
    refine Tracks.orAbort fun hv _ => ?_
    exact Tracks.done (Ends.value hfuel)
  | memo f x epoch => exact Tracks.done (Ends.value hfuel)

/-- Several arguments at once: as many as the value needs, and the rest as continuations. -/
theorem Does.applyn (v : Val) (args : List Val) : Does ctx en quantum (n + 1) (.applyn v args) := by
  intro s S F ctl vs fs hstarts hbase fuel i hfuel
  cases hstarts with
  | applyn _ slot _ =>
  refine Tracks.ret hbase ?_
  have hargs : ((S ++ slot :: args).drop (S.length + 1)).take args.length = args := by simp
  have htake : (S ++ slot :: args).take (S.length + 1 - 1) = S := by simp
  refine Tracks.orAbort fun a _ => ?_
  simp only [hargs, htake]
  by_cases hfew : a = 0 ∨ args.length < a
  · simp only [if_pos hfew]
    exact Tracks.orAbort fun hv _ => Tracks.done (Ends.value hfuel)
  · simp only [if_neg hfew]
    -- what is left over waits as one frame for each argument
    have hframes : (args.drop a).map Frame.apply =
        ((args.drop a).map Kont.apply).map (Kont.frame S.length) := by
      rw [List.map_map]
      rfl
    have hbase' : en.base ≤ ((args.drop a).map Frame.apply ++ F).length := by
      rw [List.length_append]
      omega
    have hrun := hdo
      (.enter ((s.heap.spine v).headD v) ((s.heap.spine v).tail ++ args.take a)) s S
      ((args.drop a).map .apply ++ F) _ _ _ (.enter _ _) hbase' fuel i hfuel
    rw [← List.cons_append, headD_cons_tail, ← List.append_assoc] at hrun
    refine Tracks.bind hrun fun o b hb => Tracks.konts hdo hbase _ o.1 o.2 b ?_
    rw [hframes] at hb
    exact hb

/-- A field of a value is brought to normal form and written back, from the first to the last.
-/
theorem Does.fields (v : Val) (k : Nat) : Does ctx en quantum (n + 1) (.fields v k) := by
  intro s S F ctl vs fs hstarts hbase fuel i hfuel
  cases hstarts
  refine Tracks.step rfl ?_
  show Tracks _ _ (⟨Thread.orAbort _ (s.heap.nfField v k) _, i⟩ : Run W) (s.orAbort _ _) _
  refine Tracks.orAbort fun child _ => ?_
  refine Tracks.andThen (f := .nfobj v k) (List.prefix_refl S) trivial
    (Tracks.under hdo [.nf] (F := .nfobj v k :: F) (Nat.le_succ_of_le hbase) hfuel) ?_
  intro s child fuel i hfuel
  refine Tracks.mono (Tracks.ret hbase ?_) (Nat.le_succ n)
  refine Tracks.orAbort fun h _ => ?_
  by_cases hmore : k + 1 < h.nfNfields v
  · simp only [if_pos hmore]
    exact hdo (.fields v (k + 1)) (s.setHeap h) S F _ _ _ (.fields v (k + 1)) hbase fuel i hfuel
  · simp only [if_neg hmore]
    exact Tracks.done (Ends.value hfuel)

/-- The bindings of a law, one node after another; each becomes a thunk of the environment. -/
theorem Does.scan (head : Val) (args : List Val) (node : Val) (binds : List Val) :
    Does ctx en quantum (n + 1) (.scan head args node binds) := by
  intro s S F ctl vs fs hstarts hbase fuel i hfuel
  cases hstarts
  refine Tracks.step rfl ?_
  show Tracks _ _ (⟨Thread.judgeScan _ S.length args.length, i⟩ : Run W)
    (evalScan (evalJob ctx en.mode n) head args node binds s) _
  -- the node stands between the arguments and the bindings made so far
  have hset : ∀ k, (S ++ head :: (args ++ node :: binds)).set (S.length + 1 + args.length) k =
      S ++ head :: (args ++ k :: binds) := by
    intro k
    rw [args_set]
    simp
  have hget : (S ++ head :: (args ++ node :: binds))[S.length + 1 + args.length]? = some node := by
    rw [args_get]
    simp
  simp only [evalScan, Thread.judgeScan, hget]
  cases hwhnf : s.heap.isWhnf node with
  | false =>
    simp only [Bool.not_false, if_true]
    refine Tracks.andThen (f := .judge S.length args.length) (List.prefix_append S _) trivial
      (hdo (.whnf node) s _ (.judge S.length args.length :: F) _ _ _ (.whnf node)
        (Nat.le_succ_of_le hbase) fuel i hfuel) ?_
    intro s node fuel i hfuel
    refine Tracks.mono (Tracks.ret hbase ?_) (Nat.le_succ n)
    have hrun := hdo (.scan head args node binds) s S F _ _ _ (.scan head args node binds) hbase
      fuel i hfuel
    rw [← hset] at hrun
    exact hrun
  | true =>
    simp only [Bool.not_true, Bool.false_eq_true, if_false]
    have hdrop : (S ++ head :: (args ++ node :: binds)).drop S.length =
        head :: (args ++ node :: binds) := by simp
    have hstack : (S ++ head :: (args ++ node :: binds)).take S.length = S := by simp
    have htake : (args ++ node :: binds).take args.length = args := by simp
    have hbinds : (args ++ node :: binds).drop (args.length + 1) = binds := by simp
    simp only [hdrop, hstack, htake, hbinds, hset]
    -- a node that binds nothing is the body
    cases hnode : s.heap.letNode node with
    | none => exact hdo (.expr _ node) (s.setHeap _) S F _ _ _ (.expr _ node) hbase fuel i hfuel
    | some p =>
      obtain ⟨v, k⟩ := p
      have hrun := hdo (.scan head args k (binds ++ [v])) s S F _ _ _ (.scan head args k _) hbase
        fuel i hfuel
      have hassoc : S ++ head :: (args ++ k :: binds) ++ [v] =
          S ++ head :: (args ++ k :: (binds ++ [v])) := by simp
      rw [← hassoc] at hrun
      exact hrun

/-- A law with as many arguments as it takes; with another number the machine stops. -/
theorem Tracks.law {S : List Val} {F : List Frame} (head : Val) (args : List Val) (law : Option Obj)
    {s : Sto W} {fuel i : Nat} (hbase : en.base ≤ F.length) (hfuel : 0 < fuel) :
    Tracks (Run.next ctx en quantum) n
      ⟨Thread.judge ⟨.fastApply S.length, S ++ head :: args, F, s, fuel⟩ S.length args.length law, i⟩
      (evalLaw (evalJob ctx en.mode n) head args law s) (Ends S F) := by
  cases law with
  | none => exact Tracks.done rfl
  | some o =>
    cases o with
    | law normal a name body =>
      show Tracks _ _ (⟨if a = args.length then _ else _, i⟩ : Run W)
        (if a = args.length then evalJob ctx en.mode n (.scan head args body []) s else _) _
      by_cases ha : a = args.length
      · simp only [if_pos ha]
        have hrun := hdo (.scan head args body []) s S F _ _ _ (.scan head args body []) hbase fuel i
          hfuel
        rw [← List.cons_append, ← List.append_assoc] at hrun
        exact hrun
      · simp only [if_neg ha]
        exact Tracks.done rfl
    | _ => exact Tracks.done rfl

/-- The primop is looked up. -/
theorem Tracks.opent {S : List Val} {F : List Frame} (v : Val) (opset : Nat) {s : Sto W}
    {fuel i : Nat} (hbase : en.base ≤ F.length) (hfuel : 0 < fuel) :
    Tracks (Run.next ctx en quantum) n
      ⟨Thread.retOpent ctx ⟨.ret v, S, F, s, fuel⟩ v opset, i⟩
      (evalOpent (evalJob ctx en.mode n) ctx opset v s) (Ends S F) := by
  unfold Thread.retOpent evalOpent
  simp only
  cases hrplan : decide (82 ≤ opset) && !ctx.rplan with
  | true =>
    simp only [if_true]
    exact Tracks.done (Ends.raised (List.prefix_refl S) hfuel)
  | false =>
    simp only [Bool.false_eq_true, if_false]
    cases hop : ctx.findOp opset v ((s.heap.spine v).headD v) ((s.heap.spine v).length - 1) s with
    | none => exact Tracks.done (Ends.raised (List.prefix_refl S) hfuel)
    | some found =>
      obtain ⟨op, s'⟩ := found
      have hrun := hdo (.prim op ((s.heap.spine v).headD v) (s.heap.spine v).tail 0) s' S F _ _ _
        (.prim op _ _ 0) hbase fuel i hfuel
      rw [headD_cons_tail, List.length_tail] at hrun
      exact hrun

/-- An entry goes by the head: an operator set takes the name of the primop and its arguments in
one application, a law its arguments. -/
theorem Does.enter (head : Val) (args : List Val) :
    Does ctx en quantum (n + 1) (.enter head args) := by
  intro s S F ctl vs fs hstarts hbase fuel i hfuel
  cases hstarts
  refine Tracks.step rfl ?_
  show Tracks _ _ (⟨Thread.fastApply _ S.length, i⟩ : Run W)
    (evalEnter (evalJob ctx en.mode n) ctx head args s) _
  have hget : (S ++ head :: args)[S.length]? = some head := by simp
  have hargc : (S ++ head :: args).length - S.length - 1 = args.length := by simp
  have hdrop : (S ++ head :: args).drop (S.length + 1) = args := by simp
  have htake : (S ++ head :: args).take S.length = S := by simp
  simp only [evalEnter, Thread.fastApply, hget, hargc, hdrop, htake]
  rcases hobj : s.heap.obj head with _ | o
  · exact Tracks.law hdo head args none hbase hfuel
  · cases o with
    | pin normal body =>
      cases body with
      | nat opset =>
        -- a pinned number takes exactly one argument
        rcases args with _ | ⟨arg, _ | ⟨second, rest⟩⟩
        · exact Tracks.done rfl
        · refine Tracks.andThen (f := .opent (u64Clamp opset)) (List.prefix_refl S) trivial
            (hdo (.whnf arg) s S (.opent (u64Clamp opset) :: F) _ _ _ (.whnf arg)
              (Nat.le_succ_of_le hbase) fuel i hfuel) ?_
          intro s v fuel i hfuel
          refine Tracks.mono (Tracks.ret hbase ?_) (Nat.le_succ n)
          exact Tracks.opent hdo v (u64Clamp opset) hbase hfuel
        · exact Tracks.done rfl
      | ref r =>
        simp only
        rcases hbody : s.heap.obj (.ref r) with _ | o
        · exact Tracks.done (Ends.raised (List.prefix_append S _) hfuel)
        · cases o with
          | law normal a name code => exact Tracks.law hdo head args _ hbase hfuel
          | _ => exact Tracks.done (Ends.raised (List.prefix_append S _) hfuel)
    | _ => exact Tracks.law hdo head args _ hbase hfuel

omit hdo in
/-- An argument that is a value already needs no evaluation. -/
theorem Tracks.skip {v : Val} {s : Sto W} {c : Run W} {k : Sto W → Val → Outcome W}
    {E : Sto W × Res → Run W → Prop} (hwhnf : s.heap.isWhnf v = true)
    (h : Tracks (Run.next ctx en quantum) n c (k s v) E) :
    Tracks (Run.next ctx en quantum) n c ((evalJob ctx en.mode n (.whnf v) s).andThen k) E := by
  cases n with
  -- at depth zero the semantics says nothing
  | zero =>
    show Tracks _ _ _ none _
    trivial
  | succ m =>
    rw [evalJob_whnf hwhnf]
    exact h

/-- A result that is a value already goes straight to the continuations. -/
theorem Tracks.skipUnder {S : List Val} {F : List Frame} {v : Val} {ks : List Kont} {s : Sto W}
    {fuel i : Nat} (hwhnf : s.heap.isWhnf v = true) (hbase : en.base ≤ F.length) (hfuel : 0 < fuel) :
    Tracks (Run.next ctx en quantum) n
      (.at (.ret v) S (ks.map (Kont.frame S.length) ++ F) s fuel i)
      (Eval.under (evalJob ctx en.mode n) v ks s) (Ends S F) := by
  unfold Eval.under
  cases n with
  | zero =>
    show Tracks _ _ _ none _
    trivial
  | succ m =>
    rw [evalJob_whnf hwhnf]
    exact Tracks.konts hdo hbase ks s (.val v) _ (Ends.value hfuel)

/-- A strict argument is evaluated, and put back in its place. -/
theorem Tracks.argument {S : List Val} {F : List Frame} {s : Sto W} {op k : Nat} {name v : Val}
    {args : List Val} {fuel i : Nat} (hbase : en.base ≤ F.length) (hfuel : 0 < fuel) :
    Tracks (Run.next ctx en quantum) n
      (.at (.eval v) (S ++ name :: args) (.oparg op (S.length + 1) args.length k :: F) s fuel i)
      ((evalJob ctx en.mode n (.whnf v) s).andThen fun s v =>
        evalJob ctx en.mode n (.prim op name (args.set k v) (k + 1)) s) (Ends S F) := by
  refine Tracks.andThen (f := .oparg op (S.length + 1) args.length k) (List.prefix_append S _) trivial
    (hdo (.whnf v) s _ (.oparg op (S.length + 1) args.length k :: F) _ _ _ (.whnf v)
      (Nat.le_succ_of_le hbase) fuel i hfuel) ?_
  intro s v fuel i hfuel
  refine Tracks.mono (Tracks.ret hbase ?_) (Nat.le_succ n)
  have hrun := hdo (.prim op name (args.set k v) (k + 1)) s S F _ _ _ (.primNext op name _ (k + 1))
    hbase fuel i hfuel
  rw [← args_set, List.length_set] at hrun
  exact hrun

/-- The strict arguments of a primop, one after the other. The first is reached directly, the
later ones through the frame that was left for them. -/
theorem Does.prim (op : Nat) (name : Val) (args : List Val) (k : Nat) :
    Does ctx en quantum (n + 1) (.prim op name args k) := by
  intro s S F ctl vs fs hstarts hbase fuel i hfuel
  show Tracks _ _ _ (evalPrim (evalJob ctx en.mode n) op name args k s) _
  cases hstarts with
  -- no frame yet: the arguments are walked in a loop
  | prim =>
    refine Tracks.step rfl ?_
    show Tracks _ _ (⟨(⟨.opArgs op (S.length + 1) args.length k, S ++ name :: args, F, s, fuel⟩ :
      Thread W).opArgs op (S.length + 1) args.length k, i⟩ : Run W) _ _
    cases harg : args[k]? with
    | none =>
      have hk : ¬k < args.length := by
        rw [List.getElem?_eq_none_iff] at harg
        omega
      simp only [Thread.opArgs, evalPrim, if_neg hk, harg]
      refine Tracks.mono (Tracks.step rfl ?_) (Nat.le_succ n)
      show Tracks _ _ (⟨(⟨.opArgsReady op (S.length + 1) args.length, S ++ name :: args, F, s, fuel⟩ :
        Thread W).opArgsReady op (S.length + 1) args.length, i⟩ : Run W) _ _
      by_cases hdeep : (plOp op).deepMask ≠ 0
      · simp only [Thread.opArgsReady, if_pos hdeep]
        exact hdo (.deep op name args 0) s S F _ _ _ (.deep op name args 0) hbase fuel i hfuel
      · simp only [Thread.opArgsReady, if_neg hdeep]
        exact hdo (.body op name args) s S F _ _ _ (.body op name args) hbase fuel i hfuel
    | some v =>
      have hk : k < args.length := (List.getElem?_eq_some_iff.1 harg).1
      simp only [Thread.opArgs, evalPrim, if_pos hk, harg, args_get]
      cases hstrict : (plOp op).strictMask.testBit k with
      | false =>
        simp only [Bool.not_false, if_true]
        exact hdo (.prim op name args (k + 1)) s S F _ _ _ (.prim op name args (k + 1)) hbase fuel i
          hfuel
      | true =>
        simp only [Bool.not_true, Bool.false_eq_true, if_false]
        by_cases hslow : (!s.heap.isWhnf v || decide (fuel = 1)) = true
        · simp only [if_pos hslow]
          exact Tracks.argument hdo hbase hfuel
        · simp only [if_neg hslow]
          simp only [Bool.or_eq_true, Bool.not_eq_true', decide_eq_true_eq, not_or,
            Bool.not_eq_false] at hslow
          -- a value that needs no evaluation costs fuel, and a slot is left as it is
          refine Tracks.skip hslow.1 ?_
          rw [set_of_get harg]
          exact hdo (.prim op name args (k + 1)) s S F _ _ _ (.prim op name args (k + 1)) hbase
            (fuel - 1) i (by omega)
  -- the frame of the last argument that was evaluated is still there
  | primNext =>
    refine Tracks.step rfl ?_
    show Tracks _ _ (⟨(⟨.opargNext, S ++ name :: args,
      .oparg op (S.length + 1) args.length k :: F, s, fuel⟩ : Thread W).opargNext, i⟩ : Run W) _ _
    cases harg : args[k]? with
    | none =>
      have hk : ¬k < args.length := by
        rw [List.getElem?_eq_none_iff] at harg
        omega
      simp only [Thread.opargNext, evalPrim, if_neg hk, harg]
      by_cases hdeep : (plOp op).deepMask ≠ 0
      · simp only [if_pos hdeep]
        exact hdo (.deep op name args 0) s S F _ _ _ (.deep op name args 0) hbase fuel i hfuel
      · simp only [if_neg hdeep]
        exact hdo (.body op name args) s S F _ _ _ (.body op name args) hbase fuel i hfuel
    | some v =>
      have hk : k < args.length := (List.getElem?_eq_some_iff.1 harg).1
      simp only [Thread.opargNext, evalPrim, if_pos hk, harg, args_get]
      cases hstrict : (plOp op).strictMask.testBit k with
      | false =>
        simp only [Bool.not_false, if_true]
        exact hdo (.prim op name args (k + 1)) s S F _ _ _ (.primNext op name args (k + 1)) hbase
          fuel i hfuel
      | true =>
        simp only [Bool.not_true, Bool.false_eq_true, if_false]
        by_cases hslow : (decide (fuel = 1) || !s.heap.isWhnf v) = true
        · simp only [if_pos hslow]
          exact Tracks.argument hdo hbase hfuel
        · simp only [if_neg hslow]
          simp only [Bool.or_eq_true, Bool.not_eq_true', decide_eq_true_eq, not_or,
            Bool.not_eq_false] at hslow
          refine Tracks.skip hslow.2 ?_
          rw [set_of_get harg]
          exact hdo (.prim op name args (k + 1)) s S F _ _ _ (.primNext op name args (k + 1)) hbase
            (fuel - 1) i (by omega)

/-- The arguments that have to be in normal form, in the same way. -/
theorem Does.deep (op : Nat) (name : Val) (args : List Val) (k : Nat) :
    Does ctx en quantum (n + 1) (.deep op name args k) := by
  intro s S F ctl vs fs hstarts hbase fuel i hfuel
  cases hstarts
  refine Tracks.step rfl ?_
  show Tracks _ _ (⟨(⟨.opdeepNext, S ++ name :: args,
    .opdeep op (S.length + 1) args.length k :: F, s, fuel⟩ : Thread W).opdeepNext, i⟩ : Run W)
    (evalDeep (evalJob ctx en.mode n) op name args k s) _
  cases harg : args[k]? with
  | none =>
    have hk : ¬k < args.length := by
      rw [List.getElem?_eq_none_iff] at harg
      omega
    simp only [Thread.opdeepNext, evalDeep, if_neg hk, harg]
    exact hdo (.body op name args) s S F _ _ _ (.body op name args) hbase fuel i hfuel
  | some v =>
    have hk : k < args.length := (List.getElem?_eq_some_iff.1 harg).1
    simp only [Thread.opdeepNext, evalDeep, if_pos hk, harg, args_get]
    cases hdeep : (plOp op).deepMask.testBit k with
    | false =>
      simp only [Bool.not_false, if_true]
      exact hdo (.deep op name args (k + 1)) s S F _ _ _ (.deep op name args (k + 1)) hbase fuel i
        hfuel
    | true =>
      simp only [Bool.not_true, Bool.false_eq_true, if_false]
      refine Tracks.andThen (f := .opdeep op (S.length + 1) args.length k) (List.prefix_append S _)
        trivial (Tracks.under hdo [.nf] (F := .opdeep op (S.length + 1) args.length k :: F)
          (Nat.le_succ_of_le hbase) hfuel) ?_
      intro s v fuel i hfuel
      refine Tracks.mono (Tracks.ret hbase ?_) (Nat.le_succ n)
      have hrun := hdo (.deep op name (args.set k v) (k + 1)) s S F _ _ _
        (.deep op name _ (k + 1)) hbase fuel i hfuel
      rw [← args_set, List.length_set] at hrun
      exact hrun

include hq in
/-- A request is answered, or not. -/
theorem Tracks.request {S : List Val} {F : List Frame} {v : Val} {pushed : List Kont} {s : Sto W}
    {ctl : Ctl} {fuel i : Nat} (hbase : en.base ≤ F.length) (hfuel : 0 < fuel) :
    Tracks (Run.next ctx en quantum) n
      ⟨(⟨ctl, S, pushed.map (Kont.frame S.length) ++ F, s, fuel⟩ : Thread W).request en v, i⟩
      (throughKonts (evalJob ctx en.mode n) pushed (en.mode.request v s).1 (en.mode.request v s).2)
      (Ends S F) := by
  obtain ⟨mode, hmode⟩ : ∃ mode, en.mode = mode := ⟨_, rfl⟩
  have hkonts := Tracks.konts (S := S) hdo hbase pushed (en.mode.request v s).1 (en.mode.request v s).2
  cases mode with
  -- the thread stops, and is resumed with an answer that has to be a value
  | executor answer =>
    have hblocked : (⟨ctl, S, pushed.map (Kont.frame S.length) ++ F, s, fuel⟩ : Thread W).request en v =
        ⟨.blocked v, S, pushed.map (Kont.frame S.length) ++ F, s, fuel⟩ := by
      rw [Thread.request, hmode]
      rfl
    rw [hblocked]
    by_cases hwhnf : (answer v s).2.heap.isWhnf (answer v s).1 = true
    · have hnext : Run.next ctx en quantum
          (.at (.blocked v) S (pushed.map (Kont.frame S.length) ++ F) s fuel i) =
          some (.at (.ret (answer v s).1) S (pushed.map (Kont.frame S.length) ++ F) (answer v s).2
            (quantum i) (i + 1)) := by
        simp only [Run.next, hmode, if_pos hwhnf]
      refine Tracks.mono (Tracks.step hnext (hkonts _ ?_)) (Nat.le_succ n)
      simp only [hmode, Mode.request, if_pos hwhnf]
      exact Ends.value (Nat.lt_of_lt_of_le Nat.two_pos (hq i))
    · have hnext : Run.next ctx en quantum
          (.at (.blocked v) S (pushed.map (Kont.frame S.length) ++ F) s fuel i) =
          some (.at .abort S (pushed.map (Kont.frame S.length) ++ F) (answer v s).2 fuel i) := by
        simp only [Run.next, hmode, if_neg hwhnf]
      refine Tracks.mono (Tracks.step hnext (hkonts _ ?_)) (Nat.le_succ n)
      simp only [hmode, Mode.request, if_neg hwhnf]
      rfl
  -- without an executor a request is an exception
  | host =>
    have hraised : (⟨ctl, S, pushed.map (Kont.frame S.length) ++ F, s, fuel⟩ : Thread W).request en v =
        ⟨.raised executorMsg, S, pushed.map (Kont.frame S.length) ++ F, s, fuel⟩ := by
      rw [Thread.request, hmode]
      rfl
    rw [hraised]
    refine hkonts _ ?_
    rw [hmode]
    exact Ends.raised (List.prefix_refl S) hfuel
  | nested =>
    refine hkonts _ ?_
    rw [Thread.request, hmode]
    rfl

include hq in
/-- The body of a primop: what it returns is delivered to what it pushed, and a request of a
coordinating primop goes outside first. -/
theorem Does.body (op : Nat) (name : Val) (args : List Val) :
    Does ctx en quantum (n + 1) (.body op name args) := by
  intro s S F ctl vs fs hstarts hbase fuel i hfuel
  cases hstarts
  refine Tracks.step rfl ?_
  show Tracks _ _ (⟨Thread.opBody ctx en _ op (S.length + 1) args.length, i⟩ : Run W)
    (evalBody (evalJob ctx en.mode n) ctx en.mode op name args s) _
  have hname : (S ++ name :: args)[S.length + 1 - 1]? = some name := by simp
  have hargs : ((S ++ name :: args).drop (S.length + 1)).take args.length = args := by simp
  have htake : (S ++ name :: args).take (S.length + 1 - 1) = S := by simp
  simp only [Thread.opBody, evalBody, hname, hargs, htake, Option.getD_some]
  -- the effect counter moves before the body runs
  generalize ({ s with epoch := s.epoch + if (plOp op).opset ≥ 82 then 1 else 0 } : Sto W) = s
  have hleft := ctx.spend_pos op args s fuel hfuel
  generalize ctx.spend op args s fuel = left at hleft ⊢
  cases hbody : ctx.body op name args s with
  | aborts => exact Tracks.done rfl
  | raises e s' => exact Tracks.done (Ends.raised (List.prefix_append S _) hleft)
  | returns v pushed s' =>
    simp only [Nat.add_sub_cancel]
    cases hcoord : (plOp op).coord with
    | true =>
      simp only [if_true]
      exact Tracks.request hq hdo hbase hleft
    | false =>
      simp only [Bool.false_eq_true, if_false]
      -- with fuel left and a value there is no need to evaluate it again
      by_cases hfast : (decide (1 < left) && s'.heap.isWhnf v) = true
      · simp only [if_pos hfast]
        simp only [Bool.and_eq_true, decide_eq_true_eq] at hfast
        exact Tracks.skipUnder hdo hfast.2 hbase (by omega)
      · simp only [if_neg hfast]
        exact Tracks.under hdo _ hbase hleft

end

/-- The machine does every job. -/
theorem does (hq : ∀ i, 2 ≤ quantum i) (n : Nat) (j : Job) : Does ctx en quantum n j := by
  induction n generalizing j with
  | zero => exact fun s S F ctl vs fs _ _ fuel i _ => trivial
  | succ n ih =>
    cases j with
    | whnf v => exact Does.whnf hq ih v
    | expr env e => exact Does.expr ih env e
    | deliver k v => exact Does.deliver ih k v
    | applyn v args => exact Does.applyn ih v args
    | enter head args => exact Does.enter ih head args
    | scan head args node binds => exact Does.scan ih head args node binds
    | prim op name args k => exact Does.prim ih op name args k
    | deep op name args k => exact Does.deep ih op name args k
    | body op name args => exact Does.body hq ih op name args
    | fields v k => exact Does.fields ih v k

end Enki.Eval
