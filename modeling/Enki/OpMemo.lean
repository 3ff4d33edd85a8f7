import Enki.Ops
import Mathlib.Logic.Function.Basic
import Mathlib.Logic.Relation

/-!
# The primop memo

`ret_opent` of `eval.c` memoises `pl_op_lookup` in a direct-mapped table keyed
by the raw word of the name. A name of more than seven bytes is a boxed natural,
and its word an address: a `gc2` collection clears the table, a `gc1` collection
does not, although it moves every such name that is not in the store. A cleared
table is not empty either, since a zeroed entry reads as one for the name 0 of
op set 0 without arguments.

`memo_hit_sound` says that these are the only ways for a hit to be wrong: a run in which
the zeroed entry is not asked for, nor an entry whose boxed name has aged, has none.
-/

namespace Enki

/-- `PL_OP_MEMO_SLOTS` -/
def opMemoSlots : Nat := 64

/-- `struct pl_op_memo` -/
structure OpMemo where
  name : Word
  opset : Nat
  argc : Nat
  idx : Int
  deriving DecidableEq, Repr

/-- An entry of a zeroed table. -/
def OpMemo.zeroed : OpMemo := ⟨0, 0, 0, 0⟩

/-- What `ret_opent` reads of a thread: what it can see of the store and the
moving heap, which addresses the store owns, the mode gate and the memo. -/
structure OpThread where
  mem : Mem
  owns : Nat → Bool
  rplan : Bool
  memo : Fin opMemoSlots → OpMemo

/-- `pl_thread` starts out zeroed. -/
def OpThread.fresh (mem : Mem) (owns : Nat → Bool) (rplan : Bool) : OpThread :=
  ⟨mem, owns, rplan, fun _ => .zeroed⟩

/-- The name and argument count of the operand of a primop pin. -/
def unapp (m : Mem) (v : Word) : Word × Nat :=
  match m.appHead v, m.appArgs v with
  | some head, some args => (head, Word.u32 args.length)
  | _, _ => (v, 0)

/-- The slot an entry belongs to. -/
def memoSlot (opset : Nat) (name : Word) (argc : Nat) : Fin opMemoSlots :=
  ⟨(name ^^^ (opset * 31 % 2 ^ 64) ^^^ argc) % opMemoSlots, Nat.mod_lt _ (by decide)⟩

/-- The test of a memo entry. -/
def OpMemo.matches (e : OpMemo) (opset : Nat) (name : Word) (argc : Nat) : Bool :=
  e.name == name && e.opset == opset && e.argc == argc && decide (0 ≤ e.idx)

/-- Where a primop call goes. -/
inductive Dispatch where
  | hit (idx : Nat)
  | found (idx : Nat)
  | raise (msg : String)
  deriving DecidableEq, Repr

/-- `ret_opent`, up to the evaluation of the arguments. -/
def retOpent (t : OpThread) (opset : Nat) (v : Word) : Dispatch × OpThread :=
  let (name, argc) := unapp t.mem v
  let slot := memoSlot opset name argc
  if opset ≥ 82 ∧ !t.rplan then (.raise "Not in RPLAN Mode", t)
  else if (t.memo slot).matches opset name argc then (.hit (t.memo slot).idx.toNat, t)
  else
    match t.mem.opLookup opset name argc with
    | none => (.raise s!"no primop {opset} (argc {argc})", t)
    | some idx =>
      (.found idx, { t with memo := Function.update t.memo slot ⟨name, opset, argc, idx⟩ })

/-- `pl_forward`: direct naturals and store words stay, a survivor gets its new
address. -/
def Word.forward (owns : Nat → Bool) (fwd : Nat → Option Nat) (w : Word) : Word :=
  if w.isNat63 ∨ owns w.addr then w
  else ((fwd w.addr).map (Word.make w.tag)).getD w

/-- A cell with its fields forwarded, as `pl_cheney_scan` leaves it. -/
def Cell.forward (owns : Nat → Bool) (fwd : Nat → Option Nat) : Cell → Cell
  | .nat n => .nat n
  | .app head args => .app (head.forward owns fwd) (args.map (Word.forward owns fwd))
  | .law arity name body => .law arity (name.forward owns fwd) (body.forward owns fwd)
  | .pin hash body => .pin hash (body.forward owns fwd)
  | .other => .other

/-- `pl_collect_into`: the store stays, and the survivors of the moving heap are
copied to other addresses of it, two never to the same. What stood at an address
before says nothing about what stands there now. -/
structure Collected (owns : Nat → Bool) (m m' : Mem) : Prop where
  store : ∀ a, owns a → m'.cell a = m.cell a
  copied : ∃ fwd : Nat → Option Nat,
    (∀ a b, fwd a = some b → owns a = false ∧ owns b = false ∧
      m'.cell b = (m.cell a).forward owns fwd) ∧
    ∀ a a' b, fwd a = some b → fwd a' = some b → a = a'

/-- Between collections no natural is overwritten: the heap only grows. -/
def NatsKept (m m' : Mem) : Prop := ∀ a n, m.cell a = .nat n → m'.cell a = .nat n

/-- A step of a thread, as far as its memo is concerned. -/
inductive MemoEvent where
  | dispatch (opset : Nat) (v : Word)
  /-- Anything else the mutator does. -/
  | mutate (mem : Mem) (owns : Nat → Bool)
  | gc1 (mem : Mem)
  | gc2 (mem : Mem) (owns : Nat → Bool)

namespace MemoEvent

/-- What the event leaves. `mark_world` zeroes the memo of every thread. -/
def run (t : OpThread) : MemoEvent → OpThread
  | dispatch opset v => (retOpent t opset v).2
  | mutate mem owns => { t with mem := mem, owns := owns }
  | gc1 mem => { t with mem := mem }
  | gc2 mem owns => { t with mem := mem, owns := owns, memo := fun _ => .zeroed }

/-- What the event may do to memory. -/
def Valid (t : OpThread) : MemoEvent → Prop
  | dispatch _ _ => True
  | mutate mem _ => NatsKept t.mem mem
  | gc1 mem => Collected t.owns t.mem mem
  | gc2 _ _ => True

/-- Which entries have a boxed name of the moving heap that was there before its last
collection: those of `aged` and what the event adds. -/
def age (t : OpThread) (aged : Fin opMemoSlots → Bool) : MemoEvent → Fin opMemoSlots → Bool
  | dispatch opset v =>
    match (retOpent t opset v).1 with
    | .found _ => Function.update aged (memoSlot opset (unapp t.mem v).1 (unapp t.mem v).2) false
    | _ => aged
  | mutate _ _ => aged
  | gc1 _ => fun i => aged i || !((t.memo i).name.isNat63 || t.owns (t.memo i).name.addr)
  | gc2 _ _ => fun _ => false

/-- A thread and its aged entries after the event. -/
def track (x : OpThread × (Fin opMemoSlots → Bool)) (e : MemoEvent) :
    OpThread × (Fin opMemoSlots → Bool) := (e.run x.1, e.age x.1 x.2)

/-- The zeroed entry is not asked for, and no aged one. -/
def Careful (t : OpThread) (aged : Fin opMemoSlots → Bool) : MemoEvent → Prop
  | dispatch opset v =>
    ¬ (opset = 0 ∧ unapp t.mem v = (0, 0)) ∧
      ∀ i, aged i → ¬(t.memo i).matches opset (unapp t.mem v).1 (unapp t.mem v).2
  | _ => True

end MemoEvent

/-- One step of a thread. -/
def MemoStep (t t' : OpThread) : Prop := ∃ e : MemoEvent, e.Valid t ∧ t' = e.run t

/-- One step that meets the condition, with the aged entries before and after it. -/
def CarefulStep (x x' : OpThread × (Fin opMemoSlots → Bool)) : Prop :=
  ∃ e : MemoEvent, e.Valid x.1 ∧ e.Careful x.1 x.2 ∧ x' = MemoEvent.track x e

section Lookup

variable {m m' : Mem} {opset argc idx : Nat} {name : Word}

/-- No primop has an empty name. -/
theorem mote_nameC_ne_zero : ∀ d ∈ plOps, ∀ s, d.nameC = some s → OpDesc.mote s ≠ 0 := by
  decide +kernel

/-- A name that is found is a natural. -/
theorem opLookup_name (h : m.opLookup opset name argc = some idx) :
    name.isNat63 ∨ ∃ n, m.cell name.addr = .nat n := by
  have hmatch := List.find?_some h
  have hlt := (Mem.opLookup_some h).1
  simp only [Mem.nameMatches] at hmatch
  by_cases hdirect : name.isNat63
  · exact .inl hdirect
  · right
    split at hmatch
    · rename_i s hs
      simp only [Mem.natNameEq, Bool.and_eq_true, beq_iff_eq] at hmatch
      have hne := mote_nameC_ne_zero (plOp idx) (by simp [plOp, hlt]) s hs
      rw [← hmatch.2, Mem.natOf, if_neg hdirect] at hne
      split at hne
      · exact ⟨_, by assumption⟩
      · exact absurd rfl hne
    · simp [hdirect] at hmatch

/-- A lookup looks at nothing but the name. -/
theorem opLookup_congr (h : name.isNat63 ∨ m'.cell name.addr = m.cell name.addr) :
    m'.opLookup opset name argc = m.opLookup opset name argc := by
  have hnat : m'.natOf name = m.natOf name := by
    unfold Mem.natOf
    rcases h with hdirect | hcell
    · simp [hdirect]
    · rw [hcell]
  unfold Mem.opLookup Mem.nameMatches Mem.natNameEq
  rw [hnat]

theorem opLookup_kept (hk : NatsKept m m') (h : m.opLookup opset name argc = some idx) :
    m'.opLookup opset name argc = some idx := by
  rw [← h]
  refine opLookup_congr ((opLookup_name h).imp_right ?_)
  rintro ⟨n, hn⟩
  rw [hn, hk _ _ hn]

end Lookup

/-- The entry is zeroed, or what the lookup would give. -/
def EntryTrue (m : Mem) (e : OpMemo) : Prop :=
  e = .zeroed ∨ 0 ≤ e.idx ∧ m.opLookup e.opset e.name e.argc = some e.idx.toNat

/-- The invariant of the memo. -/
def MemoTrue (x : OpThread × (Fin opMemoSlots → Bool)) : Prop :=
  ∀ i, x.2 i = false → EntryTrue x.1.mem (x.1.memo i)

section Steps

variable {t : OpThread} {aged : Fin opMemoSlots → Bool}

theorem retOpent_true (h : MemoTrue (t, aged)) (opset : Nat) (v : Word) :
    MemoTrue ((retOpent t opset v).2, (MemoEvent.dispatch opset v).age t aged) := by
  simp only [MemoEvent.age, retOpent]
  split_ifs
  · exact h
  · exact h
  · split
    · exact h
    · rename_i idx hidx
      intro i hi
      -- only the slot of the row looked up is written, and it is fresh then
      by_cases hslot : i = memoSlot opset (unapp t.mem v).1 (unapp t.mem v).2
      · subst hslot
        refine .inr ?_
        simp only [Function.update_self]
        exact ⟨by omega, by simpa using hidx⟩
      · simp only [Function.update_of_ne hslot] at hi ⊢
        exact h i hi

theorem carefulStep_true {x x' : OpThread × (Fin opMemoSlots → Bool)} (h : MemoTrue x)
    (hs : CarefulStep x x') : MemoTrue x' := by
  obtain ⟨e, hvalid, -, rfl⟩ := hs
  cases e with
  | dispatch opset v => exact retOpent_true h opset v
  | mutate mem owns =>
    intro i hi
    exact (h i hi).imp_right fun ⟨h0, hidx⟩ => ⟨h0, opLookup_kept hvalid hidx⟩
  | gc1 mem =>
    intro i hi
    -- an entry that is not aged has a name that the collection leaves where it is
    simp only [MemoEvent.track, MemoEvent.age, Bool.or_eq_false_iff, Bool.not_eq_false',
      Bool.or_eq_true] at hi
    have hkept := hi.2.imp_right fun howns => hvalid.store _ howns
    exact (h i hi.1).imp_right fun ⟨h0, hidx⟩ => ⟨h0, (opLookup_congr hkept).trans hidx⟩
  | gc2 mem owns => exact fun i _ => .inl rfl

theorem carefulRun_true {mem : Mem} {owns : Nat → Bool} {rplan : Bool}
    {x : OpThread × (Fin opMemoSlots → Bool)}
    (hrun : Relation.ReflTransGen CarefulStep (.fresh mem owns rplan, fun _ => false) x) :
    MemoTrue x := by
  induction hrun with
  | refl => exact fun i _ => .inl rfl
  | tail _ hs ih => exact carefulStep_true ih hs

/-- In a run whose steps all meet the condition, the index a hit uses is the one
the lookup gives. -/
theorem memo_hit_sound {mem : Mem} {owns : Nat → Bool} {rplan : Bool}
    (hrun : Relation.ReflTransGen CarefulStep (.fresh mem owns rplan, fun _ => false) (t, aged))
    {opset : Nat} {v : Word} (hcareful : (MemoEvent.dispatch opset v).Careful t aged) {idx : Nat}
    (hhit : (retOpent t opset v).1 = .hit idx) :
    t.mem.opLookup opset (unapp t.mem v).1 (unapp t.mem v).2 = some idx := by
  have htrue := carefulRun_true hrun
  simp only [retOpent] at hhit
  split_ifs at hhit with hgate hmatch
  · obtain rfl := Dispatch.hit.inj hhit
    have hfresh := mt (hcareful.2 (memoSlot opset (unapp t.mem v).1 (unapp t.mem v).2))
      (not_not_intro hmatch)
    simp only [OpMemo.matches, Bool.and_eq_true, beq_iff_eq, decide_eq_true_eq] at hmatch
    obtain ⟨⟨⟨hname, hopset⟩, hargc⟩, -⟩ := hmatch
    rcases htrue _ (Bool.eq_false_iff.mpr hfresh) with hzero | ⟨-, hidx⟩
    · rw [hzero] at hname hopset hargc
      refine absurd ⟨hopset.symm, ?_⟩ hcareful.1
      exact Prod.ext hname.symm hargc.symm
    · rw [hname, hopset, hargc] at hidx
      exact hidx
  · split at hhit <;> cases hhit

end Steps

section Rows

/-- A memory of at most two rows, each a boxed name and the application of that
name to two arguments. -/
def namesMem (name₁ row₁ name₂ row₂ : Nat) (s₁ s₂ : String) : Mem where
  cell a :=
    if a = name₁ then .nat (OpDesc.mote s₁)
    else if a = row₁ then .app (Word.make Word.tagNat name₁) [1, 2]
    else if a = name₂ then .nat (OpDesc.mote s₂)
    else if a = row₂ then .app (Word.make Word.tagNat name₂) [1, 2]
    else .other
  codeMask := fun _ => 0
  headDepth := 1
  args_lt := by
    intro a head args hcell
    have hlen : args = [1, 2] := by split_ifs at hcell <;> simp_all
    simp [hlen]

/-- Two rows of the moving heap. -/
def bothMem : Mem := namesMem 4096 4112 4128 4144 "HmacSha256" "Ed25519Sign"

/-- The second row, evacuated to the other space. -/
def evacuatedMem : Mem := namesMem 8192 8208 8192 8208 "Ed25519Sign" "Ed25519Sign"

/-- The second row, back in the first space. -/
def returnedMem : Mem := namesMem 4096 4112 4096 4112 "Ed25519Sign" "Ed25519Sign"

/-- The application at 4112. -/
def memoRow : Word := Word.make Word.tagApp 4112

/-- A collection that moves the cells at `a` and `b`, and frees the rest. -/
def movePair (a b a' b' : Nat) (x : Nat) : Option Nat :=
  if x = a then some a' else if x = b then some b' else none

theorem collected_pair {m m' : Mem} (a b a' b' : Nat) (hne : a' ≠ b')
    (ha : m'.cell a' = (m.cell a).forward (fun _ => false) (movePair a b a' b'))
    (hb : m'.cell b' = (m.cell b).forward (fun _ => false) (movePair a b a' b')) :
    Collected (fun _ => false) m m' := by
  refine ⟨by simp, movePair a b a' b', fun x y h => ?_, fun x x' y h h' => ?_⟩
  · unfold movePair at h
    split_ifs at h with hx hx' <;> obtain rfl := Option.some.inj h
    · exact ⟨rfl, rfl, hx ▸ ha⟩
    · exact ⟨rfl, rfl, hx' ▸ hb⟩
  · unfold movePair at h h'
    split_ifs at h h' <;> simp_all

theorem bothMem_collected : Collected (fun _ => false) bothMem evacuatedMem :=
  collected_pair 4128 4144 8192 8208 (by decide) rfl rfl

theorem evacuatedMem_collected : Collected (fun _ => false) evacuatedMem returnedMem :=
  collected_pair 8192 8208 4096 4112 (by decide) rfl rfl

end Rows

/-- The row at 8208, after a collection. -/
def movedRow : Word := Word.make Word.tagApp 8208

/-- The thread of `bothMem` after a `gc2` collection, a dispatch of the first row, and a `gc1`
collection that moved the second one, with the entry of the first name aged. -/
def movedThread : OpThread × (Fin opMemoSlots → Bool) :=
  [.gc2 bothMem fun _ => false, .dispatch 83 memoRow, .gc1 evacuatedMem].foldl MemoEvent.track
    (.fresh bothMem (fun _ => false) true, fun _ => false)

/-- The memo is used across collections: a boxed name hits after both of them. -/
theorem boxed_name_hits :
    ∃ x, Relation.ReflTransGen CarefulStep
        (.fresh bothMem (fun _ => false) true, fun _ => false) x ∧
      (∃ i, movedThread.2 i) ∧ (retOpent x.1 83 movedRow).1 = .hit 137 ∧
        x.1.mem.opLookup 83 (unapp x.1.mem movedRow).1 (unapp x.1.mem movedRow).2 = some 137 := by
  have hcareful : (MemoEvent.dispatch 83 movedRow).Careful movedThread.1 movedThread.2 :=
    ⟨by decide +kernel, by decide +kernel⟩
  have hrun : Relation.ReflTransGen CarefulStep
      (.fresh bothMem (fun _ => false) true, fun _ => false)
      (MemoEvent.track movedThread (.dispatch 83 movedRow)) :=
    .tail (.tail (.tail (.single ⟨.gc2 bothMem fun _ => false, trivial, trivial, rfl⟩)
      ⟨.dispatch 83 memoRow, trivial, ⟨by decide +kernel, nofun⟩, rfl⟩)
      ⟨.gc1 evacuatedMem, bothMem_collected, trivial, rfl⟩)
      ⟨.dispatch 83 movedRow, trivial, hcareful, rfl⟩
  have hhit : (retOpent ((MemoEvent.dispatch 83 movedRow).run movedThread.1) 83 movedRow).1 =
      .hit 137 := by
    decide +kernel
  exact ⟨_, hrun, by decide +kernel, hhit,
    memo_hit_sound hrun ⟨by decide +kernel, by decide +kernel⟩ hhit⟩

/-- A thread that has run one row and then been collected twice. -/
def staleThread : OpThread :=
  { (retOpent (.fresh bothMem (fun _ => false) true) 83 memoRow).2 with mem := returnedMem }

/-- A fresh memo hits for the name 0 of op set 0, which is no primop; and a name
that two collections have put where another one was hits as that one, here a
signature as a keyed hash. -/
theorem memo_hit_wrong :
    ((retOpent (.fresh bothMem (fun _ => false) true) 0 0).1 = .hit 0 ∧
        bothMem.opLookup 0 0 0 = none) ∧
      Relation.ReflTransGen MemoStep (.fresh bothMem (fun _ => false) true) staleThread ∧
        ∃ idx idx', (retOpent staleThread 83 memoRow).1 = .hit idx ∧
          staleThread.mem.opLookup 83 (unapp staleThread.mem memoRow).1
            (unapp staleThread.mem memoRow).2 = some idx' ∧ idx ≠ idx' := by
  refine ⟨⟨by decide +kernel, by decide +kernel⟩, ?_, 140, 137, by decide +kernel,
    by decide +kernel, by decide⟩
  refine .tail (.tail (.single ⟨.dispatch 83 memoRow, trivial, rfl⟩)
    ⟨.gc1 evacuatedMem, bothMem_collected, rfl⟩) ⟨.gc1 returnedMem, evacuatedMem_collected, rfl⟩

end Enki
