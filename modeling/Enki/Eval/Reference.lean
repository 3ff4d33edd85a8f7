import Enki.Eval.Entries

/-!
# The machine and the reference

The reference looks every primop up in the table; the machine asks the memo of the thread
first. An entry of the memo says what the table says, or is one that nothing has filled: that
one answers for the name 0 of op set 0 without arguments, which the table does not have. In a
run that does not ask for it the machine does what the reference does.
-/

namespace Enki.Eval

open Running StateTransition

variable {W : Type} {ctx : Ctx W}

/-- What an entry has for a name is what the table has, unless nothing has filled it. -/
def Ctx.EntryTrue (ctx : Ctx W) (e : OpMemo) : Prop :=
  e = .zeroed ∨ 0 ≤ e.idx ∧ ∀ v name, ctx.nameWord v name = some e.name →
    opLookup e.opset name e.argc = some e.idx.toNat

def Ctx.MemoTrue (ctx : Ctx W) (s : Sto W) : Prop := ∀ i, ctx.EntryTrue (s.memo i)

/-- The word of a name is the word of no other. -/
theorem Ctx.nameWord_inj {v v' name name' : Val} {word : Word} (h : ctx.nameWord v name = some word)
    (h' : ctx.nameWord v' name' = some word) : name = name' := by
  cases name with
  | ref _ => cases h
  | nat n =>
    cases name' with
    | ref _ => cases h'
    | nat n' =>
      cases h
      have heq := Option.some.inj h'
      have hge := ctx.boxed_ge v n
      have hge' := ctx.boxed_ge v' n'
      by_cases hn : n < 2 ^ 63 <;> by_cases hn' : n' < 2 ^ 63
      · rw [if_pos hn, if_pos hn'] at heq
        rw [heq]
      · rw [if_pos hn, if_neg hn'] at heq
        exact absurd (heq ▸ hge') (Nat.not_le.mpr hn)
      · rw [if_neg hn, if_pos hn'] at heq
        exact absurd (heq ▸ hge) (Nat.not_le.mpr hn')
      · rw [if_neg hn, if_neg hn'] at heq
        rw [ctx.boxed_inj _ _ _ _ heq]

theorem Ctx.findOp_true {opset : Nat} {v name : Val} {argc op : Nat} {s s' : Sto W}
    (hs : ctx.MemoTrue s) (h : ctx.findOp opset v name argc s = some (op, s')) : ctx.MemoTrue s' := by
  unfold findOp at h
  split at h
  · cases h
  · rename_i word hword
    simp only at h
    split at h
    · cases h
      exact hs
    · obtain ⟨found, hfound, he⟩ := Option.map_eq_some_iff.mp h
      cases he
      intro i
      by_cases hi : i = memoSlot opset word argc
      · subst hi
        simp only [Function.update_self]
        refine .inr ⟨Int.natCast_nonneg _, fun v' name' hword' => ?_⟩
        rw [← nameWord_inj hword hword']
        exact hfound
      · simp only [Function.update_of_ne hi]
        exact hs i

/-! ## Steps -/

namespace Thread

variable {t : Thread W} {m : Fin opMemoSlots → OpMemo}

theorem retOpent_true (hs : ctx.MemoTrue t.sto) (v : Val) (opset : Nat) :
    ctx.MemoTrue (t.retOpent ctx v opset).sto := by
  unfold retOpent
  simp only
  split
  · exact hs
  · split
    · exact hs
    · rename_i hfound
      exact Ctx.findOp_true hs hfound

end Thread

/-! ## Runs -/

namespace Run

variable {en : Entry W} {quantum : Nat → Nat}

end Run

section

variable {mode : Mode W} {S : List Val} {F : List Frame} {quantum : Nat → Nat}

end

end Enki.Eval
