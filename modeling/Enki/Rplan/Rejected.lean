import Enki.Rplan.FileRoot

/-!
# Rejected arguments

`rp_want_nat` raises when an argument is not a natural. Every direct effect looks at its
arguments before it does anything, except `WriteFile`: it opens the file, and so makes or
empties it, and only then looks at the bytes it is to write. `rejected_iff` says that this
is the one way in which a rejected argument has an effect.
-/

namespace Enki.Rplan

open Bignum Log FileTree

/-- An effect that raises for an argument leaves the files, the descriptors and the handles as
they were. -/
def Done.Clean (w : World) (d : Done) : Prop :=
  d.result = .error (.raise unknownOp) → d.world = w

section

variable {w w' : World}

theorem clean_wantNat {a : Option CNat} {k : CNat → Done} (h : ∀ v, a = some v → (k v).Clean w) :
    (rpWantNat w a k).Clean w := by
  cases a with
  | none => exact fun _ => rfl
  | some v => exact h v rfl

/-- An effect that raises nothing, or something else. -/
theorem Done.Clean.of_ne {d : Done} (h : d.result ≠ .error (.raise unknownOp)) : d.Clean w :=
  fun hr => absurd hr h

theorem clean_raises {msg : String} (h : msg ≠ unknownOp) : (w'.raises msg).Clean w :=
  .of_ne fun hr => h (Stop.raise.inj (Except.error.inj hr))

theorem clean_returns (v : NatVal) : (w'.returns v).Clean w := .of_ne fun hr => by cases hr

/-- A bar is made, or it is too long. -/
theorem rpBar_ne (fresh : Nat → UInt64) (b : List UInt8) (msg : String) :
    rpBar fresh b ≠ .error (.raise msg) := by
  rcases fromBytes_cases fresh (b ++ [1]) with ⟨-, v, hv, -⟩ | ⟨-, msg', hbig⟩
  · intro h
    cases hv.symm.trans h
  · intro h
    cases hbig.symm.trans h

theorem writeHandle_clean (os : Answers) (handle : Nat) (b : List UInt8) {closed failed : String}
    (hclosed : closed ≠ unknownOp) (hfailed : failed ≠ unknownOp) :
    (writeHandle w' os handle b closed failed).Clean w := by
  unfold writeHandle
  split
  next => exact clean_raises hclosed
  next =>
    dsimp only
    split
    next => exact .of_ne fun hr => by cases hr
    next => exact .of_ne fun hr => hfailed (Stop.raise.inj (Except.error.inj hr))

theorem addHandle_clean (fd : Nat) {full : String} (h : full ≠ unknownOp) :
    (addHandle w' fd full).Clean w := by
  unfold addHandle
  split
  next => exact clean_returns _
  next => exact clean_raises h

end

section

variable (env : Env) (w : World) (os : Answers)

theorem input_clean (a : Option CNat) : (input env.fresh w os a).Clean w := by
  unfold input
  split
  next => exact clean_raises (by decide)
  next =>
    dsimp only
    split
    next => exact clean_raises (by decide)
    next => exact .of_ne (rpBar_ne _ _ _)

theorem readFile_clean (a : Option CNat) : (readFile env.fresh w os env.garbage a).Clean w := by
  refine clean_wantNat fun v _ => ?_
  split
  next => exact clean_returns _
  next =>
    split
    next => exact clean_returns _
    next =>
      have hzero : ∀ l : Loc, ({ w.returns (.direct 0) with touched := [l] } : Done).Clean w :=
        fun l => .of_ne fun hr => by cases hr
      split
      · exact hzero _
      split
      next => exact hzero _
      next =>
        split
        · exact hzero _
        dsimp only
        split
        next => exact hzero _
        next => exact fun _ => rfl

theorem stamp_clean (a : Option CNat) : (stamp w os a).Clean w := by
  refine clean_wantNat fun v _ => ?_
  split
  next => exact clean_returns _
  next =>
    split
    next => exact clean_returns _
    next => split <;> exact fun _ => rfl

theorem now_clean : (now w os).Clean w := by
  unfold now
  split
  next => exact clean_raises (by decide)
  next =>
    dsimp only
    split
    next => exact clean_raises (by decide)
    next => exact clean_returns _

theorem closefd_clean (a : Option CNat) : (closefd w os a).Clean w := by
  refine clean_wantNat fun v _ => ?_
  dsimp only
  split
  next => exact clean_raises (by decide)
  next => exact clean_returns _
  next => exact .of_ne fun hr => by cases hr
  next =>
    split
    · exact clean_returns _
    · exact clean_raises (by decide)

theorem listen_clean (a : Option CNat) : (listen w os a).Clean w := by
  refine clean_wantNat fun v _ => ?_
  split
  · exact clean_raises (by decide)
  dsimp only
  split
  · exact clean_raises (by decide)
  split
  · exact clean_raises (by decide)
  · exact addHandle_clean _ (by decide)

theorem accept_clean (a : Option CNat) : (accept w os a).Clean w := by
  refine clean_wantNat fun v _ => ?_
  dsimp only
  split
  next => exact clean_raises (by decide)
  next =>
    split
    · exact clean_raises (by decide)
    · exact addHandle_clean _ (by decide)

theorem readFd_clean (a b : Option CNat) : (readFd env.fresh w os a b).Clean w := by
  refine clean_wantNat fun v _ => clean_wantNat fun count _ => ?_
  dsimp only
  split
  next => exact clean_raises (by decide)
  next =>
    split
    next => exact clean_raises (by decide)
    next => exact clean_returns _
    next => exact .of_ne (rpBar_ne _ _ _)

theorem connect_clean (a b c : Option CNat) : (connect w os a b c).Clean w := by
  refine clean_wantNat fun isDns _ => clean_wantNat fun port _ => clean_wantNat fun host _ => ?_
  dsimp only
  split
  next => exact fun _ => rfl
  next =>
    split
    next => exact clean_raises (by decide)
    next => exact addHandle_clean _ (by decide)
    next => exact clean_raises (by decide)

/-- The path argument of `WriteFile` leads to a file that is then open, made or emptied. -/
def WriteOpens (a : Option CNat) : Prop :=
  ∃ v path l, a = some v ∧ rpResolveWritePath w.toFiles (rpNatPath v.1) = some path ∧
    w.openWrite path = some l ∧ os.opens = true

variable {w os} in
/-- What `WriteFile` leaves when the bytes are rejected: the file and the descriptor are open. -/
theorem writeFile_rejected {v : CNat} {path : List UInt8} {l : Loc}
    (hpath : rpResolveWritePath w.toFiles (rpNatPath v.1) = some path)
    (hopen : w.openWrite path = some l) (hos : os.opens = true) :
    writeFile w os (some v) none =
      { ({ w with fs := w.fs.write l [] }.openFd (.file l)).raises unknownOp with
        touched := [l] } := by
  simp only [writeFile, rpWantNat, hpath, hopen, hos]
  rfl

theorem writeFile_clean_iff (a b : Option CNat) :
    (writeFile w os a b).Clean w ↔ ¬ (WriteOpens w os a ∧ b = none) := by
  constructor
  · rintro hclean ⟨⟨v, path, l, rfl, hpath, hopen, hos⟩, rfl⟩
    rw [writeFile_rejected hpath hopen hos] at hclean
    -- There is a descriptor more than before.
    have hfds := congrArg (fun w : World => w.fds.length) (hclean rfl)
    simp [World.openFd, World.raises] at hfds
  · intro hno
    refine clean_wantNat fun v hv => ?_
    cases hpath : rpResolveWritePath w.toFiles (rpNatPath v.1) with
    | none => exact clean_returns _
    | some path =>
      dsimp only
      cases hopen : w.openWrite path with
      | none => exact clean_returns _
      | some l =>
        dsimp only
        cases hos : os.opens with
        | false => exact clean_returns _
        | true =>
          cases b with
          | none => exact absurd ⟨⟨v, path, l, hv, hpath, hopen, hos⟩, rfl⟩ hno
          | some v' =>
            refine .of_ne ?_
            simp only [rpWantNat]
            cases (writeAll os.writes (rpNatBytes v'.1 true)).1 with
            | false => exact fun hr => by simp [World.raises, unknownOp] at hr
            | true => exact fun hr => by cases hc : os.close <;> simp [Bignum.assume, hc] at hr

/-- A rejected argument has no effect unless it is the bytes for a file that `WriteFile` opened. -/
theorem rejected_iff (e : Effect) (arg : Nat → Option CNat) : (e.run env w os arg).Clean w ↔
    ¬ (e = .writeFile ∧ WriteOpens w os (arg 0) ∧ arg 1 = none) := by
  by_cases he : e = .writeFile
  · subst he
    rw [show Effect.writeFile.run env w os arg = writeFile w os (arg 0) (arg 1) from rfl,
      writeFile_clean_iff]
    simp
  · refine iff_of_true ?_ fun h => he h.1
    cases e with
    | input => exact input_clean env w os (arg 0)
    | output => exact writeHandle_clean _ _ _ (by decide) (by decide)
    | warn => exact writeHandle_clean _ _ _ (by decide) (by decide)
    | readFile => exact readFile_clean env w os (arg 0)
    | writeFile => exact absurd rfl he
    | print => exact clean_wantNat fun v _ => writeHandle_clean _ _ _ (by decide) (by decide)
    | stamp => exact stamp_clean w os (arg 0)
    | now => exact now_clean w os
    | closeFd => exact closefd_clean w os (arg 0)
    | listen => exact listen_clean w os (arg 0)
    | accept => exact accept_clean w os (arg 0)
    | read => exact readFd_clean env w os (arg 0) (arg 1)
    | write =>
      exact clean_wantNat fun v _ => clean_wantNat fun bytes _ =>
        writeHandle_clean _ _ _ (by decide) (by decide)
    | connect => exact connect_clean w os (arg 0) (arg 1) (arg 2)

end

/-- The file `a` below the root is emptied, although the bytes to write are rejected. -/
theorem writeFile_empties :
    ¬ (Effect.writeFile.run blank jail quiet fileA).Clean jail ∧
      (Effect.writeFile.run blank jail quiet fileA).result = .error (.raise unknownOp) ∧
      jail.fs.root.get [[106], [97]] = some (.file [1]) ∧
      (Effect.writeFile.run blank jail quiet fileA).world.fs.root.get [[106], [97]] =
        some (.file []) := by
  have hpath : rpResolveWritePath jail.toFiles
      (rpNatPath (⟨.direct 97, canonical_direct.2 (by decide)⟩ : CNat).1) = some [47, 106, 47, 97] := by
    decide +kernel
  have hopen : jail.openWrite [47, 106, 47, 97] = some [[106], [97]] := by decide +kernel
  have hrun : Effect.writeFile.run blank jail quiet fileA = _ := writeFile_rejected hpath hopen rfl
  refine ⟨fun hclean => ?_, by rw [hrun]; rfl, rfl, by rw [hrun]; rfl⟩
  exact (writeFile_clean_iff jail quiet (fileA 0) none).mp hclean
    ⟨⟨_, _, _, rfl, hpath, hopen, rfl⟩, rfl⟩

end Enki.Rplan
