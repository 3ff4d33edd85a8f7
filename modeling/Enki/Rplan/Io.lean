import Enki.Log.Decode

/-!
# Reading and writing

The loops of `plan/src/rplan.c` around `read(2)` and `write(2)`, and the naturals they
fill and empty.

What the calls on a descriptor return is given: a source is what its reads find, in
order, and a sink says how much each write takes. A read takes at most what it asks
for and leaves the rest of a packet to the next one, so every sequence of results is
that of a source. A source that has run out is at the end of the file; a sink that
has run out takes everything.
-/

namespace Enki.Rplan

open Bignum Log

/-- What is there for a read. -/
inductive Packet where
  | data (bytes : List UInt8)
  /-- `EINTR` -/
  | intr
  | fail
  deriving DecidableEq

/-- What `read(2)` returns. -/
inductive ReadResult where
  | got (bytes : List UInt8)
  | intr
  | fail

/-- `read(2)` of at most `n` bytes. -/
def read (n : Nat) : List Packet → ReadResult × List Packet
  | [] => (.got [], [])
  | .intr :: src => (.intr, src)
  | .fail :: src => (.fail, src)
  | .data b :: src =>
    if b.length ≤ n then (.got b, src) else (.got (b.take n), .data (b.drop n) :: src)

/-- What is left in a source, for the loops to come to an end. -/
def weight : List Packet → Nat
  | [] => 0
  | .data b :: src => 1 + b.length + weight src
  | _ :: src => 1 + weight src

/-- The bytes up to the end of a source: to its first empty read, or its first error. -/
def content : List Packet → List UInt8
  | [] => []
  | .intr :: src => content src
  | .fail :: _ => []
  | .data [] :: _ => []
  | .data (c :: b) :: src => c :: b ++ content src

/-- Whether the end of a source is an error. -/
def fails : List Packet → Bool
  | [] => false
  | .intr :: src => fails src
  | .fail :: _ => true
  | .data [] :: _ => false
  | .data (_ :: _) :: src => fails src

/-- What a read finds, by what it returns. -/
theorem read_intr {n : Nat} {src src' : List Packet} (h : read n src = (.intr, src')) :
    src = .intr :: src' := by
  cases src with
  | nil => cases h
  | cons p src =>
    cases p with
    | intr => cases h; rfl
    | fail => cases h
    | data b =>
      rw [read] at h
      split_ifs at h <;> cases h

theorem read_fail {n : Nat} {src src' : List Packet} (h : read n src = (.fail, src')) :
    src = .fail :: src' := by
  cases src with
  | nil => cases h
  | cons p src =>
    cases p with
    | intr => cases h
    | fail => cases h; rfl
    | data b =>
      rw [read] at h
      split_ifs at h <;> cases h

theorem read_eof {n : Nat} (hn : n ≠ 0) {src src' : List Packet} (h : read n src = (.got [], src')) :
    content src = [] ∧ fails src = false := by
  cases src with
  | nil => exact ⟨rfl, rfl⟩
  | cons p src =>
    cases p with
    | intr => cases h
    | fail => cases h
    | data b =>
      rw [read] at h
      split_ifs at h with hle
      · cases h
        exact ⟨rfl, rfl⟩
      · rcases List.take_eq_nil_iff.mp (ReadResult.got.inj (Prod.mk.inj h).1) with h0 | rfl
        · exact absurd h0 hn
        · simp at hle

/-- A read that returns bytes takes them off the content. -/
theorem read_got {n : Nat} {src src' : List Packet} {c : UInt8} {b : List UInt8}
    (h : read n src = (.got (c :: b), src')) : content src = c :: b ++ content src' ∧
      fails src = fails src' ∧ b.length + 1 ≤ n ∧ weight src' < weight src := by
  cases src with
  | nil => cases h
  | cons p src =>
    cases p with
    | intr => cases h
    | fail => cases h
    | data d =>
      rw [read] at h
      split_ifs at h with hle
      · cases h
        exact ⟨rfl, rfl, hle, by simp [weight]⟩
      · obtain ⟨htake, rfl⟩ := Prod.mk.inj h
        have htake := ReadResult.got.inj htake
        have hlen : (d.take n).length = b.length + 1 := by rw [htake, List.length_cons]
        rw [List.length_take] at hlen
        cases hrest : d.drop n with
        | nil => exact absurd (List.drop_eq_nil_iff.mp hrest) hle
        | cons c' b' =>
          have hd : d = c :: b ++ c' :: b' := by rw [← htake, ← hrest, List.take_append_drop]
          subst hd
          refine ⟨by simp [content], rfl, by omega, ?_⟩
          simp only [weight, List.length_append, List.length_cons]
          omega

/-- How a loop around `read` ends: there is nothing left to ask for, the end of the file
was read, or a read failed. -/
inductive Ending where
  | full
  | eof
  | fail
  deriving DecidableEq

/-- The loop of `rp_read_all`, and the inner loop of `pl_rplan_read_bat`: `len` bytes are
still to be read. -/
def readLoop (len : Nat) (src : List Packet) : List UInt8 × Ending × List Packet :=
  if len = 0 then ([], .full, src)
  else
    match _h : read len src with
    | (.intr, src) => readLoop len src
    | (.fail, src) => ([], .fail, src)
    | (.got [], src) => ([], .eof, src)
    | (.got (c :: b), src) =>
      let (b', e, src) := readLoop (len - (b.length + 1)) src
      (c :: b ++ b', e, src)
termination_by weight src
decreasing_by
  · rw [read_intr _h, weight]
    · omega
    · simp
  · exact (read_got _h).2.2.2

/-- What a loop around `read` has read when it ends. -/
structure LoopSpec (len : Nat) (src : List Packet) (r : List UInt8 × Ending × List Packet) : Prop
    where
  bytes : r.1 = (content src).take len
  ending : r.2.1 = if len ≤ (content src).length then .full else if fails src then .fail else .eof
  content : r.2.1 = .full → content r.2.2 = (Rplan.content src).drop len
  fails : r.2.1 = .full → fails r.2.2 = Rplan.fails src
  weight : r.2.1 = .full → weight r.2.2 ≤ weight src ∧ (0 < len → weight r.2.2 < weight src)

theorem readLoop_spec (len : Nat) (src : List Packet) : LoopSpec len src (readLoop len src) := by
  fun_induction readLoop len src with
  | case1 src => exact ⟨by simp, by simp, fun _ => by simp, fun _ => rfl, fun _ => by simp⟩
  | case2 len src hlen src' h ih =>
    -- An interrupted read leaves what there is to read.
    rw [read_intr h]
    obtain ⟨hbytes, hending, hcontent, hfails, hweight⟩ := ih
    refine ⟨hbytes, hending, hcontent, hfails, fun he => ?_⟩
    have := hweight he
    simp only [weight]
    exact ⟨by omega, fun _ => by omega⟩
  | case3 len src hlen src' h =>
    rw [read_fail h]
    exact ⟨by simp [content], by simp [content, fails, hlen], nofun, nofun, nofun⟩
  | case4 len src hlen src' h =>
    obtain ⟨hc, hf⟩ := read_eof hlen h
    exact ⟨by simp [hc], by simp [hc, hf, hlen], nofun, nofun, nofun⟩
  | case5 len src hlen c b src' h b' e src'' hr ih =>
    obtain ⟨hc, hf, hle, hw⟩ := read_got h
    rw [hr] at ih
    obtain ⟨hbytes, hending, hcontent, hfails, hweight⟩ := ih
    dsimp only at hbytes hending hcontent hfails hweight
    have hcb : (c :: b).length ≤ len := hle
    refine ⟨?_, ?_, fun (he : e = .full) => ?_, fun (he : e = .full) => ?_,
      fun (he : e = .full) => ?_⟩
    · show c :: b ++ b' = _
      rw [hbytes, hc, List.take_append, List.take_of_length_le hcb, List.length_cons]
    · show e = _
      rw [hending, hc, hf]
      refine if_congr ?_ rfl rfl
      simp only [List.length_append, List.length_cons]
      omega
    · show Rplan.content src'' = _
      rw [hcontent he, hc, List.drop_append, List.drop_of_length_le hcb, List.nil_append,
        List.length_cons]
    · show Rplan.fails src'' = _
      rw [hfails he, hf]
    · show Rplan.weight src'' ≤ _ ∧ (_ → Rplan.weight src'' < _)
      have := (hweight he).1
      exact ⟨by omega, fun _ => by omega⟩

/-- `rp_read_all`: what it stores in the buffer, if it returns 0. -/
def readAll (len : Nat) (src : List Packet) : Option (List UInt8) :=
  match readLoop len src with
  | (_, .fail, _) => none
  | (b, _, _) => some b

theorem readAll_spec (len : Nat) (src : List Packet) : readAll len src =
    if (content src).length < len ∧ fails src then none else some ((content src).take len) := by
  obtain ⟨hbytes, hending, -, -, -⟩ := readLoop_spec len src
  unfold readAll
  generalize readLoop len src = r at hbytes hending
  obtain ⟨b, e, src'⟩ := r
  dsimp only at hbytes hending
  subst hbytes hending
  by_cases hle : len ≤ (content src).length
  · rw [if_pos hle, if_neg (by omega)]
  · rw [if_neg hle]
    cases hf : fails src with
    | true => simp; omega
    | false => simp

/-! ## Writing -/

/-- What a call of `write(2)` does: it takes some of the bytes it is given. -/
inductive Taken where
  | upTo (n : Nat)
  /-- `EINTR` -/
  | intr
  | fail
  deriving DecidableEq

/-- `rp_write_all`: whether it returns 0, and the bytes the calls took. A call that takes
nothing is an error. -/
def writeAll : List Taken → List UInt8 → Bool × List UInt8
  | _, [] => (true, [])
  | [], b => (true, b)
  | .intr :: sink, b => writeAll sink b
  | .fail :: _, _ => (false, [])
  | .upTo n :: sink, b =>
    if b.take n = [] then (false, [])
    else
      let (done, out) := writeAll sink (b.drop n)
      (done, b.take n ++ out)

/-- The calls took a prefix of the bytes, and all of them where the loop is done. -/
theorem writeAll_spec (sink : List Taken) (b : List UInt8) :
    (writeAll sink b).2 <+: b ∧ ((writeAll sink b).1 = true → (writeAll sink b).2 = b) := by
  fun_induction writeAll sink b with
  | case1 sink => simp
  | case2 b _ => simp
  | case3 sink b _ ih => exact ih
  | case4 sink b _ => simp
  | case5 n sink b _ _ => simp
  | case6 n sink b _ _ done out hr ih =>
    rw [hr] at ih
    dsimp only at ih ⊢
    refine ⟨?_, fun hd => by rw [ih.2 hd, List.take_append_drop]⟩
    conv_rhs => rw [← List.take_append_drop n b]
    exact (List.prefix_append_right_inj _).mpr ih.1

/-! ## Bars -/

/-- `rp_nat_bytes` -/
def rpNatBytes (v : NatVal) (dropTop : Bool) : List UInt8 :=
  if dropTop then (natBytes v).dropLast else natBytes v

/-- The data behind which a bar has its terminator. -/
def bar (b : List UInt8) : Nat := LittleEndian.toNat (b ++ [1])

/-- `rp_bar` -/
def rpBar (stale : Nat → UInt64) (b : List UInt8) : Except Stop NatVal := fromBytes stale (b ++ [1])

end Enki.Rplan
