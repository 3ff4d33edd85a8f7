import Enki.Log.Http
import Enki.Rplan.FileRoot

/-!
# What the direct effects return

A direct effect returns a canonical natural; what it read is in it, as a bar, and what it
was to write has been written. There are two exceptions (`faithful_iff`): `ReadFile`
returns what fresh memory held where a file ends before the length `fstat` gave for it,
and `Stamp` returns a word that is no natural for a time before 1970.
-/

namespace Enki.Rplan

open Bignum Log FileTree Axsys NatVal

/-- The bytes of a natural, less the highest: what a bar holds. -/
def payload (n : Nat) : List UInt8 := (LittleEndian.bytes (LittleEndian.byteLen n) n).dropLast

theorem payload_bar (b : List UInt8) : payload (bar b) = b := by
  unfold payload bar
  rw [LittleEndian.byteLen_toNat_concat b 1 (by decide)]
  rw [LittleEndian.bytes_toNat, List.dropLast_concat]

theorem bar_injective {b b' : List UInt8} (h : bar b = bar b') : b = b' := by
  rw [← payload_bar b, h, payload_bar]

theorem bar_ne_zero (b : List UInt8) : bar b ≠ 0 := by
  intro h
  have hlen := LittleEndian.byteLen_toNat_concat b 1 (by decide)
  rw [show LittleEndian.toNat (b ++ [1]) = 0 from h, LittleEndian.byteLen_eq_zero_iff.mpr rfl,
    List.length_append] at hlen
  cases hlen

theorem rpNatBytes_payload {v : NatVal} (hv : v.Canonical) : rpNatBytes v true = payload v.val := by
  unfold rpNatBytes payload
  rw [if_pos rfl, natBytes_eq hv]

theorem rpBar_ok {fresh : Nat → UInt64} {b : List UInt8} {v : NatVal} (h : rpBar fresh b = .ok v) :
    v.Canonical ∧ v.val = bar b ∧ b.length ≤ barMax := by
  rcases fromBytes_cases fresh (b ++ [1]) with ⟨hle, v', hv', hcanon, hval⟩ | ⟨-, hbig⟩
  · obtain rfl : v' = v := Except.ok.inj (hv'.symm.trans h)
    rw [rdropWhile_bar, List.length_append, List.length_singleton] at hle
    have hbar : barMax = 8388599 := rfl
    have hnat : natMax = 8388600 := rfl
    exact ⟨hcanon, hval, by omega⟩
  · exact absurd h hbig.not_ok

theorem rpBar_fits (fresh : Nat → UInt64) {b : List UInt8} (h : b.length ≤ barMax) :
    ∃ v, rpBar fresh b = .ok v := by
  rcases fromBytes_cases fresh (b ++ [1]) with ⟨-, v, hv, -⟩ | ⟨hbig, -⟩
  · exact ⟨v, hv⟩
  · rw [rdropWhile_bar, List.length_append, List.length_singleton] at hbig
    have hbar : barMax = 8388599 := rfl
    have hnat : natMax = 8388600 := rfl
    omega

/-! ## What a faithful effect returns -/

/-- The argument whose bytes an effect writes. -/
def Effect.bytesArg (e : Effect) (arg : Nat → Option CNat) : Option CNat :=
  match e with
  | .write | .writeFile => arg 1
  | _ => arg 0

/-- An effect that returned `v`. Zero says of `Read` and `ReadFile` that nothing was read, and
of `WriteFile` that nothing was written. -/
structure Faithful (e : Effect) (arg : Nat → Option CNat) (d : Done) (v : NatVal) : Prop where
  canonical : v.Canonical
  delivers : e ∈ [Effect.input, .read, .readFile] → v.val ≠ 0 → v.val = bar d.delivered
  hands : e ∈ [Effect.output, .warn, .write] ∨ e = .writeFile ∧ v.val ≠ 0 →
    d.handed = payload (natCoerce (e.bytesArg arg)).val

/-- What holds of whatever an effect returns. -/
def Done.Returns (P : NatVal → Prop) (d : Done) : Prop := ∀ v, d.result = .ok v → P v

section

variable {P : NatVal → Prop} {w : World}

theorem returns_wantNat {a : Option CNat} {k : CNat → Done} (h : ∀ v, a = some v → (k v).Returns P) :
    (rpWantNat w a k).Returns P := by
  cases a with
  | none => exact fun v hv => by cases hv
  | some v => exact h v rfl

theorem returns_raises (msg : String) : (w.raises msg).Returns P := fun v hv => by cases hv

theorem returns_returns {v : NatVal} (h : P v) : (w.returns v).Returns P := fun v' hv => by
  cases hv
  exact h

/-- Handles are small. -/
theorem add_lt {T T' : Table} {fd : Int} {h : Nat} (hadd : T.add fd = (T', some h)) : h < fdMax := by
  unfold Table.add at hadd
  split at hadd
  next hnext =>
    obtain rfl : T.next = h := Option.some.inj (Prod.mk.inj hadd).2
    exact hnext
  next =>
    cases hfree : T.freeSlot with
    | none =>
      rw [hfree] at hadd
      cases (Prod.mk.inj hadd).2
    | some k =>
      rw [hfree] at hadd
      obtain rfl : k = h := Option.some.inj (Prod.mk.inj hadd).2
      unfold Table.freeSlot at hfree
      exact List.mem_range.mp (List.mem_of_find?_eq_some hfree)

theorem addHandle_returns {fd : Nat} {full : String} (h : ∀ h < fdMax, P (.direct (UInt64.ofNat h))) :
    (addHandle w fd full).Returns P := by
  unfold addHandle World.add
  cases hadd : w.table.add fd with
  | mk T r =>
    cases r with
    | none => exact returns_raises _
    | some k => exact returns_returns (h k (add_lt hadd))

theorem canonical_handle {h : Nat} (hh : h < fdMax) : (NatVal.direct (UInt64.ofNat h)).Canonical := by
  refine canonical_direct.2 ?_
  have hmax : fdMax = 1024 := rfl
  rw [UInt64.toNat_ofNat_of_lt' (by simp only [UInt64.size]; omega)]
  omega

end

/-! ## Effect by effect -/

section

variable {env : Env} {w : World} {os : Answers} {arg : Nat → Option CNat}

theorem natCoerce_canonical (a : Option CNat) : (natCoerce a).Canonical := by
  cases a with
  | none => exact canonical_zero
  | some v => exact v.2

/-- Effects that return zero or a handle. -/
theorem faithful_word {e : Effect} {d : Done} {v : NatVal} (hv : v.Canonical)
    (hread : e ∉ [Effect.input, .read, .readFile])
    (hwrite : e ∉ [Effect.output, .warn, .write, .writeFile]) : Faithful e arg d v where
  canonical := hv
  delivers he := absurd he hread
  hands he := by
    refine absurd ?_ hwrite
    rcases he with he | ⟨rfl, -⟩
    · simp only [List.mem_cons, List.not_mem_nil, or_false] at he ⊢
      tauto
    · simp

theorem writeHandle_returns {P : NatVal → Prop} {handle : Nat} {b : List UInt8} {closed failed : String}
    (h : (writeHandle w os handle b closed failed).handed = b → P (.direct 0)) :
    (writeHandle w os handle b closed failed).Returns P := by
  unfold writeHandle at h ⊢
  split
  next => exact returns_raises _
  next w' fd hacq =>
    rw [hacq] at h
    dsimp only at h ⊢
    split
    next hok =>
      rw [if_pos hok] at h
      exact fun v hv => by
        cases hv
        exact h ((writeAll_spec os.writes b).2 hok)
    next => exact fun v hv => by cases hv

/-- A natural that is no result of a read. -/
theorem faithful_written {e : Effect} {d : Done} (he : e ∈ [Effect.output, .warn, .write])
    (hd : d.handed = payload (natCoerce (e.bytesArg arg)).val) : Faithful e arg d (.direct 0) where
  canonical := canonical_zero
  delivers h := by
    simp only [List.mem_cons, List.not_mem_nil, or_false] at he h
    rcases he with rfl | rfl | rfl <;> simp at h
  hands _ := hd

theorem outputFd_returns {handle : Nat} {e : Effect} (he : e ∈ [Effect.output, .warn]) :
    (outputFd w os handle (arg 0)).Returns (Faithful e arg (outputFd w os handle (arg 0))) := by
  refine writeHandle_returns fun hd => faithful_written (by simp at he ⊢; tauto) ?_
  have harg : e.bytesArg arg = arg 0 := by
    simp only [List.mem_cons, List.not_mem_nil, or_false] at he
    rcases he with rfl | rfl <;> rfl
  rw [harg, ← rpNatBytes_payload (natCoerce_canonical _)]
  exact hd

theorem writeFd_returns : (writeFd w os (arg 0) (arg 1)).Returns
    (Faithful .write arg (writeFd w os (arg 0) (arg 1))) := by
  cases h0 : arg 0 with
  | none => exact fun v hv => by cases hv
  | some v =>
    cases h1 : arg 1 with
    | none => exact fun v hv => by cases hv
    | some bytes =>
      refine writeHandle_returns fun hd => faithful_written (by simp) ?_
      show _ = payload (natCoerce (arg 1)).val
      rw [h1, ← rpNatBytes_payload (natCoerce_canonical _)]
      exact hd

/-- A read that was made into a bar. -/
theorem rpBar_returns {e : Effect} {b : List UInt8} {d : Done} (he : e ∈ [Effect.input, .read, .readFile])
    (hresult : d.result = rpBar env.fresh b) (hd : d.delivered = b) : d.Returns (Faithful e arg d) := by
  intro v hv
  rw [hresult] at hv
  obtain ⟨hcanon, hval, -⟩ := rpBar_ok hv
  refine ⟨hcanon, fun _ _ => by rw [hd, hval], fun h => ?_⟩
  simp only [List.mem_cons, List.not_mem_nil, or_false] at he h
  rcases he with rfl | rfl | rfl <;> simp at h

theorem input_returns : (input env.fresh w os (arg 0)).Returns
    (Faithful .input arg (input env.fresh w os (arg 0))) := by
  unfold input
  split
  next => exact returns_raises _
  next =>
    dsimp only
    split
    next => exact returns_raises _
    next => exact rpBar_returns (by simp) rfl rfl

/-- Nothing was read, or written. -/
theorem faithful_zero {e : Effect} {d : Done} (he : e ∈ [Effect.read, .readFile, .writeFile]) :
    Faithful e arg d (.direct 0) where
  canonical := canonical_zero
  delivers _ h := absurd rfl h
  hands h := by
    rcases h with h | ⟨-, h⟩
    · simp only [List.mem_cons, List.not_mem_nil, or_false] at he h
      rcases he with rfl | rfl | rfl <;> simp at h
    · exact absurd rfl h

theorem readFd_returns : (readFd env.fresh w os (arg 0) (arg 1)).Returns
    (Faithful .read arg (readFd env.fresh w os (arg 0) (arg 1))) := by
  cases h0 : arg 0 with
  | none => exact fun v hv => by cases hv
  | some v =>
    cases h1 : arg 1 with
    | none => exact fun v hv => by cases hv
    | some count =>
      simp only [readFd, rpWantNat]
      split
      next => exact returns_raises _
      next =>
        split
        next => exact returns_raises _
        next => exact returns_returns (faithful_zero (by simp))
        next => exact rpBar_returns (by simp) rfl rfl

theorem now_returns : (now w os).Returns (Faithful .now arg (now w os)) := by
  unfold now
  split
  next => exact returns_raises _
  next =>
    dsimp only
    split
    next => exact returns_raises _
    next => exact returns_returns (faithful_word (mkNatU64_spec _).1 (by simp) (by simp))

theorem closefd_returns : (closefd w os (arg 0)).Returns (Faithful .closeFd arg (closefd w os (arg 0))) := by
  have hzero : ∀ d, Faithful .closeFd arg d (.direct 0) := fun d =>
    faithful_word canonical_zero (by simp) (by simp)
  refine returns_wantNat fun v _ => ?_
  dsimp only
  split
  next => exact returns_raises _
  next => exact returns_returns (hzero _)
  next => exact fun v hv => by cases hv
  next =>
    split
    · exact returns_returns (hzero _)
    · exact returns_raises _

/-- A handle is returned, or an exception raised. -/
theorem handle_returns {e : Effect} {d d' : Done} {fd : Nat} {full : String}
    (hread : e ∉ [Effect.input, .read, .readFile])
    (hwrite : e ∉ [Effect.output, .warn, .write, .writeFile]) (hd : d' = addHandle w fd full) :
    d'.Returns (Faithful e arg d) := by
  rw [hd]
  exact addHandle_returns fun h hh => faithful_word (canonical_handle hh) hread hwrite

theorem listen_returns : (listen w os (arg 0)).Returns (Faithful .listen arg (listen w os (arg 0))) := by
  refine returns_wantNat fun v _ => ?_
  split
  · exact returns_raises _
  dsimp only
  split
  · exact returns_raises _
  split
  · exact returns_raises _
  · exact handle_returns (by simp) (by simp) rfl

theorem accept_returns : (accept w os (arg 0)).Returns (Faithful .accept arg (accept w os (arg 0))) := by
  refine returns_wantNat fun v _ => ?_
  dsimp only
  split
  next => exact returns_raises _
  next =>
    split
    · exact returns_raises _
    · exact handle_returns (by simp) (by simp) rfl

theorem connect_returns : (connect w os (arg 0) (arg 1) (arg 2)).Returns
    (Faithful .connect arg (connect w os (arg 0) (arg 1) (arg 2))) := by
  refine returns_wantNat fun isDns _ => returns_wantNat fun port _ => returns_wantNat fun host _ => ?_
  dsimp only
  split
  next => exact returns_raises _
  next =>
    split
    next => exact returns_raises _
    next => exact handle_returns (by simp) (by simp) rfl
    next => exact returns_raises _

theorem print_returns : (print w os (arg 0)).Returns (Faithful .print arg (print w os (arg 0))) :=
  returns_wantNat fun _ _ => writeHandle_returns fun _ =>
    faithful_word canonical_zero (by simp) (by simp)

theorem writeFile_returns : (writeFile w os (arg 0) (arg 1)).Returns
    (Faithful .writeFile arg (writeFile w os (arg 0) (arg 1))) := by
  cases h0 : arg 0 with
  | none => exact fun v hv => by cases hv
  | some v =>
    simp only [writeFile, rpWantNat]
    cases rpResolveWritePath w.toFiles (rpNatPath v.1) with
    | none => exact returns_returns (faithful_zero (by simp))
    | some path =>
      dsimp only
      cases w.openWrite path with
      | none => exact returns_returns (faithful_zero (by simp))
      | some l =>
        dsimp only
        cases os.opens with
        | false => exact returns_returns (faithful_zero (by simp))
        | true =>
          cases h1 : arg 1 with
          | none => exact fun v hv => by cases hv
          | some bytes =>
            have hspec := (writeAll_spec os.writes (rpNatBytes bytes.1 true)).2
            intro r hr
            cases hok : (writeAll os.writes (rpNatBytes bytes.1 true)).1 with
            | false => simp [hok, World.raises] at hr
            | true =>
              cases hclose : os.close with
              | false => simp [hok, Bignum.assume, hclose] at hr
              | true =>
                obtain rfl : NatVal.direct 1 = r := by simpa [hok, Bignum.assume, hclose] using hr
                refine ⟨canonical_direct.2 (by decide), fun h => by simp at h, fun _ => ?_⟩
                have hbytes : natCoerce (Effect.writeFile.bytesArg arg) = bytes.1 := by
                  show natCoerce (arg 1) = _
                  rw [h1]
                  rfl
                rw [hbytes, ← rpNatBytes_payload bytes.2]
                simp [hok, hspec hok]

/-! ## The exceptions -/

/-- `ReadFile` gets to a file whose reads end, without an error, before `st_size` bytes, and the
buffer is not too long for a natural. -/
def ShortFile (w : World) (os : Answers) (a : Option CNat) : Prop :=
  ∃ v path l size, a = some v ∧ rpResolveReadPath w.toFiles (rpNatPath v.1) = some path ∧
    w.openRead path = some l ∧ os.opens = true ∧ os.size = some size ∧ 0 ≤ size ∧
    fails os.reads = false ∧ (content os.reads).length < size.toUInt64.toNat ∧
    size.toUInt64.toNat ≤ barMax

/-- `Stamp` gets to a file with a modification time before 1970. -/
def NegativeTime (w : World) (os : Answers) (a : Option CNat) : Prop :=
  ∃ v path l mtime, a = some v ∧ rpResolveReadPath w.toFiles (rpNatPath v.1) = some path ∧
    w.openRead path = some l ∧ os.mtime = some mtime ∧ mtime < 0

/-- A time is a natural if it is not negative. -/
theorem canonical_time (t : Int64) : (NatVal.direct t.toUInt64).Canonical ↔ ¬ t < 0 := by
  have hint : t.toInt = if 2 * t.toUInt64.toNat < 2 ^ 64 then (t.toUInt64.toNat : Int)
      else (t.toUInt64.toNat : Int) - (2 ^ 64 : Nat) := BitVec.toInt_eq_toNat_cond t.toBitVec
  have hlt := t.toUInt64.toNat_lt
  rw [canonical_direct, Int64.lt_iff_toInt_lt, show (0 : Int64).toInt = 0 from rfl, hint]
  split <;> omega

theorem stamp_returns_iff : (stamp w os (arg 0)).Returns (Faithful .stamp arg (stamp w os (arg 0))) ↔
    ¬ NegativeTime w os (arg 0) := by
  have hzero : ∀ d, Faithful .stamp arg d (.direct 0) := fun d =>
    faithful_word canonical_zero (by simp) (by simp)
  constructor
  · rintro hret ⟨v, path, l, mtime, harg, hpath, hopen, hm, hneg⟩
    have hresult : (stamp w os (arg 0)).result = .ok (.direct mtime.toUInt64) := by
      simp only [stamp, rpWantNat, harg, hpath, hopen, hm]
      rfl
    exact (canonical_time mtime).mp (hret _ hresult).canonical hneg
  · intro hno
    refine returns_wantNat fun v harg => ?_
    cases hpath : rpResolveReadPath w.toFiles (rpNatPath v.1) with
    | none => exact returns_returns (hzero _)
    | some path =>
      dsimp only
      cases hopen : w.openRead path with
      | none => exact returns_returns (hzero _)
      | some l =>
        dsimp only
        cases hm : os.mtime with
        | none => exact fun r hr => by cases hr; exact hzero _
        | some mtime =>
          have hpos : ¬ mtime < 0 := fun hneg => hno ⟨v, path, l, mtime, harg, hpath, hopen, hm, hneg⟩
          exact fun r hr => by
            cases hr
            exact faithful_word ((canonical_time mtime).mpr hpos) (by simp) (by simp)

/-- What `ReadFile` has in its buffer: what the reads delivered, where they filled it. -/
theorem length_fileBuffer (garbage : Nat → UInt8) {size : Nat} {b : List UInt8} (h : b.length ≤ size) :
    (fileBuffer garbage size b).length = size := by
  unfold fileBuffer
  rw [List.length_append, List.length_map, List.length_range]
  omega

theorem fileBuffer_full (garbage : Nat → UInt8) {size : Nat} {b : List UInt8} (h : b.length = size) :
    fileBuffer garbage size b = b := by
  unfold fileBuffer
  rw [h, Nat.sub_self]
  exact List.append_nil b

theorem readFile_returns_iff : (readFile env.fresh w os env.garbage (arg 0)).Returns
    (Faithful .readFile arg (readFile env.fresh w os env.garbage (arg 0))) ↔
      ¬ ShortFile w os (arg 0) := by
  have hbar : barMax = 8388599 := rfl
  have hptr : ptrdiffMax = 2 ^ 63 - 1 := rfl
  constructor
  · rintro hret ⟨v, path, l, size, harg, hpath, hopen, hos, hsize, hpos, hfails, hshort, hlong⟩
    have hread : readAll size.toUInt64.toNat os.reads = some (content os.reads) := by
      rw [readAll_spec, if_neg (by simp [hfails]), List.take_of_length_le (by omega)]
    have hdone : readFile env.fresh w os env.garbage (arg 0) =
        { result := do
            assume (size.toUInt64.toNat + 1 ≤ ptrdiffMax) "oom"
            rpBar env.fresh (fileBuffer env.garbage size.toUInt64.toNat (content os.reads))
          world := w
          delivered := content os.reads
          touched := [l] } := by
      simp only [readFile, rpWantNat, harg, hpath, hopen, hos, hsize, hread]
      rw [if_neg (by decide), if_neg (by simpa using hpos)]
    have hlen := length_fileBuffer env.garbage (Nat.le_of_lt hshort)
    obtain ⟨r, hr⟩ := @rpBar_fits env.fresh
      (fileBuffer env.garbage size.toUInt64.toNat (content os.reads)) (by omega)
    have hval := (rpBar_ok hr).2.1
    rw [hdone] at hret
    have hfaith := hret r (by rw [← hr]; exact assume_true (decide_eq_true (by omega)))
    have hsame := hfaith.delivers (by simp) (by rw [hval]; exact bar_ne_zero _)
    -- The bar is longer than what was delivered.
    have hbytes := congrArg List.length (bar_injective (hval.symm.trans hsame))
    dsimp only at hbytes
    omega
  · intro hno
    cases harg : arg 0 with
    | none => exact fun v hv => by cases hv
    | some v =>
      simp only [readFile, rpWantNat]
      cases hpath : rpResolveReadPath w.toFiles (rpNatPath v.1) with
      | none => exact returns_returns (faithful_zero (by simp))
      | some path =>
        dsimp only
        cases hopen : w.openRead path with
        | none => exact returns_returns (faithful_zero (by simp))
        | some l =>
          dsimp only
          have hzero : ∀ d, ({ w.returns (.direct 0) with touched := [l] } : Done).Returns
              (Faithful .readFile arg d) := fun d => fun r hr => by
            cases hr
            exact faithful_zero (by simp)
          cases hos : os.opens with
          | false => exact hzero _
          | true =>
            rw [if_neg (by decide)]
            cases hsize : os.size with
            | none => exact hzero _
            | some size =>
              dsimp only
              split
              · exact hzero _
              next hpos =>
              cases hread : readAll size.toUInt64.toNat os.reads with
              | none => exact hzero _
              | some b =>
                intro r hr
                obtain ⟨u, -, hr⟩ := ExceptState.bind_ok.mp hr
                obtain ⟨hcanon, hval, hlong⟩ := rpBar_ok hr
                have hspec := readAll_spec size.toUInt64.toNat os.reads
                rw [hread] at hspec
                split at hspec
                next => cases hspec
                next hend =>
                  obtain rfl : b = (content os.reads).take size.toUInt64.toNat := Option.some.inj hspec
                  have hfull : ((content os.reads).take size.toUInt64.toNat).length =
                      size.toUInt64.toNat := by
                    by_contra hshort
                    rw [List.length_take] at hshort
                    rw [length_fileBuffer _ (List.length_take_le _ _)] at hlong
                    have hfails : fails os.reads = false := by
                      by_contra hf
                      exact hend ⟨by omega, by simpa using hf⟩
                    exact hno ⟨v, path, l, size, harg, hpath, hopen, hos, hsize, by simpa using hpos,
                      hfails, by omega, hlong⟩
                  rw [fileBuffer_full _ hfull] at hval
                  exact ⟨hcanon, fun _ _ => hval, fun h => by
                    rcases h with h | ⟨h, -⟩
                    · simp at h
                    · cases h⟩

/-- The direct effects return canonical naturals, bars of what they read, and only when they have
written what they were given, but for a short file and a negative time. What one effect reads
another writes. -/
theorem faithful_iff (e : Effect) (env : Env) (w : World) (os : Answers) (arg : Nat → Option CNat) :
    ((e.run env w os arg).Returns (Faithful e arg (e.run env w os arg)) ↔
      ¬ (e = .readFile ∧ ShortFile w os (arg 0) ∨ e = .stamp ∧ NegativeTime w os (arg 0))) ∧
    ∀ b, payload (bar b) = b := by
  refine ⟨?_, payload_bar⟩
  by_cases hr : e = .readFile
  · subst hr
    exact (@readFile_returns_iff env w os arg).trans (by simp)
  by_cases hs : e = .stamp
  · subst hs
    exact (@stamp_returns_iff w os arg).trans (by simp)
  refine iff_of_true ?_ (by tauto)
  cases e with
  | input => exact input_returns
  | output => exact outputFd_returns (by simp)
  | warn => exact outputFd_returns (by simp)
  | readFile => exact absurd rfl hr
  | writeFile => exact writeFile_returns
  | print => exact print_returns
  | stamp => exact absurd rfl hs
  | now => exact now_returns
  | closeFd => exact closefd_returns
  | listen => exact listen_returns
  | accept => exact accept_returns
  | read => exact readFd_returns
  | write => exact writeFd_returns
  | connect => exact connect_returns

end

/-- `fstat` says two bytes, one is there; the file was last written in 1969. -/
def surprising : Answers := { quiet with reads := [.data [1]], size := some 2, mtime := some (-1) }

/-- The second byte that `ReadFile` returns was never read, and the time is no natural. -/
theorem readFile_unread :
    ¬ (Effect.readFile.run blank jail surprising fileA).Returns
      (Faithful .readFile fileA (Effect.readFile.run blank jail surprising fileA)) ∧
    ¬ (Effect.stamp.run blank jail surprising fileA).Returns
      (Faithful .stamp fileA (Effect.stamp.run blank jail surprising fileA)) := by
  have hpath : rpResolveReadPath jail.toFiles
      (rpNatPath (⟨.direct 97, canonical_direct.2 (by decide)⟩ : CNat).1) = some [47, 106, 47, 97] := by
    decide +kernel
  have hopen : jail.openRead [47, 106, 47, 97] = some [[106], [97]] := by decide +kernel
  constructor
  · exact fun h => (@readFile_returns_iff blank jail surprising fileA).mp h
      ⟨_, _, _, 2, rfl, hpath, hopen, rfl, rfl, by decide, rfl, by decide, by decide⟩
  · exact fun h => (@stamp_returns_iff jail surprising fileA).mp h
      ⟨_, _, _, -1, rfl, hpath, hopen, rfl, by decide⟩

end Enki.Rplan
