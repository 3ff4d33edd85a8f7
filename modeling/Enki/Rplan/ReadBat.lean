import Enki.Bat.Build
import Enki.Lib.ExceptState
import Enki.Rplan.Io

/-!
# Streamed byte trees

`pl_rplan_read_bat` makes a byte tree from a file as it reads it, chunk by chunk;
`pl_bat_from_bytes` makes one from bytes in memory. They build the same tree
(`readBat_eq`), so what a replay deposits for a `ReadBat` is what the recording did.
-/

namespace Enki.Rplan

open Bignum Log

section

variable (stale : Nat → UInt64) (room : Nat)

/-- The read loop of `pl_rplan_read_bat`: the leaves it pushes, or that a read failed.
`used` is how much of the stack is in use, `base` of that before the call. -/
def batReads (base used : Nat) (src : List Packet) : Except Stop (Option (List Obj)) :=
  match _h : readLoop batChunkBytes src with
  | (_, .fail, _) => .ok none
  | (b, .eof, _) =>
    if b ≠ [] ∨ used = base then do
      let leaf ← batChunk stale room used b
      vroom room used 1
      return some [leaf]
    else .ok (some [])
  | (b, .full, src') => do
    let leaf ← batChunk stale room used b
    vroom room used 1
    match ← batReads base (used + 1) src' with
    | none => return none
    | some leaves => return some (leaf :: leaves)
termination_by weight src
decreasing_by
  have hspec := readLoop_spec batChunkBytes src
  rw [_h] at hspec
  exact (hspec.weight rfl).2 (by decide)

/-- `pl_rplan_read_bat`. There is no source where the path is not resolved or the file is
not opened. -/
def readBat (used : Nat) : Option (List Packet) → Except Stop Obj
  | none => .ok (.nat (.direct 0))
  | some src => do
    match ← batReads stale room used used src with
    | none => return .nat (.direct 0)
    | some leaves => batJoinAll room used leaves.length leaves

end

/-! ## One tree -/

section

variable {stale stale' : Nat → UInt64} {room used : Nat}

/-- The chunk does not depend on what is in fresh memory. -/
theorem batChunk_stale (stale stale' : Nat → UInt64) (b : List UInt8) :
    batChunk stale room used b = batChunk stale' room used b := by
  by_cases hlen : b.length ≤ batChunkBytes
  · have hc : batChunkBytes = 2 ^ 20 := rfl
    have hmax : natMax = 8388600 := rfl
    have hsmall : (b.rdropWhile (· == 0)).length ≤ natMax :=
      Nat.le_trans (List.rdropWhile_prefix _ b).length_le (by omega)
    have hsame : fromBytes stale b = fromBytes stale' b := by
      rcases fromBytes_cases stale b with ⟨-, v, hv, hcanon, hval⟩ | ⟨hbig, -⟩
      · rcases fromBytes_cases stale' b with ⟨-, v', hv', hcanon', hval'⟩ | ⟨hbig, -⟩
        · rw [hv, hv', eq_of_val_eq hcanon hcanon' (hval.trans hval'.symm)]
        · exact absurd hsmall hbig
      · exact absurd hsmall hbig
    unfold batChunk
    rw [hsame]
  · have hno : decide (b.length ≤ batChunkBytes) = false := decide_eq_false hlen
    unfold batChunk Bignum.assume
    rw [hno]
    rfl

theorem batLeaves_stale (stale stale' : Nat → UInt64) : ∀ (cs : List (List UInt8)) (used : Nat),
    batLeaves stale room used cs = batLeaves stale' room used cs
  | [], _ => rfl
  | c :: cs, used => by
    rw [batLeaves, batLeaves, batChunk_stale stale stale', batLeaves_stale stale stale' cs]

theorem batFromBytes_stale (stale stale' : Nat → UInt64) (b : List UInt8) :
    batFromBytes stale room used b = batFromBytes stale' room used b := by
  unfold batFromBytes
  rw [batLeaves_stale stale stale']

/-- How bytes are cut: off the front, a chunk at a time. -/
def pieces (b : List UInt8) : List (List UInt8) := batSplit (b.length / batChunkBytes) b

theorem pieces_short {b : List UInt8} (h : b.length ≤ batChunkBytes) : pieces b = [b] := by
  unfold pieces
  cases b.length / batChunkBytes with
  | zero => rfl
  | succ k => rw [batSplit, if_pos h]

theorem pieces_long {b : List UInt8} (h : batChunkBytes < b.length) :
    pieces b = b.take batChunkBytes :: pieces (b.drop batChunkBytes) := by
  have hpos : 0 < batChunkBytes := by decide
  have hk : b.length / batChunkBytes = (b.drop batChunkBytes).length / batChunkBytes + 1 := by
    rw [List.length_drop]
    exact Nat.div_eq_sub_div hpos (Nat.le_of_lt h)
  unfold pieces
  rw [hk, batSplit, if_neg (by omega)]

/-- The last round reads what is left. -/
theorem eof_content {len : Nat} {src src' : List Packet} {b : List UInt8} {e : Ending}
    (h : LoopSpec len src (b, e, src')) (he : e = .eof) : (content src).length ≤ len ∧ b = content src := by
  have hlt : (content src).length < len := by
    by_contra hle
    have hend := h.ending
    rw [if_pos (Nat.le_of_not_lt hle)] at hend
    rw [he] at hend
    cases hend
  refine ⟨Nat.le_of_lt hlt, ?_⟩
  have hb : b = (content src).take len := h.bytes
  rw [hb, List.take_of_length_le (Nat.le_of_lt hlt)]

/-- A content that ends with an error has no end of file. -/
theorem not_eof {len : Nat} {src src' : List Packet} {b : List UInt8}
    (hr : readLoop len src = (b, .eof, src')) (hbad : fails src = true) :
    ¬ LoopSpec len src (readLoop len src) := by
  intro hspec
  rw [hr] at hspec
  have hend := hspec.ending
  rw [if_pos hbad] at hend
  split at hend <;> cases hend

/-- A leaf before the others. -/
theorem batLeaves_cons {c : List UInt8} {cs : List (List UInt8)} {x : Except Stop (Option (List Obj))}
    (h : x = (batLeaves stale room (used + 1) cs).map some) :
    (do
      let leaf ← batChunk stale room used c
      vroom room used 1
      match ← x with
      | none => return none
      | some leaves => return some (leaf :: leaves)) =
      (batLeaves stale room used (c :: cs)).map some := by
  rw [batLeaves, h]
  cases batChunk stale room used c with
  | error e => rfl
  | ok leaf =>
    cases vroom room used 1 with
    | error e => rfl
    | ok u =>
      cases batLeaves stale room (used + 1) cs <;> rfl

/-- The read loop pushes the leaves of the pieces; a last empty piece counts only if it is
the first. -/
theorem batReads_eq {base : Nat} {src : List Packet} {used : Nat} (hused : base ≤ used)
    (hok : fails src = false) : batReads stale room base used src = (batLeaves stale room used
      (if content src = [] ∧ used ≠ base then [] else pieces (content src))).map some := by
  have hpos : 0 < batChunkBytes := by decide
  have hspec := readLoop_spec batChunkBytes src
  fun_induction batReads stale room base used src with
  | case1 used src b src' h =>
    rw [h] at hspec
    have hend := hspec.ending
    rw [hok] at hend
    split at hend <;> simp at hend
  | case2 used src b src' h hb =>
    rw [h] at hspec
    obtain ⟨hshort, rfl⟩ := eof_content hspec rfl
    rw [if_neg (by tauto), pieces_short hshort]
    rw [← @batLeaves_cons stale room used (content src) [] (.ok (some [])) rfl]
    rfl
  | case3 used src b src' h hb =>
    rw [h] at hspec
    obtain ⟨-, rfl⟩ := eof_content hspec rfl
    rw [if_pos (by tauto)]
    rfl
  | case4 used src b src' h ih =>
    rw [h] at hspec
    have hle : batChunkBytes ≤ (content src).length := by
      by_contra hlt
      have hend := hspec.ending
      rw [if_neg hlt] at hend
      split at hend <;> cases hend
    have hne : content src ≠ [] := by
      rintro h0
      rw [h0, List.length_nil] at hle
      omega
    have hb : b = (content src).take batChunkBytes := hspec.bytes
    have hrest : content src' = (content src).drop batChunkBytes := hspec.content rfl
    have hih := ih (by omega) (by rw [← hok]; exact hspec.fails rfl) (readLoop_spec _ _)
    rw [if_neg (fun h0 => hne h0.1), hb]
    rcases Nat.eq_or_lt_of_le hle with heq | hlt
    · -- The content ends with this chunk, and the next round reads nothing.
      have hnil : (content src).drop batChunkBytes = [] :=
        List.drop_eq_nil_iff.mpr (Nat.le_of_eq heq.symm)
      rw [if_pos ⟨hrest.trans hnil, by omega⟩] at hih
      rw [batLeaves_cons hih, pieces_short (Nat.le_of_eq heq.symm),
        List.take_of_length_le (Nat.le_of_eq heq.symm)]
    · have hmore : content src' ≠ [] := by
        rw [hrest, ne_eq, List.drop_eq_nil_iff]
        omega
      rw [if_neg (fun h0 => hmore h0.1)] at hih
      rw [batLeaves_cons hih, pieces_long hlt, hrest]

/-- Where the content ends with an error, nothing comes of it. -/
theorem batReads_fail {base : Nat} {src : List Packet} {used : Nat} {r : Option (List Obj)}
    (hbad : fails src = true) (h : batReads stale room base used src = .ok r) : r = none := by
  have hspec := readLoop_spec batChunkBytes src
  fun_induction batReads stale room base used src generalizing r with
  | case1 used src b src' hr => exact (Except.ok.inj h).symm
  | case2 used src b src' hr hb => exact absurd hspec (not_eof hr hbad)
  | case3 used src b src' hr hb => exact absurd hspec (not_eof hr hbad)
  | case4 used src b src' hr ih =>
    rw [hr] at hspec
    obtain ⟨leaf, -, h⟩ := ExceptState.bind_ok.mp h
    obtain ⟨u, -, h⟩ := ExceptState.bind_ok.mp h
    obtain ⟨r', hr', h⟩ := ExceptState.bind_ok.mp h
    obtain rfl := ih (by rw [← hbad]; exact hspec.fails rfl) hr' (readLoop_spec _ _)
    exact (Except.ok.inj h).symm

/-- The value that is streamed is the value that is made of the whole content. -/
theorem readBat_eq {src : List Packet} (hok : fails src = false) :
    readBat stale room used (some src) = batFromBytes stale' room used (content src) := by
  rw [batFromBytes_stale stale' stale]
  unfold readBat batFromBytes
  dsimp only
  rw [batReads_eq (le_refl used) hok, if_neg (by simp)]
  show _ = batLeaves stale room used (pieces (content src)) >>= _
  cases batLeaves stale room used (pieces (content src)) <;> rfl

end

/-! ## The event log -/

/-- `ER_EV_BAT` -/
def evBat : UInt8 := 5

/-- The hash of the arguments of a request. -/
abbrev ArgsHash := { h : List UInt8 // h.length = 32 }

theorem length_read_le (c : Bat.Cursor) (size : Nat) : (Bat.read c size).2.length ≤ size := by
  have hbytes : ∀ (s : Bat.Span) (i n : Nat), (s.bytes i n).length = n := fun s i n => by
    unfold Bat.Span.bytes
    split <;> simp
  fun_induction Bat.read c size with
  | case1 c size h s remain n out hend next c' rest hr ih =>
    have hn : n ≤ size := by
      show (if remain < size then remain else size) ≤ size
      split <;> omega
    rw [hr] at ih
    rw [List.length_append, hbytes]
    dsimp only at ih
    omega
  | case2 c size h s remain n out hend =>
    show (s.bytes c.within n).length ≤ size
    rw [hbytes]
    show (if remain < size then remain else size) ≤ size
    split <;> omega
  | case3 c size h => simp

/-- The data of an event. -/
abbrev LogData := { b : List UInt8 // b.length ≤ ptrdiffMax }

theorem LogData.fits (data : LogData) : data.1.length ≤ ptrdiffMax := data.2

/-- The data of the event that records a result: a flag, and what a cursor reads of it. -/
def batData (result : Obj) : Except Stop { b : List UInt8 // b.length ≤ ptrdiffMax } :=
  match result with
  | .nat (.direct 0) => .ok ⟨[0], by decide⟩
  | result =>
    match Bat.batOpen (Bat.toVal result) with
    | none => .error (.assume "ReadBat result")
    | some c =>
      if ¬ c.length < 2 ^ 64 - 1 then .error (.assume "ReadBat log size")
      else if h : c.length + 1 ≤ ptrdiffMax then
        .ok ⟨1 :: (Bat.read c c.length).2, by
          have := length_read_le c c.length
          rw [List.length_cons]
          omega⟩
      else .error (.assume "oom")

section

variable (stale : Nat → UInt64) (room used : Nat) (actor : UInt64) (hash : ArgsHash)

/-- `ReadBat` in `er_service` where a recording is made: the result that is deposited, and
the event. The path is on the stack meanwhile. -/
def recordReadBat (src : Option (List Packet)) : Except Stop (Obj × Event) := do
  vroom room used 1
  let result ← readBat stale room (used + 1) src
  let data ← batData result
  return (result, ⟨evBat, actor, 0, hash.1, data.1, hash.2, LogData.fits data⟩)

/-- `ReadBat` in `er_service` where `e` is replayed. -/
def replayReadBat (e : Event) : Except Stop Obj := do
  assume (e.kind = evBat ∧ e.actor = actor ∧ e.argsHash = hash.1 ∧ e.data.length ≥ 1)
    "er_log: replay divergence at ReadBat"
  let flag ← byteAt e.data 0
  assume (flag ≤ 1 ∧ (flag ≠ 0 ∨ e.data.length = 1)) "er_log: malformed ReadBat result"
  if flag ≠ 0 then batFromBytes stale room used (e.data.drop 1) else return .nat (.direct 0)

end

/-! ## Recording and replay -/

section

variable {stale stale' : Nat → UInt64} {room room' used used' : Nat}

theorem vroom_mono (hroom : used' + room ≤ used + room') {n : Nat} {u : Unit}
    (h : vroom room used n = .ok u) : vroom room' used' n = .ok u := by
  unfold vroom Bignum.assume at h ⊢
  split_ifs at h with hle
  rw [if_pos]
  have := of_decide_eq_true hle
  exact decide_eq_true (by omega)

theorem batChunk_mono (hroom : used' + room ≤ used + room') {b : List UInt8} {t : Obj}
    (h : batChunk stale room used b = .ok t) : batChunk stale room' used' b = .ok t := by
  obtain ⟨u, hsize, h⟩ := ExceptState.bind_ok.mp h
  obtain ⟨u', hv, h⟩ := ExceptState.bind_ok.mp h
  exact ExceptState.bind_ok.mpr ⟨u, hsize, ExceptState.bind_ok.mpr ⟨u', vroom_mono hroom hv, h⟩⟩

theorem batLeaves_mono : ∀ {cs : List (List UInt8)} {used used' : Nat} {ts : List Obj},
    used' + room ≤ used + room' → batLeaves stale room used cs = .ok ts →
    batLeaves stale room' used' cs = .ok ts
  | [], _, _, _, _, h => h
  | c :: cs, _, _, _, hroom, h => by
    rw [batLeaves] at h ⊢
    obtain ⟨leaf, hleaf, h⟩ := ExceptState.bind_ok.mp h
    obtain ⟨u, hv, h⟩ := ExceptState.bind_ok.mp h
    obtain ⟨leaves, hleaves, h⟩ := ExceptState.bind_ok.mp h
    exact ExceptState.bind_ok.mpr ⟨leaf, batChunk_mono hroom hleaf, ExceptState.bind_ok.mpr
      ⟨u, vroom_mono hroom hv, ExceptState.bind_ok.mpr
        ⟨leaves, batLeaves_mono (by omega) hleaves, h⟩⟩⟩

theorem batPass_mono (hroom : used' + room ≤ used + room') : ∀ {ts vs : List Obj},
    batPass room used ts = .ok vs → batPass room' used' ts = .ok vs
  | [], _, h => h
  | [_], _, h => h
  | l :: r :: ts, _, h => by
    rw [batPass] at h ⊢
    obtain ⟨v, hv, h⟩ := ExceptState.bind_ok.mp h
    obtain ⟨vs, hvs, h⟩ := ExceptState.bind_ok.mp h
    obtain ⟨u, hu, hv⟩ := ExceptState.bind_ok.mp hv
    exact ExceptState.bind_ok.mpr ⟨v, ExceptState.bind_ok.mpr ⟨u, vroom_mono hroom hu, hv⟩,
      ExceptState.bind_ok.mpr ⟨vs, batPass_mono hroom hvs, h⟩⟩

theorem batJoinAll_mono (hroom : used' + room ≤ used + room') {fuel : Nat} {ts : List Obj} {t : Obj}
    (h : batJoinAll room used fuel ts = .ok t) : batJoinAll room' used' fuel ts = .ok t := by
  induction fuel generalizing ts with
  | zero =>
    match ts with
    | [] => exact h
    | [_] => exact h
    | _ :: _ :: _ => exact h
  | succ fuel ih =>
    by_cases hone : ∃ v, ts = [v]
    · obtain ⟨v, rfl⟩ := hone
      exact h
    · have hmany : ∀ v, ts = [v] → False := fun v hv => hone ⟨v, hv⟩
      rw [batJoinAll] at h ⊢
      · obtain ⟨vs, hvs, h⟩ := ExceptState.bind_ok.mp h
        exact ExceptState.bind_ok.mpr ⟨vs, batPass_mono (by omega) hvs, ih h⟩
      all_goals exact hmany

theorem batFromBytes_mono (hroom : used' + room ≤ used + room') {b : List UInt8} {t : Obj}
    (h : batFromBytes stale room used b = .ok t) : batFromBytes stale' room' used' b = .ok t := by
  rw [batFromBytes_stale stale' stale]
  obtain ⟨ts, hts, h⟩ := ExceptState.bind_ok.mp h
  exact ExceptState.bind_ok.mpr ⟨ts, batLeaves_mono hroom hts, batJoinAll_mono hroom h⟩

/-- A tree is no natural. -/
theorem isBat_app {t : Obj} {b : List UInt8} (h : IsBat t b) : ∃ head args, t = .app head args := by
  cases h <;> exact ⟨_, _, rfl⟩

/-- The data of the event of a tree: the bytes, behind a flag. -/
theorem batData_ok (hroom : room ≤ Bat.vstackMax) {b : List UInt8} {t : Obj}
    (h : batFromBytes stale room used b = .ok t) : ∃ data, batData t = .ok data ∧ data.1 = 1 :: b := by
  have hfits : BatFits room used b := by
    by_contra hno
    exact (batFromBytes_full hno).not_ok h
  have hlen := Bat.length_le_of_fits hroom hfits
  obtain ⟨t', c, ht', -, hopen, hc, hread, -⟩ := (Bat.batFromBytes_reads stale hroom used b).1 hfits
  obtain rfl : t' = t := Except.ok.inj (ht'.symm.trans h)
  obtain ⟨t'', ht'', hbat⟩ := @batFromBytes_ok stale room _ _ (Nat.lt_of_le_of_lt hlen (by decide))
    hfits
  obtain rfl : t'' = t' := Except.ok.inj (ht''.symm.trans h)
  obtain ⟨head, args, rfl⟩ := isBat_app hbat
  have hmax : ptrdiffMax = 2 ^ 63 - 1 := rfl
  have hmalloc : c.length + 1 ≤ ptrdiffMax := by omega
  unfold batData
  dsimp only
  rw [hopen]
  dsimp only
  rw [if_neg (by omega), dif_pos hmalloc]
  refine ⟨_, rfl, ?_⟩
  show 1 :: (Bat.read c c.length).2 = 1 :: b
  rw [hc, hread]

/-- What is recorded for a tree replays to the tree, and the event holds its bytes. -/
theorem recordReadBat_ok (hroom : room ≤ Bat.vstackMax) (actor : UInt64) (hash : ArgsHash)
    {src : List Packet} (hok : fails src = false) (hfits : BatFits room (used + 1) (content src)) :
    ∃ v e, recordReadBat stale room used actor hash (some src) = .ok (v, e) ∧
      e.data = 1 :: content src := by
  have hlen := Bat.length_le_of_fits hroom hfits
  obtain ⟨t, ht, -⟩ := @batFromBytes_ok stale room _ _ (Nat.lt_of_le_of_lt hlen (by decide)) hfits
  obtain ⟨data, hdata, hbytes⟩ := batData_ok hroom ht
  have hone := hfits.1
  refine ⟨t, ⟨evBat, actor, 0, hash.1, data.1, hash.2, data.2⟩, ?_, hbytes⟩
  unfold recordReadBat
  rw [vroom_ok (by omega), @readBat_eq stale stale room _ _ hok, ht, ExceptState.ok_bind, hdata]
  rfl

/-- A replay accepts the event of a recording and deposits what the recording did. -/
theorem replay_record (hroom : room ≤ Bat.vstackMax) (hmore : used' + room ≤ used + room')
    {actor : UInt64} {hash : ArgsHash} {src : Option (List Packet)} {v : Obj} {e : Event}
    (h : recordReadBat stale room used actor hash src = .ok (v, e)) :
    replayReadBat stale' room' used' actor hash e = .ok v := by
  obtain ⟨u, hu, h⟩ := ExceptState.bind_ok.mp h
  obtain ⟨result, hresult, h⟩ := ExceptState.bind_ok.mp h
  obtain ⟨data, hdata, h⟩ := ExceptState.bind_ok.mp h
  cases h
  -- Either nothing came of the file, or the tree of its content did.
  obtain rfl | ⟨src, rfl, hok⟩ : v = .nat (.direct 0) ∨ ∃ p, src = some p ∧ fails p = false := by
    cases src with
    | none => exact .inl (Except.ok.inj hresult).symm
    | some p =>
      cases hp : fails p with
      | false => exact .inr ⟨p, rfl, hp⟩
      | true =>
        obtain ⟨r, hr, h⟩ := ExceptState.bind_ok.mp hresult
        obtain rfl := batReads_fail hp hr
        exact .inl (Except.ok.inj h).symm
  · obtain rfl : data = ⟨[0], by decide⟩ := (Except.ok.inj hdata).symm
    unfold replayReadBat
    rw [assume_true (by simp [evBat])]
    rfl
  · rw [@readBat_eq stale stale room _ _ hok] at hresult
    obtain ⟨⟨bytes, hlen⟩, hdata', hbytes⟩ := batData_ok hroom hresult
    obtain rfl : _ = data := Except.ok.inj (hdata'.symm.trans hdata)
    obtain rfl : bytes = 1 :: content src := hbytes
    have hreplay : batFromBytes stale' room' used' (content src) = .ok v :=
      batFromBytes_mono (by omega) hresult
    unfold replayReadBat
    rw [assume_true (by simp [evBat])]
    exact hreplay

/-- A file whose reads do not end with an error streams to the tree of its content; a recorded
`ReadBat` is replayed to the value it deposited, whatever came of the file, where there is
as much room on the stack; and the recording is made wherever the tree fits. -/
theorem read_bat_streams (hroom : room ≤ Bat.vstackMax) (actor : UInt64) (hash : ArgsHash) :
    (∀ (src : List Packet) (stale' : Nat → UInt64), fails src = false →
      readBat stale room used (some src) = batFromBytes stale' room used (content src)) ∧
    (∀ (src : Option (List Packet)) (v : Obj) (e : Event),
      recordReadBat stale room used actor hash src = .ok (v, e) →
      ∀ (stale' : Nat → UInt64) (room' used' : Nat), used' + room ≤ used + room' →
        replayReadBat stale' room' used' actor hash e = .ok v) ∧
    (∀ src : List Packet, fails src = false → BatFits room (used + 1) (content src) →
      ∃ v e, recordReadBat stale room used actor hash (some src) = .ok (v, e) ∧
        e.data = 1 :: content src) :=
  ⟨fun _ _ hok => readBat_eq hok, fun _ _ _ h _ _ _ hmore => replay_record hroom hmore h,
    fun _ hok hfits => recordReadBat_ok hroom actor hash hok hfits⟩

/-- Two short reads and an interrupted one, recorded and replayed. -/
theorem read_bat_streams_short : ∃ v e,
    recordReadBat (fun _ => 0) (2 ^ 31) 0 1 ⟨List.replicate 32 0, rfl⟩
      (some [.data [1, 2], .intr, .data [3]]) = .ok (v, e) ∧ e.data = [1, 1, 2, 3] ∧
    replayReadBat (fun _ => 7) (2 ^ 31) 0 1 ⟨List.replicate 32 0, rfl⟩ e = .ok v := by
  obtain ⟨-, hreplay, hrecord⟩ := @read_bat_streams (fun _ => 0) (2 ^ 31) 0
    (show 2 ^ 31 ≤ Bat.vstackMax by decide) 1 ⟨List.replicate 32 0, rfl⟩
  obtain ⟨v, e, h, hdata⟩ := hrecord [.data [1, 2], .intr, .data [3]] rfl ⟨by decide, by decide⟩
  exact ⟨v, e, h, hdata, hreplay _ v e h _ _ _ le_rfl⟩

end

end Enki.Rplan
