import Enki.Log.Bat
import Enki.Log.Files

/-!
# Event log formats: HTTP results

`er_http_result_build` on any data. Where the data is the layout of a response
(`Fields.bytes`) that the stack and the naturals can hold, the response is built.
Otherwise it is refused, with one exception: `er_dec_bytes` adds a length to the
position before it compares, so that a length near `2 ^ 64` passes. Memory for it is
then not to be had, unless the length is `2 ^ 64 - 1`, where `er_push_bar` asks for no
memory at all and copies (`Overreads`).
-/

namespace Enki.Log

open Bignum NatVal

/-- The longest byte string with a one behind it. -/
def barMax : Nat := natMax - 1

/-- Bytes with a one behind them, as a natural. -/
def IsBar (o : Obj) (b : List UInt8) : Prop :=
  ∃ v : NatVal, o = .nat v ∧ v.Canonical ∧ v.val = LittleEndian.toNat (b ++ [1])

/-- Name and value of a header. -/
def IsHeader (o : Obj) (h : List UInt8 × List UInt8) : Prop :=
  ∃ n v, o = .app (.direct 0) [n, v] ∧ IsBar n h.1 ∧ IsBar v h.2

/-- The headers; the empty row is zero. -/
def IsHeaders (o : Obj) (hs : List (List UInt8 × List UInt8)) : Prop :=
  if hs = [] then o = .nat (.direct 0)
  else ∃ rows, o = .app (.direct 0) rows ∧ List.Forall₂ IsHeader rows hs

/-- The length that `er_push_bar` makes no memory of. -/
def maxLen : List UInt8 := le64 0xffffffffffffffff

/-! ## Positions -/

section

variable {stale : Nat → UInt64} {room : Nat} {d rest b : List UInt8} {pos n : UInt64} {vs : List Obj}

theorem toNat_ofNat_length (hd : d.length ≤ ptrdiffMax) : (UInt64.ofNat d.length).toNat = d.length :=
  UInt64.toNat_ofNat_of_lt' (Nat.lt_of_le_of_lt hd (by decide))

theorem toNat_add_of_le {q k : UInt64} (hd : d.length ≤ ptrdiffMax) (h : q.toNat + k.toNat ≤ d.length) :
    (q + k).toNat = q.toNat + k.toNat := by
  have hmax : ptrdiffMax = 2 ^ 63 - 1 := rfl
  rw [UInt64.toNat_add]
  omega

theorem decU64_ok {w : UInt64} (hd : d.length ≤ ptrdiffMax) (h : At d pos.toNat (le64 w ++ rest)) :
    decU64 d pos = .ok (w, pos + 8) ∧ At d (pos + 8).toNat rest := by
  have hlen := h.length
  rw [List.length_append, length_le64] at hlen
  have h8 : (8 : UInt64).toNat = 8 := rfl
  have hpos : (pos + 8).toNat = pos.toNat + 8 := toNat_add_of_le (k := 8) hd (by omega)
  have hcheck : decide (pos + 8 ≤ UInt64.ofNat d.length) = true :=
    decide_eq_true (UInt64.le_iff_toNat_le.mpr (by rw [toNat_ofNat_length hd]; omega))
  refine ⟨?_, by simpa [hpos] using h.skip⟩
  unfold decU64
  rw [assume_true hcheck, bind_ok h.word]
  rfl

theorem decU64_short (hd : d.length ≤ ptrdiffMax) (h : At d pos.toNat rest) (hlen : rest.length < 8) :
    Refused (decU64 d pos) := by
  have hl := h.length
  have hmax : ptrdiffMax = 2 ^ 63 - 1 := rfl
  have h8 : (8 : UInt64).toNat = 8 := rfl
  refine assume_false (decide_eq_false fun hle => ?_)
  rw [UInt64.le_iff_toNat_le, toNat_ofNat_length hd, UInt64.toNat_add] at hle
  omega

/-- A length passes if its bytes are there, or if it wraps. -/
theorem decBytes_eq (hd : d.length ≤ ptrdiffMax) (h : At d pos.toNat (le64 n ++ rest))
    (hn : n.toNat ≤ rest.length ∨ 2 ^ 64 ≤ pos.toNat + 8 + n.toNat) :
    decBytes d pos = .ok (pos + 8, n, pos + 8 + n) := by
  have hlen := h.length
  rw [List.length_append, length_le64] at hlen
  have hmax : ptrdiffMax = 2 ^ 63 - 1 := rfl
  have h8 : (8 : UInt64).toNat = 8 := rfl
  have hnlt := n.toNat_lt
  have hpos : (pos + 8).toNat = pos.toNat + 8 := toNat_add_of_le (k := 8) hd (by omega)
  have hcheck : decide (pos + 8 + n ≤ UInt64.ofNat d.length) = true := by
    refine decide_eq_true (UInt64.le_iff_toNat_le.mpr ?_)
    rw [toNat_ofNat_length hd, UInt64.toNat_add, hpos]
    omega
  unfold decBytes
  rw [bind_ok (decU64_ok hd h).1]
  dsimp only
  rw [assume_true hcheck]
  rfl

theorem decBytes_refused (hd : d.length ≤ ptrdiffMax) (h : At d pos.toNat (le64 n ++ rest))
    (hn : ¬ (n.toNat ≤ rest.length ∨ 2 ^ 64 ≤ pos.toNat + 8 + n.toNat)) : Refused (decBytes d pos) := by
  have hlen := h.length
  rw [List.length_append, length_le64] at hlen
  have h8 : (8 : UInt64).toNat = 8 := rfl
  have hpos : (pos + 8).toNat = pos.toNat + 8 := toNat_add_of_le (k := 8) hd (by omega)
  unfold decBytes
  rw [bind_ok (decU64_ok hd h).1]
  refine assume_false (decide_eq_false fun hle => ?_)
  rw [UInt64.le_iff_toNat_le, toNat_ofNat_length hd, UInt64.toNat_add, hpos] at hle
  omega

/-- Bytes that are there. -/
theorem decBytes_ok (hd : d.length ≤ ptrdiffMax) (h : At d pos.toNat (field b ++ rest)) :
    ∃ p pos', decBytes d pos = .ok (p, UInt64.ofNat b.length, pos') ∧ At d p.toNat (b ++ rest) ∧
      At d pos'.toNat rest := by
  rw [field, List.append_assoc] at h
  have hlen := h.length
  simp only [List.length_append, length_le64] at hlen
  have hmax : ptrdiffMax = 2 ^ 63 - 1 := rfl
  have hn : (UInt64.ofNat b.length).toNat = b.length :=
    UInt64.toNat_ofNat_of_lt' (by simp only [UInt64.size]; omega)
  have hbytes := (decU64_ok hd h).2
  have hpos : (pos + 8 + UInt64.ofNat b.length).toNat = (pos + 8).toNat + b.length := by
    have := hbytes.length
    rw [List.length_append] at this
    rw [toNat_add_of_le hd (by omega), hn]
  refine ⟨_, _, decBytes_eq hd h (.inl (by rw [hn]; simp)), hbytes, ?_⟩
  rw [hpos]
  exact hbytes.skip

/-- What a field can be: not there, there, or of a length that wraps. -/
theorem decBytes_cases (hd : d.length ≤ ptrdiffMax) (h : At d pos.toNat rest) :
    Refused (decBytes d pos) ∨ (∃ b rest', rest = field b ++ rest') ∨
      ∃ n rest', rest = le64 n ++ rest' ∧ 2 ^ 64 ≤ pos.toNat + 8 + n.toNat := by
  by_cases h8 : 8 ≤ rest.length
  swap
  · exact .inl ((decU64_short hd h (by omega)).bind _)
  have heq := eq_le64 h8
  generalize UInt64.ofNat (LittleEndian.toNat (rest.take 8)) = n at heq
  generalize rest.drop 8 = more at heq
  subst heq
  by_cases hn : n.toNat ≤ more.length
  · refine .inr (.inl ⟨more.take n.toNat, more.drop n.toNat, ?_⟩)
    have hlen : (more.take n.toNat).length = n.toNat := by simp [hn]
    rw [field, hlen, UInt64.ofNat_toNat, List.append_assoc, List.take_append_drop]
  · by_cases hwrap : 2 ^ 64 ≤ pos.toNat + 8 + n.toNat
    · exact .inr (.inr ⟨n, more, rfl, hwrap⟩)
    · exact .inl (decBytes_refused hd h (by omega))

/-! ## Bars -/

theorem rdropWhile_bar (b : List UInt8) : (b ++ [1]).rdropWhile (· == 0) = b ++ [1] := by
  rw [List.rdropWhile_concat]
  rfl

/-- The copy of `er_push_bar`. -/
theorem pushBar_eq (h : At d pos.toNat (b ++ rest))
    (hb : b.length < ptrdiffMax) : pushBar stale room d vs pos (UInt64.ofNat b.length) = (do
      let v ← fromBytes stale (b ++ [1])
      vpush room vs (.nat v)) := by
  have hmax : ptrdiffMax = 2 ^ 63 - 1 := rfl
  have hn : (UInt64.ofNat b.length).toNat = b.length :=
    UInt64.toNat_ofNat_of_lt' (by simp only [UInt64.size]; omega)
  have hone : (UInt64.ofNat b.length + 1).toNat = b.length + 1 := by
    rw [UInt64.toNat_add, hn, UInt64.toNat_one]
    omega
  have hmem : decide ((UInt64.ofNat b.length + 1).toNat ≤ ptrdiffMax) = true :=
    decide_eq_true (by omega)
  have hcopy : copyFrom d pos (UInt64.ofNat b.length) = .ok b := by
    unfold copyFrom
    split
    next => rw [hn, h.read]
    next hz =>
      have hzero : b.length = 0 := by
        rw [gt_iff_lt, UInt64.lt_iff_toNat_lt, hn] at hz
        exact Nat.eq_zero_of_not_pos hz
      rw [List.length_eq_zero_iff.mp hzero]
  unfold pushBar
  rw [assume_true hmem, bind_ok hcopy]

theorem pushBar_ok (h : At d pos.toNat (b ++ rest))
    (hb : b.length ≤ barMax) (hroom : vs.length < room) :
    ∃ o, pushBar stale room d vs pos (UInt64.ofNat b.length) = .ok (vs ++ [o]) ∧ IsBar o b := by
  have hbar : barMax = 8388599 := rfl
  have hnat : natMax = 8388600 := rfl
  have hmax : ptrdiffMax = 2 ^ 63 - 1 := rfl
  rw [pushBar_eq h (by omega)]
  rcases fromBytes_cases stale (b ++ [1]) with ⟨-, v, hv, hcanon, hval⟩ | ⟨hno, -⟩
  · exact ⟨.nat v, by rw [bind_ok hv, vpush_ok hroom], v, rfl, hcanon, hval⟩
  · rw [rdropWhile_bar, List.length_append, List.length_singleton] at hno
    omega

theorem pushBar_full (h : At d pos.toNat (b ++ rest))
    (hb : b.length < ptrdiffMax) (hno : ¬ (b.length ≤ barMax ∧ vs.length < room)) :
    Refused (pushBar stale room d vs pos (UInt64.ofNat b.length)) := by
  have hbar : barMax = 8388599 := rfl
  have hnat : natMax = 8388600 := rfl
  rw [pushBar_eq h hb]
  rcases fromBytes_cases stale (b ++ [1]) with ⟨hle, v, hv, -⟩ | ⟨-, hrefused⟩
  · rw [rdropWhile_bar, List.length_append, List.length_singleton] at hle
    rw [bind_ok hv]
    exact vpush_full fun hroom => hno ⟨by omega, hroom⟩
  · exact hrefused.bind _

/-- No memory for a length that wraps. -/
theorem pushBar_wrap (hd : d.length ≤ ptrdiffMax) (hp : pos.toNat ≤ d.length)
    (hwrap : 2 ^ 64 ≤ pos.toNat + n.toNat) (hne : n ≠ 0xffffffffffffffff) :
    Refused (pushBar stale room d vs pos n) := by
  have hmax : ptrdiffMax = 2 ^ 63 - 1 := rfl
  have hnlt := n.toNat_lt
  have hlast : n.toNat ≠ 2 ^ 64 - 1 := fun h => hne (UInt64.toNat_inj.mp h)
  refine assume_false (decide_eq_false ?_)
  rw [UInt64.toNat_add, UInt64.toNat_one]
  omega

/-- The largest length is copied from past the end. -/
theorem pushBar_max (hd : d.length ≤ ptrdiffMax) :
    pushBar stale room d vs pos 0xffffffffffffffff = .error (.misuse "read") := by
  have hmax : ptrdiffMax = 2 ^ 63 - 1 := rfl
  have hlen : (0xffffffffffffffff : UInt64).toNat = 2 ^ 64 - 1 := rfl
  have hmem : decide ((0xffffffffffffffff + 1 : UInt64).toNat ≤ ptrdiffMax) = true := by decide
  have hread : readAt d pos.toNat (0xffffffffffffffff : UInt64).toNat = .error (.misuse "read") :=
    if_neg (by rw [hlen]; simp; omega)
  have hcopy : copyFrom d pos 0xffffffffffffffff = .error (.misuse "read") := by
    rw [copyFrom, if_pos (by decide), hread]
  unfold pushBar
  rw [assume_true hmem, bind_misuse hcopy]

/-! ## Headers -/

/-- The top words of the stack become an application. -/
theorem pushApp_ok {args : List Obj} {head : NatVal} {k : UInt32} (hk : k.toNat = args.length)
    (hne : args ≠ []) (hroom : vs.length < room) :
    pushApp room (vs ++ args) head k = .ok (vs ++ [.app head args]) := by
  have hlen : (vs ++ args).length - k.toNat = vs.length := by
    rw [List.length_append]
    omega
  unfold pushApp
  rw [hlen, List.drop_left, List.take_left, bind_ok (mkAppFrom_ok hne), vpush_ok hroom]

/-- The decoder meets the largest length before anything is refused. The length of a
name is followed by one of a value that is read one byte early. -/
inductive HeadersOverread (room total : Nat) : Nat → Nat → List UInt8 → Prop
  | name {used k : Nat} {low rest : List UInt8} : low.length = 7 →
    (LittleEndian.toNat (0xff :: low) ≤ rest.length ∨
      2 ^ 64 ≤ total - rest.length + LittleEndian.toNat (0xff :: low)) →
    HeadersOverread room total used (k + 1) (maxLen ++ (low ++ rest))
  | value {used k : Nat} {name rest : List UInt8} : name.length ≤ barMax → used < room →
    HeadersOverread room total used (k + 1) (field name ++ (maxLen ++ rest))
  | next {used k : Nat} {h : List UInt8 × List UInt8} {rest : List UInt8} : h.1.length ≤ barMax →
    h.2.length ≤ barMax → used + 2 ≤ room → HeadersOverread room total (used + 1) k rest →
    HeadersOverread room total used (k + 1) (headerBytes h ++ rest)

/-- One header is read. -/
theorem httpHeaders_step (h : List UInt8 × List UInt8) (k : Nat) (hd : d.length ≤ ptrdiffMax)
    (hat : At d pos.toNat (headerBytes h ++ rest)) (hname : h.1.length ≤ barMax)
    (hval : h.2.length ≤ barMax) (hroom : vs.length + 2 ≤ room) :
    ∃ o pos', IsHeader o h ∧ At d pos'.toNat rest ∧
      httpHeaders stale room d (k + 1) pos vs = httpHeaders stale room d k pos' (vs ++ [o]) := by
  rw [headerBytes, List.append_assoc] at hat
  obtain ⟨p, pos₁, hdec, hp, hpos₁⟩ := decBytes_ok hd hat
  obtain ⟨q, pos₂, hdec', hq, hpos₂⟩ := decBytes_ok hd hpos₁
  obtain ⟨n, hn, hbar⟩ := @pushBar_ok stale room _ _ _ _ vs hp hname (by omega)
  obtain ⟨v, hv, hbar'⟩ := @pushBar_ok stale room _ _ _ _ (vs ++ [n]) hq hval (by simp; omega)
  refine ⟨.app (.direct 0) [n, v], pos₂, ⟨n, v, rfl, hbar, hbar'⟩, hpos₂, ?_⟩
  rw [httpHeaders, bind_ok hdec]
  dsimp only
  rw [bind_ok hdec']
  dsimp only
  rw [bind_ok hn, bind_ok hv, List.append_assoc, bind_ok (pushApp_ok rfl (by simp) (by omega))]
  rfl

/-- The loop on the layout of headers. -/
theorem httpHeaders_ok (hd : d.length ≤ ptrdiffMax) : ∀ (hs : List (List UInt8 × List UInt8))
    (pos : UInt64) (rest : List UInt8) (vs : List Obj), At d pos.toNat (hs.flatMap headerBytes ++ rest) →
    (∀ h ∈ hs, h.1.length ≤ barMax ∧ h.2.length ≤ barMax) →
    (hs ≠ [] → vs.length + hs.length + 1 ≤ room) →
    ∃ os pos', List.Forall₂ IsHeader os hs ∧ At d pos'.toNat rest ∧
      httpHeaders stale room d hs.length pos vs = .ok (vs ++ os, pos')
  | [], pos, rest, vs, h, _, _ => ⟨[], pos, .nil, by simpa using h, by simp [httpHeaders]⟩
  | h :: hs, pos, rest, vs, hat, hfits, hroom => by
    have hr := hroom (by simp)
    simp only [List.length_cons] at hr
    rw [List.flatMap_cons, List.append_assoc] at hat
    obtain ⟨hname, hval⟩ := hfits h (by simp)
    obtain ⟨o, pos₁, ho, hat₁, hstep⟩ := @httpHeaders_step stale room _ _ _ vs h hs.length hd hat
      hname hval (by omega)
    obtain ⟨os, pos', hos, hat', hrun⟩ := httpHeaders_ok hd hs pos₁ rest (vs ++ [o]) hat₁
      (fun h hh => hfits h (by simp [hh])) (fun _ => by simp; omega)
    refine ⟨o :: os, pos', .cons ho hos, hat', ?_⟩
    rw [List.length_cons, hstep, hrun]
    simp

theorem toNat_maxLen : (0xffffffffffffffff : UInt64).toNat = 2 ^ 64 - 1 := rfl

/-- Behind the largest length the position is one byte back. -/
theorem At.back (hd : d.length ≤ ptrdiffMax) (h : At d pos.toNat (maxLen ++ rest)) :
    At d (pos + 8 + 0xffffffffffffffff).toNat (0xff :: rest) := by
  have hlen := h.length
  have hl : maxLen.length = 8 := rfl
  rw [List.length_append, hl] at hlen
  have hmax : ptrdiffMax = 2 ^ 63 - 1 := rfl
  have h8 : (8 : UInt64).toNat = 8 := rfl
  have hpos : (pos + 8).toNat = pos.toNat + 8 := toNat_add_of_le (k := 8) hd (by omega)
  have hback : (pos + 8 + 0xffffffffffffffff).toNat = pos.toNat + 7 := by
    rw [UInt64.toNat_add, hpos, toNat_maxLen]
    omega
  rw [hback]
  exact At.skip (b := List.replicate 7 0xff) h

/-- The loop copies from past the end. -/
theorem httpHeaders_overread (hd : d.length ≤ ptrdiffMax) {used k : Nat}
    (h : HeadersOverread room d.length used k rest) : ∀ (pos : UInt64) (vs : List Obj),
    vs.length = used → At d pos.toNat rest →
    httpHeaders stale room d k pos vs = .error (.misuse "read") := by
  have hmax : ptrdiffMax = 2 ^ 63 - 1 := rfl
  induction h with
  | @name used k low rest hlow hn =>
    intro pos vs _ hat
    have hlen := hat.length
    have hl : maxLen.length = 8 := rfl
    simp only [List.length_append, hl, hlow] at hlen
    have hback := hat.back hd
    -- The length of the value starts with the last byte of the name's.
    have hword : 0xff :: (low ++ rest) = le64 (UInt64.ofNat (LittleEndian.toNat (0xff :: low))) ++ rest := by
      have htake : (0xff :: (low ++ rest)).take 8 = 0xff :: low := by
        rw [List.take_succ_cons, List.take_left' hlow]
      have hdrop : (0xff :: (low ++ rest)).drop 8 = rest := by
        rw [List.drop_succ_cons, List.drop_left' hlow]
      have := @eq_le64 (0xff :: (low ++ rest)) (by simp [hlow])
      rwa [htake, hdrop] at this
    have hlt := LittleEndian.toNat_lt (0xff :: low)
    rw [List.length_cons, hlow] at hlt
    have hw : (UInt64.ofNat (LittleEndian.toNat (0xff :: low))).toNat =
        LittleEndian.toNat (0xff :: low) := UInt64.toNat_ofNat_of_lt' hlt
    have hdec := decBytes_eq (n := 0xffffffffffffffff) hd hat (.inr (by rw [toNat_maxLen]; omega))
    have hpos := hback.length
    simp only [List.length_cons, List.length_append, hlow] at hpos
    rw [hword] at hback
    have hdec' := decBytes_eq hd hback (by
      rw [hw]
      rcases hn with hn | hn
      · exact .inl hn
      · exact .inr (by omega))
    rw [httpHeaders, bind_ok hdec]
    dsimp only
    rw [bind_ok hdec']
    dsimp only
    exact bind_misuse (pushBar_max hd)
  | @value used k name rest hname hroom =>
    intro pos vs hused hat
    obtain ⟨p, pos₁, hdec, hp, hpos₁⟩ := decBytes_ok hd hat
    have hdec' := decBytes_eq (n := 0xffffffffffffffff) hd hpos₁ (.inr (by rw [toNat_maxLen]; omega))
    obtain ⟨o, ho, -⟩ := @pushBar_ok stale room _ _ _ _ vs hp hname (by omega)
    rw [httpHeaders, bind_ok hdec]
    dsimp only
    rw [bind_ok hdec']
    dsimp only
    rw [bind_ok ho]
    exact bind_misuse (pushBar_max hd)
  | @next used k h rest hname hval hroom _ ih =>
    intro pos vs hused hat
    obtain ⟨o, pos', -, hat', hstep⟩ := @httpHeaders_step stale room _ _ _ vs h k hd hat hname
      hval (by omega)
    rw [hstep]
    exact ih pos' (vs ++ [o]) (by simp [hused]) hat'

/-- What the loop comes to on any data: it refuses, copies from past the end, or the data
is a layout that fits. -/
def HeadersRead (stale : Nat → UInt64) (room : Nat) (d : List UInt8) (k : Nat) (pos : UInt64)
    (vs : List Obj) (rest : List UInt8) : Prop :=
  Refused (httpHeaders stale room d k pos vs) ∨
  HeadersOverread room d.length vs.length k rest ∨
  ∃ hs rest', rest = hs.flatMap headerBytes ++ rest' ∧ hs.length = k ∧
    (∀ h ∈ hs, h.1.length ≤ barMax ∧ h.2.length ≤ barMax) ∧
    (hs ≠ [] → vs.length + hs.length + 1 ≤ room)

/-- The name and the length of the value are there, and the name cannot be pushed. -/
theorem httpHeaders_name_full {k : Nat} {name : List UInt8} {p pos₁ : UInt64}
    {r : UInt64 × UInt64 × UInt64} (hdec : decBytes d pos = .ok (p, UInt64.ofNat name.length, pos₁))
    (hdec' : decBytes d pos₁ = .ok r) (hp : At d p.toNat (name ++ rest))
    (hlen : name.length < ptrdiffMax) (hno : ¬ (name.length ≤ barMax ∧ vs.length < room)) :
    Refused (httpHeaders stale room d (k + 1) pos vs) := by
  rw [httpHeaders, bind_ok hdec]
  dsimp only
  rw [bind_ok hdec']
  exact (pushBar_full hp hlen hno).bind _

/-- Name and value are there. -/
theorem httpHeaders_header_cases (hd : d.length ≤ ptrdiffMax) {k : Nat} {name val : List UInt8}
    (hat : At d pos.toNat (field name ++ (field val ++ rest)))
    (ih : ∀ pos' vs', At d pos'.toNat rest → HeadersRead stale room d k pos' vs' rest) :
    HeadersRead stale room d (k + 1) pos vs (field name ++ (field val ++ rest)) := by
  have hmax : ptrdiffMax = 2 ^ 63 - 1 := rfl
  have hlen := hat.length
  simp only [List.length_append, length_field] at hlen
  obtain ⟨p, pos₁, hdec, hp, hpos₁⟩ := decBytes_ok hd hat
  obtain ⟨q, pos₂, hdec', hq, hpos₂⟩ := decBytes_ok hd hpos₁
  by_cases hfit : name.length ≤ barMax ∧ vs.length < room
  swap
  · exact .inl (httpHeaders_name_full hdec hdec' hp (by omega) hfit)
  by_cases hfit' : val.length ≤ barMax ∧ vs.length + 1 < room
  swap
  · obtain ⟨o, ho, -⟩ := @pushBar_ok stale room _ _ _ _ vs hp hfit.1 hfit.2
    left
    rw [httpHeaders, bind_ok hdec]
    dsimp only
    rw [bind_ok hdec']
    dsimp only
    rw [bind_ok ho]
    exact (pushBar_full hq (by omega) (by simpa using hfit')).bind _
  have hbytes : field name ++ (field val ++ rest) = headerBytes (name, val) ++ rest := by
    simp [headerBytes]
  rw [hbytes] at hat ⊢
  obtain ⟨o, pos', -, hat', hstep⟩ := @httpHeaders_step stale room _ _ _ vs (name, val) k
    hd hat hfit.1 hfit'.1 hfit'.2
  unfold HeadersRead
  rw [hstep]
  rcases ih pos' (vs ++ [o]) hat' with hno | hover | ⟨hs, rest', rfl, rfl, hall, hroom⟩
  · exact .inl hno
  · refine .inr (.inl (.next hfit.1 hfit'.1 hfit'.2 ?_))
    simpa using hover
  · refine .inr (.inr ⟨(name, val) :: hs, rest', by simp, rfl, ?_, fun _ => ?_⟩)
    · intro h hh
      rcases List.mem_cons.mp hh with rfl | hh
      · exact ⟨hfit.1, hfit'.1⟩
      · exact hall h hh
    · by_cases hnil : hs = []
      · simp only [hnil, List.length_cons, List.length_nil]
        omega
      · have := hroom hnil
        simp only [List.length_append, List.length_cons, List.length_nil] at this ⊢
        omega

/-- The name is there, and the length of the value wraps. -/
theorem httpHeaders_value_wraps (hd : d.length ≤ ptrdiffMax) {k : Nat} {name : List UInt8}
    {p pos₁ : UInt64} (hdec : decBytes d pos = .ok (p, UInt64.ofNat name.length, pos₁))
    (hp : At d p.toNat (name ++ (le64 n ++ rest))) (hpos₁ : At d pos₁.toNat (le64 n ++ rest))
    (hwrap : 2 ^ 64 ≤ pos₁.toNat + 8 + n.toNat) :
    HeadersRead stale room d (k + 1) pos vs (field name ++ (le64 n ++ rest)) := by
  have hmax : ptrdiffMax = 2 ^ 63 - 1 := rfl
  have hdec' := decBytes_eq hd hpos₁ (.inr hwrap)
  have hplen := hp.length
  have hq := (decU64_ok hd hpos₁).2.length
  simp only [List.length_append, length_le64] at hplen
  by_cases hfit : name.length ≤ barMax ∧ vs.length < room
  swap
  · exact .inl (httpHeaders_name_full hdec hdec' hp (by omega) hfit)
  by_cases hn : n = 0xffffffffffffffff
  · subst hn
    exact .inr (.inl (.value hfit.1 hfit.2))
  · obtain ⟨o, ho, -⟩ := @pushBar_ok stale room _ _ _ _ vs hp hfit.1 hfit.2
    have hpos8 : (pos₁ + 8).toNat = pos₁.toNat + 8 := by
      have := hpos₁.length
      rw [List.length_append, length_le64] at this
      exact toNat_add_of_le (k := 8) hd (by rw [show (8 : UInt64).toNat = 8 from rfl]; omega)
    left
    rw [httpHeaders, bind_ok hdec]
    dsimp only
    rw [bind_ok hdec']
    dsimp only
    rw [bind_ok ho]
    exact (pushBar_wrap hd (by omega) (by omega) hn).bind _

/-- Eight bytes from the last one of the largest length are that byte and seven more. -/
theorem le64_behind_max {r more : List UInt8} (heq : 0xff :: r = le64 n ++ more) :
    r = r.take 7 ++ more ∧ (r.take 7).length = 7 ∧
      LittleEndian.toNat (0xff :: r.take 7) = n.toNat := by
  have hl := congrArg List.length heq
  simp only [List.length_cons, List.length_append, length_le64] at hl
  have htake := congrArg (List.take 8) heq
  have hdrop := congrArg (List.drop 8) heq
  rw [List.take_left' (length_le64 n), List.take_succ_cons] at htake
  rw [List.drop_left' (length_le64 n), List.drop_succ_cons] at hdrop
  refine ⟨by rw [← hdrop, List.take_append_drop], by simp; omega, ?_⟩
  rw [htake, toNat_le64]

/-- The length of the name is the largest: the value is read one byte early. -/
theorem httpHeaders_name_max (hd : d.length ≤ ptrdiffMax) (k : Nat)
    (hat : At d pos.toNat (maxLen ++ rest)) :
    HeadersRead stale room d (k + 1) pos vs (maxLen ++ rest) := by
  have hlen := hat.length
  have hdec := decBytes_eq (n := 0xffffffffffffffff) hd hat (.inr (by rw [toNat_maxLen]; omega))
  have hback := hat.back hd
  have hblen := hback.length
  rw [List.length_cons] at hblen
  rcases decBytes_cases hd hback with hno | ⟨b, more, heq⟩ | ⟨w, more, heq, hwrap⟩
  · left
    rw [httpHeaders, bind_ok hdec]
    exact hno.bind _
  · have hbl := congrArg List.length heq
    rw [List.length_append, length_field, List.length_cons] at hbl
    rw [field, List.append_assoc] at heq
    obtain ⟨hrest, h7, hw⟩ := le64_behind_max heq
    refine .inr (.inl ?_)
    rw [hrest]
    refine .name h7 (.inl ?_)
    have hmax : ptrdiffMax = 2 ^ 63 - 1 := rfl
    rw [hw, UInt64.toNat_ofNat_of_lt' (by simp only [UInt64.size]; omega)]
    simp
  · obtain ⟨hrest, h7, hw⟩ := le64_behind_max heq
    have hl := congrArg List.length heq
    rw [List.length_append, length_le64, List.length_cons] at hl
    refine .inr (.inl ?_)
    rw [hrest]
    refine .name h7 (.inr ?_)
    rw [hw]
    omega

/-- Another length of a name that wraps: whatever the value is, there is no memory for the name. -/
theorem httpHeaders_name_wraps (hd : d.length ≤ ptrdiffMax) (k : Nat)
    (hat : At d pos.toNat (le64 n ++ rest)) (hwrap : 2 ^ 64 ≤ pos.toNat + 8 + n.toNat)
    (hn : n ≠ 0xffffffffffffffff) : Refused (httpHeaders stale room d (k + 1) pos vs) := by
  have hmax : ptrdiffMax = 2 ^ 63 - 1 := rfl
  have hdec := decBytes_eq hd hat (.inr hwrap)
  have hlen := hat.length
  rw [List.length_append, length_le64] at hlen
  have hpos8 : (pos + 8).toNat = pos.toNat + 8 :=
    toNat_add_of_le (k := 8) hd (by rw [show (8 : UInt64).toNat = 8 from rfl]; omega)
  have hnlt := n.toNat_lt
  have hpos₁ : (pos + 8 + n).toNat ≤ d.length := by
    rw [UInt64.toNat_add, hpos8]
    omega
  have hrefused : ∀ r : UInt64 × UInt64 × UInt64, Refused (do
      let vs ← pushBar stale room d vs (pos + 8) n
      let vs ← pushBar stale room d vs r.1 r.2.1
      let vs ← pushApp room vs (.direct 0) 2
      httpHeaders stale room d k r.2.2 vs) := fun r =>
    (pushBar_wrap hd (by omega) (by omega) hn).bind _
  rw [httpHeaders, bind_ok hdec]
  dsimp only
  have hat₁ := At.of_le hpos₁
  rcases decBytes_cases hd hat₁ with hno | ⟨b, more, heq⟩ | ⟨w, more, heq, hwrap'⟩
  · exact hno.bind _
  · rw [heq] at hat₁
    obtain ⟨q, pos₂, hdec', -⟩ := decBytes_ok hd hat₁
    rw [bind_ok hdec']
    exact hrefused _
  · rw [heq] at hat₁
    rw [bind_ok (decBytes_eq hd hat₁ (.inr hwrap'))]
    exact hrefused _

/-- The loop on any data, by the number of headers that are left. -/
theorem httpHeaders_cases (hd : d.length ≤ ptrdiffMax) : ∀ (k : Nat) (pos : UInt64)
    (rest : List UInt8) (vs : List Obj), At d pos.toNat rest →
    HeadersRead stale room d k pos vs rest
  | 0, pos, rest, vs, h => .inr (.inr ⟨[], rest, rfl, rfl, by simp, by simp⟩)
  | k + 1, pos, rest, vs, hat => by
    rcases decBytes_cases hd hat with hno | ⟨name, r₁, rfl⟩ | ⟨n, r₁, rfl, hwrap⟩
    · left
      rw [httpHeaders]
      exact hno.bind _
    · obtain ⟨p, pos₁, hdec, hp, hpos₁⟩ := decBytes_ok hd hat
      rcases decBytes_cases hd hpos₁ with hno | ⟨val, r₂, rfl⟩ | ⟨n, r₂, rfl, hwrap⟩
      · left
        rw [httpHeaders, bind_ok hdec]
        exact hno.bind _
      · exact httpHeaders_header_cases hd hat fun pos' vs' hat' => httpHeaders_cases hd k pos' r₂ vs' hat'
      · exact httpHeaders_value_wraps hd hdec hp hpos₁ hwrap
    · by_cases hn : n = 0xffffffffffffffff
      · subst hn
        exact httpHeaders_name_max hd k hat
      · exact .inl (httpHeaders_name_wraps hd k hat hwrap hn)

end

end Enki.Log
