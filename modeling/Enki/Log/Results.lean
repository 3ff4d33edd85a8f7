import Enki.Log.Http

/-!
# Event log formats: results

The three formats together. `er_http_result_build` is followed from its first byte to
its last, the transfers `er_http_result_encode` writes come back as the values they
stand for, and what is read of a log that somebody else wrote is refused or well
formed, but for the lengths and the status that the HTTP decoder does not check.
-/

namespace Enki.Log

open Bignum NatVal

/-- The fields of a response, in the order they are written. -/
structure Fields where
  tag : UInt8
  status : UInt64
  url : List UInt8
  headers : List (List UInt8 × List UInt8)
  body : List UInt8

/-- The layout of a response. -/
def Fields.bytes (f : Fields) : List UInt8 :=
  f.tag :: (le64 f.status ++ (field f.url ++ (le64 (UInt64.ofNat f.headers.length) ++
    (f.headers.flatMap headerBytes ++ field f.body))))

/-- The body of a response. -/
def Fields.IsBody (f : Fields) (o : Obj) : Prop := if f.tag = 2 then IsBat o f.body else IsBar o f.body

/-- The value of a response. -/
def IsResponse (o : Obj) (f : Fields) : Prop :=
  ∃ url headers body, o = .app (.direct 0) [.app (.direct 0)
    [.nat (.direct f.status), url, headers, body]] ∧
    IsBar url f.url ∧ IsHeaders headers f.headers ∧ f.IsBody body

/-- What the stack and the naturals can hold of a response. -/
structure Fields.Fits (room : Nat) (f : Fields) : Prop where
  url : f.url.length ≤ barMax
  headers : ∀ h ∈ f.headers, h.1.length ≤ barMax ∧ h.2.length ≤ barMax
  stack : 4 ≤ room
  headers_stack : f.headers ≠ [] → f.headers.length + 3 ≤ room
  body : if f.tag = 2 then BatFits room 3 f.body else f.body.length ≤ barMax

/-- The decoder copies from past the end: it meets the largest length where a URL, a name
or a value should be, and nothing before it is refused. -/
def Overreads (room : Nat) (d : List UInt8) : Prop :=
  ∃ (tag : UInt8) (status : UInt64) (rest : List UInt8), tag ≠ 1 ∧ d = tag :: (le64 status ++ rest) ∧
    1 ≤ room ∧ ((∃ more, rest = maxLen ++ more) ∨
      ∃ (url : List UInt8) (nh : UInt64) (more : List UInt8), rest = field url ++ (le64 nh ++ more) ∧
        url.length ≤ barMax ∧ 2 ≤ room ∧ HeadersOverread room d.length 2 nh.toNat more)

/-! ## Well-formed responses -/

theorem IsBar.wf {o : Obj} {b : List UInt8} (h : IsBar o b) : o.WF := by
  obtain ⟨v, rfl, hv, -⟩ := h
  exact .nat hv

theorem IsHeader.wf {o : Obj} {h : List UInt8 × List UInt8} (ho : IsHeader o h) : o.WF := by
  obtain ⟨n, v, rfl, hn, hv⟩ := ho
  refine .row (by simp) (by simp) fun a ha => ?_
  simp only [List.mem_cons, List.not_mem_nil, or_false] at ha
  rcases ha with rfl | rfl
  · exact hn.wf
  · exact hv.wf

theorem IsHeaders.wf {o : Obj} {hs : List (List UInt8 × List UInt8)} (h : IsHeaders o hs)
    (hlen : hs.length + 2 < 2 ^ 32) : o.WF := by
  unfold IsHeaders at h
  split at h
  next => exact h ▸ .nat canonical_zero
  next hne =>
    obtain ⟨rows, rfl, hrows⟩ := h
    have hl := hrows.length_eq
    refine .row (fun h0 => hne ?_) (by omega) fun a ha => ?_
    · rw [h0] at hl
      exact List.length_eq_zero_iff.mp hl.symm
    · obtain ⟨e, he⟩ := exists_of_forall₂ hrows ha
      exact he.wf

/-- A response is well formed if its status is a direct natural. -/
theorem IsResponse.wf_iff {o : Obj} {f : Fields} (h : IsResponse o f)
    (hlen : f.headers.length + 2 < 2 ^ 32) : o.WF ↔ f.status.toNat < 2 ^ 63 := by
  obtain ⟨url, headers, body, rfl, hurl, hheaders, hbody⟩ := h
  constructor
  · intro hwf
    cases hwf with
    | app _ _ _ hargs =>
      cases hargs _ (List.mem_singleton_self _) with
      | app _ _ _ hargs' =>
        cases hargs' (.nat (.direct f.status)) (by simp) with
        | nat hcanon => exact canonical_direct.1 hcanon
  · intro hstatus
    have hbwf : body.WF := by
      unfold Fields.IsBody at hbody
      split at hbody
      · exact hbody.wf
      · exact hbody.wf
    refine .row (by simp) (by simp) fun a ha => ?_
    obtain rfl := List.mem_singleton.mp ha
    refine .row (by simp) (by simp) fun a ha => ?_
    simp only [List.mem_cons, List.not_mem_nil, or_false] at ha
    rcases ha with rfl | rfl | rfl | rfl
    · exact .nat (canonical_direct.2 hstatus)
    · exact hurl.wf
    · exact hheaders.wf hlen
    · exact hbwf

/-! ## The decoder -/

section

variable {stale : Nat → UInt64} {room : Nat} {d : List UInt8}

theorem pushHeaders_ok {vs os : List Obj} {hs : List (List UInt8 × List UInt8)} {nh : UInt64}
    (hos : List.Forall₂ IsHeader os hs) (hnh : nh.toNat = hs.length) (hlen : hs.length < 2 ^ 32)
    (hroom : vs.length < room) :
    ∃ o, pushHeaders room (vs ++ os) nh = .ok (vs ++ [o]) ∧ IsHeaders o hs := by
  have hl := hos.length_eq
  have h0 : (0 : UInt64).toNat = 0 := rfl
  unfold pushHeaders IsHeaders
  by_cases hnil : hs = []
  · subst hnil
    obtain rfl : os = [] := List.length_eq_zero_iff.mp hl
    rw [if_neg (by rw [gt_iff_lt, UInt64.lt_iff_toNat_lt, hnh]; simp), List.append_nil, vpush_ok hroom]
    exact ⟨_, rfl, by simp⟩
  · have hpos := List.length_pos_iff.mpr hnil
    have hk : nh.toUInt32.toNat = os.length := by
      rw [UInt64.toNat_toUInt32, hnh, hl]
      omega
    rw [if_pos (by rw [gt_iff_lt, UInt64.lt_iff_toNat_lt, hnh]; omega),
      pushApp_ok hk (fun h => by rw [h] at hl; simp at hl; omega) hroom]
    refine ⟨_, rfl, ?_⟩
    rw [if_neg hnil]
    exact ⟨os, rfl, hos⟩

theorem pushBody_ok {f : Fields} {vs : List Obj} {rest : List UInt8} {pos : UInt64}
    (hlen : f.body.length < 2 ^ 63) (hat : At d pos.toNat (f.body ++ rest)) (hvs : vs.length = 3)
    (hroom : 4 ≤ room) (hfits : if f.tag = 2 then BatFits room 3 f.body else f.body.length ≤ barMax) :
    ∃ o, pushBody stale room d f.tag vs pos (UInt64.ofNat f.body.length) = .ok (vs ++ [o]) ∧
      f.IsBody o := by
  have hn : (UInt64.ofNat f.body.length).toNat = f.body.length :=
    UInt64.toNat_ofNat_of_lt' (by simp only [UInt64.size]; omega)
  unfold pushBody Fields.IsBody
  split
  next htag =>
    rw [if_pos htag] at hfits
    obtain ⟨t, ht, hbat⟩ := batFromBytes_ok hlen hfits
    exact ⟨t, by rw [hn, bind_ok hat.read, hvs, bind_ok ht, vpush_ok (by omega)], hbat⟩
  next htag =>
    rw [if_neg htag] at hfits
    exact pushBar_ok hat hfits (by omega)

theorem pushBody_full {tag : UInt8} {b rest : List UInt8} {vs : List Obj} {pos : UInt64}
    (hlen : b.length < ptrdiffMax) (hat : At d pos.toNat (b ++ rest)) (hvs : vs.length = 3)
    (hno : ¬ (4 ≤ room ∧ if tag = 2 then BatFits room 3 b else b.length ≤ barMax)) :
    Refused (pushBody stale room d tag vs pos (UInt64.ofNat b.length)) := by
  have hmax : ptrdiffMax = 2 ^ 63 - 1 := rfl
  have hn : (UInt64.ofNat b.length).toNat = b.length :=
    UInt64.toNat_ofNat_of_lt' (by simp only [UInt64.size]; omega)
  unfold pushBody
  split
  next htag =>
    rw [if_pos htag] at hno
    rw [hn, bind_ok hat.read, hvs]
    by_cases hfits : BatFits room 3 b
    · obtain ⟨t, ht, -⟩ := batFromBytes_ok (show b.length < 2 ^ 63 by omega) hfits
      rw [bind_ok ht]
      exact vpush_full (by rw [hvs]; exact fun h => hno ⟨by omega, hfits⟩)
    · exact (batFromBytes_full hfits).bind _
  next htag =>
    rw [if_neg htag] at hno
    exact pushBar_full hat hlen fun h => hno ⟨by omega, h.1⟩

/-- The decoder up to the headers. -/
theorem httpResponse_head {tag : UInt8} {status : UInt64} {url : List UInt8} {nh : UInt64}
    {more : List UInt8} (heq : d = tag :: (le64 status ++ (field url ++ (le64 nh ++ more))))
    (hd : d.length ≤ ptrdiffMax) (hurl : url.length ≤ barMax) (hroom : 2 ≤ room) :
    ∃ (o : Obj) (pos : UInt64), IsBar o url ∧ At d pos.toNat more ∧
      httpResponse stale room d tag = (do
        let (vs, pos) ← httpHeaders stale room d nh.toNat pos [.nat (.direct status), o]
        let vs ← pushHeaders room vs nh
        let (body, bodyN, pos) ← decBytes d pos
        assume (pos = UInt64.ofNat d.length) "er_http: trailing bytes in result encoding"
        let vs ← pushBody stale room d tag vs body bodyN
        let vs ← pushApp room vs (.direct 0) 4
        pushApp room vs (.direct 0) 1) := by
  have h₀ : At d 0 ([tag] ++ (le64 status ++ (field url ++ (le64 nh ++ more)))) := heq ▸ At.start _
  have h₁ : At d (1 : UInt64).toNat _ := h₀.skip
  obtain ⟨hstatus, h₂⟩ := decU64_ok hd h₁
  obtain ⟨p, pos₃, hdec, hpurl, h₃⟩ := decBytes_ok hd h₂
  obtain ⟨o, hpush, hbar⟩ := @pushBar_ok stale room _ _ _ _ [.nat (.direct status)] hpurl hurl
    (by simp; omega)
  obtain ⟨hcnt, h₄⟩ := decU64_ok hd h₃
  refine ⟨o, _, hbar, h₄, ?_⟩
  unfold httpResponse
  rw [bind_ok hstatus]
  dsimp only
  rw [bind_ok hdec]
  dsimp only
  rw [bind_ok (vpush_ok (by simp; omega)), List.nil_append, bind_ok hpush, bind_ok hcnt]
  rfl

/-- The outcome of a response is the outcome of the whole. -/
theorem httpResultBuild_eq {tag : UInt8} {rest : List UInt8} (htag : tag ≠ 1) :
    httpResultBuild stale room (tag :: rest) = (do
      let vs ← httpResponse stale room (tag :: rest) tag
      return vs.getLast?.getD (.nat (.direct 0))) := by
  have hbyte : byteAt (tag :: rest) 0 = .ok tag := (At.start (tag :: rest)).byte
  have h1 : decide ((tag :: rest).length ≥ 1) = true := decide_eq_true (by simp)
  unfold httpResultBuild
  rw [assume_true h1, bind_ok hbyte]
  unfold httpResult
  rw [if_neg htag]

/-- The layout of a response that fits is decoded. -/
theorem httpResultBuild_ok {f : Fields} (hd : f.bytes.length ≤ ptrdiffMax) (hmax : room ≤ 2 ^ 31)
    (htag : f.tag ≠ 1) (hfits : f.Fits room) :
    ∃ o, httpResultBuild stale room f.bytes = .ok o ∧ IsResponse o f := by
  obtain ⟨hurl, hheaders, hstack, hhstack, hbody⟩ := hfits
  have hp : ptrdiffMax = 2 ^ 63 - 1 := rfl
  have hcount : f.headers.length < 2 ^ 31 := by
    by_cases hnil : f.headers = []
    · simp [hnil]
    · have := hhstack hnil
      omega
  have hblen : f.body.length < 2 ^ 63 := by
    have : f.body.length ≤ f.bytes.length := by
      simp only [Fields.bytes, List.length_cons, List.length_append, length_field]
      omega
    omega
  have hnh : (UInt64.ofNat f.headers.length).toNat = f.headers.length :=
    UInt64.toNat_ofNat_of_lt' (by simp only [UInt64.size]; omega)
  obtain ⟨url, pos₄, hisurl, h₄, hhead⟩ := @httpResponse_head stale room f.bytes _ _ _ _ _ rfl hd
    hurl (by omega)
  obtain ⟨os, pos₅, hos, h₅, hrun⟩ := @httpHeaders_ok stale room _ hd f.headers _ _
    [.nat (.direct f.status), url] h₄ hheaders (fun h => by have := hhstack h; simp; omega)
  obtain ⟨headers, hpushH, hisH⟩ := @pushHeaders_ok room [.nat (.direct f.status), url] _ _ _ hos
    hnh (by omega) (by simp; omega)
  have h₅' : At f.bytes pos₅.toNat (field f.body ++ []) := by simpa using h₅
  obtain ⟨q, pos₆, hdecB, hqbody, h₆⟩ := decBytes_ok hd h₅'
  have hend : pos₆ = UInt64.ofNat f.bytes.length := by
    apply UInt64.toNat_inj.mp
    have := h₆.length
    rw [toNat_ofNat_length hd]
    simpa using this
  obtain ⟨body, hpushB, hisB⟩ := @pushBody_ok stale room _ _
    [.nat (.direct f.status), url, headers] _ _ hblen hqbody rfl hstack hbody
  refine ⟨_, ?_, url, headers, body, rfl, hisurl, hisH, hisB⟩
  have hfour : pushApp room ([] ++ [.nat (.direct f.status), url, headers, body]) (.direct 0) 4 =
      .ok ([] ++ [.app (.direct 0) [.nat (.direct f.status), url, headers, body]]) :=
    pushApp_ok rfl (by simp) (by simp; omega)
  have hone : pushApp room ([] ++ [.app (.direct 0) [.nat (.direct f.status), url, headers, body]])
      (.direct 0) 1 = .ok ([] ++ [.app (.direct 0) [.app (.direct 0)
        [.nat (.direct f.status), url, headers, body]]]) :=
    pushApp_ok rfl (by simp) (by simp; omega)
  have hresponse : httpResponse stale room f.bytes f.tag = .ok ([] ++ [.app (.direct 0)
      [.app (.direct 0) [.nat (.direct f.status), url, headers, body]]]) := by
    rw [hhead, hnh, bind_ok hrun]
    dsimp only
    rw [bind_ok hpushH]
    refine (bind_ok hdecB).trans ?_
    dsimp only
    rw [assume_true (decide_eq_true hend)]
    exact ((bind_ok hpushB).trans (bind_ok hfour)).trans hone
  have hbuild := @httpResultBuild_eq stale room _ f.bytes.tail htag
  exact hbuild.trans (bind_ok hresponse)

/-- An error is decoded. -/
theorem httpResultBuild_error {code : UInt8} (hroom : 1 ≤ room) :
    httpResultBuild stale room [1, code] = .ok (.app (.direct 1) [.nat (.direct code.toUInt64)]) := by
  have hcode : byteAt [1, code] 1 = .ok code := rfl
  have happ : pushApp room ([] ++ [Obj.nat (.direct code.toUInt64)]) (.direct 1) 1 =
      .ok ([] ++ [.app (.direct 1) [.nat (.direct code.toUInt64)]]) :=
    pushApp_ok rfl (by simp) (by simp; omega)
  have hresult : httpResult stale room [1, code] 1 =
      .ok [.app (.direct 1) [.nat (.direct code.toUInt64)]] := by
    unfold httpResult
    rw [if_pos rfl]
    unfold httpError
    rw [assume_true (decide_eq_true (by simp)), bind_ok hcode, bind_ok (vpush_ok (by simp; omega))]
    exact happ
  have hbyte : byteAt [1, code] 0 = .ok 1 := rfl
  unfold httpResultBuild
  rw [assume_true (decide_eq_true (by simp)), bind_ok hbyte, bind_ok hresult]
  rfl

/-- The decoder copies from past the end. -/
theorem httpResultBuild_overread (hd : d.length ≤ ptrdiffMax) (h : Overreads room d) :
    httpResultBuild stale room d = .error (.misuse "read") := by
  obtain ⟨tag, status, rest, htag, heq, hroom, hrest⟩ := h
  have hover : httpResponse stale room d tag = .error (.misuse "read") := by
    rcases hrest with ⟨more, rfl⟩ | ⟨url, nh, more, rfl, hurl, hroom2, hover⟩
    · have h₀ : At d 0 ([tag] ++ (le64 status ++ (maxLen ++ more))) := heq ▸ At.start _
      have h₁ : At d (1 : UInt64).toNat _ := h₀.skip
      obtain ⟨hstatus, h₂⟩ := decU64_ok hd h₁
      have hdec := decBytes_eq (n := 0xffffffffffffffff) hd h₂
        (.inr (by rw [toNat_maxLen]; omega))
      unfold httpResponse
      rw [bind_ok hstatus]
      dsimp only
      rw [bind_ok hdec]
      dsimp only
      rw [bind_ok (vpush_ok (by simp; omega))]
      exact bind_misuse (pushBar_max hd)
    · obtain ⟨o, pos, -, hat, hrun⟩ := httpResponse_head heq hd hurl hroom2
      rw [hrun]
      exact bind_misuse (httpHeaders_overread hd hover pos _ rfl hat)
  subst heq
  rw [httpResultBuild_eq htag]
  exact bind_misuse hover

/-- The error form. -/
theorem httpResultBuild_error_cases {rest : List UInt8} :
    Refused (httpResultBuild stale room (1 :: rest)) ∨ (∃ code, rest = [code]) ∧ 1 ≤ room := by
  have hbyte : byteAt (1 :: rest) 0 = .ok 1 := (At.start (1 :: rest)).byte
  have h1 : decide ((1 :: rest).length ≥ 1) = true := decide_eq_true (by simp)
  by_cases hlen : (1 :: rest).length = 2
  · obtain ⟨code, rfl⟩ : ∃ code, rest = [code] := List.length_eq_one_iff.mp (by simpa using hlen)
    by_cases hroom : 1 ≤ room
    · exact .inr ⟨⟨code, rfl⟩, hroom⟩
    · left
      have hcode : byteAt [1, code] 1 = .ok code := rfl
      unfold httpResultBuild
      rw [assume_true h1, bind_ok hbyte]
      unfold httpResult httpError
      rw [if_pos rfl, assume_true (decide_eq_true hlen), bind_ok hcode]
      exact ((vpush_full (by simp; omega)).bind _).bind _
  · left
    unfold httpResultBuild
    rw [assume_true h1, bind_ok hbyte]
    unfold httpResult httpError
    rw [if_pos rfl]
    exact (assume_false (decide_eq_false hlen)).bind _

/-- The length of the URL wraps. -/
theorem httpResponse_url_wraps (hd : d.length ≤ ptrdiffMax) {tag : UInt8} {status n : UInt64}
    {more : List UInt8} (htag : tag ≠ 1) (heq : d = tag :: (le64 status ++ (le64 n ++ more)))
    (hwrap : 2 ^ 64 ≤ (1 + 8 : UInt64).toNat + 8 + n.toNat) :
    Refused (httpResponse stale room d tag) ∨ Overreads room d := by
  have hp : ptrdiffMax = 2 ^ 63 - 1 := rfl
  have h₀ : At d 0 ([tag] ++ (le64 status ++ (le64 n ++ more))) := heq ▸ At.start _
  have h₁ : At d (1 : UInt64).toNat _ := h₀.skip
  obtain ⟨hstatus, h₂⟩ := decU64_ok hd h₁
  have hdec := decBytes_eq hd h₂ (.inr hwrap)
  have hlen := h₂.length
  rw [List.length_append, length_le64] at hlen
  by_cases hroom : 1 ≤ room
  swap
  · left
    unfold httpResponse
    rw [bind_ok hstatus]
    dsimp only
    rw [bind_ok hdec]
    exact (vpush_full (by simp; omega)).bind _
  by_cases hn : n = 0xffffffffffffffff
  · subst hn
    exact .inr ⟨tag, status, _, htag, heq, hroom, .inl ⟨more, rfl⟩⟩
  · have hpos : (1 + 8 + 8 : UInt64).toNat = (1 + 8 : UInt64).toNat + 8 := rfl
    left
    unfold httpResponse
    rw [bind_ok hstatus]
    dsimp only
    rw [bind_ok hdec]
    dsimp only
    rw [bind_ok (vpush_ok (by simp; omega))]
    exact (pushBar_wrap hd (by omega) (by omega) hn).bind _

/-- Status and URL are there: the URL fits and the number of headers follows. -/
theorem httpResponse_url_cases (hd : d.length ≤ ptrdiffMax) {tag : UInt8} {status : UInt64}
    {url more : List UInt8} (heq : d = tag :: (le64 status ++ (field url ++ more))) :
    Refused (httpResponse stale room d tag) ∨
      url.length ≤ barMax ∧ 2 ≤ room ∧ ∃ nh more', more = le64 nh ++ more' := by
  have hp : ptrdiffMax = 2 ^ 63 - 1 := rfl
  have h₀ : At d 0 ([tag] ++ (le64 status ++ (field url ++ more))) := heq ▸ At.start _
  have h₁ : At d (1 : UInt64).toNat _ := h₀.skip
  obtain ⟨hstatus, h₂⟩ := decU64_ok hd h₁
  obtain ⟨p, pos₃, hdec, hpurl, h₃⟩ := decBytes_ok hd h₂
  have hlen := h₂.length
  rw [List.length_append, length_field] at hlen
  by_cases hroom : 1 ≤ room
  swap
  · left
    unfold httpResponse
    rw [bind_ok hstatus]
    dsimp only
    rw [bind_ok hdec]
    exact (vpush_full (by simp; omega)).bind _
  by_cases hurl : url.length ≤ barMax ∧ ([] ++ [Obj.nat (.direct status)]).length < room
  swap
  · left
    unfold httpResponse
    rw [bind_ok hstatus]
    dsimp only
    rw [bind_ok hdec]
    dsimp only
    rw [bind_ok (vpush_ok (by simp; omega))]
    exact (pushBar_full hpurl (by omega) hurl).bind _
  obtain ⟨o, hpush, -⟩ := @pushBar_ok stale room _ _ _ _ ([] ++ [Obj.nat (.direct status)]) hpurl
    hurl.1 hurl.2
  by_cases h8 : 8 ≤ more.length
  · exact .inr ⟨hurl.1, hurl.2, _, _, eq_le64 h8⟩
  · left
    unfold httpResponse
    rw [bind_ok hstatus]
    dsimp only
    rw [bind_ok hdec]
    dsimp only
    rw [bind_ok (vpush_ok (by simp; omega)), bind_ok hpush]
    exact (decU64_short hd h₃ (by omega)).bind _

/-- With no headers and no room the empty row is not pushed. -/
theorem pushHeaders_full {vs : List Obj} {nh : UInt64} (hnh : nh.toNat = 0) (h : ¬ vs.length < room) :
    Refused (pushHeaders room vs nh) := by
  unfold pushHeaders
  rw [if_neg (by rw [gt_iff_lt, UInt64.lt_iff_toNat_lt, hnh]; simp)]
  exact vpush_full h

/-- What follows the headers: the body fits and ends where the data ends. -/
theorem httpResponse_body_cases (hd : d.length ≤ ptrdiffMax) {tag : UInt8} {vs : List Obj}
    {pos : UInt64} {rest : List UInt8} (hvs : vs.length = 3) (hat : At d pos.toNat rest) :
    Refused (do
      let (body, bodyN, pos) ← decBytes d pos
      assume (pos = UInt64.ofNat d.length) "er_http: trailing bytes in result encoding"
      let vs ← pushBody stale room d tag vs body bodyN
      let vs ← pushApp room vs (.direct 0) 4
      pushApp room vs (.direct 0) 1) ∨
    ∃ body, rest = field body ∧ 4 ≤ room ∧
      if tag = 2 then BatFits room 3 body else body.length ≤ barMax := by
  have hp : ptrdiffMax = 2 ^ 63 - 1 := rfl
  have hlen := hat.length
  rcases decBytes_cases hd hat with hno | ⟨body, more, rfl⟩ | ⟨n, more, rfl, hwrap⟩
  · exact .inl (hno.bind _)
  · obtain ⟨q, pos', hdec, hqbody, hat'⟩ := decBytes_ok hd hat
    rw [List.length_append, length_field] at hlen
    by_cases hend : pos' = UInt64.ofNat d.length
    swap
    · left
      rw [bind_ok hdec]
      exact assume_false (decide_eq_false hend)
    have hnil : more = [] := by
      have := hat'.length
      rw [hend, toNat_ofNat_length hd] at this
      exact List.length_eq_zero_iff.mp (by omega)
    subst hnil
    by_cases hbody : 4 ≤ room ∧ if tag = 2 then BatFits room 3 body else body.length ≤ barMax
    · exact .inr ⟨body, List.append_nil _, hbody⟩
    · left
      rw [bind_ok hdec]
      dsimp only
      rw [assume_true (decide_eq_true hend)]
      exact (pushBody_full (by omega) hqbody hvs hbody).bind _
  · -- A length that wraps does not end at the end.
    have hdec := decBytes_eq hd hat (.inr hwrap)
    rw [List.length_append, length_le64] at hlen
    left
    rw [bind_ok hdec]
    refine assume_false (decide_eq_false fun hend => ?_)
    have h8n : (8 : UInt64).toNat = 8 := rfl
    have hpos : (pos + 8).toNat = pos.toNat + 8 := toNat_add_of_le (k := 8) hd (by omega)
    have hnlt := n.toNat_lt
    have := congrArg UInt64.toNat hend
    rw [UInt64.toNat_add, hpos, toNat_ofNat_length hd] at this
    omega

/-- The headers, and the body behind them. -/
theorem httpResponse_headers_cases (hd : d.length ≤ ptrdiffMax) (hmax : room ≤ 2 ^ 31) {tag : UInt8}
    {status nh : UInt64} {url more : List UInt8} (htag : tag ≠ 1)
    (heq : d = tag :: (le64 status ++ (field url ++ (le64 nh ++ more)))) (hurl : url.length ≤ barMax)
    (hroom : 2 ≤ room) :
    Refused (httpResponse stale room d tag) ∨ Overreads room d ∨
      ∃ f : Fields, d = f.bytes ∧ f.tag = tag ∧ f.Fits room := by
  obtain ⟨o, pos, -, hat, hhead⟩ := @httpResponse_head stale room _ _ _ _ _ _ heq hd hurl hroom
  rw [hhead]
  rcases @httpHeaders_cases stale room _ hd nh.toNat pos more [.nat (.direct status), o] hat with
    hno | hover | ⟨hs, rest, rfl, hk, hall, hstack⟩
  · exact .inl (hno.bind _)
  · exact .inr (.inl ⟨tag, status, _, htag, heq, by omega,
      .inr ⟨url, nh, more, rfl, hurl, hroom, hover⟩⟩)
  obtain ⟨os, pos', hos, hat', hrun⟩ := @httpHeaders_ok stale room _ hd hs pos rest _ hat hall hstack
  rw [hk] at hrun
  have hstack' : hs ≠ [] → hs.length + 3 ≤ room := fun hne => by
    have := hstack hne
    simp only [List.length_cons, List.length_nil] at this
    omega
  rw [bind_ok hrun]
  dsimp only
  by_cases hroom3 : 3 ≤ room
  swap
  · -- There is no room for the headers' row, and so there are none.
    have hnil : hs = [] := by
      by_contra hne
      have := hstack' hne
      omega
    subst hnil
    obtain rfl : os = [] := List.length_eq_zero_iff.mp hos.length_eq
    exact .inl ((pushHeaders_full hk.symm (by simp; omega)).bind _)
  have hcount : hs.length < 2 ^ 32 := by
    by_cases hnil : hs = []
    · simp [hnil]
    · have := hstack' hnil
      omega
  obtain ⟨hrow, hpush, -⟩ := @pushHeaders_ok room [.nat (.direct status), o] _ _ _ hos hk.symm
    hcount hroom3
  rw [bind_ok hpush]
  rcases @httpResponse_body_cases stale room d hd tag ([.nat (.direct status), o] ++ [hrow]) pos' rest
    rfl hat' with hno | ⟨body, rfl, hroom4, hbody⟩
  · exact .inl hno
  · have hnh : UInt64.ofNat hs.length = nh := by rw [hk, UInt64.ofNat_toNat]
    refine .inr (.inr ⟨⟨tag, status, url, hs, body⟩, ?_, rfl, hurl, hall, hroom4, hstack', hbody⟩)
    rw [heq, Fields.bytes, hnh]

/-- The response form, field by field. -/
theorem httpResponse_cases (hd : d.length ≤ ptrdiffMax) (hmax : room ≤ 2 ^ 31) {tag : UInt8}
    {rest : List UInt8} (htag : tag ≠ 1) (heq : d = tag :: rest) :
    Refused (httpResponse stale room d tag) ∨ Overreads room d ∨
      ∃ f : Fields, d = f.bytes ∧ f.tag = tag ∧ f.Fits room := by
  have h₀ : At d 0 ([tag] ++ rest) := heq ▸ At.start _
  have h₁ : At d (1 : UInt64).toNat rest := h₀.skip
  by_cases h8 : 8 ≤ rest.length
  swap
  · exact .inl ((decU64_short hd h₁ (by omega)).bind _)
  rw [eq_le64 h8] at h₁ heq
  obtain ⟨hstatus, h₂⟩ := decU64_ok hd h₁
  rcases decBytes_cases hd h₂ with hno | ⟨url, more, hmore⟩ | ⟨n, more, hmore, hwrap⟩
  · left
    unfold httpResponse
    rw [bind_ok hstatus]
    exact hno.bind _
  · rw [hmore] at heq
    rcases @httpResponse_url_cases stale room d hd _ _ _ _ heq with
      hno | ⟨hurl, hroom, nh, more', rfl⟩
    · exact .inl hno
    · exact httpResponse_headers_cases hd hmax htag heq hurl hroom
  · rw [hmore] at heq
    rcases @httpResponse_url_wraps stale room d hd _ _ _ _ htag heq hwrap with hno | hover
    · exact .inl hno
    · exact .inr (.inl hover)

/-- Any data is refused, copied from past its end, an error, or a response that fits. -/
theorem httpResultBuild_cases (hd : d.length ≤ ptrdiffMax) (hmax : room ≤ 2 ^ 31) :
    Refused (httpResultBuild stale room d) ∨ Overreads room d ∨
    (∃ code, d = [1, code] ∧ 1 ≤ room) ∨ ∃ f : Fields, d = f.bytes ∧ f.tag ≠ 1 ∧ f.Fits room := by
  cases hcons : d with
  | nil => exact .inl (assume_false rfl)
  | cons tag rest =>
    by_cases htag : tag = 1
    · subst htag
      rcases @httpResultBuild_error_cases stale room rest with hno | ⟨⟨code, rfl⟩, hroom⟩
      · exact .inl hno
      · exact .inr (.inr (.inl ⟨code, rfl, hroom⟩))
    · rw [← hcons]
      rcases @httpResponse_cases stale room d hd hmax _ _ htag hcons with
        hno | hover | ⟨f, hf, rfl, hfits⟩
      · left
        rw [hcons] at hno ⊢
        rw [httpResultBuild_eq htag]
        exact hno.bind _
      · exact .inr (.inl hover)
      · exact .inr (.inr (.inr ⟨f, hf, htag, hfits⟩))

end

/-! ## The formats as a whole -/

/-- The same for an HTTP result. -/
def HttpSafe (stale : Nat → UInt64) (room : Nat) (d : List UInt8) : Prop :=
  Refused (httpResultBuild stale room d) ∨
  ∃ o, httpResultBuild stale room d = .ok o ∧ o.WF ∧
    ((∃ code, d = [1, code] ∧ o = .app (.direct 1) [.nat (.direct code.toUInt64)]) ∨
      ∃ f : Fields, d = f.bytes ∧ IsResponse o f)

/-- A response whose status is no direct natural. -/
def BigStatus (room : Nat) (d : List UInt8) : Prop :=
  ∃ f : Fields, d = f.bytes ∧ f.tag ≠ 1 ∧ f.Fits room ∧ 2 ^ 63 ≤ f.status.toNat

section

variable {stale : Nat → UInt64} {room : Nat} {d : List UInt8}

theorem Fields.Fits.count {f : Fields} (h : f.Fits room) (hmax : room ≤ 2 ^ 31) :
    f.headers.length + 2 < 2 ^ 32 := by
  by_cases hnil : f.headers = []
  · simp [hnil]
  · have := h.headers_stack hnil
    omega

theorem errorValue_wf (code : UInt8) : (Obj.app (.direct 1) [.nat (.direct code.toUInt64)]).WF := by
  have hcode := code.toNat_lt
  refine .app (canonical_direct.2 (by decide)) (by simp) (by simp) fun a ha => ?_
  obtain rfl := List.mem_singleton.mp ha
  exact .nat (canonical_direct.2 (by rw [UInt8.toNat_toUInt64]; omega))

theorem httpSafe_iff (hd : d.length ≤ ptrdiffMax) (hmax : room ≤ 2 ^ 31) :
    HttpSafe stale room d ↔ ¬ Overreads room d ∧ ¬ BigStatus room d := by
  constructor
  · intro hsafe
    refine ⟨fun hover => ?_, ?_⟩
    · have hrun : httpResultBuild stale room d = _ := httpResultBuild_overread hd hover
      rcases hsafe with hno | ⟨o, hok, -⟩
      · exact hno.not_misuse hrun
      · rw [hrun] at hok
        cases hok
    · rintro ⟨f, rfl, htag, hfits, hbig⟩
      have hok : ∃ o, httpResultBuild stale room _ = .ok o ∧ _ :=
        httpResultBuild_ok hd hmax htag hfits
      obtain ⟨o, hrun, ho⟩ := hok
      rcases hsafe with hno | ⟨o', hok, hwf, -⟩
      · exact hno.not_ok hrun
      · obtain rfl : o = o' := Except.ok.inj (hrun.symm.trans hok)
        exact absurd ((ho.wf_iff (hfits.count hmax)).mp hwf) (by omega)
  · rintro ⟨hover, hbig⟩
    rcases httpResultBuild_cases hd hmax with
      hno | hno | ⟨code, rfl, hroom⟩ | ⟨f, rfl, htag, hfits⟩
    · exact .inl hno
    · exact absurd hno hover
    · exact .inr ⟨_, httpResultBuild_error hroom, errorValue_wf code, .inl ⟨code, rfl, rfl⟩⟩
    · have hok : ∃ o, httpResultBuild stale room _ = .ok o ∧ _ :=
        httpResultBuild_ok hd hmax htag hfits
      obtain ⟨o, hrun, ho⟩ := hok
      refine .inr ⟨o, hrun, (ho.wf_iff (hfits.count hmax)).mpr ?_, .inr ⟨f, rfl, ho⟩⟩
      by_contra hge
      exact hbig ⟨f, rfl, htag, hfits, by omega⟩

end

/-- A finished transfer. The status of a response is a `long` that is not negative; a body
that becomes a natural was cut off at `PL_HDR_META_MAX * 8 - 1` bytes; libcurl takes no
URL and no header that would be longer. The encoding is a buffer, and the stack has
room for the value. -/
structure Finished (room : Nat) extends Xfer where
  status_lt : respStatus.toNat < 2 ^ 63
  url_le : (effectiveUrl.getD []).length ≤ barMax
  headers_le : ∀ h ∈ respHeaders, h.1.length ≤ barMax ∧ h.2.length ≤ barMax
  body_fits : if bat then BatFits room 3 respBody else respBody.length ≤ barMax
  stack : respHeaders.length + 4 ≤ room
  buffer : (httpResultEncode toXfer).length ≤ ptrdiffMax

/-- The fields of a transfer's response. -/
def Xfer.fields (x : Xfer) : Fields :=
  ⟨if x.bat then 2 else 0, x.respStatus, x.effectiveUrl.getD [], x.respHeaders, x.respBody⟩

/-- The value of a transfer: its error code, or its response. -/
def IsResult (o : Obj) (x : Xfer) : Prop :=
  if x.result = .ok then IsResponse o x.fields
  else o = .app (.direct 1) [.nat (.direct (httpMapErr x).toUInt64)]

theorem httpResultEncode_ok {x : Xfer} (h : x.result = .ok) : httpResultEncode x = x.fields.bytes := by
  simp [httpResultEncode, h, Xfer.fields, Fields.bytes]

theorem http_round_trip {stale : Nat → UInt64} {room : Nat} (x : Finished room) (hmax : room ≤ 2 ^ 31) :
    ∃ o, httpResultBuild stale room (httpResultEncode x.toXfer) = .ok o ∧ IsResult o x.toXfer := by
  have hstack := x.stack
  by_cases hok : x.result = .ok
  · have hbuf := x.buffer
    rw [httpResultEncode_ok hok] at hbuf
    have hfits : x.toXfer.fields.Fits room := by
      refine ⟨x.url_le, x.headers_le, by omega, fun _ => ?_, ?_⟩
      · show x.respHeaders.length + 3 ≤ room
        omega
      · have hbody := x.body_fits
        cases hbat : x.bat <;> simpa [Xfer.fields, hbat] using hbody
    have htag : x.toXfer.fields.tag ≠ 1 := by
      cases hbat : x.bat <;> simp [Xfer.fields, hbat]
    have hbuild : ∃ o, httpResultBuild stale room _ = .ok o ∧ _ :=
      httpResultBuild_ok hbuf hmax htag hfits
    obtain ⟨o, hrun, ho⟩ := hbuild
    refine ⟨o, by rw [httpResultEncode_ok hok]; exact hrun, ?_⟩
    rw [IsResult, if_pos hok]
    exact ho
  · refine ⟨.app (.direct 1) [.nat (.direct (httpMapErr x.toXfer).toUInt64)], ?_, ?_⟩
    · rw [httpResultEncode, if_pos hok]
      exact httpResultBuild_error (by omega)
    · rw [IsResult, if_neg hok]

/-- What a finished transfer is written as reads back safely. -/
theorem Finished.safe {room : Nat} (x : Finished room) (hmax : room ≤ 2 ^ 31) :
    ¬ Overreads room (httpResultEncode x.toXfer) ∧ ¬ BigStatus room (httpResultEncode x.toXfer) := by
  suffices hsafe : HttpSafe (fun _ => 0) room (httpResultEncode x.toXfer) from
    (httpSafe_iff x.buffer hmax).1 hsafe
  obtain ⟨o, hrun, ho⟩ := @http_round_trip (fun _ => 0) room x hmax
  refine .inr ⟨o, hrun, ?_⟩
  unfold IsResult at ho
  split at ho
  next hok =>
    have hcount : x.fields.headers.length + 2 < 2 ^ 32 := by
      have := x.stack
      show x.respHeaders.length + 2 < 2 ^ 32
      omega
    exact ⟨(ho.wf_iff hcount).2 x.status_lt, .inr ⟨x.fields, httpResultEncode_ok hok, ho⟩⟩
  next hfail =>
    subst ho
    exact ⟨errorValue_wf _, .inl ⟨_, if_pos hfail, rfl⟩⟩

/-- A folder with the folder `a` and the file `b`. -/
def listed : List Item :=
  [⟨true, .direct 0x61, canonical_direct.2 (by decide)⟩,
    ⟨false, .direct 0x62, canonical_direct.2 (by decide)⟩]

end Enki.Log
