import Enki.Bat.Reading

/-!
# Replay sites

What a replayed run compares with its log to see that an effect asks for the same as when the
log was recorded: `er_http_args_hash` of a parsed Fetch request in `http.c`, and `er_vals_hash`
of the arguments of a direct effect in `actor.c`. Both feed bytes to SHA-256 field by field.
Different requests feed different bytes, so that hashes agree on them only by a collision.
-/

namespace Enki.Sites

open LittleEndian Silo Bat

/-! ## Requests -/

/-- `er_bar` -/
def erBar : Val → Option (List UInt8)
  | .nat n =>
    let b := bytes (byteLen n) n
    if b.getLast? = some 1 then some b.dropLast else none
  | _ => none

/-- `er_row` -/
def erRow : Val → Option (List Val)
  | .app _ (.nat 0) args => some args
  | _ => none

/-- `er_http_hdr` -/
structure Header where
  name : List UInt8
  value : List UInt8
  deriving DecidableEq

/-- Where the body of a request comes from: `body`, or `bat` if `body_bat`. -/
inductive Source where
  | bar (b : List UInt8)
  | bat (c : Cursor)

/-- `er_http_parsed`; an optional field stands for its `has_` flag, too. -/
structure Parsed where
  method : List UInt8
  url : List UInt8
  hdrs : List Header
  body : Option Source
  connectMs : Option Nat
  deadlineMs : Nat
  redirects : Nat
  bodyMode : Nat
  maxBody : Nat

/-- `pl_nat_u64_clamp` -/
def u64Clamp (n : Nat) : Nat := min n uint64Max

/-- A natural, clamped. -/
def clamped : Val → Option Nat
  | .nat n => some (u64Clamp n)
  | _ => none

def parseHeader (v : Val) : Option Header :=
  match erRow v with
  | some [name, value] => do return ⟨← erBar name, ← erBar value⟩
  | _ => none

/-- The loop over the headers. -/
def headerLoop : List Val → Option (List Header)
  | [] => some []
  | v :: vs => do return (← parseHeader v) :: (← headerLoop vs)

/-- The headers: 0 is none. -/
def parseHeaders (v : Val) : Option (List Header) :=
  if v = .nat 0 then some [] else (erRow v).bind headerLoop

/-- A body that is no natural: a tree of at most `INT64_MAX` bytes. -/
def parseTree (v : Val) : Option Source :=
  (batOpen v).bind fun c => if c.length > 2 ^ 63 - 1 then none else some (.bat c)

def parseSource : Val → Option Source
  | .nat n => (erBar (.nat n)).map .bar
  | v => parseTree v

/-- The body, if there is one. -/
def parseBody (v : Val) : Option (Option Source) :=
  if v = .nat 0 then some none
  else
    match erRow v with
    | some [body] => (parseSource body).map some
    | _ => none

def parseConnect (v : Val) : Option (Option Nat) :=
  if v = .nat 0 then some none
  else
    match erRow v with
    | some [ms] => (clamped ms).map some
    | _ => none

/-- `body_mode` and `max_body`. -/
def parseMode (v : Val) : Option (Nat × Nat) :=
  -- spooled; `max_body` keeps the zero it was cleared to
  if v = .nat 1 then some (1, 0)
  else
    match erRow v with
    | some [max] => (clamped max).map (0, ·)
    | some [t, max] => if t = tag "bat" then (clamped max).map (2, ·) else none
    | _ => none

/-- `er_http_parse` -/
def httpParse (req cfg : Val) : Option Parsed :=
  match erRow req, erRow cfg with
  | some [method, url, hdrs, body], some [connect, deadline, redirects, mode] => do
    let method ← erBar method
    let url ← erBar url
    let hdrs ← parseHeaders hdrs
    let body ← parseBody body
    let connectMs ← parseConnect connect
    let deadlineMs ← clamped deadline
    let redirects ← clamped redirects
    let (bodyMode, maxBody) ← parseMode mode
    return { method, url, hdrs, body, connectMs, deadlineMs, redirects, bodyMode, maxBody }
  | _, _ => none

/-! ## What is fed to the hash -/

/-- `er_digest_u64` -/
def digestU64 (n : Nat) : List UInt8 := bytes 8 n

/-- `er_digest_bytes` -/
def digestBytes (b : List UInt8) : List UInt8 := digestU64 b.length ++ b

/-- The loop that feeds a tree, in pieces. -/
def feedLoop : Nat → Cursor → List UInt8
  | 0, _ => []
  | fuel + 1, c =>
    let (c, x) := read c 65536
    if x.length = 0 then [] else x ++ feedLoop fuel c

def digestHeader (h : Header) : List UInt8 := digestBytes h.name ++ digestBytes h.value

def digestSource : Source → List UInt8
  | .bar b => digestBytes b
  -- the answer of the seek is not looked at
  | .bat c => digestU64 c.length ++ feedLoop (c.length + 1) ((seek c 0).getD c)

def digestBody : Option Source → List UInt8
  | none => digestU64 0
  | some s => digestU64 1 ++ digestSource s

def digestConnect : Option Nat → List UInt8
  -- without a timeout `connect_ms` is still fed, as the zero it was cleared to
  | none => digestU64 0 ++ digestU64 0
  | some ms => digestU64 1 ++ digestU64 ms

/-- What `er_http_args_hash` feeds. -/
def argsBytes (p : Parsed) : List UInt8 :=
  digestBytes p.method ++ (digestBytes p.url ++ (digestU64 p.hdrs.length ++
    (p.hdrs.flatMap digestHeader ++ (digestBody p.body ++ (digestConnect p.connectMs ++
      (digestU64 p.deadlineMs ++ (digestU64 p.redirects ++ (digestU64 p.bodyMode ++
        digestU64 p.maxBody))))))))

/-- What `er_vals_hash` feeds for one argument. -/
def valBytes : Val → List UInt8
  | .nat n => 'n'.toUInt8 :: (bytes 8 (byteLen n) ++ bytes (byteLen n) n)
  | _ => ['x'.toUInt8]

/-- What `er_vals_hash` feeds. -/
def valsBytes (args : List Val) : List UInt8 := args.flatMap valBytes

/-! ## What is asked for -/

/-- The bytes of a body. -/
def Source.bytes : Source → List UInt8
  | .bar b => b
  | .bat c => allBytes c.spans

/-- A request, however its body is given. -/
structure Asked where
  method : List UInt8
  url : List UInt8
  hdrs : List Header
  body : Option (List UInt8)
  connectMs : Option Nat
  deadlineMs : Nat
  redirects : Nat
  bodyMode : Nat
  maxBody : Nat
  deriving DecidableEq

def Parsed.asked (p : Parsed) : Asked :=
  { p with body := p.body.map Source.bytes }

/-- What is recorded of an argument: a natural, or that it is none. -/
def recorded : Val → Option Nat
  | .nat n => some n
  | _ => none

/-- Two inputs of a hash that it does not tell apart. -/
def Collides {δ : Type} (sha256 : List UInt8 → δ) (a b : List UInt8) : Prop :=
  a ≠ b ∧ sha256 a = sha256 b

mutual

/-- What fits in a memory of 64-bit words: a natural has fewer than `2 ^ 64` bytes and a row
fewer than `2 ^ 64` fields. -/
def Fits : Val → Prop
  | .nat n => byteLen n < 2 ^ 64
  | .pin _ body => Fits body
  | .law _ name body => Fits name ∧ Fits body
  | .app _ head args => Fits head ∧ args.length < 2 ^ 64 ∧ FitsAll args

def FitsAll : List Val → Prop
  | [] => True
  | v :: vs => Fits v ∧ FitsAll vs

end

/-! ## Fields are told apart -/

section

variable {s t : List UInt8}

/-- A number is fed as eight bytes. -/
theorem digestU64_inj {m n : Nat} (hm : m < 2 ^ 64) (hn : n < 2 ^ 64) :
    digestU64 m ++ s = digestU64 n ++ t ↔ m = n ∧ s = t := by
  constructor
  · intro h
    obtain ⟨hbytes, hrest⟩ := List.append_inj h (by simp [digestU64])
    refine ⟨?_, hrest⟩
    rw [← toNat_bytes_of_lt (w := 8) (n := m) (by omega), ← toNat_bytes_of_lt (w := 8) (n := n)
      (by omega)]
    exact congrArg toNat hbytes
  · rintro ⟨rfl, rfl⟩
    rfl

/-- Bytes after their length. -/
theorem digestBytes_inj {a b : List UInt8} (ha : a.length < 2 ^ 64) (hb : b.length < 2 ^ 64) :
    digestBytes a ++ s = digestBytes b ++ t ↔ a = b ∧ s = t := by
  simp only [digestBytes, List.append_assoc, digestU64_inj ha hb]
  constructor
  · rintro ⟨hlen, h⟩
    exact List.append_inj h hlen
  · rintro ⟨rfl, rfl⟩
    exact ⟨rfl, rfl⟩

def Header.Sized (h : Header) : Prop := h.name.length < 2 ^ 64 ∧ h.value.length < 2 ^ 64

theorem digestHeader_inj {h k : Header} (hh : h.Sized) (hk : k.Sized) :
    digestHeader h ++ s = digestHeader k ++ t ↔ h = k ∧ s = t := by
  obtain ⟨hn, hv⟩ := h
  obtain ⟨kn, kv⟩ := k
  simp only [digestHeader, List.append_assoc, digestBytes_inj hh.1 hk.1,
    digestBytes_inj hh.2 hk.2, Header.mk.injEq, and_assoc]

/-- As many headers as the number before them says. -/
theorem headers_inj {hs ks : List Header} (hhs : ∀ h ∈ hs, h.Sized) (hks : ∀ k ∈ ks, k.Sized)
    (hlen : hs.length = ks.length) :
    hs.flatMap digestHeader ++ s = ks.flatMap digestHeader ++ t ↔ hs = ks ∧ s = t := by
  -- nothing marks where the headers end, so the two lists are followed in step
  induction hs generalizing ks with
  | nil =>
    obtain rfl := List.length_eq_zero_iff.1 hlen.symm
    simp
  | cons h hs ih =>
    cases ks with
    | nil => cases hlen
    | cons k ks =>
      have htail := ih (fun h hmem => hhs h (List.mem_cons_of_mem _ hmem))
        (fun k hmem => hks k (List.mem_cons_of_mem _ hmem)) (Nat.succ.inj hlen)
      simp only [List.flatMap_cons, List.append_assoc,
        digestHeader_inj (hhs h List.mem_cons_self) (hks k List.mem_cons_self), htail,
        List.cons.injEq, and_assoc]

/-! ## Bodies -/

theorem feedLoop_spec {fuel : Nat} {c : Cursor} {b rest : List UInt8} (hc : c.At b rest)
    (hfuel : rest.length < fuel) : feedLoop fuel c = rest := by
  induction fuel generalizing c rest with
  | zero => omega
  | succ fuel ih =>
    obtain ⟨htake, hdrop⟩ := read_spec hc 65536
    simp only [feedLoop, htake]
    split_ifs with hzero
    · rw [List.length_take] at hzero
      exact (List.length_eq_zero_iff.1 (by omega)).symm
    · rw [List.length_take] at hzero
      rw [ih hdrop (by rw [List.length_drop]; omega), List.take_append_drop]

/-- A tree that was opened, of no more bytes than an `int64_t` counts. -/
def Source.Sized : Source → Prop
  | .bar b => b.length < 2 ^ 64
  | .bat c => (∃ b, c.Opened b) ∧ c.length < 2 ^ 64

theorem Source.Sized.length {src : Source} (h : src.Sized) : src.bytes.length < 2 ^ 64 := by
  cases src with
  | bar b => exact h
  | bat c =>
    obtain ⟨⟨b, hc⟩, hlen⟩ := h
    show (allBytes c.spans).length < 2 ^ 64
    rw [hc.bytes, ← hc.length]
    exact hlen

/-- A tree feeds its bytes, whatever its shape and wherever the pieces end. -/
theorem digestSource_eq {src : Source} (h : src.Sized) :
    digestSource src = digestBytes src.bytes := by
  cases src with
  | bar b => rfl
  | bat c =>
    obtain ⟨⟨b, hc⟩, -⟩ := h
    obtain ⟨c', hseek, hat⟩ := seek_spec hc.toHolds (Nat.zero_le b.length)
    show digestU64 c.length ++ feedLoop (c.length + 1) ((seek c 0).getD c) =
      digestU64 (allBytes c.spans).length ++ allBytes c.spans
    rw [hseek, Option.getD_some, feedLoop_spec hat (by rw [List.drop_zero, hc.length]; omega),
      hc.bytes, hc.length, List.drop_zero]

theorem digestBody_inj {a b : Option Source} (ha : ∀ src ∈ a, src.Sized)
    (hb : ∀ src ∈ b, src.Sized) :
    digestBody a ++ s = digestBody b ++ t ↔
      a.map Source.bytes = b.map Source.bytes ∧ s = t := by
  cases a with
  | none =>
    -- the first number says whether there is a body
    cases b with
    | none => simp [digestBody]
    | some y => simp [digestBody, digestU64_inj]
  | some x =>
    cases b with
    | none => simp [digestBody, digestU64_inj]
    | some y =>
      have hx := ha x rfl
      have hy := hb y rfl
      simp only [digestBody, List.append_assoc, digestU64_inj (show 1 < 2 ^ 64 by decide)
        (show 1 < 2 ^ 64 by decide), digestSource_eq hx, digestSource_eq hy,
        digestBytes_inj hx.length hy.length, Option.map_some, Option.some.injEq, true_and]

theorem digestConnect_inj {a b : Option Nat} (ha : ∀ ms ∈ a, ms < 2 ^ 64)
    (hb : ∀ ms ∈ b, ms < 2 ^ 64) :
    digestConnect a ++ s = digestConnect b ++ t ↔ a = b ∧ s = t := by
  cases a with
  | none =>
    cases b with
    | none => simp [digestConnect]
    | some y => simp [digestConnect, digestU64_inj]
  | some x =>
    cases b with
    | none => simp [digestConnect, digestU64_inj]
    | some y =>
      simp only [digestConnect, List.append_assoc, digestU64_inj (show 1 < 2 ^ 64 by decide)
        (show 1 < 2 ^ 64 by decide), digestU64_inj (ha x rfl) (hb y rfl), Option.some.injEq,
        true_and]

end

/-! ## What was parsed fits -/

structure Parsed.Sized (p : Parsed) : Prop where
  method : p.method.length < 2 ^ 64
  url : p.url.length < 2 ^ 64
  count : p.hdrs.length < 2 ^ 64
  hdrs : ∀ h ∈ p.hdrs, h.Sized
  body : ∀ src ∈ p.body, src.Sized
  connectMs : ∀ ms ∈ p.connectMs, ms < 2 ^ 64
  deadlineMs : p.deadlineMs < 2 ^ 64
  redirects : p.redirects < 2 ^ 64
  bodyMode : p.bodyMode < 2 ^ 64
  maxBody : p.maxBody < 2 ^ 64

theorem u64Clamp_lt (n : Nat) : u64Clamp n < 2 ^ 64 :=
  Nat.lt_of_le_of_lt (Nat.min_le_right _ _) (by decide)

theorem clamped_lt {v : Val} {n : Nat} (h : clamped v = some n) : n < 2 ^ 64 := by
  cases v with
  | nat m =>
    cases h
    exact u64Clamp_lt m
  | _ => cases h

theorem erBar_length {v : Val} {b : List UInt8} (hv : Fits v) (h : erBar v = some b) :
    b.length < 2 ^ 64 := by
  cases v with
  | nat n =>
    rw [Fits] at hv
    simp only [erBar] at h
    split_ifs at h
    cases h
    rw [List.length_dropLast, length_bytes]
    omega
  | _ => cases h

theorem erRow_fits {v : Val} {args : List Val} (hv : Fits v) (h : erRow v = some args) :
    args.length < 2 ^ 64 ∧ FitsAll args := by
  unfold erRow at h
  split at h
  · cases h
    rw [Fits] at hv
    exact hv.2
  · cases h

theorem parseHeader_sized {v : Val} {h : Header} (hv : Fits v) (hp : parseHeader v = some h) :
    h.Sized := by
  unfold parseHeader at hp
  split at hp
  · rename_i name value hrow
    obtain ⟨-, hfits⟩ := erRow_fits hv hrow
    simp only [FitsAll] at hfits
    obtain ⟨n, hn, hp⟩ := Option.bind_eq_some_iff.1 hp
    obtain ⟨u, hu, hp⟩ := Option.bind_eq_some_iff.1 hp
    cases hp
    exact ⟨erBar_length hfits.1 hn, erBar_length hfits.2.1 hu⟩
  · cases hp

theorem headerLoop_sized {vs : List Val} {hs : List Header} (hvs : FitsAll vs)
    (h : headerLoop vs = some hs) : hs.length = vs.length ∧ ∀ k ∈ hs, k.Sized := by
  induction vs generalizing hs with
  | nil =>
    cases h
    simp
  | cons v vs ih =>
    rw [FitsAll] at hvs
    obtain ⟨k, hk, h⟩ := Option.bind_eq_some_iff.1 h
    obtain ⟨ks, hks, h⟩ := Option.bind_eq_some_iff.1 h
    cases h
    obtain ⟨hlen, hall⟩ := ih hvs.2 hks
    refine ⟨by rw [List.length_cons, List.length_cons, hlen], fun j hj => ?_⟩
    obtain rfl | hj := List.mem_cons.1 hj
    · exact parseHeader_sized hvs.1 hk
    · exact hall j hj

theorem parseHeaders_sized {v : Val} {hs : List Header} (hv : Fits v)
    (h : parseHeaders v = some hs) : hs.length < 2 ^ 64 ∧ ∀ k ∈ hs, k.Sized := by
  unfold parseHeaders at h
  split_ifs at h
  · cases h
    simp
  · obtain ⟨args, hrow, h⟩ := Option.bind_eq_some_iff.1 h
    obtain ⟨hlen, hfits⟩ := erRow_fits hv hrow
    obtain ⟨hcount, hall⟩ := headerLoop_sized hfits h
    exact ⟨hcount ▸ hlen, hall⟩

theorem parseTree_spec {v : Val} {src : Source} (h : parseTree v = some src) :
    ∃ c b p, src = .bat c ∧ c.Opened b ∧ Denotes v b p ∧ p ≤ uint64Max ∧
      b.length ≤ 2 ^ 63 - 1 := by
  obtain ⟨c, hopen, h⟩ := Option.bind_eq_some_iff.1 h
  obtain ⟨b, p, hv, hp, hc⟩ := batOpen_sound hopen
  split_ifs at h with hlen
  cases h
  rw [hc.length] at hlen
  exact ⟨c, b, p, rfl, hc, hv, hp, by omega⟩

theorem parseSource_sized {v : Val} {src : Source} (hv : Fits v) (h : parseSource v = some src) :
    src.Sized := by
  have htree : ∀ {w : Val}, parseTree w = some src → src.Sized := by
    intro w h
    obtain ⟨c, b, p, rfl, hc, -, -, hlen⟩ := parseTree_spec h
    exact ⟨⟨b, hc⟩, by rw [hc.length]; omega⟩
  cases v with
  | nat n =>
    obtain ⟨b, hb, rfl⟩ := Option.map_eq_some_iff.1 h
    exact erBar_length hv hb
  | _ => exact htree h

theorem parseBody_sized {v : Val} {body : Option Source} (hv : Fits v)
    (h : parseBody v = some body) : ∀ src ∈ body, src.Sized := by
  unfold parseBody at h
  split_ifs at h
  · cases h
    intro src hsrc
    cases hsrc
  · split at h
    · rename_i w hrow
      obtain ⟨-, hfits⟩ := erRow_fits hv hrow
      rw [FitsAll] at hfits
      obtain ⟨src, hsrc, rfl⟩ := Option.map_eq_some_iff.1 h
      intro src' hsrc'
      cases hsrc'
      exact parseSource_sized hfits.1 hsrc
    · cases h

theorem parseConnect_lt {v : Val} {connect : Option Nat} (h : parseConnect v = some connect) :
    ∀ ms ∈ connect, ms < 2 ^ 64 := by
  unfold parseConnect at h
  split_ifs at h
  · cases h
    intro ms hms
    cases hms
  · split at h
    · obtain ⟨n, hn, rfl⟩ := Option.map_eq_some_iff.1 h
      intro ms hms
      cases hms
      exact clamped_lt hn
    · cases h

theorem parseMode_lt {v : Val} {mode max : Nat} (h : parseMode v = some (mode, max)) :
    mode < 2 ^ 64 ∧ max < 2 ^ 64 := by
  have hpair : ∀ {k : Nat} {w : Val}, k ≤ 2 → (clamped w).map (k, ·) = some (mode, max) →
      mode < 2 ^ 64 ∧ max < 2 ^ 64 := by
    intro k w hk h
    obtain ⟨n, hn, h⟩ := Option.map_eq_some_iff.1 h
    cases h
    exact ⟨by omega, clamped_lt hn⟩
  unfold parseMode at h
  split_ifs at h
  · cases h
    decide
  · split at h
    · exact hpair (by decide) h
    · split_ifs at h
      exact hpair (by decide) h
    · cases h

theorem httpParse_sized {req cfg : Val} {p : Parsed} (hreq : Fits req)
    (h : httpParse req cfg = some p) : p.Sized := by
  unfold httpParse at h
  split at h
  · rename_i m u hs bd co de re mo hrow hrow'
    obtain ⟨-, hfits⟩ := erRow_fits hreq hrow
    simp only [FitsAll] at hfits
    obtain ⟨hm, hu, hhs, hbd, -⟩ := hfits
    obtain ⟨method, h₁, h⟩ := Option.bind_eq_some_iff.1 h
    obtain ⟨url, h₂, h⟩ := Option.bind_eq_some_iff.1 h
    obtain ⟨hdrs, h₃, h⟩ := Option.bind_eq_some_iff.1 h
    obtain ⟨body, h₄, h⟩ := Option.bind_eq_some_iff.1 h
    obtain ⟨connect, h₅, h⟩ := Option.bind_eq_some_iff.1 h
    obtain ⟨deadline, h₆, h⟩ := Option.bind_eq_some_iff.1 h
    obtain ⟨redirects, h₇, h⟩ := Option.bind_eq_some_iff.1 h
    obtain ⟨⟨mode, max⟩, h₈, h⟩ := Option.bind_eq_some_iff.1 h
    cases h
    obtain ⟨hcount, hsized⟩ := parseHeaders_sized hhs h₃
    obtain ⟨hmode, hmax⟩ := parseMode_lt h₈
    exact ⟨erBar_length hm h₁, erBar_length hu h₂, hcount, hsized, parseBody_sized hbd h₄,
      parseConnect_lt h₅, clamped_lt h₆, clamped_lt h₇, hmode, hmax⟩
  · cases h

/-! ## Sites -/

/-- Requests that feed the same bytes ask for the same. -/
theorem argsBytes_inj {p q : Parsed} (hp : p.Sized) (hq : q.Sized) :
    argsBytes p = argsBytes q ↔ p.asked = q.asked := by
  have hlast : digestU64 p.maxBody = digestU64 q.maxBody ↔ p.maxBody = q.maxBody := by
    have h := digestU64_inj (s := []) (t := []) hp.maxBody hq.maxBody
    simpa only [List.append_nil, and_true] using h
  have hhdrs : ∀ {s t : List UInt8}, (p.hdrs.length = q.hdrs.length ∧
      p.hdrs.flatMap digestHeader ++ s = q.hdrs.flatMap digestHeader ++ t) ↔
        p.hdrs = q.hdrs ∧ s = t := by
    intro s t
    constructor
    · rintro ⟨hlen, h⟩
      exact (headers_inj hp.hdrs hq.hdrs hlen).1 h
    · rintro ⟨h, rfl⟩
      rw [h]
      exact ⟨rfl, rfl⟩
  -- field by field from the front; each lemma leaves the rest of the bytes to the next
  simp only [argsBytes, digestBytes_inj hp.method hq.method, digestBytes_inj hp.url hq.url,
    digestU64_inj hp.count hq.count, hhdrs, digestBody_inj hp.body hq.body,
    digestConnect_inj hp.connectMs hq.connectMs, digestU64_inj hp.deadlineMs hq.deadlineMs,
    digestU64_inj hp.redirects hq.redirects, digestU64_inj hp.bodyMode hq.bodyMode, hlast,
    Parsed.asked, Asked.mk.injEq]

/-- Arguments that feed the same bytes are recorded the same. -/
theorem valsBytes_inj {args args' : List Val} (h : FitsAll args) (h' : FitsAll args') :
    valsBytes args = valsBytes args' ↔ args.map recorded = args'.map recorded := by
  have hmark : 'n'.toUInt8 ≠ 'x'.toUInt8 := by decide
  -- an argument is told from the others by its first bytes, whatever comes after it
  have hone : ∀ {v w : Val} {s t : List UInt8}, Fits v → Fits w →
      (valBytes v ++ s = valBytes w ++ t ↔ recorded v = recorded w ∧ s = t) := by
    intro v w s t hv hw
    cases v with
    | nat n =>
      cases w with
      | nat m =>
        rw [Fits] at hv hw
        have hbytes := digestBytes_inj (s := s) (t := t) (a := bytes (byteLen n) n)
          (b := bytes (byteLen m) m) (by rwa [length_bytes]) (by rwa [length_bytes])
        simp only [digestBytes, digestU64, length_bytes, List.append_assoc] at hbytes
        simp only [valBytes, recorded, List.cons_append, List.append_assoc, List.cons.injEq,
          true_and, hbytes, Option.some.injEq]
        refine and_congr_left fun _ => ⟨fun heq => ?_, fun heq => by rw [heq]⟩
        rw [← toNat_bytes_of_lt (lt_pow_byteLen n), ← toNat_bytes_of_lt (lt_pow_byteLen m), heq]
      | _ => simp [valBytes, recorded, hmark]
    | _ => cases w <;> simp [valBytes, recorded, hmark.symm]
  have hne : ∀ v : Val, valBytes v ≠ [] := by
    intro v
    cases v <;> simp [valBytes]
  induction args generalizing args' with
  | nil =>
    cases args' with
    | nil => simp
    | cons w ws => simp [valsBytes, hne w]
  | cons v vs ih =>
    cases args' with
    | nil => simp [valsBytes, hne v]
    | cons w ws =>
      rw [FitsAll] at h h'
      have htail := ih h.2 h'.2
      simp only [valsBytes] at htail
      simp only [valsBytes, List.flatMap_cons, hone h.1 h'.1, htail, List.map_cons,
        List.cons.injEq]

/-- Equal hashes are equal inputs, or a collision. -/
theorem hash_eq_iff {δ : Type} (sha256 : List UInt8 → δ) (a b : List UInt8) :
    sha256 a = sha256 b ↔ a = b ∨ Collides sha256 a b := by
  constructor
  · intro h
    by_cases hab : a = b
    · exact .inl hab
    · exact .inr ⟨hab, h⟩
  · rintro (rfl | ⟨-, h⟩)
    · rfl
    · exact h

/-- A body is a bar of its bytes, or a tree that denotes them. -/
theorem parseSource_iff {v : Val} {b : List UInt8} :
    (∃ src, parseSource v = some src ∧ src.bytes = b) ↔
      erBar v = some b ∨ ∃ p, Denotes v b p ∧ p ≤ uint64Max ∧ b.length ≤ 2 ^ 63 - 1 := by
  have htree : ∀ {w : Val}, (∃ src, parseTree w = some src ∧ src.bytes = b) ↔
      ∃ p, Denotes w b p ∧ p ≤ uint64Max ∧ b.length ≤ 2 ^ 63 - 1 := by
    intro w
    constructor
    · rintro ⟨src, h, hbytes⟩
      obtain ⟨c, b', p, rfl, hc, hw, hp, hlen⟩ := parseTree_spec h
      obtain rfl : b' = b := hc.bytes.symm.trans hbytes
      exact ⟨p, hw, hp, hlen⟩
    · rintro ⟨p, hw, hp, hlen⟩
      obtain ⟨c, hopen, hc⟩ := batOpen_complete hw hp
      refine ⟨.bat c, ?_, hc.bytes⟩
      rw [parseTree, hopen, Option.bind_some, if_neg (by rw [hc.length]; omega)]
  cases v with
  | nat n =>
    have hnot : ¬ ∃ p, Denotes (.nat n) b p ∧ p ≤ uint64Max ∧ b.length ≤ 2 ^ 63 - 1 := by
      rintro ⟨p, h, -⟩
      nomatch h
    simp only [parseSource, Option.map_eq_some_iff, hnot, or_false]
    constructor
    · rintro ⟨_, ⟨b', hb, rfl⟩, rfl⟩
      exact hb
    · intro hb
      exact ⟨_, ⟨b, hb, rfl⟩, rfl⟩
  | _ => simpa only [parseSource, erBar, reduceCtorEq, false_or] using htree

theorem recorded_nats (ns : List Nat) : (ns.map Val.nat).map recorded = ns.map some := by
  rw [List.map_map]
  rfl

/-- **Replay sites are identified by what was asked.** Two Fetch requests that `er_http_parse`
accepts have one hash exactly if they ask for the same, or SHA-256 collides on what they feed.
A body is asked for by its bytes, those of a bar or those that a tree denotes, so that the
shape of the tree does not matter. And two lists of arguments have one hash exactly if the same
naturals stand at the same places, so two lists of naturals if they are equal, or SHA-256
collides. -/
theorem sites_identified {δ : Type} (sha256 : List UInt8 → δ) :
    (∀ req cfg req' cfg' p p', Fits req → Fits req' → httpParse req cfg = some p →
      httpParse req' cfg' = some p' →
        (sha256 (argsBytes p) = sha256 (argsBytes p') ↔
          p.asked = p'.asked ∨ Collides sha256 (argsBytes p) (argsBytes p'))) ∧
    (∀ body b, (∃ src, parseSource body = some src ∧ src.bytes = b) ↔
      erBar body = some b ∨ ∃ p, Denotes body b p ∧ p ≤ uint64Max ∧ b.length ≤ 2 ^ 63 - 1) ∧
    (∀ args args', FitsAll args → FitsAll args' →
      (sha256 (valsBytes args) = sha256 (valsBytes args') ↔
        args.map recorded = args'.map recorded ∨
          Collides sha256 (valsBytes args) (valsBytes args'))) ∧
    ∀ ns ms : List Nat, FitsAll (ns.map .nat) → FitsAll (ms.map .nat) →
      (sha256 (valsBytes (ns.map .nat)) = sha256 (valsBytes (ms.map .nat)) ↔
        ns = ms ∨ Collides sha256 (valsBytes (ns.map .nat)) (valsBytes (ms.map .nat))) := by
  have hvals : ∀ args args', FitsAll args → FitsAll args' →
      (sha256 (valsBytes args) = sha256 (valsBytes args') ↔
        args.map recorded = args'.map recorded ∨
          Collides sha256 (valsBytes args) (valsBytes args')) := by
    intro args args' h h'
    rw [hash_eq_iff, valsBytes_inj h h']
  refine ⟨?_, fun _ _ => parseSource_iff, hvals, ?_⟩
  · intro req cfg req' cfg' p p' hreq hreq' h h'
    rw [hash_eq_iff, argsBytes_inj (httpParse_sized hreq h) (httpParse_sized hreq' h')]
  · intro ns ms h h'
    rw [hvals _ _ h h', recorded_nats, recorded_nats,
      (List.map_injective_iff.2 (Option.some_injective Nat)).eq_iff]

/-- `GET u` with a body, to be done within 5 ms and answered by at most 7 bytes. -/
def sampleReq (body : Val) : Val :=
  row 0 [.nat 0x01544547, .nat 0x0175, .nat 0, row 0 [body]]

def sampleCfg : Val := row 0 [.nat 0, .nat 5, .nat 0, row 0 [.nat 7]]

theorem sampleReq_parses {body : Val} {src : Source} (h : parseSource body = some src) :
    httpParse (sampleReq body) sampleCfg = some
      { method := [0x47, 0x45, 0x54], url := [0x75], hdrs := [], body := some src,
        connectMs := none, deadlineMs := 5, redirects := 0, bodyMode := 0, maxBody := 7 } := by
  have hbody : parseBody (row 0 [body]) = some (some src) := by
    rw [parseBody, if_neg (by rintro ⟨⟩)]
    simp only [erRow, row, h, Option.map_some]
  simp only [sampleReq, sampleCfg, httpParse, erRow, row] at hbody ⊢
  rw [hbody]
  rfl

/-- A tree of text with the bytes of `hi`. -/
def sampleTree : Val := row 0 [tag "text", .nat 0x6968]

theorem sampleTree_parses : ∃ src, parseSource sampleTree = some src ∧ src.bytes = [0x68, 0x69] := by
  have hbytes : natByteRange 0x6968 0 (byteLen 0x6968) = [0x68, 0x69] := by decide +kernel
  have hd : Denotes sampleTree [0x68, 0x69] 2 := by
    rw [← hbytes]
    exact .text rfl
  exact parseSource_iff.2 (.inr ⟨2, hd, by decide, by decide⟩)

theorem sampleReq_fits {body : Val} (h : Fits body) : Fits (sampleReq body) := by
  simp only [sampleReq, row, Fits, FitsAll, h, and_true, List.length_cons, List.length_nil]
  decide +kernel

theorem fits_bar : Fits (.nat 0x016968) := by
  rw [Fits]
  decide +kernel

theorem sampleTree_fits : Fits sampleTree := by
  simp only [sampleTree, row, tag, Fits, FitsAll, and_true]
  decide +kernel

/-- The body `hi`, as a bar and as a tree. -/
theorem sites_identified_sample : ∃ p p',
    httpParse (sampleReq (.nat 0x016968)) sampleCfg = some p ∧
    httpParse (sampleReq (row 0 [tag "text", .nat 0x6968])) sampleCfg = some p' ∧
    argsBytes p = argsBytes p' := by
  obtain ⟨src, hsrc, hbytes⟩ := sampleTree_parses
  have hbar := sampleReq_parses
    (show parseSource (.nat 0x016968) = some (.bar [0x68, 0x69]) from rfl)
  have htree := sampleReq_parses hsrc
  refine ⟨_, _, hbar, htree, ((sites_identified id).1 _ _ _ _ _ _ (sampleReq_fits fits_bar)
    (sampleReq_fits sampleTree_fits) hbar htree).2 (.inl ?_)⟩
  simp only [Parsed.asked, Option.map_some, hbytes]
  rfl

/-! ## Without collisions -/

/-- `er_http_args_hash` -/
def httpArgsHash {δ : Type} (sha256 : List UInt8 → δ) (p : Parsed) : δ := sha256 (argsBytes p)

/-- `er_vals_hash` -/
def valsHash {δ : Type} (sha256 : List UInt8 → δ) (args : List Val) : δ := sha256 (valsBytes args)

/-- **A site is what was asked.** If SHA-256 tells all inputs apart, two Fetch requests that
`er_http_parse` accepts have one hash exactly if method, URL, headers in order, the presence and
the bytes of the body, the presence and the value of the connect timeout, deadline, redirects,
mode and limit are the same, where a body is given by a bar or by any tree of its bytes; and two
lists of naturals have one hash exactly if they are one list. -/
theorem sites_told_apart {δ : Type} {sha256 : List UInt8 → δ} (hsha : Function.Injective sha256) :
    (∀ req cfg req' cfg' p p', Fits req → Fits req' → httpParse req cfg = some p →
      httpParse req' cfg' = some p' →
        (httpArgsHash sha256 p = httpArgsHash sha256 p' ↔ p.asked = p'.asked)) ∧
    (∀ body b, (∃ src, parseSource body = some src ∧ src.bytes = b) ↔
      erBar body = some b ∨ ∃ p, Denotes body b p ∧ p ≤ uint64Max ∧ b.length ≤ 2 ^ 63 - 1) ∧
    ∀ ns ms : List Nat, FitsAll (ns.map .nat) → FitsAll (ms.map .nat) →
      (valsHash sha256 (ns.map .nat) = valsHash sha256 (ms.map .nat) ↔ ns = ms) := by
  refine ⟨?_, fun _ _ => parseSource_iff, ?_⟩
  · intro req cfg req' cfg' p p' hreq hreq' h h'
    rw [httpArgsHash, httpArgsHash, hsha.eq_iff,
      argsBytes_inj (httpParse_sized hreq h) (httpParse_sized hreq' h')]
  · intro ns ms h h'
    rw [valsHash, valsHash, hsha.eq_iff, valsBytes_inj h h', recorded_nats, recorded_nats,
      (List.map_injective_iff.2 (Option.some_injective Nat)).eq_iff]

/-- The body `hi` is one site as a bar and as a tree; `[1, 2]` and `[2, 1]` are two. -/
theorem sites_told_apart_sample : (∃ p p',
    httpParse (sampleReq (.nat 0x016968)) sampleCfg = some p ∧
    httpParse (sampleReq sampleTree) sampleCfg = some p' ∧
    httpArgsHash id p = httpArgsHash id p') ∧
    valsHash id [.nat 1, .nat 2] ≠ valsHash id [.nat 2, .nat 1] := by
  have hid : Function.Injective (id : List UInt8 → List UInt8) := Function.injective_id
  obtain ⟨src, hsrc, hbytes⟩ := sampleTree_parses
  have hbar := sampleReq_parses
    (show parseSource (.nat 0x016968) = some (.bar [0x68, 0x69]) from rfl)
  have htree := sampleReq_parses hsrc
  refine ⟨⟨_, _, hbar, htree, ((sites_told_apart hid).1 _ _ _ _ _ _ (sampleReq_fits fits_bar)
    (sampleReq_fits sampleTree_fits) hbar htree).2 ?_⟩, fun heq => ?_⟩
  · simp only [Parsed.asked, Option.map_some, hbytes]
    rfl
  · have hfits : FitsAll ([1, 2].map .nat) ∧ FitsAll ([2, 1].map .nat) := by
      simp only [List.map_cons, List.map_nil, FitsAll, Fits, and_true]
      decide +kernel
    exact absurd (((sites_told_apart hid).2.2 [1, 2] [2, 1] hfits.1 hfits.2).1 heq) (by decide)

end Enki.Sites
