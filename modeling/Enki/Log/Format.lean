import Enki.Bignum.Arith

/-!
# Event log formats

The byte formats of `enki/src/actor.c` and `enki/src/http.c`: the log file, the
`ReadFolder` payload and the HTTP result. The encoders write lists of bytes. The
decoders work on positions in a given list, with the C arithmetic on these, and stop
the model (`Stop.misuse`) when they read past its end; a failed `ax_assume` is
`Stop.assume`.

Decoded values are assembled on the value stack, which holds at most `2 ^ 31` words;
`room` is what is left of that above the caller's. Collection does not change what
the stack denotes and is left out.
-/

namespace Enki.Log

open Bignum

/-- A decoded value. A natural is what the word on the stack says, canonical or not. -/
inductive Obj where
  | nat (v : NatVal)
  | pin (body : Obj)
  | app (head : NatVal) (args : List Obj)

/-- `PTRDIFF_MAX`, beyond which `malloc` returns no memory. -/
def ptrdiffMax : Nat := 2 ^ 63 - 1

/-! ## The value stack -/

/-- Room for `n` more words above `used`, `pl_vstack_grow`. -/
def vroom (room used n : Nat) : Except Stop Unit :=
  assume (used + n ≤ room) "vstack exceeds u32 frame offsets"

/-- `pl_vpush` -/
def vpush (room : Nat) (vs : List Obj) (v : Obj) : Except Stop (List Obj) := do
  vroom room vs.length 1
  return vs ++ [v]

/-- `pl_mk_app_from` -/
def mkAppFrom (head : NatVal) (args : List Obj) : Except Stop Obj := do
  assume (args.length ≥ 1) "empty app"
  return .app head args

/-! ## Bytes -/

/-- A 64-bit word, least significant byte first. -/
def le64 (w : UInt64) : List UInt8 := LittleEndian.bytes 8 w.toNat

/-- Bytes behind their number. -/
def field (b : List UInt8) : List UInt8 := le64 (UInt64.ofNat b.length) ++ b

/-- The bytes of a natural, `er_nat_bytes`. -/
def natBytes (v : NatVal) : List UInt8 := (List.range v.byteLen).map v.byteAt

/-- Read `n` bytes at a position. -/
def readAt (d : List UInt8) (i n : Nat) : Except Stop (List UInt8) :=
  guarded (i + n ≤ d.length) "read" ((d.drop i).take n)

/-- Read one byte. -/
def byteAt (d : List UInt8) (i : Nat) : Except Stop UInt8 := do
  let b ← readAt d i 1
  return b.headD 0

/-- Read a 64-bit word. -/
def wordAt (d : List UInt8) (i : Nat) : Except Stop UInt64 := do
  let b ← readAt d i 8
  return UInt64.ofNat (LittleEndian.toNat b)

/-! ## The log file -/

/-- `er_event` -/
structure Event where
  kind : UInt8
  actor : UInt64
  op : UInt64
  argsHash : List UInt8
  data : List UInt8
  hash_len : argsHash.length = 32
  data_len : data.length ≤ ptrdiffMax

/-- The second loop: flag, name length and name of an entry. -/
def folderEntryBytes : Obj → List UInt8
  | .app _ [.nat (.direct flag), .nat name] =>
    flag.toUInt8 :: le64 (UInt64.ofNat name.byteLen) ++ natBytes name
  | _ => []

/-- `(size_t)(end - p)` -/
def left (d : List UInt8) (p : Nat) : Nat := (2 ^ 64 + d.length - p) % 2 ^ 64

variable (stale : Nat → UInt64) (room : Nat)

/-- `ax_s3('b', 'a', 't')` and its like. -/
def mote (w : UInt64) : Obj := .nat (.direct w)

def moteBat : Obj := mote 0x746162
def moteCat : Obj := mote 0x746163
def moteSlice : Obj := mote 0x6563696c73

/-- `PL_BAT_CHUNK_BYTES` -/
def batChunkBytes : Nat := 2 ^ 20

/-- `pl_mk_nat_u64` -/
def mkNatU64 (w : UInt64) : NatVal := if w ≤ nat63Max then .direct w else .boxed [w]

/-- `bat_size` -/
def batSize : Obj → Option UInt64
  | .nat v => if v.limbLen > 1 then none else some (v.limbAt 0)
  | _ => none

/-- The length a tree says it has. -/
def batLen : Obj → Option UInt64
  | .app _ (_ :: size :: _) => batSize size
  | _ => none

/-- `pl_bat_chunk`. It puts six words on the stack. -/
def batChunk (used : Nat) (bytes : List UInt8) : Except Stop Obj := do
  assume (bytes.length ≤ batChunkBytes) "BAT chunk too large"
  vroom room used 6
  let n ← fromBytes stale bytes
  let size : Obj := .nat (.direct (UInt64.ofNat bytes.length))
  return .app (.direct 0)
    [moteBat, size, .app (.direct 0) [moteSlice, .pin (.nat n), .nat (.direct 0), size]]

/-- `pl_bat_join`. It puts seven words on the stack. -/
def batJoin (used : Nat) (l r : Obj) : Except Stop Obj := do
  vroom room used 7
  match batLen l, batLen r with
  | some a, some b =>
    assume (a ≤ 0xffffffffffffffff - b) "BAT length overflow"
    return .app (.direct 0)
      [moteBat, .nat (mkNatU64 (a + b)), .app (.direct 0) [moteCat, l, r]]
  | _, _ => .error (.assume "BAT length overflow")

/-- The chunks `pl_bat_from_bytes` cuts; at least one. -/
def batSplit : Nat → List UInt8 → List (List UInt8)
  | 0, bytes => [bytes]
  | k + 1, bytes =>
    if bytes.length ≤ batChunkBytes then [bytes]
    else bytes.take batChunkBytes :: batSplit k (bytes.drop batChunkBytes)

/-- The first loop of `pl_bat_from_bytes`. -/
def batLeaves : Nat → List (List UInt8) → Except Stop (List Obj)
  | _, [] => .ok []
  | used, c :: cs => do
    let leaf ← batChunk stale room used c
    vroom room used 1
    let leaves ← batLeaves (used + 1) cs
    return leaf :: leaves

/-- One round of the second loop: neighbours are joined. -/
def batPass (used : Nat) : List Obj → Except Stop (List Obj)
  | l :: r :: rest => do
    let v ← batJoin room used l r
    let vs ← batPass used rest
    return v :: vs
  | vs => .ok vs

/-- The second loop, at most `fuel` rounds. -/
def batJoinAll (used : Nat) : Nat → List Obj → Except Stop Obj
  | _, [v] => .ok v
  | 0, _ => .error (.misuse "pl_bat_from_bytes")
  | fuel + 1, vs => do
    let vs ← batPass room (used + vs.length) vs
    batJoinAll used fuel vs

/-- `pl_bat_from_bytes` -/
def batFromBytes (used : Nat) (bytes : List UInt8) : Except Stop Obj := do
  let leaves ← batLeaves stale room used (batSplit (bytes.length / batChunkBytes) bytes)
  batJoinAll room used leaves.length leaves

/-! ## HTTP results -/

/-- The curl result codes `er_http_map_err` tells apart. -/
inductive CurlCode where
  | ok | couldntResolveHost | couldntResolveProxy | couldntConnect | operationTimedout
  | tooManyRedirects | peerFailedVerification | sslConnectError | sslCertproblem | sslCipher
  | sslCacertBadfile | sslIssuerError | sslInvalidcertstatus | sslPinnedpubkeynotmatch
  | sslEngineNotfound | sslEngineSetfailed | sslEngineInitfailed | sslShutdownFailed | sslClientcert
  | useSslFailed | other
  deriving DecidableEq

/-- What `er_http_xfer` holds of a finished transfer. -/
structure Xfer where
  result : CurlCode
  bodyOverflow : Bool
  connected : Bool
  /-- `body_mode == 2` -/
  bat : Bool
  respStatus : UInt64
  effectiveUrl : Option (List UInt8)
  respHeaders : List (List UInt8 × List UInt8)
  respBody : List UInt8

/-- `er_http_map_err` -/
def httpMapErr (x : Xfer) : UInt8 :=
  if x.bodyOverflow then 6
  else match x.result with
    | .couldntResolveHost | .couldntResolveProxy => 1
    | .couldntConnect => 2
    | .operationTimedout => if x.connected then 4 else 2
    | .tooManyRedirects => 5
    | .peerFailedVerification | .sslConnectError | .sslCertproblem | .sslCipher | .sslCacertBadfile
    | .sslIssuerError | .sslInvalidcertstatus | .sslPinnedpubkeynotmatch | .sslEngineNotfound
    | .sslEngineSetfailed | .sslEngineInitfailed | .sslShutdownFailed | .sslClientcert
    | .useSslFailed => 3
    | .ok | .other => 7

/-- Name and value of a header. -/
def headerBytes (h : List UInt8 × List UInt8) : List UInt8 := field h.1 ++ field h.2

/-- `er_http_result_encode` -/
def httpResultEncode (x : Xfer) : List UInt8 :=
  if x.result ≠ .ok then [1, httpMapErr x]
  else (if x.bat then 2 else 0) :: le64 x.respStatus ++ field (x.effectiveUrl.getD []) ++
    le64 (UInt64.ofNat x.respHeaders.length) ++ x.respHeaders.flatMap headerBytes ++
    field x.respBody

/-- `er_push_app` -/
def pushApp (vs : List Obj) (head : NatVal) (n : UInt32) : Except Stop (List Obj) := do
  let r ← mkAppFrom head (vs.drop (vs.length - n.toNat))
  vpush room (vs.take (vs.length - n.toNat)) r

/-- The `memcpy` of `er_push_bar`. -/
def copyFrom (d : List UInt8) (b n : UInt64) : Except Stop (List UInt8) :=
  if n > 0 then readAt d b.toNat n.toNat else .ok []

/-- `er_push_bar`. The copy has a byte more than there is to copy. -/
def pushBar (d : List UInt8) (vs : List Obj) (b n : UInt64) : Except Stop (List Obj) := do
  assume ((n + 1).toNat ≤ ptrdiffMax) "oom"
  let bytes ← copyFrom d b n
  let v ← fromBytes stale (bytes ++ [1])
  vpush room vs (.nat v)

/-- `er_dec_u64` -/
def decU64 (d : List UInt8) (pos : UInt64) : Except Stop (UInt64 × UInt64) := do
  assume (pos + 8 ≤ UInt64.ofNat d.length) "er_http: truncated result encoding"
  let v ← wordAt d pos.toNat
  return (v, pos + 8)

/-- `er_dec_bytes`: where the bytes are, how many, and the position behind them. -/
def decBytes (d : List UInt8) (pos : UInt64) : Except Stop (UInt64 × UInt64 × UInt64) := do
  let (n, pos) ← decU64 d pos
  assume (pos + n ≤ UInt64.ofNat d.length) "er_http: truncated result encoding"
  return (pos, n, pos + n)

/-- The header loop of `er_http_result_build`. -/
def httpHeaders (d : List UInt8) : Nat → UInt64 → List Obj → Except Stop (List Obj × UInt64)
  | 0, pos, vs => .ok (vs, pos)
  | k + 1, pos, vs => do
    let (name, nameN, pos) ← decBytes d pos
    let (val, valN, pos) ← decBytes d pos
    let vs ← pushBar stale room d vs name nameN
    let vs ← pushBar stale room d vs val valN
    let vs ← pushApp room vs (.direct 0) 2
    httpHeaders d k pos vs

/-- The headers become a row; the empty row is zero. -/
def pushHeaders (vs : List Obj) (nh : UInt64) : Except Stop (List Obj) :=
  if nh > 0 then pushApp room vs (.direct 0) nh.toUInt32 else vpush room vs (.nat (.direct 0))

/-- The body, as `er_http_result_build` pushes it. -/
def pushBody (d : List UInt8) (tag : UInt8) (vs : List Obj) (b n : UInt64) :
    Except Stop (List Obj) :=
  if tag = 2 then do
    let bytes ← readAt d b.toNat n.toNat
    let v ← batFromBytes stale room vs.length bytes
    vpush room vs v
  else pushBar stale room d vs b n

/-- `er_http_result_build` for a response. -/
def httpResponse (d : List UInt8) (tag : UInt8) : Except Stop (List Obj) := do
  let (status, pos) ← decU64 d 1
  let (url, urlN, pos) ← decBytes d pos
  let vs ← vpush room [] (.nat (.direct status))
  let vs ← pushBar stale room d vs url urlN
  let (nh, pos) ← decU64 d pos
  let (vs, pos) ← httpHeaders stale room d nh.toNat pos vs
  let vs ← pushHeaders room vs nh
  let (body, bodyN, pos) ← decBytes d pos
  assume (pos = UInt64.ofNat d.length) "er_http: trailing bytes in result encoding"
  let vs ← pushBody stale room d tag vs body bodyN
  let vs ← pushApp room vs (.direct 0) 4
  pushApp room vs (.direct 0) 1

/-- `er_http_result_build` for an error. -/
def httpError (d : List UInt8) : Except Stop (List Obj) := do
  assume (d.length = 2) "er_http: malformed err encoding"
  let code ← byteAt d 1
  let vs ← vpush room [] (.nat (.direct code.toUInt64))
  pushApp room vs (.direct 1) 1

/-- The two forms of a result. -/
def httpResult (d : List UInt8) (tag : UInt8) : Except Stop (List Obj) :=
  if tag = 1 then httpError room d else httpResponse stale room d tag

/-- `er_http_result_build` -/
def httpResultBuild (d : List UInt8) : Except Stop Obj := do
  assume (d.length ≥ 1) "er_http: empty result encoding"
  let tag ← byteAt d 0
  let vs ← httpResult stale room d tag
  return vs.getLast?.getD (.nat (.direct 0))

end Enki.Log
