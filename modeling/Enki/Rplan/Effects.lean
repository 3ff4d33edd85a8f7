import Enki.Axsys.Fd
import Enki.Canon.Doc
import Enki.Rplan.Paths
import Enki.Rplan.ReadBat

/-!
# Direct effects

The bodies of the op-82 effects that `op_body_ready` runs in the machine, from
`plan/src/rplan.c`. A body gets evaluated arguments; one that is not a natural is `none`.
It sees the files, the descriptors of the process and the table of handles, and what the
operating system answers is given to it. What is in memory that was allocated and not
written is given too. Messages on the console are left out.
-/

namespace Enki.Rplan

open Bignum Log FileTree Axsys

/-- A natural among the evaluated arguments. -/
abbrev CNat := { v : NatVal // v.Canonical }

/-- What an open descriptor is for. -/
inductive Desc where
  | file (at' : Loc)
  /-- A console or a connection, with what has been written to it. -/
  | stream (written : List UInt8)
  | socket
  | listening (port : UInt16)

/-- What an effect can change. -/
structure World extends Files where
  /-- The open descriptors; sockets are among them. -/
  fds : List (Nat × Desc)
  table : Table

/-- The answers of the operating system. -/
structure Answers where
  /-- What reads find. -/
  reads : List Packet
  /-- What writes take. -/
  writes : List Taken
  /-- Whether `open` succeeds on a path that it may open. -/
  opens : Bool
  /-- `st_size` of `fstat`, if that succeeds. -/
  size : Option Int64
  /-- `st_mtime` of `stat`, if that succeeds. -/
  mtime : Option Int64
  /-- `tv_sec` and `tv_nsec`. -/
  clock : Option (Int64 × Int64)
  /-- `getaddrinfo`: for each address, whether there is a socket for it and whether it connects. -/
  addresses : (host : Option (List UInt8)) → (port : UInt64) → (numeric : Bool) →
    Except String (List (Bool × Bool))
  socket : Bool
  setsockopt : Bool
  bindListen : Bool
  accept : Bool
  close : Bool
  /-- Whether `readdir` lists a directory to its end. -/
  lists : Bool

/-- How an effect ends: what it returns or raises, and what it has changed. -/
structure Done where
  result : Except Stop NatVal
  world : World
  /-- The bytes that read calls delivered. -/
  delivered : List UInt8 := []
  /-- The bytes that write calls took. -/
  handed : List UInt8 := []
  /-- The places that calls on the path opened, inspected or made. -/
  touched : List Loc := []

namespace World

variable (w : World)

/-- The lowest number that no descriptor has. -/
def lowest : Nat :=
  ((List.range (w.fds.length + 1)).find? fun n => (w.fds.lookup n).isNone).getD w.fds.length

def openFd (d : Desc) : World := { w with fds := (w.lowest, d) :: w.fds }

def closeFd (n : Nat) : World := { w with fds := w.fds.filter (·.1 ≠ n) }

/-- Write to a descriptor. -/
def output (n : Nat) (b : List UInt8) : World :=
  { w with fds := w.fds.map fun
      | (m, .stream written) => (m, .stream (if m = n then written ++ b else written))
      | e => e }

/-- `ax_fd_acquire` -/
def acquire (h : Nat) : World × Option Nat :=
  let (T, fd) := w.table.acquire h true
  ({ w with table := T }, fd.map Int.toNat)

/-- `ax_fd_finish_close` -/
def finishClose (h : Nat) (fd : Int) : World :=
  { w.closeFd fd.toNat with table := w.table.finishClose h }

/-- `ax_fd_release` -/
def release (h : Nat) : World :=
  match w.table.release h with
  -- the last reference closes the descriptor
  | (T, .last fd) => { w with table := T }.finishClose h fd
  | (T, _) => { w with table := T }

/-- `ax_fd_add` -/
def add (fd : Nat) : World × Option Nat :=
  let (T, h) := w.table.add fd
  ({ w with table := T }, h)

def returns (v : NatVal) : Done := { result := .ok v, world := w }

/-- `pl_raise_msg` -/
def raises (msg : String) : Done := { result := .error (.raise msg), world := w }

end World

/-- What `rp_want_nat` raises. -/
def unknownOp : String := "unknown actor/net op"

/-- `rp_want_nat`, in front of the rest of a body. -/
def rpWantNat (w : World) (a : Option CNat) (k : CNat → Done) : Done :=
  match a with
  | some v => k v
  | none => w.raises unknownOp

/-- `pl_nat_coerce` -/
def natCoerce (a : Option CNat) : NatVal := (a.map Subtype.val).getD (.direct 0)

/-- The clamp that `Input` and `Read` put on a count. -/
def readMax (v : NatVal) : Nat := min v.u64Clamp.toNat (2 ^ 26)

/-- One `read`, made again while it is interrupted. -/
def readOnce (n : Nat) : List Packet → Option (List UInt8)
  -- `EINTR`
  | .intr :: src => readOnce n src
  | src =>
    match read n src with
    | (.got b, _) => some b
    | _ => none

section

variable (fresh : Nat → UInt64) (w : World) (os : Answers)

/-- `pl_op82_input` -/
def input (a : Option CNat) : Done :=
  match w.acquire 0 with
  | (w, none) => w.raises "Input: closed"
  | (w, some _) =>
    let w := w.release 0
    match readOnce (readMax (natCoerce a)) os.reads with
    | none => w.raises "Input: read failed"
    | some b => { result := rpBar fresh b, world := w, delivered := b }

/-- The end of `rp_output_fd`, `pl_op82_print` and `pl_op82_write`. -/
def writeHandle (handle : Nat) (b : List UInt8) (closed failed : String) : Done :=
  match w.acquire handle with
  | (w, none) => w.raises closed
  | (w, some fd) =>
    let (ok, taken) := writeAll os.writes b
    -- what was taken before a failure stays written
    let w := (w.output fd taken).release handle
    if ok then { w.returns (.direct 0) with handed := taken }
    else { w.raises failed with handed := taken }

/-- `rp_output_fd` -/
def outputFd (handle : Nat) (a : Option CNat) : Done :=
  writeHandle w os handle (rpNatBytes (natCoerce a) true) "Output: closed" "Output: write failed"

/-- `pl_op82_output` -/
def output (a : Option CNat) : Done := outputFd w os 1 a

/-- `pl_op82_warn` -/
def warn (a : Option CNat) : Done := outputFd w os 2 a

/-- `pl_op82_print` -/
def print (a : Option CNat) : Done :=
  rpWantNat w a fun v =>
    writeHandle w os 1 (rpNatBytes v.1 false) "Print: closed" "Print: write failed"

/-- The buffer of `pl_op82_read_file`: behind what was read is what the memory held. -/
def fileBuffer (garbage : Nat → UInt8) (size : Nat) (b : List UInt8) : List UInt8 :=
  b ++ (List.range (size - b.length)).map garbage

/-- `pl_op82_read_file` -/
def readFile (garbage : Nat → UInt8) (a : Option CNat) : Done :=
  rpWantNat w a fun v =>
    match rpResolveReadPath w.toFiles (rpNatPath v.1) with
    -- a path outside the root, or no file there
    | none => w.returns (.direct 0)
    | some path =>
      match w.openRead path with
      | none => w.returns (.direct 0)
      | some l =>
        if !os.opens then { w.returns (.direct 0) with touched := [l] }
        else
          -- The descriptor is closed again on every way out.
          match os.size with
          | none => { w.returns (.direct 0) with touched := [l] }
          | some size =>
            if size < 0 then { w.returns (.direct 0) with touched := [l] }
            else
              -- reads stop at this size, or earlier at the end of the file
              let size := size.toUInt64.toNat
              match readAll size os.reads with
              | none => { w.returns (.direct 0) with touched := [l] }
              | some b =>
                { result := do
                    assume (size + 1 ≤ ptrdiffMax) "oom"
                    rpBar fresh (fileBuffer garbage size b)
                  world := w
                  delivered := b
                  touched := [l] }

/-- `pl_op82_write_file` -/
def writeFile (a b : Option CNat) : Done :=
  rpWantNat w a fun v =>
    match rpResolveWritePath w.toFiles (rpNatPath v.1) with
    | none => w.returns (.direct 0)
    | some path =>
      match w.openWrite path with
      | none => w.returns (.direct 0)
      | some l =>
        if !os.opens then w.returns (.direct 0)
        else
          let fd := w.lowest
          -- opening truncates the file, before the second argument is looked at
          let w := { w with fs := w.fs.write l [] }.openFd (.file l)
          let done := rpWantNat w b fun v =>
            let (ok, taken) := writeAll os.writes (rpNatBytes v.1 true)
            let w := { w with fs := w.fs.write l taken }
            if !ok then { w.raises "WriteFile: failed to write file" with handed := taken }
            else
              { result := do
                  assume os.close "failed to close file"
                  return .direct 1
                world := w.closeFd fd
                handed := taken }
          { done with touched := [l] }

/-- `pl_rplan_read_bat`, with the places it opens. -/
def rplanReadBat (room used : Nat) (v : CNat) : Except Stop Obj × List Loc :=
  match rpResolveReadPath w.toFiles (rpNatPath v.1) with
  | none => (readBat fresh room used none, [])
  | some path =>
    match w.openRead path with
    | none => (readBat fresh room used none, [])
    | some l => (readBat fresh room used (if os.opens then some os.reads else none), [l])

/-- Where `fstatat` gets from a directory by the name of an entry. Links are followed. -/
def rpFstatat (fs : Fs) (l : Loc) (c : Name) : Option Loc :=
  (walk fs.root false fs.maxLinks l [c]).toOption

/-- The loop of `rp_folder_items_read`: an item says where `fstatat` gets by its name, and
whether that is a folder. -/
def rpFolderItems (fs : Fs) (l : Loc) (es : List (Name × Node)) : List (Option Loc × Bool × Name) :=
  (es.filter fun e => e.1 ≠ dot ∧ e.1 ≠ dotdot).map fun e =>
    let place := rpFstatat fs l e.1
    (place, (place.bind fs.root.get).any Node.isDir, e.1)

/-- The loop of `rp_folder_row`. -/
def rpFolderRows (room : Nat) : List (Bool × Name) → List Obj → Except Stop (List Obj)
  | [], vs => .ok vs
  | (isFolder, name) :: items, vs => do
    let vs ← vpush room vs (.nat (.direct (if isFolder then 1 else 0)))
    let n ← fromBytes fresh name
    let vs ← vpush room vs (.nat n)
    let item ← mkAppFrom (.direct 0) (vs.drop (vs.length - 2))
    let vs ← vpush room (vs.take (vs.length - 2)) item
    rpFolderRows room items vs

/-- `pl_rplan_read_folder`, with the places it opens or looks at. A listing that fails may have
looked at any of them. -/
def rplanReadFolder (room : Nat) (v : CNat) : Except Stop Obj × List Loc :=
  match rpResolveReadPath w.toFiles (rpNatPath v.1) with
  | none => (.ok (.nat (.direct 0)), [])
  | some path =>
    match w.openDir path with
    | none => (.ok (.nat (.direct 0)), [])
    | some (l, es) =>
      let items := rpFolderItems w.fs l es
      let places := l :: items.filterMap Prod.fst
      if !os.opens then (.ok (.nat (.direct 0)), [l])
      -- too many entries for a row, or the listing broke off
      else if !os.lists || items.length ≥ 2 ^ 32 - 2 then (.ok (.nat (.direct 0)), places)
      else if items = [] then (.ok (.nat (.direct 0)), places)
      else (rpFolderRows fresh room (items.map Prod.snd) [] >>= mkAppFrom (.direct 0), places)

/-- `pl_op82_stamp` -/
def stamp (a : Option CNat) : Done :=
  rpWantNat w a fun v =>
    match rpResolveReadPath w.toFiles (rpNatPath v.1) with
    | none => w.returns (.direct 0)
    | some path =>
      match w.openRead path with
      | none => w.returns (.direct 0)
      | some l =>
        match os.mtime with
        | none => { w.returns (.direct 0) with touched := [l] }
        | some mtime => { w.returns (.direct mtime.toUInt64) with touched := [l] }

/-- `pl_op82_now` -/
def now : Done :=
  match os.clock with
  | none => w.raises "Now: clock failed"
  | some (sec, nsec) =>
    let sec := sec.toUInt64
    let nsec := nsec.toUInt64
    -- the product and the sum are checked at once
    if sec > (0xffffffffffffffff - nsec) / 1000000000 then w.raises "Now: timestamp overflow"
    else w.returns (mkNatU64 (sec * 1000000000 + nsec))

/-- `pl_op82_closefd` -/
def closefd (a : Option CNat) : Done :=
  rpWantNat w a fun v =>
    let h := v.1.u64Clamp.toNat
    match w.table.close h with
    | (T, .failed _) => { w with table := T }.raises "CloseFd: bad handle"
    -- someone else still uses the descriptor
    | (T, .deferred) => { w with table := T }.returns (.direct 0)
    | (T, .aborted) =>
      { result := .error (.assume "live fd slot has no owner reference"), world := { w with table := T } }
    | (T, .last fd) =>
      let w := { w with table := T }.finishClose h fd
      if os.close then w.returns (.direct 0) else w.raises "CloseFd: bad handle"

/-- The loop of `pl_op82_connect` over the addresses: the world, the last value of `fd` (-1 is
`none`), and whether it is connected. -/
def tryConnect (w : World) (fd : Option Nat) : List (Bool × Bool) → World × Option Nat × Bool
  | [] => (w, fd, false)
  -- no socket for this address
  | (false, _) :: rest => tryConnect w none rest
  | (true, connects) :: rest =>
    let fd := w.lowest
    if connects then (w.openFd (.stream []), some fd, true)
    -- the descriptor is closed again, and its number kept in `fd`
    else tryConnect ((w.openFd .socket).closeFd fd) (some fd) rest

/-- A handle for a new descriptor, or an exception. -/
def addHandle (w : World) (fd : Nat) (full : String) : Done :=
  match w.add fd with
  | (w, some h) => w.returns (.direct (UInt64.ofNat h))
  | (w, none) => (w.closeFd fd).raises full

/-- `pl_op82_connect`. A host that is no string is `NULL`. -/
def connect (a b c : Option CNat) : Done :=
  rpWantNat w a fun isDns => rpWantNat w c fun port => rpWantNat w b fun host =>
    let numeric := isDns.1 != .direct 1
    match os.addresses (Canon.tagName host.1.val) port.1.u64Clamp numeric with
    | .error msg => w.raises msg
    | .ok addrs =>
      match tryConnect w none addrs with
      -- whatever `fd` was last is closed, if it is anything
      | (w, fd, false) => (fd.elim w w.closeFd).raises "connect: failed"
      | (w, some fd, true) => addHandle w fd "Connect: fd table full"
      | (w, none, true) => w.raises "Connect: bad fd"

/-- `pl_op82_listen` -/
def listen (a : Option CNat) : Done :=
  rpWantNat w a fun port =>
    if !os.socket then w.raises "Listen: socket failed"
    else
      let fd := w.lowest
      if !os.setsockopt then ((w.openFd .socket).closeFd fd).raises "Listen: setsockopt failed"
      else if !os.bindListen then
        ((w.openFd .socket).closeFd fd).raises "Listen: bind/listen failed"
      else addHandle (w.openFd (.listening port.1.u64Clamp.toUInt16)) fd "Listen: fd table full"

/-- `pl_op82_accept` -/
def accept (a : Option CNat) : Done :=
  rpWantNat w a fun v =>
    let h := v.1.u64Clamp.toNat
    match w.acquire h with
    | (w, none) => w.raises "Accept: bad handle"
    | (w, some _) =>
      if !os.accept then (w.release h).raises "Accept: accept failed"
      else
        let fd := w.lowest
        -- the listening handle is released before the new one is added
        addHandle ((w.openFd (.stream [])).release h) fd "Accept: fd table full"

/-- `pl_op82_read` -/
def readFd (a b : Option CNat) : Done :=
  rpWantNat w a fun v => rpWantNat w b fun count =>
    let h := v.1.u64Clamp.toNat
    match w.acquire h with
    | (w, none) => w.raises "Read: bad handle"
    | (w, some _) =>
      let w := w.release h
      match readOnce (readMax count.1) os.reads with
      | none => w.raises "Read: read failed"
      -- the end of the stream is no bar
      | some [] => w.returns (.direct 0)
      | some (c :: b) => { result := rpBar fresh (c :: b), world := w, delivered := c :: b }

/-- `pl_op82_write` -/
def writeFd (a b : Option CNat) : Done :=
  rpWantNat w a fun v => rpWantNat w b fun bytes =>
    writeHandle w os v.1.u64Clamp.toNat (rpNatBytes bytes.1 true) "Write: bad handle"
      "Write: write failed"

end

/-- The direct effects. -/
inductive Effect where
  | input | output | warn | readFile | writeFile | print | stamp | now | closeFd | listen | accept
  | read | write | connect
  deriving DecidableEq

/-- What fresh memory holds: limbs of a natural, and the bytes of a buffer. -/
structure Env where
  fresh : Nat → UInt64
  garbage : Nat → UInt8

/-- Run the body of an effect on arguments. -/
def Effect.run (e : Effect) (env : Env) (w : World) (os : Answers) (arg : Nat → Option CNat) : Done :=
  match e with
  | input => Rplan.input env.fresh w os (arg 0)
  | output => Rplan.output w os (arg 0)
  | warn => Rplan.warn w os (arg 0)
  | readFile => Rplan.readFile env.fresh w os env.garbage (arg 0)
  | writeFile => Rplan.writeFile w os (arg 0) (arg 1)
  | print => Rplan.print w os (arg 0)
  | stamp => Rplan.stamp w os (arg 0)
  | now => Rplan.now w os
  | closeFd => Rplan.closefd w os (arg 0)
  | listen => Rplan.listen w os (arg 0)
  | accept => Rplan.accept w os (arg 0)
  | read => Rplan.readFd env.fresh w os (arg 0) (arg 1)
  | write => Rplan.writeFd w os (arg 0) (arg 1)
  | connect => Rplan.connect w os (arg 0) (arg 1) (arg 2)

end Enki.Rplan
