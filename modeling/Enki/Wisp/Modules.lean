import Enki.Lib.AssocList
import Enki.Lib.LittleEndian

/-!
# The module loader

`boot_process_file`, `boot_load_module` and `boot_process_form` of `app/wisp.c` with the
list functions below them. A file is the sequence of its parsed forms. Evaluation is a
parameter: it may change the environment and whatever else there is (`S`), or fail with a
jump out of the loader; every request to the allocator is answered by `calloc`.

The environments under construction are roots in an array of `BOOT_TMP_ENV_CAP` places,
and `room` is how many of them are free. An empty environment is the null pointer, as is
the environment that could not be had.
-/

namespace Enki.Boot

open AssocList

/-! ## Names -/

/-- A C string. -/
structure Name where
  bytes : List UInt8
  zero_notMem : 0 ∉ bytes
  deriving DecidableEq

/-- `en_string_nat` -/
def Name.key (name : Name) : Nat := LittleEndian.toNat name.bytes

/-- `boot_ok_file_char` -/
def okFileChar (c : UInt8) : Bool :=
  (48 ≤ c && c ≤ 57) || (65 ≤ c && c ≤ 90) || (97 ≤ c && c ≤ 122) || c == 95 || c == 45

/-- `boot_ok_module_name` -/
def okModuleName (name : Name) : Bool := !name.bytes.isEmpty && name.bytes.all okFileChar

theorem zero_notMem_of_ok {bs : List UInt8} (h : bs.all okFileChar = true) : 0 ∉ bs := by
  intro hmem
  exact absurd (List.all_eq_true.mp h 0 hmem) (by decide)

/-! ## Environments -/

/-- The entries from the head of the list on: key, value and macro flag. -/
structure Env (V : Type) where
  entries : List (Nat × (V × Bool))
  nodup : (keys entries).Nodup

namespace Env

variable {V : Type}

/-- The null pointer. -/
def null : Env V := ⟨[], List.nodup_nil⟩

def isNull (env : Env V) : Bool := env.entries.isEmpty

/-- `boot_env_find`, the value of the entry. -/
def get (env : Env V) (key : Nat) : Option (V × Bool) := env.entries.lookup key

def put (env : Env V) (key : Nat) (val : V × Bool) : Env V :=
  ⟨AssocList.put key val env.entries, nodup_put env.nodup key val⟩

end Env

/-! ## The loader's state -/

/-- A form, as far as the loader tells forms apart. -/
inductive Form (T : Type) where
  | nat (n : Nat)
  | other (t : T)

/-- How the evaluation of a form ends. -/
inductive Verdict where
  | ok
  /-- `boot_process_form` returns false. -/
  | refused
  /-- `en_fail` -/
  | jump
  deriving DecidableEq

/-- What the loader is given. -/
structure BootCtx (T V S : Type) where
  /-- The forms of a file that can be read; `none` is where the parser fails. -/
  files : Name → Option (List (Option (Form T)))
  /-- `ax_calloc`: whether there is memory. -/
  calloc : S → Bool × S
  /-- `en_wisp_macroexpand`, `en_wisp_thunk` and the printing of the value. -/
  eval : Form T → Env V → S → Verdict × Env V × S

/-- A form was processed, in this environment. -/
structure Processed (V : Type) where
  mod : Name
  index : Nat
  before : Env V

/-- `boot_process_file` succeeded. -/
structure Included (V : Type) where
  mod : Name
  before : Env V
  after : Env V

/-- The registered modules, and what has happened, the last thing first. -/
structure Record (V : Type) where
  /-- `ctx->mod_v` -/
  modules : List (Nat × Env V) := []
  processed : List (Processed V) := []
  /-- The environments at the ends of files. -/
  ended : List (Name × Env V) := []
  included : List (Included V) := []

structure World (V S : Type) where
  env : Env V
  state : S
  record : Record V

inductive Result (α : Type) where
  | returns (a : α)
  /-- A jump to `main`, which reports the error. -/
  | jump
  /-- `ax_assertf(ctx->tmp_env_s < BOOT_TMP_ENV_CAP, "env root overflow")` failed. -/
  | abort
  deriving DecidableEq

variable {T V S : Type} (ctx : BootCtx T V S)

/-! ## Copies -/

/-- That many requests in turn, up to the first that is refused. -/
def requests : Nat → S → Bool × S
  | 0, s => (true, s)
  | n + 1, s =>
    let r := ctx.calloc s
    if r.1 then requests n r.2 else (false, r.2)

/-- `boot_env_clone` -/
def envClone (env : Env V) (s : S) : Env V × S :=
  let r := requests ctx env.entries.length s
  (if r.1 then env else .null, r.2)

/-- `boot_env_put` -/
def envPut (env : Env V) (src : Nat × (V × Bool)) (s : S) : Option (Env V) × S :=
  if src.1 ∈ keys env.entries then (some (env.put src.1 src.2), s)
  else
    let r := ctx.calloc s
    (if r.1 then some (env.put src.1 src.2) else none, r.2)

/-- The loop of `boot_env_merge`. -/
def envPutAll : List (Nat × (V × Bool)) → Env V → S → Option (Env V) × S
  | [], out, s => (some out, s)
  | e :: new, out, s =>
    match envPut ctx out e s with
    | (some out, s) => envPutAll new out s
    | (none, s) => (none, s)

/-- `boot_env_merge` -/
def envMerge (old new : Env V) (s : S) : Env V × S :=
  let r := envClone ctx old s
  -- the copy could not be had
  if !old.isNull && r.1.isNull then (.null, r.2)
  else
    let r := envPutAll ctx new.entries r.1 r.2
    (r.1.getD .null, r.2)

/-! ## Loading -/

/-- `boot_read_include` -/
def readInclude (form : Form T) (s : S) : Option Name × S :=
  match form with
  | .other _ => (none, s)
  | .nat n =>
    match LittleEndian.bytes (LittleEndian.byteLen n) n with
    -- `@` and a name
    | 64 :: c :: cs =>
      let r := ctx.calloc s
      (if h : r.1 ∧ (c :: cs).all okFileChar = true then
        some ⟨c :: cs, zero_notMem_of_ok h.2⟩ else none, r.2)
    | _ => (none, s)

/-- `boot_process_form`, where `inc` is `boot_process_file`. -/
def processForm (inc : Name → World V S → Result Bool × World V S) (form : Form T)
    (w : World V S) : Result Bool × World V S :=
  match readInclude ctx form w.state with
  | (some name, s) => inc name { w with state := s }
  | (none, s) =>
    let r := ctx.eval form w.env s
    let w := { w with env := r.2.1, state := r.2.2 }
    match r.1 with
    | .ok => (.returns true, w)
    | .refused => (.returns false, w)
    | .jump => (.jump, w)

/-- A form is taken up. -/
def World.takeUp (w : World V S) (name : Name) (index : Nat) : World V S :=
  { w with record.processed := ⟨name, index, w.env⟩ :: w.record.processed }

/-- The loop over the forms of a file. -/
def processForms (inc : Name → World V S → Result Bool × World V S) (name : Name) :
    Nat → List (Option (Form T)) → World V S → Result Bool × World V S
  | _, [], w => (.returns true, w)
  | _, none :: _, w => (.jump, w)
  | i, some form :: forms, w =>
    match processForm ctx inc form (w.takeUp name i) with
    | (.returns true, w) => processForms inc name (i + 1) forms w
    | r => r

/-- The end of `boot_load_module`. -/
def register (name : Name) (w : World V S) : Env V × World V S :=
  let w := { w with record.ended := (name, w.env) :: w.record.ended }
  let r := envClone ctx w.env w.state
  let w := { w with state := r.2 }
  if !w.env.isNull && r.1.isNull then (.null, w)
  else
    -- the module keeps a copy of its own
    let c := envClone ctx r.1 w.state
    let w := { w with state := c.2 }
    if !r.1.isNull && c.1.isNull then (.null, w)
    else
      let m := ctx.calloc w.state
      let w := { w with state := m.2 }
      if m.1 then
        (r.1, { w with record.modules := (name.key, c.1) :: w.record.modules })
      else (.null, w)

/-- `boot_load_module` -/
def loadModule (inc : Name → World V S → Result Bool × World V S) (name : Name)
    (w : World V S) : Result (Env V) × World V S :=
  if !okModuleName name then (.returns .null, w)
  else
    match w.record.modules.lookup name.key with
    -- loaded before: a copy of what was registered
    | some cached =>
      let r := envClone ctx cached w.state
      (.returns r.1, { w with state := r.2 })
    | none =>
      let path := ctx.calloc w.state
      match path.1, ctx.files name with
      | false, _ | true, none => (.returns .null, { w with state := path.2 })
      | true, some forms =>
        let text := ctx.calloc path.2
        if text.1 then
          -- modules load in an empty environment
          match processForms ctx inc name 0 forms { w with env := .null, state := text.2 } with
          | (.returns true, w) =>
            let r := register ctx name w
            (.returns r.1, r.2)
          | (.returns false, w) => (.returns .null, w)
          | (.jump, w) => (.jump, w)
          | (.abort, w) => (.abort, w)
        else (.returns .null, { w with state := text.2 })

/-- `boot_process_file` -/
def processFile (room : Nat) (name : Name) (w : World V S) : Result Bool × World V S :=
  let old := envClone ctx w.env w.state
  let before := w.env
  let w := { w with state := old.2 }
  if !before.isNull && old.1.isNull then (.returns false, w)
  else
    match room with
    -- no room for another root
    | 0 => (.abort, w)
    | room + 1 =>
      match loadModule ctx (processFile room) name w with
      | (.jump, w) => (.jump, w)
      | (.abort, w) => (.abort, w)
      | (.returns new, w) =>
        -- an empty module is the null pointer too, but it is registered
        if new.isNull && (w.record.modules.lookup name.key).isNone then (.returns false, w)
        else
          match room with
          | 0 => (.abort, w)
          | _ + 1 =>
            let merged := envMerge ctx old.1 new w.state
            let w := { w with state := merged.2 }
            if (!old.1.isNull || !new.isNull) && merged.1.isNull then (.returns false, w)
            else
              (.returns true, { w with
                env := merged.1
                record.included := ⟨name, before, merged.1⟩ :: w.record.included })

/-- `BOOT_TMP_ENV_CAP` -/
def tmpEnvCap : Nat := 256

/-- The state in which `boot_load_assembly` calls `boot_process_file`. -/
def boot (s : S) : World V S := ⟨.null, s, {}⟩

/-- `boot_load_assembly`, the part that loads. -/
def loadAssembly (name : Name) (s : S) : Result Bool × World V S :=
  processFile ctx tmpEnvCap name (boot s)

end Enki.Boot
