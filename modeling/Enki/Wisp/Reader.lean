import Enki.Lib.LittleEndian
import Enki.Ops
import Enki.Value

/-!
# The Wisp reader

`en_wisp_parse` of `wisp.c` and what it calls. The text is what the cursor points to; it ends
where the list does, or at a zero byte. Reading returns a value and where the cursor is then,
or fails with a message; `none` is a reading that was not given enough fuel.
-/

namespace Enki.Wisp.Reader

open LittleEndian

/-- `char_class` -/
inductive CharClass where
  | eof
  | ws
  | str
  | close
  | par
  | bra
  | cur
  | sym
  deriving DecidableEq

/-- `en_class` -/
def enClass (c : UInt8) : CharClass :=
  if c = 0 then .eof
  -- a comment begins a gap
  else if c = ' '.toUInt8 ∨ c = '\n'.toUInt8 ∨ c = ';'.toUInt8 then .ws
  else if c = '"'.toUInt8 then .str
  else if c = ')'.toUInt8 ∨ c = ']'.toUInt8 ∨ c = '\x7d'.toUInt8 then .close
  else if c = '('.toUInt8 then .par
  else if c = '['.toUInt8 then .bra
  else if c = '\x7b'.toUInt8 then .cur
  else .sym

/-- `*cur_c` -/
def peek (cs : List UInt8) : UInt8 := cs.headD 0

/-- Whether a byte of a comment is followed by more of it. -/
def inComment (c : UInt8) : Bool := c ≠ '\n'.toUInt8 && c ≠ 0

/-- `en_eat`; what it returns is whether the text is at its end. -/
def eat : List UInt8 → List UInt8
  | [] => []
  | c :: cs =>
    if c = ';'.toUInt8 then eat (cs.dropWhile inComment)
    else if c = ' '.toUInt8 ∨ c = '\n'.toUInt8 then eat cs
    else c :: cs
termination_by cs => cs.length
decreasing_by
  · have := (List.dropWhile_sublist inComment (l := cs)).length_le
    simp only [List.length_cons]
    omega
  · simp

/-- What a reading comes to. -/
abbrev Reading (α : Type) := Option (Except String (α × List UInt8))

namespace Reading

variable {α β : Type}

def fail (msg : String) : Reading α := some (.error msg)

def done (a : α) (cs : List UInt8) : Reading α := some (.ok (a, cs))

/-- On from the cursor. -/
def andThen (x : Reading α) (k : α → List UInt8 → Reading β) : Reading β :=
  match x with
  | some (.ok (a, cs)) => k a cs
  | some (.error msg) => fail msg
  | none => none

end Reading

/-- `en_app_make` with a natural for the function, which takes no arguments. -/
def app (fn : Nat) (args : List Val) : Val := .app 0 (.nat fn) args

/-- `en_quote` -/
def quote (v : Val) : Val := app 1 [v]

/-- `en_bytes_nat` -/
def bytesNat (s : List UInt8) : Val := .nat (toNat s)

/-- Whether a byte of a string is followed by more of it. -/
def inString (c : UInt8) : Bool := enClass c ≠ .str && enClass c ≠ .eof

/-- `en_parse_str`, after the quote. -/
def parseStr (cs : List UInt8) : Reading Val :=
  match cs.dropWhile inString with
  | [] => .fail "unterminated string"
  | c :: rest =>
    if enClass c = .eof then .fail "unterminated string"
    else .done (quote (bytesNat (cs.takeWhile inString))) rest

/-- `en_is_close` -/
def isClose (c : UInt8) : Bool := c = ')'.toUInt8 || c = ']'.toUInt8 || c = '\x7d'.toUInt8

/-- `en_is_gap` -/
def isGap (c : UInt8) : Bool := c = ' '.toUInt8 || c = '\n'.toUInt8 || c = ';'.toUInt8

def isDigit (c : UInt8) : Bool := '0'.toUInt8 ≤ c && c ≤ '9'.toUInt8

/-- `pl_nat_from_decimal`, of digits. -/
def fromDecimal (s : List UInt8) : Nat := s.foldl (fun n c => 10 * n + (c.toNat - 48)) 0

/-- `en_parse_sym`, of the run of symbol characters. -/
def symbol (s : List UInt8) : Val :=
  -- a number is quoted, any other symbol stands for itself
  if s.all isDigit then quote (.nat (fromDecimal s)) else bytesNat s

/-- `en_parse_par`, of the items. -/
def par (items : List Val) : Val := if items.isEmpty then .nat 0 else app 0 items

/-- `en_parse_seq`, of the items. -/
def seq (tag : String) (items : List Val) : Val := app 0 (.nat (OpDesc.mote tag) :: items)

/-- What an opening delimiter or a quote begins, given how items are read. -/
def group (items : List UInt8 → Reading (List Val)) (cs : List UInt8) :
    CharClass → Option (Reading Val)
  | .par => some ((items cs).andThen fun vs rest => .done (par vs) rest)
  | .bra => some ((items cs).andThen fun vs rest => .done (seq "#brak" vs) rest)
  | .cur => some ((items cs).andThen fun vs rest => .done (seq "#curl" vs) rest)
  | .str => some (parseStr cs)
  | _ => none

/-- A byte of a symbol. -/
def isSym (c : UInt8) : Bool := enClass c = .sym

/-- `en_parse_atom` -/
def parseAtom (items : List UInt8 → Reading (List Val)) (cs : List UInt8) : Reading Val :=
  let sym := symbol (cs.takeWhile isSym)
  let rest := cs.dropWhile isSym
  match group items rest.tail (enClass (peek rest)) with
  -- something opens right behind the symbol
  | some juxt =>
    juxt.andThen fun v rest => .done (app 0 [.nat (OpDesc.mote "#juxt"), sym, v]) rest
  | none => .done sym rest

/-- The switch of `en_wisp_parse`. -/
def dispatch (items : List UInt8 → Reading (List Val)) (cs : List UInt8) : CharClass → Reading Val
  | .eof | .ws => .fail "eof"
  | .close => .fail "unexpected closing delimiter"
  | .sym => parseAtom items cs
  | k => (group items cs.tail k).getD (.fail "eof")

mutual

/-- `en_wisp_parse` -/
def parse : Nat → List UInt8 → Reading Val
  | 0, _ => none
  | n + 1, cs =>
    let cs := eat cs
    dispatch (parseItems n true) cs (enClass (peek cs))

/-- The loop of `en_parse_items`; `first` until an item has been read. -/
def parseItems : Nat → Bool → List UInt8 → Reading (List Val)
  | 0, _, _ => none
  | n + 1, first, cs =>
    if peek cs = 0 then .fail "eof in list"
    else if isClose (peek cs) then .done [] cs.tail
    -- items are kept apart by gaps
    else if !first && !isGap (peek cs) then .fail "bad list"
    else
      let item := fun cs => (parse n cs).andThen fun v cs =>
        (parseItems n false cs).andThen fun vs cs => .done (v :: vs) cs
      if first then item cs
      else
        -- the gap may lead to the end of the list
        let cs := eat cs
        if peek cs = 0 then .fail "eof in list"
        else if isClose (peek cs) then .done [] cs.tail
        else item cs

end

end Enki.Wisp.Reader
