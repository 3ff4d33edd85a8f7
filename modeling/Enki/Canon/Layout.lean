import Enki.Canon.Naming

/-!
# Layout

The renderer of `plan/src/canon.c`. What fits is printed flat, on one line; the rest is
broken, each line packed greedily. A flat rendering that has grown too wide is replaced by a
placeholder as soon as that is known, and only its width is looked at from then on.

`docText` is the text of a document with its gaps left open: the places where a line may be
broken, none of them inside a name, a string or a number.
-/

namespace Enki.Canon

/-! ## The renderer -/

/-- A text as it is printed on one line, and from a column on where it may take several. -/
structure Rendering where
  flat : Name
  wide : Nat → Name

/-- `cn_overwide` -/
def overwide : Name := '('.toUInt8 :: List.replicate 4094 'x'.toUInt8

/-- `cn_sb_build_flat` -/
def buildFlat (maxw : Nat) (s : Name) : Name := if maxw < s.length then overwide else s

/-- `cn_nl` -/
def nl (col : Nat) : Name := '\n'.toUInt8 :: List.replicate col ' '.toUInt8

/-- `cn_num_str` -/
def numStr (n : Nat) : Name := decimal n

/-- The escapes of `cn_str_show`. -/
def escape (b : UInt8) : Name :=
  if b = '\\'.toUInt8 then text "\\\\"
  else if b = '\n'.toUInt8 then text "\\n"
  else [b]

/-- `cn_str_show` -/
def strShow (n : Nat) : Name := text "\"" ++ (natBytes n).flatMap escape ++ text "\""

/-- `cn_is_delimited` -/
def isDelimited (s : Name) : Bool :=
  s.head? = some '('.toUInt8 || s.head? = some '['.toUInt8 || s.head? = some '\x7b'.toUInt8

/-- `cn_wrap`, and the same where the right-hand side is wide. -/
def wrap (s : Name) : Name :=
  if s.head? = some '('.toUInt8 then s else text "(" ++ s ++ text ")"

/-- Texts, each after a space. -/
def spaced (ss : List Name) : Name := ss.flatMap (text " " ++ ·)

/-- Texts with a space between them. -/
def unwords (ss : List Name) : Name := (text " ").intercalate ss

namespace Rendering

variable (maxw : Nat)

/-- `cn_pp` -/
def pp (col : Nat) (r : Rendering) : Name := if r.flat.length ≤ maxw then r.flat else r.wide col

/-- `cn_take_fitting`, `cn_take_exprs`: how many fit. -/
def takeFitting (budget : Int) : List Rendering → Nat
  | [] => 0
  | x :: xs =>
    if budget < x.flat.length then 0 else takeFitting (budget - (x.flat.length + 1)) xs + 1

/-- `cn_pack_lines`, `cn_pack_exprs` -/
def packLines (col : Nat) : List Rendering → Name
  | [] => []
  | x :: xs =>
    let taken := takeFitting (maxw - col) (x :: xs)
    -- a text too wide for any line is broken on one of its own
    if taken = 0 then nl col ++ x.wide col ++ packLines col xs
    else
      nl col ++ unwords (((x :: xs).take taken).map flat) ++ packLines col (xs.drop (taken - 1))
termination_by xs => xs.length

/-- The arguments of `cn_wide_app` and `cn_wide_expr`, after the head. -/
def wideArgs (col : Nat) (head : Name) (args : List Rendering) : Name :=
  -- the line of the head is filled first
  let taken := takeFitting (maxw - col - head.length) args
  match args with
  | [] => []
  | x :: xs =>
    if taken = 0 then nl col ++ x.wide col ++ packLines maxw col xs
    else
      text " " ++ unwords ((args.take taken).map flat) ++ packLines maxw col (args.drop taken)

end Rendering

/-- An expression of a law's body, taken apart: `cn_expr_spine`. -/
structure Spine where
  head : Rendering
  /-- The arguments, the last one first. -/
  revArgs : List Rendering

/-- `cn_flat_expr`, `cn_wide_expr` -/
def Spine.rendering (maxw : Nat) (s : Spine) : Rendering :=
  let args := s.revArgs.reverse
  if args.isEmpty then s.head
  else
    let flat := buildFlat maxw
      (text "(" ++ s.head.flat ++ spaced (args.map Rendering.flat) ++ text ")")
    ⟨flat, fun ec =>
      if flat.length ≤ maxw then flat
      else
        let head := s.head.wide (ec + 1)
        text "(" ++ head ++ Rendering.wideArgs maxw (ec + 2) head args ++ text ")"⟩

section

variable (maxw : Nat)

/-- `cn_pp_flat`, `cn_pp_wide` of a PIN. -/
def renderPin (inner : Rendering) : Rendering :=
  ⟨text "(#pin " ++ inner.flat ++ text ")",
    fun col => text "(#pin " ++ inner.pp maxw (col + 6) ++ text ")"⟩

/-- `cn_pp_flat` of an application, and `cn_wide_app`. -/
def renderApp (head : Rendering) (args : List Rendering) : Rendering :=
  ⟨buildFlat maxw
      (text "(" ++ head.flat ++ text " " ++ unwords (args.map Rendering.flat) ++ text ")"),
    fun col =>
      let sf := head.pp maxw (col + 1)
      text "(" ++ sf ++ Rendering.wideArgs maxw (col + 2) sf args ++ text ")"⟩

/-- `cn_flat_head`, `cn_wide_head` of a constant that is an application. -/
def renderConstApp (head : Rendering) (args : List Rendering) : Rendering :=
  let flat := buildFlat maxw
    (text "(#app " ++ head.flat ++ spaced (args.map Rendering.flat) ++ text ")")
  ⟨flat, fun ec =>
    -- unlike an application, this looks at the column
    if ec + flat.length ≤ maxw then flat
    else
      text "(#app " ++ head.pp maxw (ec + 6) ++
        args.flatMap (fun a => nl (ec + 2) ++ a.pp maxw (ec + 2)) ++ text ")"⟩

/-- The same of another constant. -/
def renderConst (doc : Rendering) : Rendering := ⟨doc.flat, fun ec => doc.pp maxw ec⟩

/-- The same of a natural that is no variable. -/
def renderEsc (doc : Rendering) : Rendering :=
  if isDelimited doc.flat then ⟨text "#" ++ doc.flat, fun ec => text "#" ++ doc.pp maxw (ec + 1)⟩
  else
    ⟨text "#(" ++ doc.flat ++ text ")", fun ec => text "#(" ++ doc.pp maxw (ec + 2) ++ text ")"⟩

/-- `cn_flat_law`, `cn_wide_law` -/
def renderLaw (tag : Rendering) (self : Name) (args : List Name) (lets : List (Name × Rendering))
    (body : Rendering) : Rendering :=
  let sig := text "(" ++ self ++ spaced args ++ text ")"
  let flatLets := lets.flatMap fun l => text " " ++ l.1 ++ wrap l.2.flat
  ⟨buildFlat maxw
      (text "(#law " ++ tag.flat ++ text " " ++ sig ++ flatLets ++ text " " ++ body.flat ++
        text ")"),
    fun col =>
      let header := text "(#law " ++ tag.pp maxw (col + 6) ++ text " " ++ sig
      let flatBody := buildFlat maxw (flatLets ++ text " " ++ body.flat)
      -- bindings and body on the line of the header, if all of them fit
      if col + header.length + flatBody.length + 1 ≤ maxw then header ++ flatBody ++ text ")"
      else
        header ++
          lets.flatMap (fun l => nl (col + 2) ++ l.1 ++ wrap (l.2.wide (col + 2 + l.1.length))) ++
          nl (col + 2) ++ body.wide (col + 2) ++ text ")"⟩

mutual

/-- `cn_pp_flat`, `cn_pp_wide` -/
def render : Doc Name → Rendering
  | .num n => ⟨numStr n, fun _ => numStr n⟩
  | .str n => ⟨strShow n, fun _ => strShow n⟩
  | .ref name => ⟨name, fun _ => name⟩
  | .pin inner => renderPin maxw (render inner)
  | .liquid => ⟨text "liquid", fun _ => text "liquid"⟩
  | .law tag self args lets body =>
    renderLaw maxw (render tag) self args (renderLets lets) ((renderExpr body).rendering maxw)
  | .app head args => renderApp maxw (render head) (renderDocs args)

def renderDocs : List (Doc Name) → List Rendering
  | [] => []
  | d :: ds => render d :: renderDocs ds

def renderLets : List (Name × Expr Name) → List (Name × Rendering)
  | [] => []
  | (name, e) :: lets => (name, (renderExpr e).rendering maxw) :: renderLets lets

/-- `cn_expr_spine`, with `cn_flat_head` and `cn_wide_head`. -/
def renderExpr : Expr Name → Spine
  | .var name => ⟨⟨name, fun _ => name⟩, []⟩
  | .const (.app head args) => ⟨renderConstApp maxw (render head) (renderDocs args), []⟩
  | .const doc => ⟨renderConst maxw (render doc), []⟩
  | .esc doc => ⟨renderEsc maxw (render doc), []⟩
  -- applications are taken apart from the last argument on
  | .app f x =>
    let s := renderExpr f
    ⟨s.head, (renderExpr x).rendering maxw :: s.revArgs⟩

end

/-- `cn_pp` -/
def pp (col : Nat) (d : Doc Name) : Name := (render maxw d).pp maxw col

end

/-! ## Texts with gaps -/

/-- A text with its gaps left open. -/
abbrev Gapped := List (Option UInt8)

/-- The text on one line. -/
def Gapped.flat (t : Gapped) : Name := t.map (·.getD ' '.toUInt8)

/-- A text without gaps. -/
def solid (s : Name) : Gapped := s.map some

/-- Texts, each after a gap. -/
def gapped (ts : List Gapped) : Gapped := ts.flatMap (none :: ·)

/-- Where `wrap` leaves a text as it is. -/
def Gapped.wrap (t : Gapped) : Gapped :=
  if t.head? = some (some '('.toUInt8) then t else solid (text "(") ++ t ++ solid (text ")")

/-- A number, a string or an application in brackets, after `#`. -/
def Gapped.escaped (t : Gapped) : Gapped :=
  if isDelimited t.flat then solid (text "#") ++ t
  else solid (text "#(") ++ t ++ solid (text ")")

/-- An expression from its head and its arguments, the last one first. -/
def spineText (s : Gapped × List Gapped) : Gapped :=
  if s.2.reverse.isEmpty then s.1
  else solid (text "(") ++ s.1 ++ gapped s.2.reverse ++ solid (text ")")

mutual

/-- The text of a document, however wide. -/
def docText : Doc Name → Gapped
  | .num n => solid (numStr n)
  | .str n => solid (strShow n)
  | .ref name => solid name
  | .pin inner => solid (text "(#pin ") ++ docText inner ++ solid (text ")")
  | .liquid => solid (text "liquid")
  | .law tag self args lets body =>
    solid (text "(#law ") ++ docText tag ++
      solid (text " (" ++ self ++ spaced args ++ text ")") ++ letsText lets ++
      none :: spineText (exprText body) ++ solid (text ")")
  | .app head args =>
    solid (text "(") ++ docText head ++ gapped (docsTexts args) ++ solid (text ")")

def docsTexts : List (Doc Name) → List Gapped
  | [] => []
  | d :: ds => docText d :: docsTexts ds

def letsText : List (Name × Expr Name) → Gapped
  | [] => []
  | (name, e) :: lets => none :: solid name ++ (spineText (exprText e)).wrap ++ letsText lets

/-- The head of an expression and its arguments, the last one first. -/
def exprText : Expr Name → Gapped × List Gapped
  | .var name => (solid name, [])
  | .const (.app head args) =>
    (solid (text "(#app ") ++ docText head ++ gapped (docsTexts args) ++ solid (text ")"), [])
  | .const doc => (docText doc, [])
  | .esc doc => ((docText doc).escaped, [])
  | .app f x => ((exprText f).1, spineText (exprText x) :: (exprText f).2)

end

/-! ## The entry points -/

/-- What a printer is given: a value that is no PIN, or a PIN with its body. -/
inductive Top where
  | value (v : Value)
  | pin (p : Pin) (body : Value)

/-- `cn_app1_doc` of `#pin` -/
def pinnedDoc (doc : Doc Name) : Doc Name := .app (.ref (text "#pin")) [doc]

/-- The document of `pl_canonize`. -/
def bindDoc (doc : Doc Name) : Doc Name :=
  .app (.ref (text "#bind")) [.ref (text "_"), pinnedDoc doc]

/-- The document of `pl_show_val`. -/
def shownDoc : Top → Option (Doc Name)
  | .value v => (pipeline v).map (·.2)
  | .pin p body =>
    if p.hash.isSome then (pipeline body).map (pinnedDoc ·.2) else (pipeline (.pin p)).map (·.2)

/-- `pl_show_val` -/
def showVal (t : Top) : Option Name := (shownDoc t).map (pp 50 0)

/-- What `pl_canonize` prints of a PIN is its body. -/
def Top.inner : Top → Value
  | .value v | .pin _ v => v

/-- The line of a global. -/
def globalLine (maxlen : Nat) (g : PinRef × Name) : Name :=
  let b58 := base58 g.1.hash.bytes
  text "@" ++ b58 ++ List.replicate (maxlen - b58.length) ' '.toUInt8 ++ text " (#bind " ++ g.2 ++
    text " _)\n"

/-- The lines of the globals of `pl_canonize`, in the order in which the value has them. -/
def globalLines (pins : List PinRef) (names : List (PinRef × Name)) : Name :=
  -- the names stand in one column
  let maxlen := (pins.map fun p => (base58 p.hash.bytes).length).foldl max 0
  (pins.filterMap fun p => (names.lookup p).map (p, ·)).flatMap (globalLine maxlen)

/-- `pl_canonize` -/
def canonize (t : Top) : Option Name := do
  let (names, doc) ← pipeline t.inner
  return globalLines (collectDoc {} (extract t.inner)).pins names ++ pp 80 0 (bindDoc doc) ++
    text "\n(#export _)\n"

end Enki.Canon
