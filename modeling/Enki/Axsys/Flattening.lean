import Enki.Axsys.Pieces

/-!
# What a string builder builds

For every sequence of operations on any number of builders, with any requests
refused: a builder that has not failed flattens to the texts appended since its last
reset, in this order; one that failed keeps its pieces and refuses everything until it
is reset.
-/

namespace Enki.Axsys.Sb

/-! ## What is promised -/

/-- `len` bytes of memory. -/
def slice (mem : Nat → UInt8) (data len : Nat) : List UInt8 :=
  (List.range len).map fun i => mem (data + i)

namespace Op

/-- The builder an operation is called on. -/
def target : Op → Nat
  | .appendRef b _ _ | .appendCstr b _ | .appendChar b _ | .appendI64 b _ | .appendU64 b _
  | .appendU64Base b _ _ _ | .appendBuilder b _ | .reservePieces b _ | .reset b => b

def IsReset : Op → Prop
  | .reset _ => True
  | _ => False

def IsAppend : Op → Prop
  | .reset _ | .reservePieces _ _ => False
  | _ => True

/-- The text an operation asks for, where `texts` is what the builders stand for. -/
def appended (mem : Nat → UInt8) (texts : Nat → List UInt8) : Op → List UInt8
  | .appendRef _ data len => data.elim [] fun data => slice mem data len
  | .appendCstr _ cstr => cstr.elim [] fun cstr => slice mem cstr (strlen mem sizeMax cstr)
  | .appendChar _ c => [c]
  | .appendI64 _ value => signed value.toInt
  | .appendU64 _ value => numeral 10 false value.toNat
  | .appendU64Base _ value base uppercase => numeral base uppercase value.toNat
  | .appendBuilder _ other => other.elim [] texts
  | .reservePieces _ _ | .reset _ => []

/-- The arguments an operation has no reason to refuse. -/
def Legal (w : World) : Op → Prop
  | .appendRef _ data len => len ≠ 0 → data.isSome
  | .appendCstr _ cstr => cstr.isSome
  | .appendU64Base _ _ base _ => 2 ≤ base ∧ base ≤ 36
  | .appendBuilder _ other => ∃ o, other = some o ∧ (w.builder o).failed = false
  | _ => True

/-- How many more slots an operation may ask for. -/
def slots (w : World) : Op → Nat
  | .reservePieces _ additional => additional
  | .appendBuilder _ other => other.elim 0 fun o => (w.builder o).count
  | .reset _ => 0
  | _ => 1

end Op

/-- What the builders stand for after an operation. -/
def spell (mem : Nat → UInt8) (t : Nat → List UInt8) : Op → Nat → List UInt8
  | .reset b => Function.update t b []
  | op => Function.update t op.target (t op.target ++ op.appended mem t)

/-- The texts appended to each builder since its last reset. -/
def texts (mem : Nat → UInt8) (ops : List Op) : Nat → List UInt8 :=
  ops.foldl (spell mem) fun _ => []

/-- What flattening does with a builder that holds `text`. -/
structure Flattens (mem : Nat → UInt8) (w : World) (b : Nat) (text : List UInt8) : Prop where
  measure : measure w b = some (if text.length ≤ sizeMax then some text.length else none)
  /-- The text and a zero byte, and nothing after them. -/
  write : text.length < sizeMax → ∀ dst : List UInt8, text.length + 1 ≤ dst.length →
    write mem w b (some dst) =
      some ⟨true, text.length, some (text ++ 0 :: dst.drop (text.length + 1))⟩
  /-- A destination that is too small is left as it is. -/
  refuse : ∀ dst, sizeMax ≤ text.length ∨ (∀ bytes, dst = some bytes → bytes.length ≤ text.length) →
    Sb.write mem w b dst =
      some ⟨false, if text.length ≤ sizeMax then text.length else 0, dst⟩
  /-- The result is there unless its block is refused, or has no size. -/
  build : ∀ allocator block, (∀ n bytes, block n = some bytes → bytes.length = n) →
    buildWithAllocator mem w b allocator block =
      some (if allocatorOk allocator ∧ text.length < sizeMax ∧ (block (text.length + 1)).isSome
        then (some (text ++ [0]), text.length) else (none, 0))

/-- What flattening does with a builder that failed. -/
structure Refuses (mem : Nat → UInt8) (w : World) (b : Nat) : Prop where
  measure : Sb.measure w b = some none
  write : ∀ dst, Sb.write mem w b dst = some ⟨false, 0, dst⟩
  build : ∀ allocator block, buildWithAllocator mem w b allocator block = some (none, 0)

variable {env : Env} {w w' : World} {b : Nat} {ps : Nat → List Piece}

/-! ## The text of a piece -/

def Piece.text (mem : Nat → UInt8) : Piece → List UInt8
  | .ref data len => slice mem data len
  | .char c => [c]
  | .i64 v => signed v.toInt
  | .u64 v base uppercase => numeral base uppercase v.toNat

variable {mem : Nat → UInt8}

theorem slice_succ (mem : Nat → UInt8) (data len : Nat) :
    slice mem data (len + 1) = mem data :: slice mem (data + 1) len := by
  rw [slice, List.range_succ_eq_map, List.map_cons, List.map_map]
  refine congrArg _ (List.map_congr_left fun i _ => ?_)
  rw [Function.comp_apply, Nat.add_right_comm]
  rfl

@[simp] theorem slice_length (data len : Nat) : (slice mem data len).length = len := by
  rw [slice, List.length_map, List.length_range]

/-- The digit loops of the measure count what the others emit. -/
theorem Piece.len_eq {p : Piece} (hp : p.Valid) : p.len = some (p.text mem).length := by
  cases p with
  | ref data len => rw [Piece.len, Piece.text, slice_length]
  | char c => rfl
  | i64 v => exact i64Len_eq v
  | u64 v base uppercase => exact u64Len_eq hp.1 uppercase v

theorem measureLoop_cons {p : Piece} (hp : p.Valid) (qs : List Piece) (total : Nat) :
    measureLoop (p :: qs) total =
      if (p.text mem).length > sizeMax - total then some none
      else measureLoop qs (total + (p.text mem).length) := by
  cases p with
  | u64 v base uppercase =>
    rw [measureLoop, if_neg (by rw [Piece.Valid] at hp; omega), Piece.len_eq hp]
    rfl
  | _ =>
    rw [measureLoop, Piece.len_eq hp]
    · rfl
    · rintro _ _ _ ⟨⟩

theorem measureLoop_eq {qs : List Piece} (hqs : ∀ p ∈ qs, p.Valid) :
    ∀ {total : Nat}, total ≤ sizeMax →
      measureLoop qs total = some (if total + (qs.flatMap (Piece.text mem)).length ≤ sizeMax
        then some (total + (qs.flatMap (Piece.text mem)).length) else none) := by
  induction qs with
  | nil =>
    intro total htotal
    rw [measureLoop, List.flatMap_nil, if_pos (by simpa using htotal)]
    rfl
  | cons p qs ih =>
    intro total htotal
    rw [@measureLoop_cons mem _ (hqs p List.mem_cons_self), List.flatMap_cons, List.length_append,
      ← Nat.add_assoc]
    split_ifs with hlarge hle hle
    · omega
    · rfl
    · rw [ih (fun q hq => hqs q (List.mem_cons_of_mem p hq)) (by omega), if_pos hle]
    · rw [ih (fun q hq => hqs q (List.mem_cons_of_mem p hq)) (by omega), if_neg hle]

theorem copyBytes_append : ∀ {len data : Nat} {done rest : List UInt8}, len ≤ rest.length →
    copyBytes mem (done ++ rest) done.length data len =
      some (done ++ slice mem data len ++ rest.drop len, done.length + len) := by
  intro len
  induction len with
  | zero =>
    intro data done rest _
    simp [copyBytes, slice]
  | succ len ih =>
    intro data done rest hlen
    obtain ⟨d, rest, rfl⟩ := List.exists_cons_of_length_pos (Nat.lt_of_lt_of_le len.succ_pos hlen)
    have hstep := @ih (data + 1) (done ++ [mem data]) rest (Nat.le_of_succ_le_succ hlen)
    rw [List.append_assoc, List.length_append, List.length_singleton, List.singleton_append]
      at hstep
    rw [copyBytes, store_append, Option.bind_eq_bind, Option.bind_some, hstep, slice_succ]
    simp [Nat.add_assoc, Nat.add_comm 1]

theorem writePiece_append {p : Piece} (hp : p.Valid) {done rest : List UInt8}
    (hroom : (p.text mem).length ≤ rest.length) :
    writePiece mem (done ++ rest) done.length p =
      some (done ++ p.text mem ++ rest.drop (p.text mem).length,
        done.length + (p.text mem).length) := by
  cases p with
  | ref data len =>
    simp only [Piece.text, slice_length] at hroom ⊢
    exact copyBytes_append hroom
  | char c =>
    obtain ⟨d, rest, rfl⟩ := List.exists_cons_of_length_pos (l := rest) hroom
    rw [writePiece, store_append]
    simp [Piece.text]
  | i64 v => exact emitI64_append v hroom
  | u64 v base uppercase => exact emitU64_append hp.1 hp.2 v uppercase hroom

/-- The pieces are written one after the other. -/
theorem writeLoop_append {qs : List Piece} (hqs : ∀ p ∈ qs, p.Valid) :
    ∀ {done rest : List UInt8}, (qs.flatMap (Piece.text mem)).length ≤ rest.length →
      writeLoop mem qs (done ++ rest) done.length =
        some (done ++ qs.flatMap (Piece.text mem) ++
          rest.drop (qs.flatMap (Piece.text mem)).length,
          done.length + (qs.flatMap (Piece.text mem)).length) := by
  induction qs with
  | nil =>
    intro done rest _
    simp [writeLoop]
  | cons p qs ih =>
    intro done rest hroom
    rw [List.flatMap_cons, List.length_append] at hroom
    have hpiece := @writePiece_append _ _ (hqs p List.mem_cons_self) done _
      (Nat.le_of_add_right_le hroom)
    have hrest := @ih (fun q hq => hqs q (List.mem_cons_of_mem p hq)) (done ++ p.text mem)
      (rest.drop (p.text mem).length) (by rw [List.length_drop]; omega)
    rw [List.length_append] at hrest
    rw [writeLoop]
    rw [hpiece, Option.bind_eq_bind, Option.bind_some]
    simp only
    rw [hrest, List.flatMap_cons, List.length_append, List.drop_drop, Nat.add_assoc,
      ← List.append_assoc]

/-! ## Flattening what is held -/

theorem Holds.pieces {qs : List Piece} (h : Holds w b qs) : Sb.pieces w b = some qs := by
  obtain ⟨rest, harr, -⟩ := h.array
  have hread : (qs.map some).mapM id = some qs := by
    rw [List.mapM_map]
    exact (List.mapM_pure (m := Option) (f := id)).trans (congrArg some qs.map_id)
  rw [Sb.pieces, harr, Option.bind_eq_bind, Option.bind_some, h.count,
    if_pos (by simp), List.take_left' (List.length_map ..), hread]

theorem Holds.measure {qs : List Piece} (h : Holds w b qs) (hfailed : (w.builder b).failed = false) :
    measure w b = some (if (qs.flatMap (Piece.text mem)).length ≤ sizeMax
      then some (qs.flatMap (Piece.text mem)).length else none) := by
  have hloop := @measureLoop_eq mem _ h.valid _ (Nat.zero_le sizeMax)
  rw [Nat.zero_add] at hloop
  rw [Sb.measure, if_neg (by simp [hfailed]), h.pieces, Option.bind_eq_bind, Option.bind_some,
    hloop]

/-- The text and a zero byte fit, or nothing is written. -/
theorem Holds.write {qs : List Piece} (h : Holds w b qs) (hfailed : (w.builder b).failed = false)
    {text : List UInt8} (htext : text = qs.flatMap (Piece.text mem))
    (hsize : text.length < sizeMax) {dst : List UInt8} (hdst : text.length + 1 ≤ dst.length) :
    Sb.write mem w b (some dst) =
      some ⟨true, text.length, some (text ++ 0 :: dst.drop (text.length + 1))⟩ := by
  have hmeasure := @Holds.measure _ _ mem _ h hfailed
  rw [← htext, if_pos hsize.le] at hmeasure
  have hloop := @writeLoop_append mem _ h.valid [] dst (by rw [← htext]; omega)
  rw [← htext, List.nil_append, List.nil_append, List.length_nil, Nat.zero_add] at hloop
  obtain ⟨d, tail, htail⟩ := List.exists_cons_of_length_pos
    (l := dst.drop text.length) (by rw [List.length_drop]; omega)
  have hlast : dst.drop (text.length + 1) = tail := by
    rw [← List.drop_drop, htail]
    rfl
  rw [Sb.write, hmeasure, Option.bind_eq_bind, Option.bind_some]
  simp only
  rw [if_neg hsize.ne, if_neg (by omega), h.pieces, Option.bind_eq_bind, Option.bind_some, hloop,
    Option.bind_eq_bind, Option.bind_some, htail, store_append, hlast]
  rfl

theorem Holds.refuse {qs : List Piece} (h : Holds w b qs) (hfailed : (w.builder b).failed = false)
    {text : List UInt8} (htext : text = qs.flatMap (Piece.text mem)) {dst : Option (List UInt8)}
    (hdst : sizeMax ≤ text.length ∨ ∀ bytes, dst = some bytes → bytes.length ≤ text.length) :
    Sb.write mem w b dst =
      some ⟨false, if text.length ≤ sizeMax then text.length else 0, dst⟩ := by
  have hmeasure := @Holds.measure _ _ mem _ h hfailed
  rw [← htext] at hmeasure
  rw [Sb.write, hmeasure, Option.bind_eq_bind, Option.bind_some]
  split_ifs with hle
  · simp only
    split_ifs with hmax
    · rfl
    · cases dst with
      | none => rfl
      | some bytes =>
        have hshort : bytes.length < text.length + 1 := by
          rcases hdst with hlarge | hshort
          · omega
          · exact Nat.lt_succ_of_le (hshort bytes rfl)
        simp only [if_pos hshort]
        rfl
  · rfl

/-- What is held is what is built. -/
theorem Holds.flattens {qs : List Piece} (h : Holds w b qs)
    (hfailed : (w.builder b).failed = false) :
    Flattens mem w b (qs.flatMap (Piece.text mem)) where
  measure := h.measure hfailed
  write hsize _ hdst := h.write hfailed rfl hsize hdst
  refuse _ hdst := h.refuse hfailed rfl hdst
  build allocator block hblock := by
    have hmeasure := @Holds.measure _ _ mem _ h hfailed
    generalize htext : qs.flatMap (Piece.text mem) = text at hmeasure ⊢
    rw [buildWithAllocator]
    by_cases hok : allocatorOk allocator = true
    swap
    · rw [if_pos (by simp [hok]), if_neg (fun hc => hok hc.1)]
      rfl
    rw [if_neg (by simp [hok]), hmeasure, Option.bind_eq_bind, Option.bind_some]
    by_cases hsize : text.length < sizeMax
    swap
    · refine Eq.trans ?_ (congrArg some (if_neg fun hc => hsize hc.2.1).symm)
      split_ifs with hle
      · simp only
        rw [if_pos (by omega)]
        rfl
      · rfl
    rw [if_pos hsize.le]
    simp only
    rw [if_neg hsize.ne]
    cases hnew : block (text.length + 1) with
    | none => simp
    | some result =>
      have hlen := hblock _ _ hnew
      simp only
      refine Eq.trans ?_ (congrArg some (if_pos ⟨hok, hsize, rfl⟩).symm)
      rw [h.write hfailed htext.symm hsize hlen.ge, Option.bind_eq_bind, Option.bind_some, ← hlen,
        List.drop_length]
      rfl

theorem refuses (hfailed : (w.builder b).failed = true) : Refuses mem w b := by
  have hmeasure : Sb.measure w b = some none := by
    rw [Sb.measure, if_pos hfailed]
    rfl
  refine ⟨hmeasure, fun dst => ?_, fun allocator block => ?_⟩
  · rw [Sb.write, hmeasure]
    rfl
  · rw [buildWithAllocator, hmeasure]
    split_ifs <;> rfl

/-! ## Runs -/

/-- The builders that have not failed hold their texts. -/
def Agrees (mem : Nat → UInt8) (w : World) (ps : Nat → List Piece) (t : Nat → List UInt8) : Prop :=
  ∀ b, (w.builder b).failed = false → (ps b).flatMap (Piece.text mem) = t b

variable {t : Nat → List UInt8}

/-- An operation that pushes one piece. -/
theorem pushed_spec (h : Inv w ps) (piece : Piece) (hvalid : piece.Valid) {legal : Prop}
    (hfailed : (w.builder b).failed = false) :
    ∃ w' ok extra, push env b piece w = some (w', ok) ∧
      Outcome b w w' ok (if ok then ps b ++ extra else ps b) ∧
      (ok = true → extra.flatMap (Piece.text env.mem) = piece.text env.mem) ∧
      (legal ∧ Granted env w b ((w.builder b).count + 1) → ok = true) := by
  obtain ⟨w', ok, hpush, hout, hgranted⟩ := push_spec h hvalid hfailed
  rw [← (h.holds b).count] at hgranted
  exact ⟨w', ok, [piece], hpush, hout, fun _ => List.flatMap_singleton ..,
    fun hl => hgranted hl.2⟩

/-- An operation refused for its arguments. -/
theorem failed_spec (h : Inv w ps) {text : List UInt8} {legal granted : Prop} (hlegal : ¬legal) :
    ∃ w' ok extra, some (w.fail b, false) = some (w', ok) ∧
      Outcome b w w' ok (if ok then ps b ++ extra else ps b) ∧
      (ok = true → extra.flatMap (Piece.text env.mem) = text) ∧
      (legal ∧ granted → ok = true) :=
  ⟨_, false, [], rfl, .fail (h.holds b), by simp, fun h => absurd h.1 hlegal⟩

theorem appendRef_spec (h : Inv w ps) (data : Option Nat) (len : Nat)
    (hfailed : (w.builder b).failed = false) :
    ∃ w' ok extra, appendRef env b data len w = some (w', ok) ∧
      Outcome b w w' ok (if ok then ps b ++ extra else ps b) ∧
      (ok = true → extra.flatMap (Piece.text env.mem) =
        data.elim [] fun data => slice env.mem data len) ∧
      ((len ≠ 0 → data.isSome) ∧ Granted env w b ((w.builder b).count + 1) → ok = true) := by
  unfold appendRef
  rw [if_neg (by simp [hfailed])]
  split_ifs with hzero
  · subst hzero
    refine ⟨w, true, [], rfl, ⟨.refl b w, ?_, hfailed⟩, fun _ => ?_, fun _ => rfl⟩
    · simpa using h.holds b
    · cases data <;> rfl
  · cases data with
    | none => exact failed_spec h fun hl => absurd (hl hzero) (by decide)
    | some data => exact pushed_spec h (.ref data len) trivial hfailed

/-- An operation other than a reset appends its text, or fails. -/
theorem append_spec (h : Inv w ps) (ht : Agrees env.mem w ps t) {op : Op} (hop : ¬op.IsReset)
    (hfailed : (w.builder op.target).failed = false) :
    ∃ w' ok extra, step env op w = some (w', ok) ∧
      Outcome op.target w w' ok (if ok then ps op.target ++ extra else ps op.target) ∧
      (ok = true → extra.flatMap (Piece.text env.mem) = op.appended env.mem t) ∧
      (op.Legal w ∧ Granted env w op.target ((w.builder op.target).count + op.slots w) →
        ok = true) := by
  have hlive : ¬(w.builder op.target).failed = true := by simp [hfailed]
  cases op with
  | appendRef b data len => exact appendRef_spec h data len hfailed
  | appendCstr b cstr =>
    rw [step]
    unfold appendCstr
    rw [if_neg (by exact hlive)]
    cases cstr with
    | none => exact failed_spec h fun hl => absurd hl Bool.false_ne_true
    | some cstr =>
      obtain ⟨w', ok, extra, happend, hout, htext, hgranted⟩ :=
        appendRef_spec h (some cstr) (strlen env.mem sizeMax cstr) hfailed
      refine ⟨w', ok, extra, happend, hout, fun hok => ?_, fun hl => hgranted ⟨fun _ => rfl, hl.2⟩⟩
      rw [htext hok, Option.elim_some, Op.appended, Option.elim_some]
  | appendChar b c =>
    rw [step, appendChar, if_neg (by exact hlive)]
    exact pushed_spec h (.char c) trivial hfailed
  | appendI64 b value =>
    rw [step, appendI64, if_neg (by exact hlive)]
    exact pushed_spec h (.i64 value) trivial hfailed
  | appendU64 b value =>
    rw [step, appendU64, appendU64Base, if_neg (by exact hlive), if_neg (by decide)]
    exact pushed_spec h (.u64 value 10 false) (show 2 ≤ 10 ∧ 10 ≤ 36 by decide) hfailed
  | appendU64Base b value base uppercase =>
    rw [step, appendU64Base, if_neg (by exact hlive)]
    split_ifs with hbase
    · exact failed_spec h fun hl : 2 ≤ base ∧ base ≤ 36 => by omega
    · rw [Nat.mod_eq_of_lt (by omega)]
      exact pushed_spec h (.u64 value base uppercase) ⟨by omega, by omega⟩ hfailed
  | appendBuilder b other =>
    cases other with
    | none =>
      rw [step, appendBuilder, if_neg (by exact hlive)]
      refine failed_spec h ?_
      rintro ⟨o, ho, -⟩
      cases ho
    | some other =>
      obtain ⟨w', ok, happend, hout, hother, hgranted⟩ :=
        @appendBuilder_spec env w b ps h other hfailed
      rw [← (h.holds b).count, ← (h.holds other).count] at hgranted
      refine ⟨w', ok, ps other, happend, hout, fun hok => ht other (hother hok), ?_⟩
      rintro ⟨⟨o, ⟨⟩, hlive'⟩, hg⟩
      exact hgranted hlive' hg
  | reservePieces b additional =>
    obtain ⟨w', ok, hreserve, hout, -, hgranted⟩ :=
      @reservePieces_spec env w b ps h additional hfailed
    rw [← (h.holds b).count] at hgranted
    refine ⟨w', ok, [], hreserve, ?_, fun _ => rfl, fun hl => hgranted hl.2⟩
    rwa [List.append_nil, ite_self]
  | reset b => exact absurd trivial hop

/-- A builder that failed is left alone, and the operation returns 0. -/
theorem step_failed {op : Op} (hop : ¬op.IsReset)
    (hfailed : (w.builder op.target).failed = true) : step env op w = some (w, false) := by
  cases op with
  | appendRef b data len => exact if_pos hfailed
  | appendCstr b cstr => exact if_pos hfailed
  | appendChar b c => exact if_pos hfailed
  | appendI64 b value => exact if_pos hfailed
  | appendU64 b value => exact if_pos hfailed
  | appendU64Base b value base uppercase => exact if_pos hfailed
  | appendBuilder b other => exact if_pos hfailed
  | reservePieces b additional => exact if_pos hfailed
  | reset b => exact absurd trivial hop

/-- What one operation does, whatever it is. -/
structure Stepped (mem : Nat → UInt8) (op : Op) (w w' : World) (ok : Bool)
    (ps : Nat → List Piece) (qs : List Piece) (t : Nat → List UInt8) : Prop where
  frame : Frame op.target w w'
  holds : Holds w' op.target qs
  agrees : Agrees mem w' (Function.update ps op.target qs) (spell mem t op)
  failed : ¬op.IsReset → ok = false → (w'.builder op.target).failed = true ∧ qs = ps op.target
  sticky : ¬op.IsReset → (w.builder op.target).failed = true → ok = false

/-- The other builders keep their texts. -/
theorem Agrees.frame {mem : Nat → UInt8} (ht : Agrees mem w ps t) (hf : Frame b w w')
    {qs : List Piece} {text : List UInt8}
    (hb : (w'.builder b).failed = false → qs.flatMap (Piece.text mem) = text) :
    Agrees mem w' (Function.update ps b qs) (Function.update t b text) := by
  intro b' hlive
  by_cases hbb : b' = b
  · subst hbb
    rw [Function.update_self, Function.update_self]
    exact hb hlive
  · rw [Function.update_of_ne hbb, Function.update_of_ne hbb]
    rw [hf.builder b' hbb] at hlive
    exact ht b' hlive

theorem spell_append {op : Op} (hop : ¬op.IsReset) :
    spell mem t op = Function.update t op.target (t op.target ++ op.appended mem t) := by
  cases op with
  | reset b => exact absurd trivial hop
  | _ => rfl

theorem step_spec (h : Inv w ps) (ht : Agrees env.mem w ps t) (op : Op) :
    ∃ w' ok qs, step env op w = some (w', ok) ∧ Stepped env.mem op w w' ok ps qs t := by
  by_cases hop : op.IsReset
  · cases op with
    | reset b =>
      obtain ⟨rest, harr, hcap⟩ := (h.holds b).array
      have hframe : Frame b w (reset b w) := .setBuilder rfl
      refine ⟨_, _, [], rfl, hframe, ?_, ht.frame hframe fun _ => rfl, absurd hop, absurd hop⟩
      constructor
      · refine ⟨(ps b).map some ++ rest, (array_setBuilder (by rfl) (by rfl)).trans harr, ?_⟩
        rw [Op.target, reset, setBuilder_self, List.length_append, List.length_map]
        simpa using hcap
      · rw [Op.target, reset, setBuilder_self]
        rfl
      · rw [Op.target, reset, setBuilder_self]
        exact (h.holds b).least
      · rw [Op.target, reset, setBuilder_self]
        exact (h.holds b).most
      · simp
    | _ => exact hop.elim
  by_cases hfailed : (w.builder op.target).failed = true
  · have hagrees : Agrees env.mem w (Function.update ps op.target (ps op.target))
        (spell env.mem t op) := by
      rw [spell_append hop]
      exact ht.frame (.refl _ w) (by simp [hfailed])
    exact ⟨w, false, ps op.target, step_failed hop hfailed, .refl _ w, h.holds _, hagrees,
      fun _ _ => ⟨hfailed, rfl⟩, fun _ _ => rfl⟩
  rw [Bool.not_eq_true] at hfailed
  obtain ⟨w', ok, extra, hstep, hout, htext, -⟩ := append_spec h ht hop hfailed
  refine ⟨w', ok, _, hstep, hout.frame, hout.holds, ?_, fun _ hok => ?_, by simp [hfailed]⟩
  · rw [spell_append hop]
    refine ht.frame hout.frame fun hlive => ?_
    have hok : ok = true := by simpa [hlive] using hout.failed
    rw [if_pos hok, List.flatMap_append, htext hok, ht _ hfailed]
  · subst hok
    exact ⟨hout.failed, rfl⟩

theorem run_spec : ∀ {ops : List Op} {w : World} {ps : Nat → List Piece} {t : Nat → List UInt8},
    Inv w ps → Agrees env.mem w ps t →
    ∃ w' rs ps', run env ops w = some (w', rs) ∧ Inv w' ps' ∧
      Agrees env.mem w' ps' (ops.foldl (spell env.mem) t) := by
  intro ops
  induction ops with
  | nil => exact fun h ht => ⟨_, _, _, rfl, h, ht⟩
  | cons op ops ih =>
    intro w ps t h ht
    obtain ⟨w₁, ok, qs, hstep, hs⟩ := step_spec h ht op
    obtain ⟨w₂, rs, ps₂, hrun, hinv, hagrees⟩ := ih (h.frame hs.frame hs.holds) hs.agrees
    refine ⟨w₂, ok :: rs, ps₂, ?_, hinv, hagrees⟩
    rw [run, hstep, Option.bind_eq_bind, Option.bind_some]
    simp only [hrun]
    rfl

/-- A step keeps a failed builder as it is. -/
theorem failed_step (h : Inv w ps) (ht : Agrees env.mem w ps t)
    (hfailed : (w.builder b).failed = true) {op : Op} (hop : op.IsReset → op.target ≠ b)
    {ok : Bool} (hstep : step env op w = some (w', ok)) :
    (w'.builder b).failed = true ∧ pieces w' b = pieces w b ∧ (op.target = b → ok = false) := by
  obtain ⟨w₁, ok₁, qs, hstep₁, hs⟩ := step_spec h ht op
  cases hstep.symm.trans hstep₁
  by_cases hb : op.target = b
  · subst hb
    have hok := hs.sticky (fun hreset => hop hreset rfl) hfailed
    obtain ⟨hfailed', rfl⟩ := hs.failed (fun hreset => hop hreset rfl) hok
    exact ⟨hfailed', hs.holds.pieces.trans (h.holds _).pieces.symm, fun _ => hok⟩
  · refine ⟨?_, ?_, fun hc => absurd hc hb⟩
    · rw [hs.frame.builder b (Ne.symm hb)]
      exact hfailed
    · rw [pieces, pieces, hs.frame.array b (Ne.symm hb), hs.frame.builder b (Ne.symm hb)]

/-- And so does a run without a reset. -/
theorem failed_run : ∀ {ops : List Op} {w w' : World} {rs : List Bool} {ps : Nat → List Piece}
    {t : Nat → List UInt8}, Inv w ps → Agrees env.mem w ps t → (w.builder b).failed = true →
    (∀ op ∈ ops, op.IsReset → op.target ≠ b) → run env ops w = some (w', rs) →
    (w'.builder b).failed = true ∧ pieces w' b = pieces w b ∧
      ∀ (i : Nat) (op : Op), ops[i]? = some op → op.target = b → rs[i]? = some false := by
  intro ops
  induction ops with
  | nil =>
    intro w w' rs ps t _ _ hfailed _ hrun
    cases hrun
    exact ⟨hfailed, rfl, by simp⟩
  | cons op ops ih =>
    intro w w' rs ps t h ht hfailed hops hrun
    obtain ⟨w₁, ok, qs, hstep, hs⟩ := step_spec h ht op
    rw [run, hstep, Option.bind_eq_bind, Option.bind_some] at hrun
    obtain ⟨⟨w₂, rs₂⟩, hrun₂, hlast⟩ := Option.bind_eq_some_iff.mp hrun
    cases hlast
    obtain ⟨hfailed₁, hpieces, hok⟩ :=
      failed_step h ht hfailed (hops op List.mem_cons_self) hstep
    obtain ⟨hfailed₂, hpieces₂, hrs⟩ := ih (h.frame hs.frame hs.holds) hs.agrees hfailed₁
      (fun o ho => hops o (List.mem_cons_of_mem op ho)) hrun₂
    refine ⟨hfailed₂, hpieces₂.trans hpieces, fun i o hi htarget => ?_⟩
    cases i with
    | zero =>
      cases hi
      rw [List.getElem?_cons_zero, hok htarget]
    | succ i => exact hrs i o hi htarget

/-- An operation on a live builder fails only for its arguments or its allocator. -/
theorem granted_step (h : Inv w ps) (ht : Agrees env.mem w ps t) {op : Op}
    (hlive : (w.builder op.target).failed = false) (hlegal : op.Legal w)
    (hgranted : Granted env w op.target ((w.builder op.target).count + op.slots w)) :
    ∃ w', step env op w = some (w', true) := by
  by_cases hop : op.IsReset
  · cases op with
    | reset b => exact ⟨_, rfl⟩
    | _ => exact hop.elim
  obtain ⟨w', ok, -, hstep, -, -, hok⟩ := append_spec h ht hop hlive
  rw [hok ⟨hlegal, hgranted⟩] at hstep
  exact ⟨w', hstep⟩

theorem init_inv (allocators : Nat → Option Allocator) : Inv (init allocators) fun _ => [] where
  holds _ := {
    array := ⟨List.replicate inlineCount none, rfl, rfl⟩
    count := rfl
    least := le_rfl
    most := show inlineCount ≤ sizeMax / pieceSize by decide
    valid := by simp }
  apart := by rintro b b' a ⟨⟩
  known := by rintro b a ⟨⟩

/-! ## Any sequence of operations -/

/--
What builders stand for after any operations, when the next one succeeds, and what a
failed append leaves.
-/
theorem builder_spec (env : Env) (allocators : Nat → Option Allocator) (ops : List Op) :
    ∃ w rs, run env ops (init allocators) = some (w, rs) ∧ ∀ b,
      ((w.builder b).failed = false → Flattens env.mem w b (texts env.mem ops b)) ∧
      ((w.builder b).failed = true → Refuses env.mem w b) ∧
      (∀ op : Op, op.target = b → (w.builder b).failed = false → op.Legal w →
        Granted env w b ((w.builder b).count + op.slots w) →
        ∃ w₁, step env op w = some (w₁, true)) ∧
      ∀ op w₁, op.IsAppend → op.target = b → step env op w = some (w₁, false) →
        pieces w₁ b = pieces w b ∧
        ∀ back w₂ rs₂, (∀ o ∈ back, o.IsReset → o.target ≠ b) →
          run env back w₁ = some (w₂, rs₂) →
          pieces w₂ b = pieces w b ∧ Refuses env.mem w₂ b ∧
            ∀ (i : Nat) (o : Op), back[i]? = some o → o.IsAppend → o.target = b → rs₂[i]? = some false := by
  obtain ⟨w, rs, ps, hrun, hinv, ht⟩ := run_spec
    (init_inv allocators) fun _ _ => rfl
  refine ⟨w, rs, hrun, fun b => ⟨fun hlive => ?_, refuses, ?_, ?_⟩⟩
  · rw [← show _ = texts env.mem ops b from ht b hlive]
    exact (hinv.holds b).flattens hlive
  · rintro op rfl hlive hlegal hgranted
    exact granted_step hinv ht hlive hlegal hgranted
  · rintro op w₁ happend rfl hstep
    have hop : ¬op.IsReset := by
      cases op with
      | reset b => exact fun _ => happend
      | _ => exact id
    obtain ⟨w', ok, qs, hstep', hs⟩ := step_spec hinv ht op
    cases hstep.symm.trans hstep'
    obtain ⟨hfailed, rfl⟩ := hs.failed hop rfl
    have hkept := hs.holds.pieces.trans (hinv.holds _).pieces.symm
    refine ⟨hkept, fun back w₂ rs₂ hback hrun₂ => ?_⟩
    obtain ⟨hfailed₂, hpieces, hrs⟩ :=
      failed_run (hinv.frame hs.frame hs.holds) hs.agrees hfailed hback hrun₂
    exact ⟨hpieces.trans hkept, refuses hfailed₂, fun i o hi _ => hrs i o hi⟩

/-- A string as long as the address space and one more character: no size for the text. -/
theorem build_overflows :
    ∃ w rs, run ⟨fun _ => 120, fun _ => true⟩ [.appendRef 0 (some 0) sizeMax, .appendChar 0 120]
        (init fun _ => some ⟨true, true, true⟩) = some (w, rs) ∧
      rs = [true, true] ∧ (w.builder 0).failed = false ∧
      ∀ block, build (fun _ => 120) w 0 block = some (none, 0) :=
  ⟨_, _, rfl, rfl, rfl, fun _ => rfl⟩

end Enki.Axsys.Sb
