import Mathlib.Data.List.Nodup
import Enki.Silo.MnatRead

/-!
# The grammar of canonical Silo nodes

`Wire resolved budget ph k bs k'` says that `bs` is the canonical encoding of
the phrase `ph` at most `budget` levels deep, over the pins `resolved`, where
`k` pins have been referenced before it and `k'` after it: a reference names a
pin already used or the next one. A phrase is a node, an application spine (a
head and its arguments, cut into chunks of fifteen from the inside), or a run
of arguments.

The grammar stands between writer and reader: the writer emits exactly its
phrases (`Wire.emits`, `encodeNode_wire`), and the reader takes exactly its
phrases in the canonical scan (`Silo.Scan`).
-/

namespace Enki.Silo

open LittleEndian ExceptState StreamParser BoundedWriter

variable (sha256 : List UInt8 → Hash)

/-! ## Leaves -/

/-- The canonical encoding of a natural. -/
def natBytes (n : Nat) : List UInt8 :=
  if n ≤ 63 then [UInt8.ofNat (0x80 + n)]
  else if byteLen n ≤ 31 then UInt8.ofNat (0xc0 + byteLen n) :: natPayload n
  else if byteLen n ≤ natCutover then
    UInt8.ofNat (0xe0 + widthU64 (byteLen n)) :: bigPayload n
  else 0xf9 :: mnatPayload sha256 n

/-- A reference to pin `i`. -/
def pinBytes (i : Nat) : List UInt8 := UInt8.ofNat (0xf0 + widthU64 i) :: bytes (widthU64 i) i

theorem or_c0 {n : Nat} (h : n ≤ 31) : 0xc0 ||| n = 0xc0 + n := by
  have hall : ∀ n < 32, 0xc0 ||| n = 0xc0 + n := by decide
  exact hall n (by omega)

theorem or_e0 {n : Nat} (h : n ≤ 8) : 0xe0 ||| n = 0xe0 + n := by
  have hall : ∀ n < 9, 0xe0 ||| n = 0xe0 + n := by decide
  exact hall n (by omega)

theorem natByteAt_zero {n : Nat} (h : byteLen n = 1) : (natByteAt n 0).toNat = n := by
  have hlt : n < 256 := by simpa [h] using lt_pow_byteLen n
  rw [natByteAt, UInt8.toNat_ofNat', Nat.pow_zero, Nat.div_one, Nat.mod_eq_of_lt hlt]

theorem emits_encodeNat (n : Nat) : SiloEmits (encodeNat sha256 n) (natBytes sha256 n) () := by
  unfold encodeNat natBytes
  dsimp only
  by_cases h0 : byteLen n = 0
  · have hn := byteLen_eq_zero_iff.1 h0
    subst hn
    exact emits_swriteU8 0x80
  have hn0 : n ≠ 0 := mt byteLen_eq_zero_iff.2 h0
  rw [if_neg h0]
  by_cases h63 : n ≤ 63
  · have h1 : byteLen n = 1 := by
      have : byteLen n ≤ 1 := byteLen_le_iff.2 (by omega)
      omega
    rw [if_pos h63, natByteAt_zero h1, if_pos ⟨h1, h63⟩]
    exact emits_swriteU8 _
  · have hbyte : ¬ (byteLen n = 1 ∧ (natByteAt n 0).toNat ≤ 63) := by
      rintro ⟨h1, hle⟩
      rw [natByteAt_zero h1] at hle
      exact h63 hle
    rw [if_neg h63, if_neg hbyte]
    by_cases h31 : byteLen n ≤ 31
    · rw [if_pos h31, if_pos h31, or_c0 h31]
      exact Emits.bind (emits_swriteU8 _) (emits_encodeNatBytes n)
    · rw [if_neg h31, if_neg h31]
      by_cases hcut : byteLen n ≤ natCutover
      · have hw : widthU64 (byteLen n) ≤ 8 :=
          widthU64_le (by unfold natCutover at hcut; unfold uint64Max; omega)
        rw [if_pos hcut, if_pos hcut, or_e0 hw]
        exact Emits.bind (emits_swriteU8 _) (Emits.bind (emits_swriteLe _ _) (emits_encodeNatBytes n))
      · rw [if_neg hcut, if_neg hcut]
        exact emits_encodeMnat sha256 hn0

/-- The arity of a law is written as the natural it is. -/
theorem emits_encodeU64Nat {n : Nat} (h : n ≤ uint64Max) :
    SiloEmits (encodeU64Nat n) (natBytes sha256 n) () := by
  unfold encodeU64Nat natBytes
  by_cases h63 : n ≤ 63
  · rw [if_pos h63, if_pos h63]
    exact emits_swriteU8 _
  · have hw : widthU64 n = byteLen n := by rw [widthU64_eq h, if_neg (by omega)]
    have h8 : byteLen n ≤ 8 := hw ▸ widthU64_le h
    rw [if_neg h63, if_neg h63, if_pos (by omega)]
    dsimp only
    rw [hw, or_c0 (by omega)]
    exact Emits.bind (emits_swriteU8 _) (emits_swriteLe _ _)

theorem emits_encodePin {table : List Hash} {h : Hash} {i : Nat} (hi : table.idxOf? h = some i) :
    SiloEmits (encodePin table (some h)) (pinBytes i) () := by
  simp only [encodePin, hi]
  exact Emits.bind (emits_swriteU8 _) (emits_swriteLe _ _)

/-! ## Phrases -/

/-- What the grammar derives bytes for. -/
inductive Phrase where
  | node (v : Val)
  | spine (head : Val) (args : List Val)
  | args (vs : List Val)

/-- Canonical encodings of phrases. -/
inductive Wire (resolved : List Val) : Nat → Phrase → Nat → List UInt8 → Nat → Prop
  | nat {b n k} (hn : byteLen n ≤ maxNatBytes) :
    Wire resolved (b + 1) (.node (.nat n)) k (natBytes sha256 n) k
  | pin {b i p k} (hp : resolved[i]? = some p) (hpin : p.isPin) (hi : i ≤ k) :
    Wire resolved (b + 1) (.node p) k (pinBytes i) (max k (i + 1))
  | law {b a name body k k₁ k₂ xs ys} (h0 : a ≠ 0) (hmax : a ≤ nat63Max)
    (hname : Wire resolved b (.node name) k xs k₁) (hbody : Wire resolved b (.node body) k₁ ys k₂) :
    Wire resolved (b + 1) (.node (.law a name body)) k
      (0xf0 :: (xs ++ (natBytes sha256 a ++ ys))) k₂
  | app {b head args k bs k'} (hspine : Wire resolved (b + 1) (.spine head args) k bs k') :
    Wire resolved (b + 1) (.node (.app (head.needAfter args.length) head args)) k bs k'
  | inner {b head args k k₁ k₂ xs ys} (h0 : args ≠ []) (h15 : args.length ≤ 15)
    (happ : head.isApp = false)
    (hhead : Wire resolved b (.node head) k xs k₁) (hargs : Wire resolved b (.args args) k₁ ys k₂) :
    Wire resolved (b + 1) (.spine head args) k (UInt8.ofNat (args.length * 8) :: (xs ++ ys)) k₂
  | outer {b head pre post k k₁ k₂ xs ys} (h0 : post ≠ []) (h15 : post.length ≤ 15)
    (hpre : pre ≠ []) (hdvd : 15 ∣ pre.length)
    (hspine : Wire resolved b (.spine head pre) k xs k₁)
    (hargs : Wire resolved b (.args post) k₁ ys k₂) :
    Wire resolved (b + 1) (.spine head (pre ++ post)) k
      (UInt8.ofNat (post.length * 8) :: (xs ++ ys)) k₂
  | nil {b k} : Wire resolved b (.args []) k [] k
  | cons {b a as k k₁ k₂ xs ys} (hnode : Wire resolved b (.node a) k xs k₁)
    (hargs : Wire resolved b (.args as) k₁ ys k₂) :
    Wire resolved b (.args (a :: as)) k (xs ++ ys) k₂

variable {sha256} {resolved : List Val} {budget k k' : Nat} {bs : List UInt8} {ph : Phrase}

/-- A spine has at most fifteen arguments a level. -/
theorem Wire.length_le {head : Val} {args : List Val}
    (h : Wire sha256 resolved budget (.spine head args) k bs k') :
    args ≠ [] ∧ args.length ≤ 15 * budget := by
  generalize hph : Phrase.spine head args = ph at h
  induction h generalizing args with
  | inner h0 h15 _ _ _ _ _ =>
    cases hph
    exact ⟨h0, by omega⟩
  | outer h0 h15 hpre _ _ _ ih _ =>
    cases hph
    obtain ⟨-, hlen⟩ := ih rfl
    refine ⟨by simp [h0], ?_⟩
    rw [List.length_append]
    omega
  | _ => cases hph

theorem spineOuter_append {pre post : List Val} (hdvd : 15 ∣ pre.length) (h0 : post ≠ [])
    (h15 : post.length ≤ 15) : spineOuter (pre ++ post).length = post.length := by
  have hpos : 0 < post.length := List.length_pos_iff.mpr h0
  obtain ⟨q, hq⟩ := hdvd
  rw [List.length_append, hq, spineOuter]
  split <;> split <;> omega

theorem spineOuter_small {args : List Val} (h0 : args ≠ []) (h15 : args.length ≤ 15) :
    spineOuter args.length = args.length := by
  have hdvd : 15 ∣ ([] : List Val).length := Nat.dvd_zero 15
  exact spineOuter_append hdvd h0 h15

/-- The outermost chunk of a spine is what the writer cuts off. -/
theorem spineOuter_spec {n : Nat} (hn : 0 < n) :
    0 < spineOuter n ∧ spineOuter n ≤ 15 ∧ spineOuter n ≤ n ∧ 15 ∣ n - spineOuter n := by
  have hcases : spineOuter n = n ∧ n ≤ 15 ∨ 15 < n ∧ n % 15 = 0 ∧ spineOuter n = 15 ∨
      15 < n ∧ n % 15 ≠ 0 ∧ spineOuter n = n % 15 := by
    unfold spineOuter
    dsimp only
    split <;> split <;> omega
  omega

/-! ## The writer -/

section Writer

variable {table : List Hash}

/-- The pin table of a writer holds the hashes of `resolved`, no hash twice. -/
structure TableFor (resolved : List Val) (table : List Hash) : Prop where
  hashes : resolved.map Val.pinHash = table.map some
  nodup : table.Nodup

theorem TableFor.idxOf (ht : TableFor resolved table) {i : Nat} {p : Val}
    (hp : resolved[i]? = some p) : ∃ h, p.pinHash = some h ∧ table.idxOf? h = some i := by
  have hmap : (resolved.map Val.pinHash)[i]? = some p.pinHash := by rw [List.getElem?_map, hp]; rfl
  rw [ht.hashes, List.getElem?_map, Option.map_eq_some_iff] at hmap
  obtain ⟨h, hh, heq⟩ := hmap
  refine ⟨h, heq.symm, ?_⟩
  obtain ⟨hlt, hget⟩ := List.getElem?_eq_some_iff.mp hh
  rw [List.idxOf?_eq_some_iff]
  refine ⟨hlt, hget, fun j hj hjh => ?_⟩
  have := ht.nodup.getElem_inj_iff.mp (hjh.trans hget.symm)
  omega

/-- **The writer emits every phrase of the grammar.** -/
theorem Wire.emits (ht : TableFor resolved table) (h : Wire sha256 resolved budget ph k bs k') :
    match ph with
    | .node v => SiloEmits (encodeNode sha256 Val.pinHash table budget v) bs ()
    | .spine head args =>
      SiloEmits (encodeAppRange sha256 Val.pinHash table budget head args) bs ()
    | .args vs => SiloEmits (vs.forM (encodeNode sha256 Val.pinHash table budget)) bs () := by
  induction h with
  | nat hn => exact emits_encodeNat sha256 _
  | @pin b i p k hp hpin hi =>
    obtain ⟨h, hhash, hidx⟩ := ht.idxOf hp
    cases p with
    | pin ph body =>
      simp only [encodeNode, hhash]
      exact emits_encodePin hidx
    | nat | law | app => simp [Val.isPin] at hpin
  | @law b a name body k k₁ k₂ xs ys h0 hmax hname hbody ih₁ ih₂ =>
    have ha : a ≤ uint64Max := by
      unfold nat63Max at hmax
      unfold uint64Max
      omega
    simp only [encodeNode]
    rw [if_neg (by omega)]
    exact Emits.bind (emits_swriteU8 0xf0)
      (Emits.bind ih₁ (Emits.bind (emits_encodeU64Nat sha256 ha) ih₂))
  | @app b head args k bs k' hspine ih =>
    have h0 := hspine.length_le.1
    simp only [encodeNode]
    rw [if_neg (by simpa using h0)]
    exact ih
  | @inner b head args k k₁ k₂ xs ys h0 h15 happ hhead hargs ih₁ ih₂ =>
    simp only [encodeAppRange, encodeSpineWith, spineOuter_small h0 h15, Nat.sub_self,
      List.drop_zero]
    exact Emits.bind (emits_swriteU8 _) (Emits.bind ih₁ ih₂)
  | @outer b head pre post k k₁ k₂ xs ys h0 h15 hpre hdvd hspine hargs ih₁ ih₂ =>
    have hinner : (pre ++ post).length - post.length = pre.length := by simp
    have hne : pre.length ≠ 0 := by simpa using hpre
    simp only [encodeAppRange, encodeSpineWith, spineOuter_append hdvd h0 h15, hinner,
      List.take_left, List.drop_left]
    rw [if_pos hne]
    exact Emits.bind (emits_swriteU8 _) (Emits.bind ih₁ ih₂)
  | nil => exact Emits.pure ()
  | cons hnode hargs ih₁ ih₂ => exact Emits.bind ih₁ ih₂

/-! ## Normal forms -/

mutual

/-- The values the codec is for: naturals of fewer than `2^20` limbs, laws of
runtime arity, flat nonempty applications whose cached need is right and fits
its header field, and hashed pins. -/
def NormalForm : Val → Prop
  | .nat n => (byteLen n + 7) / 8 < 2 ^ 20
  | .pin h _ => h.isSome
  | .law a name body => (1 ≤ a ∧ a ≤ nat63Max) ∧ NormalForm name ∧ NormalForm body
  | .app need head args =>
    head.isApp = false ∧ args ≠ [] ∧ need = head.needAfter args.length ∧ need < 2 ^ 20 ∧
      NormalForm head ∧ NormalForms args

/-- `NormalForm` of every argument. -/
def NormalForms : List Val → Prop
  | [] => True
  | a :: as => NormalForm a ∧ NormalForms as

end

theorem normalForms_append {as bs : List Val} :
    NormalForms (as ++ bs) ↔ NormalForms as ∧ NormalForms bs := by
  induction as with
  | nil => simp [NormalForms]
  | cons a as ih => simp only [List.cons_append, NormalForms, ih, and_assoc]

theorem directPinsList_append (as bs : List Val) :
    Val.directPinsList (as ++ bs) = Val.directPinsList as ++ Val.directPinsList bs := by
  induction as with
  | nil => rfl
  | cons a as ih => simp only [List.cons_append, Val.directPinsList, ih, List.append_assoc]

/-- Pins referenced once the pins `seen` have been met. -/
def cursor (seen : List Val) : Nat := (firstOccurrences seen).length

/-- A reference to a pin of the table is to one met before or to the next. -/
theorem cursor_pin {seen : List Val} {p : Val}
    (hsub : firstOccurrences (seen ++ [p]) <+: resolved) :
    ∃ i, resolved[i]? = some p ∧ i ≤ cursor seen ∧
      cursor (seen ++ [p]) = max (cursor seen) (i + 1) := by
  obtain ⟨rest, rfl⟩ := hsub
  unfold cursor
  rw [firstOccurrences_concat]
  split
  · next hmem =>
    obtain ⟨i, hi, hget⟩ := List.getElem_of_mem hmem
    refine ⟨i, ?_, Nat.le_of_lt hi, by omega⟩
    rw [List.getElem?_append_left hi, List.getElem?_eq_getElem hi, hget]
  · next hmem =>
    exact ⟨(firstOccurrences seen).length, by simp, Nat.le_refl _, by simp⟩

theorem byteLen_of_limbs {n : Nat} (h : (byteLen n + 7) / 8 < 2 ^ 20) : byteLen n ≤ maxNatBytes := by
  unfold maxNatBytes maxPinCount
  omega

/-- A run of a writer that succeeded by writing a phrase. -/
def Wrote (sha256 : List UInt8 → Hash) (resolved : List Val) (budget : Nat) (ph : Phrase)
    (seen pins : List Val) (w w' : List UInt8) : Prop :=
  ∃ bs, w' = w ++ bs ∧ w'.length ≤ uint64Max ∧
    Wire sha256 resolved budget ph (cursor seen) bs (cursor (seen ++ pins))

theorem firstOccurrences_le_of_append {seen as bs : List Val}
    (h : firstOccurrences (seen ++ (as ++ bs)) <+: resolved) :
    firstOccurrences (seen ++ as) <+: resolved := by
  rw [← List.append_assoc] at h
  exact (firstOccurrences_le_append _ _).trans h

theorem forM_wrote
    (hnode : ∀ v seen w w', NormalForm v →
      firstOccurrences (seen ++ v.directPins) <+: resolved → w.length ≤ uint64Max →
      encodeNode sha256 Val.pinHash table budget v w = .ok ((), w') →
      Wrote sha256 resolved budget (.node v) seen v.directPins w w')
    {args seen : List Val} {w w' : List UInt8} (hnf : NormalForms args)
    (hsub : firstOccurrences (seen ++ Val.directPinsList args) <+: resolved)
    (hw : w.length ≤ uint64Max)
    (h : args.forM (encodeNode sha256 Val.pinHash table budget) w = .ok ((), w')) :
    Wrote sha256 resolved budget (.args args) seen (Val.directPinsList args) w w' := by
  induction args generalizing seen w with
  | nil =>
    cases h
    exact ⟨[], by simp, hw, by simpa [Val.directPinsList] using Wire.nil⟩
  | cons a as ih =>
    obtain ⟨⟨⟩, u, ha, has⟩ := run_bind_ok.1 h
    obtain ⟨xs, rfl, hu, hwire⟩ :=
      hnode a seen w u hnf.1 (firstOccurrences_le_of_append hsub) hw ha
    rw [Val.directPinsList, ← List.append_assoc] at hsub
    obtain ⟨ys, rfl, hw', hwire'⟩ := ih hnf.2 hsub hu has
    refine ⟨xs ++ ys, by simp, hw', ?_⟩
    rw [Val.directPinsList, ← List.append_assoc]
    exact .cons hwire hwire'

/-- **The writer writes only phrases of the grammar.** -/
theorem encode_wrote (ht : TableFor resolved table) (budget : Nat) :
    (∀ v seen w w', NormalForm v →
      firstOccurrences (seen ++ v.directPins) <+: resolved → w.length ≤ uint64Max →
      encodeNode sha256 Val.pinHash table budget v w = .ok ((), w') →
      Wrote sha256 resolved budget (.node v) seen v.directPins w w') ∧
    (∀ head args seen w w', head.isApp = false → NormalForm head → NormalForms args → args ≠ [] →
      firstOccurrences (seen ++ (head.directPins ++ Val.directPinsList args)) <+: resolved →
      w.length ≤ uint64Max →
      encodeAppRange sha256 Val.pinHash table budget head args w = .ok ((), w') →
      Wrote sha256 resolved budget (.spine head args) seen
        (head.directPins ++ Val.directPinsList args) w w') := by
  induction budget with
  | zero =>
    refine ⟨fun v seen w w' _ _ _ h => ?_, fun head args seen w w' _ _ _ _ _ _ h => ?_⟩
    · simp [encodeNode] at h
    · simp [encodeAppRange] at h
  | succ b ih =>
    obtain ⟨ihNode, ihSpine⟩ := ih
    have hspine : ∀ head args seen w w', head.isApp = false → NormalForm head → NormalForms args →
        args ≠ [] →
        firstOccurrences (seen ++ (head.directPins ++ Val.directPinsList args)) <+: resolved →
        w.length ≤ uint64Max →
        encodeAppRange sha256 Val.pinHash table (b + 1) head args w = .ok ((), w') →
        Wrote sha256 resolved (b + 1) (.spine head args) seen
          (head.directPins ++ Val.directPinsList args) w w' := by
      intro head args seen w w' happ hhead hargs h0 hsub hw h
      obtain ⟨hpos, h15, hle, hdvd⟩ := spineOuter_spec (List.length_pos_iff.mpr h0)
      simp only [encodeAppRange, encodeSpineWith] at h
      obtain ⟨⟨⟩, u, hop, h₁⟩ := run_bind_ok.1 h
      obtain ⟨-, rfl, hu⟩ := (emits_swriteU8 _).run hw hop
      by_cases hin : args.length - spineOuter args.length = 0
      · have hlen : args.length ≤ 15 := by omega
        rw [if_neg (by simpa using hin)] at h₁
        obtain ⟨⟨⟩, u₁, hfirst, hrest⟩ := run_bind_ok.1 h₁
        rw [hin, List.drop_zero] at hrest
        obtain ⟨xs, rfl, hu₁, hwire⟩ := ihNode head seen _ u₁ hhead
          (firstOccurrences_le_of_append hsub) hu hfirst
        rw [← List.append_assoc] at hsub
        obtain ⟨ys, rfl, hw', hwire'⟩ := forM_wrote ihNode hargs hsub hu₁ hrest
        refine ⟨UInt8.ofNat (args.length * 8) :: (xs ++ ys), ?_, hw', ?_⟩
        · rw [spineOuter_small h0 hlen]
          simp
        · rw [← List.append_assoc seen]
          exact .inner h0 hlen happ hwire hwire'
      · -- the spine splits before its outermost chunk
        obtain ⟨pre, post, hsplit, hpre, hpost⟩ : ∃ pre post, args = pre ++ post ∧
            pre.length = args.length - spineOuter args.length ∧
            post.length = spineOuter args.length :=
          ⟨args.take _, args.drop (args.length - spineOuter args.length),
            (List.take_append_drop _ _).symm, by simp, by simp; omega⟩
        rw [if_pos hin] at h₁
        obtain ⟨⟨⟩, u₁, hfirst, hrest⟩ := run_bind_ok.1 h₁
        rw [← hpre] at hfirst hrest hdvd
        rw [← hpost] at hpos h15 hfirst hu
        subst hsplit
        rw [List.take_left] at hfirst
        rw [List.drop_left] at hrest
        obtain ⟨hargs₁, hargs₂⟩ := normalForms_append.1 hargs
        rw [directPinsList_append, ← List.append_assoc (Val.directPins head)] at hsub ⊢
        have hpre0 : pre ≠ [] := fun hnil => hin (by rw [← hpre, hnil]; rfl)
        have hpost0 : post ≠ [] := List.length_pos_iff.mp hpos
        obtain ⟨xs, rfl, hu₁, hwire⟩ := ihSpine head pre seen _ u₁ happ hhead hargs₁ hpre0
          (firstOccurrences_le_of_append hsub) hu hfirst
        rw [← List.append_assoc] at hsub
        obtain ⟨ys, rfl, hw', hwire'⟩ := forM_wrote ihNode hargs₂ hsub hu₁ hrest
        refine ⟨UInt8.ofNat (post.length * 8) :: (xs ++ ys), by simp, hw', ?_⟩
        rw [← List.append_assoc seen]
        exact .outer hpost0 h15 hpre0 hdvd hwire hwire'
    refine ⟨?_, hspine⟩
    intro v seen w w' hnf hsub hw h
    cases v with
    | nat n =>
      simp only [encodeNode] at h
      obtain ⟨-, rfl, hw'⟩ := (emits_encodeNat sha256 n).run hw h
      refine ⟨_, rfl, hw', ?_⟩
      rw [Val.directPins, List.append_nil]
      exact .nat (byteLen_of_limbs hnf)
    | pin hash body =>
      obtain ⟨i, hi, hle, hcur⟩ := cursor_pin hsub
      obtain ⟨hh, hhash, hidx⟩ := ht.idxOf hi
      simp only [encodeNode, hhash] at h
      obtain ⟨-, rfl, hw'⟩ := (emits_encodePin hidx).run hw h
      refine ⟨_, rfl, hw', ?_⟩
      rw [Val.directPins, hcur]
      exact .pin hi rfl hle
    | law a name body =>
      obtain ⟨⟨ha0, hamax⟩, hname, hbody⟩ := hnf
      have ha : a ≤ uint64Max := by
        unfold nat63Max at hamax
        unfold uint64Max
        omega
      simp only [encodeNode] at h
      rw [if_neg (by omega)] at h
      obtain ⟨⟨⟩, u, hop, h₁⟩ := run_bind_ok.1 h
      obtain ⟨-, rfl, hu⟩ := (emits_swriteU8 _).run hw hop
      obtain ⟨⟨⟩, u₁, hname', h₂⟩ := run_bind_ok.1 h₁
      obtain ⟨xs, rfl, hu₁, hwire⟩ := ihNode name seen _ u₁ hname
        (firstOccurrences_le_of_append hsub) hu hname'
      obtain ⟨⟨⟩, u₂, harity, hbody'⟩ := run_bind_ok.1 h₂
      obtain ⟨-, rfl, hu₂⟩ := (emits_encodeU64Nat sha256 ha).run hu₁ harity
      rw [Val.directPins, ← List.append_assoc] at hsub
      obtain ⟨ys, rfl, hw', hwire'⟩ := ihNode body _ _ w' hbody hsub hu₂ hbody'
      refine ⟨0xf0 :: (xs ++ (natBytes sha256 a ++ ys)), by simp, hw', ?_⟩
      rw [Val.directPins, ← List.append_assoc seen]
      exact .law (by omega) hamax hwire hwire'
    | app need head args =>
      obtain ⟨happ, h0, hneed, -, hhead, hargs⟩ := hnf
      simp only [encodeNode] at h
      rw [if_neg (by simpa using h0)] at h
      obtain ⟨bs, rfl, hw', hwire⟩ := hspine head args seen w w' happ hhead hargs h0 hsub hw h
      rw [hneed]
      exact ⟨bs, rfl, hw', .app hwire⟩

end Writer

end Enki.Silo
