import Enki.Legacy.Codec
import Enki.Lib.ExceptState

/-!
# Legacy pin bytes round trip

What `serialize` writes for a body in normal form is read back by `deser`, byte for
byte and to the same body: naturals come out canonical and applications get the need
they have at runtime. The pins of the table may be other references than those that
were written, as long as they have the same arity.
-/

namespace Enki.Legacy

open Bignum NatVal LittleEndian Log

/-! ## Bodies -/

section

variable {α β : Type}

mutual

/-- A body with other references for its pins. -/
def Body.map (f : α → β) : Body α → Body β
  | .nat v => .nat v
  | .pin p => .pin (f p)
  | .law a name body => .law a (name.map f) (body.map f)
  | .app need head args => .app need (head.map f) (Body.maps f args)

/-- `Body.map` of arguments. -/
def Body.maps (f : α → β) : List (Body α) → List (Body β)
  | [] => []
  | a :: as => a.map f :: Body.maps f as

end

/-- `pl_need_after` -/
def needAfter (pinArity : α → UInt64) (head : Body α) (n : Nat) : Nat :=
  let a := (arity pinArity head).toNat
  if a = 0 ∨ a ≤ n then 0 else a - n

mutual

/-- What the runtime builds: canonical naturals, applications that a header describes and
whose cached need is right. -/
def Body.Normal (pinArity : α → UInt64) : Body α → Prop
  | .nat v => v.Canonical
  | .pin _ => True
  | .law _ name body => name.Normal pinArity ∧ body.Normal pinArity
  | .app need head args =>
    args ≠ [] ∧ args.length + 2 < 2 ^ 32 ∧ need = needAfter pinArity head args.length ∧
      need < 2 ^ 20 ∧ head.Normal pinArity ∧ Body.Normals pinArity args

/-- `Body.Normal` of arguments. -/
def Body.Normals (pinArity : α → UInt64) : List (Body α) → Prop
  | [] => True
  | a :: as => a.Normal pinArity ∧ Body.Normals pinArity as

end

mutual

/-- A pin in a body. -/
def Body.Has (p : α) : Body α → Prop
  | .nat _ => False
  | .pin q => q = p
  | .law _ name body => name.Has p ∨ body.Has p
  | .app _ head args => head.Has p ∨ Body.Haves p args

/-- A pin in arguments. -/
def Body.Haves (p : α) : List (Body α) → Prop
  | [] => False
  | a :: as => a.Has p ∨ Body.Haves p as

end

end

/-! ## Numbers -/

section

variable {β : Type} {pinArity : β → UInt64} {stale : Nat → UInt64} {d : Deser β} {off : Nat}
  {rest : List UInt8}

theorem dget_ok {w n : Nat} (h : At d.b off (bytes w n ++ rest)) (hn : n < 256 ^ w) :
    dget d off w = .ok (n, off + w) := by
  have hlen := h.length
  rw [List.length_append, length_bytes] at hlen
  obtain ⟨pre, hb, rfl⟩ := h
  unfold dget
  rw [assume_true (decide_eq_true (by omega)), hb, List.drop_left,
    List.take_left' (length_bytes w n), toNat_bytes_of_lt hn]
  rfl

theorem skip_bytes {w n : Nat} (h : At d.b off (bytes w n ++ rest)) : At d.b (off + w) rest := by
  simpa using h.skip

theorem deserLimbs_ok {b : List UInt8} (hne : b ≠ []) (hmax : (b.length + 7) / 8 < limbMax) :
    Yields (deserLimbs stale b) (toNat b) := by
  unfold deserLimbs
  refine Yields.fillBytes hne (by simp) fun out hout hv => ?_
  have hlen : out.length = (b.length + 7) / 8 := by simpa using hout
  rw [Nat.mod_eq_of_lt hmax, List.take_of_length_le (by omega)]
  exact Yields.trim (by omega) hv

/-- A natural is read back as it was, on either side of eight bytes. -/
theorem deserNat_ok {v : NatVal} (hv : v.Canonical)
    (h : At d.b off (cput64 v.byteLen ++ (natBytes v ++ rest))) :
    deserNat stale d off = .ok (v, off + 8 + v.byteLen) := by
  have hsize := d.size
  have hlen := h.length
  simp only [List.length_append, cput64, length_bytes, length_natBytes] at hlen
  have hrest : At d.b (off + 8) (natBytes v ++ rest) := skip_bytes h
  have hread := hrest.read
  rw [length_natBytes] at hread
  have hval := toNat_natBytes hv
  have hbyte := byteLen_spec hv
  unfold deserNat
  rw [bind_ok (dget_ok h (by norm_num; omega))]
  simp only
  rw [assume_true (decide_eq_true (by rw [Nat.mod_eq_of_lt (by omega)]; omega)), bind_ok hread]
  simp only [hval]
  -- whatever natural comes out is canonical and has the value
  have hdirect : v.val < 2 ^ 63 → NatVal.direct (UInt64.ofNat v.val) = v := by
    intro hlt
    have hword : (UInt64.ofNat v.val).toNat = v.val :=
      UInt64.toNat_ofNat_of_lt' (by simp only [UInt64.size]; omega)
    exact eq_of_val_eq (canonical_direct.2 (by omega)) hv (by rw [val_direct, hword])
  have hlt := lt_pow_byteLen v.val
  rw [← hbyte] at hlt
  split_ifs with hshort height
  · have hsmall : v.val < 2 ^ 63 := by
      calc v.val < 256 ^ v.byteLen := hlt
        _ ≤ 256 ^ 7 := Nat.pow_le_pow_right (by decide) (by omega)
        _ < 2 ^ 63 := by decide
    rw [hdirect hsmall]
    rfl
  · obtain ⟨hwidth, hle⟩ := height
    rw [hwidth] at hlt
    have hword : (UInt64.ofNat v.val).toNat = v.val := UInt64.toNat_ofNat_of_lt' hlt
    have hmax := UInt64.le_iff_toNat_le.mp hle
    rw [hword, toNat_nat63Max] at hmax
    rw [hdirect (by omega)]
    rfl
  · have hlimbs := Log.byteLen_le hv
    have hcount := hv.limbLen_lt
    obtain ⟨u, hu, hcanon, huval⟩ := @deserLimbs_ok stale (natBytes v) (fun h0 => by
        have := congrArg List.length h0
        rw [length_natBytes, List.length_nil] at this
        omega) (by rw [length_natBytes]; omega)
    rw [bind_ok hu, eq_of_val_eq hcanon hv (huval.trans hval)]
    rfl

/-- The need an application had is the need it gets. -/
theorem deserNeed_eq {head : Body β} {n : Nat} (h : needAfter pinArity head n < 2 ^ 20) :
    deserNeed pinArity head n = needAfter pinArity head n := by
  unfold deserNeed needAfter at *
  simp only at *
  split_ifs at * with ha
  · rfl
  · omega

end

/-! ## Bodies there and back -/

section

variable {α β : Type}

theorem length_maps {f : α → β} (vs : List (Body α)) : (Body.maps f vs).length = vs.length := by
  induction vs with
  | nil => rfl
  | cons v vs ih => rw [Body.maps, List.length_cons, ih, List.length_cons]

theorem arity_map (pinArity : β → UInt64) (f : α → β) (v : Body α) :
    arity pinArity (v.map f) = arity (pinArity ∘ f) v := by
  cases v <;> rfl

theorem needAfter_map (pinArity : β → UInt64) (f : α → β) (v : Body α) (n : Nat) :
    needAfter pinArity (v.map f) n = needAfter (pinArity ∘ f) v n := by
  rw [needAfter, needAfter, arity_map]

variable [DecidableEq α] {pinArity : β → UInt64} {stale : Nat → UInt64} {d : Deser β}
  {subpins : List α} {f : α → β}

/-- A tag is read. -/
theorem tag_ok {off : Nat} {c : UInt8} {rest : List UInt8} (h : At d.b off (c :: rest)) :
    dget d off 1 = .ok (c.toNat, off + 1) ∧ At d.b (off + 1) rest := by
  have hone : bytes 1 c.toNat = [c] := by simp [bytes]
  have h' : At d.b off (bytes 1 c.toNat ++ rest) := by rwa [hone]
  exact ⟨dget_ok h' c.toNat_lt, skip_bytes h'⟩

/-- Every value starts with a tag. -/
theorem serialize_pos {v : Body α} {out : List UInt8} (h : serialize subpins v = .ok out) :
    0 < out.length := by
  cases v with
  | nat v =>
    cases h
    simp
  | pin p =>
    obtain ⟨-, -, h⟩ := ExceptState.bind_ok.mp h
    cases h
    simp
  | law a name body =>
    obtain ⟨_, -, h₁⟩ := ExceptState.bind_ok.mp h
    obtain ⟨_, -, h₂⟩ := ExceptState.bind_ok.mp h₁
    cases h₂
    simp
  | app need head args =>
    obtain ⟨_, -, h₁⟩ := ExceptState.bind_ok.mp h
    obtain ⟨_, -, h₂⟩ := ExceptState.bind_ok.mp h₁
    cases h₂
    simp

mutual

/-- `deser` takes exactly what `serialize` wrote for a body, whatever follows. -/
theorem deser_ok (hsub : d.subpins = subpins.map f) (hcount : subpins.length ≤ 2 ^ 32) :
    ∀ (v : Body α) {out rest : List UInt8} {off fuel : Nat}, v.Normal (pinArity ∘ f) →
      serialize subpins v = .ok out → At d.b off (out ++ rest) → out.length ≤ fuel →
      deser pinArity stale d fuel off = .ok (v.map f, off + out.length)
  | v, out, rest, off, 0, _, hser, _, hfuel => by
    have := serialize_pos hser
    omega
  | .nat v, out, rest, off, fuel + 1, hnf, hser, hat, hfuel => by
    cases hser
    simp only [List.cons_append, List.append_assoc] at hat
    obtain ⟨htag, hat⟩ := tag_ok hat
    rw [deser, bind_ok htag]
    simp only
    rw [if_pos (by decide), bind_ok (deserNat_ok hnf hat)]
    refine congrArg Except.ok (Prod.ext rfl ?_)
    simp only [List.cons_append, List.length_cons, List.length_append, cput64, length_bytes,
      length_natBytes]
    omega
  | .pin p, out, rest, off, fuel + 1, hnf, hser, hat, hfuel => by
    obtain ⟨u, hmem, hser⟩ := ExceptState.bind_ok.mp hser
    cases hser
    have hin : p ∈ subpins := by
      by_contra hno
      rw [Bignum.assume, if_neg (by simpa using hno)] at hmem
      cases hmem
    have hidx := List.idxOf_lt_length_iff.mpr hin
    rw [List.cons_append] at hat
    obtain ⟨htag, hat⟩ := tag_ok hat
    have hentry : d.subpins[subpins.idxOf p]? = some (f p) := by
      rw [hsub, List.getElem?_map, List.getElem?_eq_getElem hidx, List.getElem_idxOf]
      rfl
    rw [deser, bind_ok htag]
    simp only
    rw [if_neg (by decide), if_pos (by decide), bind_ok (dget_ok hat (by norm_num; omega))]
    simp only [hentry]
    refine congrArg Except.ok (Prod.ext rfl ?_)
    simp only [List.length_cons, cput32, length_bytes]
  | .law a name body, out, rest, off, fuel + 1, hnf, hser, hat, hfuel => by
    obtain ⟨ns, hname, hser⟩ := ExceptState.bind_ok.mp hser
    obtain ⟨bs, hbody, hser⟩ := ExceptState.bind_ok.mp hser
    cases hser
    simp only [List.cons_append, List.append_assoc] at hat
    simp only [List.cons_append, List.length_cons, List.length_append, cput64,
      length_bytes] at hfuel ⊢
    obtain ⟨htag, hat⟩ := tag_ok hat
    have hat₁ := skip_bytes hat
    rw [deser, bind_ok htag]
    simp only
    rw [if_neg (by decide), if_neg (by decide), if_pos (by decide),
      bind_ok (dget_ok hat a.toNat_lt)]
    simp only
    rw [bind_ok (deser_ok hsub hcount name hnf.1 hname hat₁ (by omega))]
    simp only
    rw [bind_ok (deser_ok hsub hcount body hnf.2 hbody hat₁.skip (by omega))]
    refine congrArg Except.ok (Prod.ext ?_ ?_)
    · rw [Body.map, UInt64.ofNat_toNat]
    · simp only
      omega
  | .app need head args, out, rest, off, fuel + 1, hnf, hser, hat, hfuel => by
    obtain ⟨hs, hhead, hser⟩ := ExceptState.bind_ok.mp hser
    obtain ⟨as, hargs, hser⟩ := ExceptState.bind_ok.mp hser
    cases hser
    obtain ⟨hne, hcells, hneed, hbits, hnfh, hnfa⟩ := hnf
    have hpos := List.length_pos_iff.mpr hne
    simp only [List.cons_append, List.append_assoc] at hat
    simp only [List.cons_append, List.length_cons, List.length_append, cput32,
      length_bytes] at hfuel ⊢
    obtain ⟨htag, hat⟩ := tag_ok hat
    have hat₁ := skip_bytes hat
    rw [deser, bind_ok htag]
    simp only
    rw [if_neg (by decide), if_neg (by decide), if_neg (by decide), if_pos (by decide),
      bind_ok (dget_ok hat (by norm_num; omega))]
    simp only
    rw [assume_true (decide_eq_true (by omega)),
      assume_true (decide_eq_true (by rw [Nat.mod_eq_of_lt (by omega)]; omega)),
      bind_ok (deser_ok hsub hcount head hnfh hhead hat₁ (by omega))]
    simp only
    rw [bind_ok (deserArgs_ok hsub hcount args hnfa hargs hat₁.skip (by omega))]
    -- the need is computed from the head as it was read
    rw [hneed, ← needAfter_map] at hbits
    refine congrArg Except.ok (Prod.ext ?_ ?_)
    · rw [Body.map, deserNeed_eq hbits, needAfter_map, ← hneed]
    · simp only
      omega

/-- And its loop takes what was written for arguments. -/
theorem deserArgs_ok (hsub : d.subpins = subpins.map f) (hcount : subpins.length ≤ 2 ^ 32) :
    ∀ (vs : List (Body α)) {out rest : List UInt8} {off fuel : Nat},
      Body.Normals (pinArity ∘ f) vs → serializeArgs subpins vs = .ok out →
      At d.b off (out ++ rest) → out.length ≤ fuel →
      deserArgs (deser pinArity stale d fuel) vs.length off =
        .ok (Body.maps f vs, off + out.length)
  | [], out, rest, off, fuel, hnf, hser, hat, hfuel => by
    cases hser
    rfl
  | v :: vs, out, rest, off, fuel, hnf, hser, hat, hfuel => by
    obtain ⟨a, ha, hser⟩ := ExceptState.bind_ok.mp hser
    obtain ⟨as, has, hser⟩ := ExceptState.bind_ok.mp hser
    cases hser
    rw [List.append_assoc] at hat
    rw [List.length_append] at hfuel
    rw [List.length_cons, deserArgs, bind_ok (deser_ok hsub hcount v hnf.1 ha hat (by omega))]
    simp only
    rw [bind_ok (deserArgs_ok hsub hcount vs hnf.2 has hat.skip (by omega)), Nat.add_assoc,
      ← List.length_append]
    rfl

end

/-! ## The table -/

mutual

theorem collectSubpins_spec : ∀ (v : Body α) (subpins : List α),
    (∀ p ∈ subpins, p ∈ collectSubpins subpins v) ∧
      ∀ p, v.Has p → p ∈ collectSubpins subpins v
  | .nat _, subpins => ⟨fun _ h => h, fun _ h => h.elim⟩
  | .pin q, subpins => by
    unfold collectSubpins
    split_ifs with hq
    · exact ⟨fun _ h => h, fun p h => h ▸ hq⟩
    · refine ⟨fun p h => List.mem_append_left _ h, fun p h => ?_⟩
      cases h
      simp
  | .law _ name body, subpins => by
    obtain ⟨hkeep, hname⟩ := collectSubpins_spec name subpins
    obtain ⟨hkeep', hbody⟩ := collectSubpins_spec body (collectSubpins subpins name)
    refine ⟨fun p h => hkeep' p (hkeep p h), ?_⟩
    rintro p (h | h)
    · exact hkeep' p (hname p h)
    · exact hbody p h
  | .app _ head args, subpins => by
    obtain ⟨hkeep, hhead⟩ := collectSubpins_spec head subpins
    obtain ⟨hkeep', hargs⟩ := collectArgs_spec args (collectSubpins subpins head)
    refine ⟨fun p h => hkeep' p (hkeep p h), ?_⟩
    rintro p (h | h)
    · exact hkeep' p (hhead p h)
    · exact hargs p h

theorem collectArgs_spec : ∀ (vs : List (Body α)) (subpins : List α),
    (∀ p ∈ subpins, p ∈ collectArgs subpins vs) ∧
      ∀ p, Body.Haves p vs → p ∈ collectArgs subpins vs
  | [], subpins => ⟨fun _ h => h, fun _ h => h.elim⟩
  | v :: vs, subpins => by
    obtain ⟨hkeep, hv⟩ := collectSubpins_spec v subpins
    obtain ⟨hkeep', hvs⟩ := collectArgs_spec vs (collectSubpins subpins v)
    refine ⟨fun p h => hkeep' p (hkeep p h), ?_⟩
    rintro p (h | h)
    · exact hkeep' p (hv p h)
    · exact hvs p h

end

mutual

/-- With its pins in the table a body is written. -/
theorem serialize_total : ∀ (v : Body α), (∀ p, v.Has p → p ∈ subpins) →
    ∃ out, serialize subpins v = .ok out
  | .nat _, _ => ⟨_, rfl⟩
  | .pin p, h => by
    have hin : decide (p ∈ subpins) = true := decide_eq_true (h p rfl)
    rw [serialize, assume_true hin]
    exact ⟨_, rfl⟩
  | .law a name body, h => by
    obtain ⟨ns, hname⟩ := serialize_total name fun p hp => h p (.inl hp)
    obtain ⟨bs, hbody⟩ := serialize_total body fun p hp => h p (.inr hp)
    rw [serialize, bind_ok hname, bind_ok hbody]
    exact ⟨_, rfl⟩
  | .app need head args, h => by
    obtain ⟨hs, hhead⟩ := serialize_total head fun p hp => h p (.inl hp)
    obtain ⟨as, hargs⟩ := serializeArgs_total args fun p hp => h p (.inr hp)
    rw [serialize, bind_ok hhead, bind_ok hargs]
    exact ⟨_, rfl⟩

theorem serializeArgs_total : ∀ (vs : List (Body α)), (∀ p, Body.Haves p vs → p ∈ subpins) →
    ∃ out, serializeArgs subpins vs = .ok out
  | [], _ => ⟨[], rfl⟩
  | v :: vs, h => by
    obtain ⟨a, ha⟩ := serialize_total v fun p hp => h p (.inl hp)
    obtain ⟨as, has⟩ := serializeArgs_total vs fun p hp => h p (.inr hp)
    rw [serializeArgs, bind_ok ha, bind_ok has]
    exact ⟨_, rfl⟩

end

/-! ## The whole record -/

omit [DecidableEq α] in
theorem length_hashes {hash : α → Hash} (ps : List α) :
    (ps.flatMap fun p => (hash p).bytes).length = 32 * ps.length := by
  induction ps with
  | nil => rfl
  | cons p ps ih =>
    rw [List.flatMap_cons, List.length_append, ih, (hash p).length_eq, List.length_cons]
    omega

omit [DecidableEq α] in
theorem loadSubpins_ok {load : Hash → Except Stop β} {hash : α → Hash} :
    ∀ (ps : List α) {rest : List UInt8} {off : Nat}, (∀ p ∈ ps, load (hash p) = .ok (f p)) →
      At d.b off (ps.flatMap (fun p => (hash p).bytes) ++ rest) →
      loadSubpins d load ps.length off = .ok (ps.map f, off + 32 * ps.length)
  | [], rest, off, _, _ => rfl
  | p :: ps, rest, off, hload, hat => by
    rw [List.flatMap_cons, List.append_assoc] at hat
    have hlen := hat.length
    simp only [List.length_append, (hash p).length_eq] at hlen
    have hnext : At d.b (off + 32) (ps.flatMap (fun p => (hash p).bytes) ++ rest) := by
      simpa [(hash p).length_eq] using hat.skip
    have hbytes : Hash.ofBytes ((d.b.drop off).take 32) = hash p := by
      obtain ⟨pre, hb, rfl⟩ := hat
      rw [hb, List.drop_left, List.take_left' (hash p).length_eq, Hash.ofBytes_bytes]
    rw [List.length_cons, loadSubpins, assume_true (decide_eq_true (by omega)), hbytes,
      bind_ok (hload p List.mem_cons_self), bind_ok (loadSubpins_ok ps
        (fun q hq => hload q (List.mem_cons_of_mem _ hq)) hnext)]
    refine congrArg Except.ok (Prod.ext rfl ?_)
    simp only
    omega

omit [DecidableEq α] in
mutual

theorem normal_map : ∀ (v : Body α), v.Normal (pinArity ∘ f) → (v.map f).Normal pinArity
  | .nat _, h => h
  | .pin _, _ => trivial
  | .law _ name body, h => ⟨normal_map name h.1, normal_map body h.2⟩
  | .app _ head args, h => by
    obtain ⟨hne, hcells, hneed, hbits, hhead, hargs⟩ := h
    have hlen : (Body.maps f args).length = args.length := length_maps args
    refine ⟨?_, by rwa [hlen], by rwa [hlen, needAfter_map], hbits, normal_map head hhead,
      normals_maps args hargs⟩
    rw [← List.length_pos_iff, hlen]
    exact List.length_pos_iff.mpr hne

theorem normals_maps : ∀ (vs : List (Body α)), Body.Normals (pinArity ∘ f) vs →
    Body.Normals pinArity (Body.maps f vs)
  | [], _ => trivial
  | v :: vs, h => ⟨normal_map v h.1, normals_maps vs h.2⟩

end

/-- A record as `save_legacy_put` puts it is loaded back. -/
theorem loadLegacyPin_ok {v : Body α} {out : List UInt8} {hash : α → Hash}
    {load : Hash → Except Stop β} (hnf : v.Normal (pinArity ∘ f))
    (hser : serialize subpins v = .ok out) (hcount : subpins.length ≤ Silo.maxPinCount)
    (hload : ∀ p ∈ subpins, load (hash p) = .ok (f p))
    (hb : d.b = saveLegacyPut hash subpins out) :
    loadLegacyPin pinArity stale d load = .ok (v.map f, subpins.map f, d.b.length) := by
  have hmax : Silo.maxPinCount = 1048575 := rfl
  have hat : At d.b 0 (canonVersion :: (cput64 subpins.length ++
      (subpins.flatMap (fun p => (hash p).bytes) ++ (out ++ [])))) :=
    ⟨[], by simp [hb, saveLegacyPut], rfl⟩
  have hlen := hat.length
  obtain ⟨hver, hat₁⟩ := tag_ok hat
  have hat₂ := skip_bytes hat₁
  have hpins := loadSubpins_ok subpins hload hat₂
  have hat₃ := hat₂.skip
  rw [length_hashes] at hat₃
  have hbody := @deser_ok _ _ _ pinArity stale ({ d with subpins := subpins.map f }) _ _ rfl
    (by omega) v _ _ _ d.b.length hnf hser hat₃
    (by simp only [List.length_cons, List.length_append] at hlen; omega)
  unfold loadLegacyPin
  rw [bind_ok hver]
  simp only
  rw [assume_true (by decide), bind_ok (dget_ok hat₁ (by norm_num; omega))]
  simp only
  rw [if_neg (by omega)]
  rw [bind_ok hpins]
  simp only
  rw [bind_ok hbody]
  refine congrArg Except.ok (Prod.ext rfl (Prod.ext rfl ?_))
  simp only [List.length_cons, List.length_append, length_hashes, cput64, length_bytes,
    List.length_nil] at hlen ⊢
  omega

/-- **Legacy round trip.** For a body in normal form `serialize` returns with the table that
`collect_subpins` makes, and `deser` takes exactly these bytes, wherever they are, and
returns the body with the pins of its own table; and so does the whole record. -/
theorem legacy_round_trip (pinArity : β → UInt64) (stale : Nat → UInt64) (f : α → β) (v : Body α)
    (hnf : v.Normal (pinArity ∘ f)) (hcount : (collectSubpins [] v).length ≤ 2 ^ 32) :
    (v.map f).Normal pinArity ∧ ∃ out, serialize (collectSubpins [] v) v = .ok out ∧
      (∀ (d : Deser β) (off : Nat) (rest : List UInt8),
        d.subpins = (collectSubpins [] v).map f → At d.b off (out ++ rest) →
        ∀ fuel, out.length ≤ fuel →
          deser pinArity stale d fuel off = .ok (v.map f, off + out.length)) ∧
      ∀ (d : Deser β) (hash : α → Hash) (load : Hash → Except Stop β),
        (collectSubpins [] v).length ≤ Silo.maxPinCount →
        (∀ p ∈ collectSubpins [] v, load (hash p) = .ok (f p)) →
        d.b = saveLegacyPut hash (collectSubpins [] v) out →
        loadLegacyPin pinArity stale d load =
          .ok (v.map f, (collectSubpins [] v).map f, d.b.length) := by
  obtain ⟨out, hser⟩ := serialize_total v (collectSubpins_spec v []).2
  refine ⟨normal_map v hnf, out, hser, ?_, ?_⟩
  · intro d off rest hsub hat fuel hfuel
    exact deser_ok hsub hcount v hnf hser hat hfuel
  · intro d hash load hmax hload hb
    exact loadLegacyPin_ok hnf hser hmax hload hb

end

/-- A pinned function of one argument, called with five. -/
def pinCall : Body Unit := .app 0 (.pin ()) [.nat (.direct 5)]

theorem pinCall_normal : pinCall.Normal ((fun _ => 1) ∘ id) := by
  refine ⟨by simp, by simp, by decide, by decide, trivial, ?_, trivial⟩
  exact canonical_direct.2 (by decide)

/-- What is written of it is read back. -/
theorem legacy_round_trip_pinCall : ∃ out, serialize [()] pinCall = .ok out ∧
    (∀ d : Deser Unit, d.subpins = [()] → d.b = out →
      deser (fun _ => 1) (fun _ => 0) d out.length 0 = .ok (pinCall.map id, out.length)) := by
  obtain ⟨-, out, hser, hread, -⟩ := legacy_round_trip (fun _ : Unit => 1) (fun _ => 0) id pinCall
    pinCall_normal (by decide)
  refine ⟨out, hser, fun d hsub hb => ?_⟩
  have hat : At d.b 0 (out ++ []) := ⟨[], by simp [hb], rfl⟩
  simpa using hread d 0 [] hsub hat out.length le_rfl

end Enki.Legacy
