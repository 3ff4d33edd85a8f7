import Enki.Silo.Grammar

/-!
# The reader and the grammar

Forwards, one induction serves both modes: the canonical scan accepts every
phrase and advances the cursor of the pin table, and the building pass
assembles the value, provided no chunk of an application needs more than its
header can hold (`NeedFits`); where one does, the building pass fails
(`Wire.rejects`). Backwards, whatever the canonical scan accepts is a phrase
(`scan_wire`).
-/

namespace Enki.Silo

open LittleEndian ExceptState StreamParser

variable (sha256 : List UInt8 → Hash)

/-! ## Opcodes -/

theorem toNat_ofNat_u8 {m : Nat} (h : m < 256) : (UInt8.ofNat m).toNat = m := by
  rw [UInt8.toNat_ofNat', Nat.mod_eq_of_lt h]

section Opcodes

variable {sha256} {d : DecCfg} {b : Nat} {p q : PinTrack} {bs : List UInt8} {r : Val × NodeInfo}

theorem parses_decodeNode {op : UInt8}
    (h : Parses (decodeOp sha256 d (decodeNode sha256 d b) op.toNat) p bs r q) :
    Parses (decodeNode sha256 d (b + 1)) p (op :: bs) r q := by
  rw [decodeNode]
  exact Parses.bind (parses_dreadByte op p) h

theorem rejects_decodeNode {op : UInt8}
    (h : Rejects (decodeOp sha256 d (decodeNode sha256 d b) op.toNat) p bs) :
    Rejects (decodeNode sha256 d (b + 1)) p (op :: bs) := by
  rw [decodeNode]
  exact Rejects.bind_right (parses_dreadByte op p) h

theorem decodeNode_ok {s t : Stream PinTrack}
    (h : decodeNode sha256 d (b + 1) s = .ok (r, t)) :
    ∃ op u, s.rest = op :: u.rest ∧ u.aux = s.aux ∧
      decodeOp sha256 d (decodeNode sha256 d b) op.toNat u = .ok (r, t) := by
  rw [decodeNode] at h
  obtain ⟨op, u, hread, h₁⟩ := run_bind_ok.1 h
  obtain ⟨hrest, haux⟩ := dreadByte_ok hread
  exact ⟨op, u, hrest, haux, h₁⟩

variable (child : Dec (Val × NodeInfo))

theorem decodeOp_app {n : Nat} (h0 : 0 < n) (h15 : n ≤ 15) :
    decodeOp sha256 d child (UInt8.ofNat (n * 8)).toNat = decodeApp d child n := by
  rw [toNat_ofNat_u8 (by omega), decodeOp, if_neg (by omega), if_neg (by omega), if_neg (by omega),
    if_neg (by omega), if_pos (by omega), Nat.mul_div_cancel _ (by decide)]

theorem decodeOp_law : decodeOp sha256 d child (0xf0 : UInt8).toNat = decodeLaw d child := rfl

theorem decodeOp_pin {w : Nat} (h0 : 0 < w) (h8 : w ≤ 8) :
    decodeOp sha256 d child (UInt8.ofNat (0xf0 + w)).toNat = decodePin d w := by
  rw [toNat_ofNat_u8 (by omega), decodeOp, if_neg (by omega), if_neg (by omega), if_neg (by omega),
    if_neg (by omega), if_neg (by omega), if_neg (by omega), if_pos (by omega), Nat.add_sub_cancel_left]

end Opcodes

/-- A natural is read back in either mode. -/
theorem parses_natBytes (d : DecCfg) (b : Nat) (p : PinTrack) {n : Nat}
    (hmax : byteLen n ≤ maxNatBytes) :
    Parses (decodeNode sha256 d (b + 1)) p (natBytes sha256 n) (natResult d n) p := by
  unfold natBytes
  by_cases h63 : n ≤ 63
  · rw [if_pos h63]
    refine parses_decodeNode ?_
    rw [toNat_ofNat_u8 (by omega), decodeOp, if_pos (by omega), natResult_small h63,
      show (0x80 + n) % 64 = n by omega]
    exact Parses.pure _ p
  · rw [if_neg h63]
    have h0 : byteLen n ≠ 0 := mt byteLen_eq_zero_iff.1 (by omega)
    by_cases h31 : byteLen n ≤ 31
    · rw [if_pos h31]
      refine parses_decodeNode ?_
      rw [toNat_ofNat_u8 (by omega), decodeOp, if_neg (by omega), if_pos (by omega),
        show (0xc0 + byteLen n) % 32 = byteLen n by omega]
      exact parses_decodeMedium d p (by omega) h31
    · rw [if_neg h31]
      by_cases hcut : byteLen n ≤ natCutover
      · have hw : widthU64 (byteLen n) ≤ 8 :=
          widthU64_le (by unfold natCutover at hcut; unfold uint64Max; omega)
        have hw0 := widthU64_pos (byteLen n)
        rw [if_pos hcut]
        refine parses_decodeNode ?_
        rw [toNat_ofNat_u8 (by omega), decodeOp, if_neg (by omega), if_neg (by omega),
          if_pos (by omega), show (0xe0 + widthU64 (byteLen n)) % 16 = widthU64 (byteLen n) by omega]
        exact parses_decodeBig d p (by omega) hcut
      · rw [if_neg hcut]
        refine parses_decodeNode ?_
        exact parses_decodeMnat sha256 d p (by omega) hmax

/-! ## Pin tracking -/

/-- First-use tracking once `k` of `n` pins have been used in order. -/
def trackAt (n k : Nat) : PinTrack where
  used := List.replicate k true ++ List.replicate (n - k) false
  nextCanonicalPin := k
  usedList := List.range k

theorem getD_trackAt {n k i : Nat} : (trackAt n k).used.getD i false = decide (i < k) := by
  rw [trackAt, List.getD_eq_getElem?_getD]
  by_cases hi : i < k
  · rw [List.getElem?_append_left (by simpa using hi), List.getElem?_replicate]
    simp [hi]
  · rw [List.getElem?_append_right (by simpa using hi), List.getElem?_replicate]
    split <;> simp [hi]

theorem trackAt_succ {n k : Nat} (hk : k < n) :
    ({ used := (trackAt n k).used.set k true
       nextCanonicalPin := (trackAt n k).nextCanonicalPin + 1
       usedList := (trackAt n k).usedList ++ [k] } : PinTrack) = trackAt n (k + 1) := by
  have hn : n - k = (n - (k + 1)) + 1 := by omega
  simp only [trackAt, List.range_succ]
  rw [List.set_append_right _ _ (by simp), hn, List.length_replicate, Nat.sub_self,
    List.replicate_succ, List.set_cons_zero, List.replicate_succ']
  simp

/-- The tracking state of mode `d` with the cursor at `k`. -/
def trackOf (d : DecCfg) (n k : Nat) : PinTrack :=
  if d.captureHeader then trackAt n k else ⟨[], 0, []⟩

theorem parses_trackPin {d : DecCfg} {n k i : Nat} (hi : i ≤ k) (hin : i < n) :
    Parses (trackPin d i) (trackOf d n k) [] () (trackOf d n (max k (i + 1))) := by
  intro rest pos
  unfold trackPin trackOf
  cases hc : d.captureHeader with
  | false => simp
  | true =>
    simp only [if_true, getD_trackAt, true_and]
    rcases Nat.lt_or_ge i k with hlt | hge
    · rw [if_neg (by simpa using hlt), Nat.max_eq_left (by omega)]
      simp
    · obtain rfl : i = k := by omega
      rw [if_pos (by simp), if_neg (by simp [trackAt]), Nat.max_eq_right (by omega),
        trackAt_succ hin]
      simp

theorem trackPin_ok {d : DecCfg} {n k i : Nat} {s t : Stream PinTrack} {x : Unit}
    (hcanon : d.canonical) (hcap : d.captureHeader) (hin : i < n) (haux : s.aux = trackAt n k)
    (h : trackPin d i s = .ok (x, t)) :
    i ≤ k ∧ t.rest = s.rest ∧ t.aux = trackAt n (max k (i + 1)) := by
  unfold trackPin at h
  simp only [haux, hcap, hcanon, true_and, getD_trackAt] at h
  rcases Nat.lt_or_ge i k with hlt | hge
  · rw [if_neg (by simpa using hlt)] at h
    cases h
    exact ⟨by omega, rfl, by rw [haux, Nat.max_eq_left (by omega)]⟩
  · rw [if_pos (by simpa using hge)] at h
    split at h
    · cases h
    · next hnext =>
      have hik : i = k := by simpa [trackAt] using hnext
      subst hik
      cases h
      exact ⟨by omega, rfl, by rw [Nat.max_eq_right (by omega)]; exact trackAt_succ hin⟩

/-! ## Applications -/

mutual

/-- The reader assembles a spine fifteen arguments at a time, and every partial
application on the way must have a need below `2^20`; the largest is that of
the innermost chunk. -/
def NeedFits : Val → Prop
  | .nat _ => True
  | .pin _ _ => True
  | .law _ name body => NeedFits name ∧ NeedFits body
  | .app _ head args =>
    NeedFits head ∧ NeedFitsAll args ∧ head.needAfter (min 15 args.length) < 2 ^ 20

/-- `NeedFits` of every argument. -/
def NeedFitsAll : List Val → Prop
  | [] => True
  | a :: as => NeedFits a ∧ NeedFitsAll as

end

theorem needFitsAll_append {as bs : List Val} :
    NeedFitsAll (as ++ bs) ↔ NeedFitsAll as ∧ NeedFitsAll bs := by
  induction as with
  | nil => simp [NeedFitsAll]
  | cons a as ih => simp only [List.cons_append, NeedFitsAll, ih, and_assoc]

/-- `NeedFits` of a phrase. -/
def Phrase.Fits : Phrase → Prop
  | .node v => NeedFits v
  | .spine head as => NeedFits head ∧ NeedFitsAll as ∧ head.needAfter (min 15 as.length) < 2 ^ 20
  | .args vs => NeedFitsAll vs

theorem needAfter_anti {head : Val} {m n : Nat} (h : m ≤ n) : head.needAfter n ≤ head.needAfter m := by
  unfold Val.needAfter
  split <;> split <;> omega

theorem buildApp_flat {d : DecCfg} {head : Val} {args : List Val} (hd : d.build)
    (happ : head.isApp = false) (h0 : args ≠ []) (hlen : args.length ≤ 0xffffffff - 2) :
    buildApp d head args = if head.needAfter args.length < 2 ^ 20
      then pure (.app (head.needAfter args.length) head args)
      else throw "decoded APP need exceeds runtime limit" := by
  have hpos : 0 < args.length := List.length_pos_iff.mpr h0
  have hbody : buildApp d head args = if 0 + args.length = 0 ∨ 0 + args.length > 0xffffffff - 2
      then throw "decoded APP is too large"
      else if head.needAfter (0 + args.length) ≥ 2 ^ 20
        then throw "decoded APP need exceeds runtime limit"
        else pure (.app (head.needAfter (0 + args.length)) head ([] ++ args)) := by
    unfold buildApp
    rw [if_neg (not_not.mpr hd)]
    cases head with
    | app => simp [Val.isApp] at happ
    | _ => rfl
  rw [hbody, if_neg (by omega), Nat.zero_add, List.nil_append]
  split <;> split <;> first | rfl | omega

theorem buildApp_nested {d : DecCfg} {need : Nat} {head : Val} {inner args : List Val}
    (hd : d.build) (h0 : args ≠ []) (hlen : (inner ++ args).length ≤ 0xffffffff - 2) :
    buildApp d (.app need head inner) args = if head.needAfter (inner ++ args).length < 2 ^ 20
      then pure (.app (head.needAfter (inner ++ args).length) head (inner ++ args))
      else throw "decoded APP need exceeds runtime limit" := by
  have hpos : 0 < args.length := List.length_pos_iff.mpr h0
  have hbody : buildApp d (.app need head inner) args =
      if inner.length + args.length = 0 ∨ inner.length + args.length > 0xffffffff - 2
      then throw "decoded APP is too large"
      else if head.needAfter (inner.length + args.length) ≥ 2 ^ 20
        then throw "decoded APP need exceeds runtime limit"
        else pure (.app (head.needAfter (inner.length + args.length)) head (inner ++ args)) := by
    unfold buildApp
    rw [if_neg (not_not.mpr hd)]
    rfl
  rw [List.length_append] at hlen
  rw [hbody, if_neg (by omega), List.length_append]
  split <;> split <;> first | rfl | omega

theorem buildApp_scan {d : DecCfg} (hd : d.build = false) (head : Val) (args : List Val) :
    buildApp d head args = pure (.nat 0) := by
  unfold buildApp
  rw [if_pos (by simp [hd])]

/-- What a node's `silo_node_info` tells about it. -/
structure InfoFor (v : Val) (info : NodeInfo) : Prop where
  app : info.kind = .app ↔ v.isApp
  chunk : ∀ need head args, v = .app need head args → info.wireAppN = spineOuter args.length
  nat : info.kind = .nat → ∃ n, v = .nat n ∧ info.natFits = decide (byteLen n ≤ 8) ∧
    info.natU64 = n % 256 ^ 8

/-- What mode `d` returns for `v`. -/
def built (d : DecCfg) (v : Val) : Val := if d.build then v else .nat 0

/-- The reader in mode `d` takes a phrase and moves the cursor. -/
def Phrase.Reads (d : DecCfg) (n budget k : Nat) (bs : List UInt8) (k' : Nat) : Phrase → Prop
  | .node v => ∃ info, InfoFor v info ∧
    Parses (decodeNode sha256 d budget) (trackOf d n k) bs (built d v, info) (trackOf d n k')
  | .spine head as => ∃ info, info.kind = .app ∧ info.wireAppN = spineOuter as.length ∧
    Parses (decodeNode sha256 d budget) (trackOf d n k) bs
      (built d (.app (head.needAfter as.length) head as), info) (trackOf d n k')
  | .args vs =>
    Parses (decodeMany (decodeNode sha256 d budget) vs.length) (trackOf d n k) bs
      (vs.map (built d)) (trackOf d n k')

/-- A reader over the pins `resolved`. -/
structure ReaderFor (resolved : List Val) (d : DecCfg) : Prop where
  pins : d.pins.length = resolved.length
  resolved : d.build → d.resolved = resolved

section Applications

variable {d : DecCfg} {child : Dec (Val × NodeInfo)} {p q r : PinTrack} {xs ys : List UInt8}
  {head : Val} {info : NodeInfo} {args : List Val} {n : Nat}

theorem parses_decodeApp {v : Val} (hhead : Parses child p xs (head, info) q)
    (hchunk : info.kind = .app → info.wireAppN = 15)
    (hargs : Parses (decodeMany child n) q ys args r) (hbuild : buildApp d head args = pure v) :
    Parses (decodeApp d child n) p (xs ++ ys) (v, { kind := .app, wireAppN := n }) r := by
  unfold decodeApp
  refine Parses.bind hhead ?_
  refine Parses.reject_bind (fun h => h.2.2 (hchunk h.2.1)) ?_
  refine Parses.bind_nil hargs ?_
  rw [hbuild, pure_bind]
  exact Parses.pure _ r

theorem rejects_decodeApp_head (hhead : Rejects child p xs) :
    Rejects (decodeApp d child n) p (xs ++ ys) :=
  Rejects.bind_left hhead _

theorem rejects_decodeApp_args (hhead : Parses child p xs (head, info) q)
    (hargs : Rejects (decodeMany child n) q ys) : Rejects (decodeApp d child n) p (xs ++ ys) := by
  unfold decodeApp
  refine Rejects.bind_right hhead (Rejects.reject_bind (.inr ?_))
  rw [← List.append_nil ys]
  exact Rejects.bind_left hargs _

theorem rejects_decodeApp_build {e : String} (hhead : Parses child p xs (head, info) q)
    (hargs : Parses (decodeMany child n) q ys args r) (hbuild : buildApp d head args = throw e) :
    Rejects (decodeApp d child n) p (xs ++ ys) := by
  unfold decodeApp
  refine Rejects.bind_right hhead (Rejects.reject_bind (.inr ?_))
  rw [← List.append_nil ys]
  refine Rejects.bind_right hargs ?_
  rw [hbuild]
  exact fun rest pos => ⟨e, rfl⟩

end Applications

/-! ## Forwards -/

section Forwards

variable {sha256} {d : DecCfg} {resolved : List Val} {budget k k' : Nat} {bs : List UInt8}
  {ph : Phrase}

theorem map_built {d : DecCfg} (hb : d.build) (vs : List Val) : vs.map (built d) = vs := by
  have hid : built d = id := funext fun v => by simp [built, hb]
  rw [hid, List.map_id]

theorem built_nat (d : DecCfg) (n : Nat) :
    (.nat (if d.build then n else 0) : Val) = built d (.nat n) := by
  unfold built
  split <;> rfl

theorem infoFor_nat (d : DecCfg) (n : Nat) : InfoFor (.nat n) (natResult d n).2 where
  app := by simp [natResult, Val.isApp]
  chunk := by simp
  nat _ := ⟨n, rfl, rfl, rfl⟩

theorem parses_pinBytes {b i : Nat} {p : Val} (hd : ReaderFor resolved d)
    (hlen : resolved.length ≤ uint64Max) (hp : resolved[i]? = some p) (hpin : p.isPin)
    (hi : i ≤ k) :
    Parses (decodeNode sha256 d (b + 1)) (trackOf d resolved.length k) (pinBytes i)
      (built d p, { kind := .pin }) (trackOf d resolved.length (max k (i + 1))) := by
  have hlt : i < resolved.length := (List.getElem?_eq_some_iff.mp hp).1
  have hi64 : i ≤ uint64Max := by omega
  refine parses_decodeNode ?_
  rw [decodeOp_pin _ (widthU64_pos i) (widthU64_le hi64)]
  unfold decodePin
  refine Parses.bind_nil (parses_dread _ (length_bytes _ _)) ?_
  rw [getle_bytes (widthU64_le hi64) (lt_pow_widthU64 hi64)]
  refine Parses.reject_bind (fun h => h rfl) (Parses.reject_bind (by rw [hd.pins]; omega) ?_)
  refine Parses.bind (parses_trackPin hi hlt) ?_
  unfold built
  cases hb : d.build with
  | false => exact Parses.pure _ _
  | true =>
    have hget : d.resolved.getD i (.nat 0) = p := by
      rw [hd.resolved hb, List.getD_eq_getElem?_getD, hp, Option.getD_some]
    simp only [if_true]
    refine Parses.reject_bind (by rw [hget]; simpa using hpin) ?_
    rw [hget]
    exact Parses.pure _ _

theorem Wire.budget_pos {v : Val} (h : Wire sha256 resolved budget (.node v) k bs k') :
    ∃ b, budget = b + 1 := by
  cases h <;> exact ⟨_, rfl⟩

theorem spineOuter_dvd {n : Nat} (hn : 0 < n) (hdvd : 15 ∣ n) : spineOuter n = 15 := by
  obtain ⟨hpos, h15, hle, hsub⟩ := spineOuter_spec hn
  omega

theorem Wire.spine_length {head : Val} {args : List Val} (hbudget : budget ≤ maxDepth + 1)
    (h : Wire sha256 resolved budget (.spine head args) k bs k') :
    args ≠ [] ∧ args.length ≤ 0xffffffff - 2 := by
  obtain ⟨h0, hlen⟩ := h.length_le
  unfold maxDepth at hbudget
  exact ⟨h0, by omega⟩

/-- A spine fits when its inner spine and its outermost chunk do. -/
theorem fits_outer {head : Val} {pre post : List Val} (hpre : pre ≠ []) (hdvd : 15 ∣ pre.length) :
    (Phrase.spine head (pre ++ post)).Fits ↔
      (Phrase.spine head pre).Fits ∧ (Phrase.args post).Fits := by
  have hpos : 0 < pre.length := List.length_pos_iff.mpr hpre
  have hmin : min 15 (pre ++ post).length = min 15 pre.length := by
    rw [List.length_append]
    omega
  simp only [Phrase.Fits, needFitsAll_append, hmin]
  tauto

/-- **The reader takes every phrase**, in either mode. -/
theorem Wire.reads (hd : ReaderFor resolved d) (hlen : resolved.length ≤ uint64Max)
    (hbudget : budget ≤ maxDepth + 1) (h : Wire sha256 resolved budget ph k bs k')
    (hfits : d.build → ph.Fits) : ph.Reads sha256 d resolved.length budget k bs k' := by
  induction h with
  | @nat b n k hn =>
    refine ⟨(natResult d n).2, infoFor_nat d n, ?_⟩
    rw [← built_nat]
    exact parses_natBytes sha256 d b _ hn
  | @pin b i p k hp hpin hi =>
    refine ⟨{ kind := .pin }, ⟨?_, ?_, ?_⟩, parses_pinBytes hd hlen hp hpin hi⟩
    · cases p <;> simp_all [Val.isPin, Val.isApp]
    · rintro need head args rfl
      simp [Val.isPin] at hpin
    · simp
  | @law b a name body k k₁ k₂ xs ys h0 hmax hname hbody ih₁ ih₂ =>
    obtain ⟨b, rfl⟩ := hname.budget_pos
    have ha64 : a < 256 ^ 8 := by
      unfold nat63Max at hmax
      omega
    have ha8 : byteLen a ≤ 8 := byteLen_le_iff.2 ha64
    obtain ⟨ninfo, -, hn⟩ := ih₁ (by omega) fun hb => (hfits hb).1
    obtain ⟨binfo, -, hb⟩ := ih₂ (by omega) fun hb => (hfits hb).2
    have harity := parses_natBytes sha256 d b (trackOf d resolved.length k₁) (n := a)
      (by unfold maxNatBytes maxPinCount; omega)
    refine ⟨{ kind := .law }, ⟨by simp [Val.isApp], by simp, by simp⟩, ?_⟩
    refine parses_decodeNode ?_
    rw [decodeOp_law]
    unfold decodeLaw
    refine Parses.bind hn (Parses.bind harity ?_)
    dsimp only [natResult]
    rw [Nat.mod_eq_of_lt ha64]
    refine Parses.reject_bind (by simp; omega) (Parses.bind_nil hb ?_)
    unfold built
    cases hb : d.build <;> exact Parses.pure _ _
  | @app b head args k bs k' hspine ih =>
    obtain ⟨info, hkind, hwire, hparse⟩ := ih hbudget hfits
    refine ⟨info, ⟨by simp [hkind, Val.isApp], ?_, by simp [hkind]⟩, hparse⟩
    rintro need head' args' heq
    cases heq
    exact hwire
  | @inner b head args k k₁ k₂ xs ys h0 h15 happ hhead hargs ih₁ ih₂ =>
    obtain ⟨info, hinfo, hh⟩ := ih₁ (by omega) fun hb => (hfits hb).1
    have ha := ih₂ (by omega) fun hb => (hfits hb).2.1
    refine ⟨{ kind := .app, wireAppN := args.length }, rfl, (spineOuter_small h0 h15).symm, ?_⟩
    refine parses_decodeNode ?_
    rw [decodeOp_app _ (List.length_pos_iff.mpr h0) h15]
    refine parses_decodeApp hh (fun hk => by simp [hinfo.app.mp hk] at happ) ha ?_
    unfold built
    cases hb : d.build with
    | false => simp [buildApp_scan hb]
    | true =>
      have hneed := (hfits hb).2.2
      rw [Nat.min_eq_right h15] at hneed
      simp only [if_true, List.map_id']
      rw [buildApp_flat hb happ h0 (by omega), if_pos hneed]
  | @outer b head pre post k k₁ k₂ xs ys h0 h15 hpre hdvd hspine hargs ih₁ ih₂ =>
    have hlong := (Wire.outer h0 h15 hpre hdvd hspine hargs).spine_length hbudget
    have hpos : 0 < pre.length := List.length_pos_iff.mpr hpre
    obtain ⟨info, -, hwire, hh⟩ := ih₁ (by omega) fun hb => ((fits_outer hpre hdvd).mp (hfits hb)).1
    have ha := ih₂ (by omega) fun hb => ((fits_outer hpre hdvd).mp (hfits hb)).2
    refine ⟨{ kind := .app, wireAppN := post.length }, rfl,
      (spineOuter_append hdvd h0 h15).symm, ?_⟩
    refine parses_decodeNode ?_
    rw [decodeOp_app _ (List.length_pos_iff.mpr h0) h15]
    refine parses_decodeApp hh (fun _ => hwire.trans (spineOuter_dvd hpos hdvd)) ha ?_
    unfold built
    cases hb : d.build with
    | false => simp [buildApp_scan hb]
    | true =>
      have hneed : head.needAfter (pre ++ post).length < 2 ^ 20 :=
        Nat.lt_of_le_of_lt (needAfter_anti (Nat.min_le_right 15 _)) (hfits hb).2.2
      simp only [if_true, List.map_id']
      rw [buildApp_nested hb h0 hlong.2, if_pos hneed]
  | nil => exact Parses.pure _ _
  | @cons b a as k k₁ k₂ xs ys hnode hargs ih₁ ih₂ =>
    obtain ⟨info, -, hn⟩ := ih₁ hbudget fun hb => (hfits hb).1
    have ha := ih₂ hbudget fun hb => (hfits hb).2
    refine Parses.bind hn (Parses.bind_nil ha ?_)
    exact Parses.pure _ _

/-- The building pass fails on a phrase. -/
def Phrase.Fails (sha256 : List UInt8 → Hash) (d : DecCfg) (n budget k : Nat) (bs : List UInt8) :
    Phrase → Prop
  | .args vs => Rejects (decodeMany (decodeNode sha256 d budget) vs.length) (trackOf d n k) bs
  | _ => Rejects (decodeNode sha256 d budget) (trackOf d n k) bs

/-- **The building pass fails** where some partial application on the way needs
too much. -/
theorem Wire.rejects (hd : ReaderFor resolved d) (hb : d.build) (hlen : resolved.length ≤ uint64Max)
    (hbudget : budget ≤ maxDepth + 1) (h : Wire sha256 resolved budget ph k bs k')
    (hfits : ¬ ph.Fits) : ph.Fails sha256 d resolved.length budget k bs := by
  induction h with
  | nat | nil => exact absurd trivial hfits
  | @pin b i p k hp hpin hi =>
    cases p with
    | pin => exact absurd trivial hfits
    | _ => simp [Val.isPin] at hpin
  | @law b a name body k k₁ k₂ xs ys h0 hmax hname hbody ih₁ ih₂ =>
    obtain ⟨b, rfl⟩ := hname.budget_pos
    refine rejects_decodeNode ?_
    rw [decodeOp_law]
    unfold decodeLaw
    by_cases hn : NeedFits name
    · obtain ⟨ninfo, -, hname'⟩ := hname.reads hd hlen (by omega) fun _ => hn
      have hbody' := ih₂ (by omega) fun hb => hfits ⟨hn, hb⟩
      have harity := parses_natBytes sha256 d b (trackOf d resolved.length k₁) (n := a)
        (by
          have : byteLen a ≤ 8 := byteLen_le_iff.2 (by unfold nat63Max at hmax; omega)
          unfold maxNatBytes maxPinCount
          omega)
      refine Rejects.bind_right hname' (Rejects.bind_right harity (Rejects.reject_bind (.inr ?_)))
      rw [← List.append_nil ys]
      exact Rejects.bind_left hbody' _
    · exact Rejects.bind_left (ih₁ (by omega) hn) _
  | @app b head args k bs k' hspine ih => exact ih hbudget hfits
  | @inner b head args k k₁ k₂ xs ys h0 h15 happ hhead hargs ih₁ ih₂ =>
    refine rejects_decodeNode ?_
    rw [decodeOp_app _ (List.length_pos_iff.mpr h0) h15]
    by_cases hh : NeedFits head
    · obtain ⟨info, -, hhead'⟩ := hhead.reads hd hlen (by omega) fun _ => hh
      by_cases ha : NeedFitsAll args
      · have hargs' := hargs.reads hd hlen (by omega) fun _ => ha
        refine rejects_decodeApp_build (e := "decoded APP need exceeds runtime limit")
          hhead' hargs' ?_
        have hneed : ¬ head.needAfter args.length < 2 ^ 20 := by
          intro hneed
          refine hfits ⟨hh, ha, ?_⟩
          rwa [Nat.min_eq_right h15]
        rw [map_built hb, show built d head = head by simp [built, hb],
          buildApp_flat hb happ h0 (by omega), if_neg hneed]
      · exact rejects_decodeApp_args hhead' (ih₂ (by omega) ha)
    · exact rejects_decodeApp_head (ih₁ (by omega) hh)
  | @outer b head pre post k k₁ k₂ xs ys h0 h15 hpre hdvd hspine hargs ih₁ ih₂ =>
    rw [fits_outer hpre hdvd] at hfits
    refine rejects_decodeNode ?_
    rw [decodeOp_app _ (List.length_pos_iff.mpr h0) h15]
    by_cases hs : (Phrase.spine head pre).Fits
    · obtain ⟨info, -, -, hspine'⟩ := hspine.reads hd hlen (by omega) fun _ => hs
      exact rejects_decodeApp_args hspine' (ih₂ (by omega) fun ha => hfits ⟨hs, ha⟩)
    · exact rejects_decodeApp_head (ih₁ (by omega) hs)
  | @cons b a as k k₁ k₂ xs ys hnode hargs ih₁ ih₂ =>
    by_cases ha : NeedFits a
    · obtain ⟨info, -, hnode'⟩ := hnode.reads hd hlen hbudget fun _ => ha
      refine Rejects.bind_right hnode' ?_
      rw [← List.append_nil ys]
      exact Rejects.bind_left (ih₂ hbudget fun has => hfits ⟨ha, has⟩) _
    · exact Rejects.bind_left (ih₁ hbudget ha) _

end Forwards

/-! ## Backwards -/

section Backwards

variable {sha256} {d : DecCfg} {resolved : List Val}

/-- The configuration of a canonical scan over as many pins as `resolved` has. -/
structure ScanFor (resolved : List Val) (d : DecCfg) : Prop where
  pins : d.pins.length = resolved.length
  isPin : ∀ p ∈ resolved, p.isPin
  scan : d.build = false
  canonical : d.canonical
  capture : d.captureHeader

/-- What an accepted run of the scan read. -/
def Scanned (sha256 : List UInt8 → Hash) (resolved : List Val) (budget : Nat) (ph : Phrase)
    (k : Nat) (s t : Stream PinTrack) : Prop :=
  ∃ k' bs, Wire sha256 resolved budget ph k bs k' ∧ s.rest = bs ++ t.rest ∧
    t.aux = trackAt resolved.length k'

theorem ofNat_toNat_u8 (x : UInt8) : UInt8.ofNat x.toNat = x := by
  rw [← UInt8.toNat_inj, toNat_ofNat_u8 x.toNat_lt]

/-- Naturals: the accepted opcodes and payloads are those of `natBytes`. -/
theorem decodeOp_nat_ok {child : Dec (Val × NodeInfo)} {op : UInt8} {s t : Stream PinTrack}
    {r : Val × NodeInfo} (hcanon : d.canonical)
    (hop : (0x80 ≤ op.toNat ∧ op.toNat ≤ 0xef) ∨ op.toNat = 0xf9)
    (h : decodeOp sha256 d child op.toNat s = .ok (r, t)) :
    ∃ n, byteLen n ≤ maxNatBytes ∧ op :: s.rest = natBytes sha256 n ++ t.rest ∧
      r = natResult d n ∧ t.aux = s.aux := by
  unfold decodeOp at h
  split at h
  · next hsmol =>
    cases h
    have hn : op.toNat % 64 ≤ 63 := by omega
    refine ⟨op.toNat % 64, ?_, ?_, (natResult_small hn).symm, rfl⟩
    · have : byteLen (op.toNat % 64) ≤ 1 := byteLen_le_iff.2 (by omega)
      unfold maxNatBytes maxPinCount
      omega
    · rw [natBytes, if_pos hn, show 0x80 + op.toNat % 64 = op.toNat by omega, ofNat_toNat_u8]
      rfl
  · next hsmol =>
    split at h
    · next hmed =>
      obtain ⟨n, hrest, hlen, h31, h63, hr, haux⟩ := decodeMedium_ok hcanon h
      refine ⟨n, by unfold maxNatBytes maxPinCount; omega, ?_, hr, haux⟩
      rw [natBytes, if_neg (by omega), if_pos (by omega), hlen,
        show 0xc0 + op.toNat % 32 = op.toNat by omega, ofNat_toNat_u8, hrest, List.cons_append]
    · next hmed =>
      split at h
      · next hbig =>
        obtain ⟨n, hrest, hw, h31, hcut, hr, haux⟩ := decodeBig_ok hcanon h
        have h63 : ¬ n ≤ 63 := by
          intro hle
          have : byteLen n ≤ 1 := byteLen_le_iff.2 (by omega)
          omega
        refine ⟨n, by unfold natCutover at hcut; unfold maxNatBytes maxPinCount; omega, ?_, hr, haux⟩
        rw [natBytes, if_neg h63, if_neg (by omega), if_pos hcut, ← hw,
          show 0xe0 + op.toNat % 16 = op.toNat by omega, ofNat_toNat_u8, hrest, List.cons_append]
      · next hbig =>
        split at h
        · next hmnat =>
          obtain ⟨n, hcut, hmax, hrest, hr, haux⟩ := decodeMnat_ok sha256 hcanon h
          have h31 : ¬ byteLen n ≤ 31 := by
            unfold natCutover at hcut
            omega
          have h63 : ¬ n ≤ 63 := by
            intro hle
            have : byteLen n ≤ 1 := byteLen_le_iff.2 (by omega)
            omega
          refine ⟨n, hmax, ?_, hr, haux⟩
          rw [natBytes, if_neg h63, if_neg h31, if_neg (by omega), hrest, List.cons_append,
            ← ofNat_toNat_u8 op, hmnat]
          rfl
        · next hmnat =>
          rw [if_neg (by omega), if_neg (by omega), if_neg (by omega)] at h
          cases h

theorem decodePin_ok {w k : Nat} {s t : Stream PinTrack} {r : Val × NodeInfo}
    (hd : ScanFor resolved d) (hw : w ≤ 8) (haux : s.aux = trackAt resolved.length k)
    (h : decodePin d w s = .ok (r, t)) :
    ∃ i p, resolved[i]? = some p ∧ p.isPin ∧ i ≤ k ∧ w = widthU64 i ∧
      s.rest = bytes (widthU64 i) i ++ t.rest ∧ r.2 = { kind := .pin } ∧
      t.aux = trackAt resolved.length (max k (i + 1)) := by
  unfold decodePin at h
  obtain ⟨b, u, hread, h₁⟩ := run_bind_ok.1 h
  obtain ⟨hrest, hlen, haux₁⟩ := dread_ok hread
  obtain ⟨hwidth, h₂⟩ := run_reject_bind_ok.1 h₁
  obtain ⟨hrange, h₃⟩ := run_reject_bind_ok.1 h₂
  obtain ⟨x, u₁, htrack, h₄⟩ := run_bind_ok.1 h₃
  have hlt : getle b < resolved.length := by
    rw [hd.pins] at hrange
    omega
  obtain ⟨hle, hrest₁, haux₂⟩ :=
    trackPin_ok hd.canonical hd.capture hlt (haux₁.trans haux) htrack
  rw [ne_eq, not_not] at hwidth
  have hbytes : bytes (widthU64 (getle b)) (getle b) = b := by
    rw [← hwidth, ← hlen, bytes_getle (by omega)]
  have hget : resolved[getle b]? = some resolved[getle b] := List.getElem?_eq_getElem hlt
  simp only [hd.scan] at h₄
  cases h₄
  refine ⟨getle b, resolved[getle b], hget, hd.isPin _ (List.getElem_mem hlt), hle, hwidth, ?_,
    rfl, haux₂⟩
  rw [hbytes, hrest, hrest₁]

theorem decodeMany_ok {budget n k : Nat} {s t : Stream PinTrack} {vs : List Val}
    (hnode : ∀ {s t : Stream PinTrack} {r : Val × NodeInfo} {k : Nat},
      s.aux = trackAt resolved.length k → decodeNode sha256 d budget s = .ok (r, t) →
      ∃ v, InfoFor v r.2 ∧ Scanned sha256 resolved budget (.node v) k s t)
    (haux : s.aux = trackAt resolved.length k)
    (h : decodeMany (decodeNode sha256 d budget) n s = .ok (vs, t)) :
    ∃ args : List Val, args.length = n ∧ Scanned sha256 resolved budget (.args args) k s t := by
  induction n generalizing s k vs with
  | zero =>
    cases h
    exact ⟨[], rfl, k, [], .nil, rfl, haux⟩
  | succ n ih =>
    obtain ⟨⟨v₀, info⟩, u, hfirst, h₁⟩ := run_bind_ok.1 h
    obtain ⟨v, -, k₁, xs, hwire, hrest, haux₁⟩ := hnode haux hfirst
    obtain ⟨vs', u₁, hmany, h₂⟩ := run_bind_ok.1 h₁
    cases h₂
    obtain ⟨args, hlen, k₂, ys, hwire', hrest', haux₂⟩ := ih haux₁ hmany
    refine ⟨v :: args, by rw [List.length_cons, hlen], k₂, xs ++ ys, .cons hwire hwire', ?_, haux₂⟩
    rw [hrest, hrest', List.append_assoc]

theorem decodeApp_ok {b n k : Nat} {s t : Stream PinTrack} {r : Val × NodeInfo}
    (hd : ScanFor resolved d)
    (hnode : ∀ {s t : Stream PinTrack} {r : Val × NodeInfo} {k : Nat},
      s.aux = trackAt resolved.length k → decodeNode sha256 d b s = .ok (r, t) →
      ∃ v, InfoFor v r.2 ∧ Scanned sha256 resolved b (.node v) k s t)
    (h0 : 0 < n) (h15 : n ≤ 15) (haux : s.aux = trackAt resolved.length k)
    (h : decodeApp d (decodeNode sha256 d b) n s = .ok (r, t)) :
    ∃ v k' bs, InfoFor v r.2 ∧
      Wire sha256 resolved (b + 1) (.node v) k (UInt8.ofNat (n * 8) :: bs) k' ∧
      s.rest = bs ++ t.rest ∧ t.aux = trackAt resolved.length k' := by
  unfold decodeApp at h
  obtain ⟨⟨head₀, hinfo⟩, u, hfirst, h₁⟩ := run_bind_ok.1 h
  obtain ⟨head, hfor, k₁, xs, hwire, hrest, haux₁⟩ := hnode haux hfirst
  obtain ⟨hchunk, h₂⟩ := run_reject_bind_ok.1 h₁
  obtain ⟨vs, u₁, hmany, h₃⟩ := run_bind_ok.1 h₂
  obtain ⟨args, rfl, k₂, ys, hwire', hrest', haux₂⟩ := decodeMany_ok hnode haux₁ hmany
  obtain ⟨v₀, u₂, hbuild, h₄⟩ := run_bind_ok.1 h₃
  rw [buildApp_scan hd.scan] at hbuild
  cases hbuild
  cases h₄
  have hargs0 : args ≠ [] := List.length_pos_iff.mp h0
  have hbytes : s.rest = (xs ++ ys) ++ t.rest := by rw [hrest, hrest', List.append_assoc]
  by_cases happ : head.isApp
  · cases head with
    | app need flat inner =>
      have h15' : hinfo.wireAppN = 15 := Decidable.not_not.mp fun hne =>
        hchunk ⟨hd.canonical, hfor.app.mpr rfl, hne⟩
      have hspine : Wire sha256 resolved b (.spine flat inner) k xs k₁ := by
        cases hwire with
        | pin _ hpin _ => simp [Val.isPin] at hpin
        | app hspine => exact hspine
      have hinner := hspine.length_le.1
      have hdvd : 15 ∣ inner.length := by
        rw [hfor.chunk _ _ _ rfl] at h15'
        have := spineOuter_spec (List.length_pos_iff.mpr hinner)
        omega
      have hwire₂ := Wire.app (.outer hargs0 h15 hinner hdvd hspine hwire')
      refine ⟨_, k₂, xs ++ ys, ⟨by simp [Val.isApp], ?_, by simp⟩, hwire₂, hbytes, haux₂⟩
      rintro _ _ _ heq
      cases heq
      exact (spineOuter_append hdvd hargs0 h15).symm
    | _ => simp [Val.isApp] at happ
  · have hwire₂ := Wire.app (.inner hargs0 h15 (by simpa using happ) hwire hwire')
    refine ⟨_, k₂, xs ++ ys, ⟨by simp [Val.isApp], ?_, by simp⟩, hwire₂, hbytes, haux₂⟩
    rintro _ _ _ heq
    cases heq
    exact (spineOuter_small hargs0 h15).symm

theorem decodeLaw_ok {b k : Nat} {s t : Stream PinTrack} {r : Val × NodeInfo}
    (hnode : ∀ {s t : Stream PinTrack} {r : Val × NodeInfo} {k : Nat},
      s.aux = trackAt resolved.length k → decodeNode sha256 d b s = .ok (r, t) →
      ∃ v, InfoFor v r.2 ∧ Scanned sha256 resolved b (.node v) k s t)
    (haux : s.aux = trackAt resolved.length k)
    (h : decodeLaw d (decodeNode sha256 d b) s = .ok (r, t)) :
    ∃ v k' bs, InfoFor v r.2 ∧ Wire sha256 resolved (b + 1) (.node v) k (0xf0 :: bs) k' ∧
      s.rest = bs ++ t.rest ∧ t.aux = trackAt resolved.length k' := by
  unfold decodeLaw at h
  obtain ⟨⟨name₀, ninfo⟩, u, hname, h₁⟩ := run_bind_ok.1 h
  obtain ⟨name, -, k₁, xs, hwire, hrest, haux₁⟩ := hnode haux hname
  obtain ⟨⟨arity₀, ainfo⟩, u₁, harity, h₂⟩ := run_bind_ok.1 h₁
  obtain ⟨arity, hafor, k₂, zs, hawire, hrest₁, haux₂⟩ := hnode haux₁ harity
  obtain ⟨hcheck, h₃⟩ := run_reject_bind_ok.1 h₂
  obtain ⟨⟨body₀, binfo⟩, u₂, hbody, h₄⟩ := run_bind_ok.1 h₃
  obtain ⟨body, -, k₃, ys, hbwire, hrest₂, haux₃⟩ := hnode haux₂ hbody
  cases h₄
  simp only [not_or, not_not, ne_eq] at hcheck
  obtain ⟨hkind, hfits, hne0, hmax⟩ := hcheck
  obtain ⟨a, rfl, hfits', hu64⟩ := hafor.nat hkind
  have ha : a % 256 ^ 8 = a := by
    rw [hfits, eq_comm, decide_eq_true_eq] at hfits'
    exact Nat.mod_eq_of_lt (byteLen_le_iff.1 hfits')
  rw [hu64, ha] at hne0 hmax
  have hzs : zs = natBytes sha256 a ∧ k₂ = k₁ := by
    cases hawire with
    | nat _ => exact ⟨rfl, rfl⟩
    | pin _ hpin _ => simp [Val.isPin] at hpin
  obtain ⟨rfl, rfl⟩ := hzs
  refine ⟨.law a name body, k₃, _, ⟨by simp [Val.isApp], by simp, by simp⟩,
    .law hne0 (by omega) hwire hbwire, ?_, haux₃⟩
  rw [hrest, hrest₁, hrest₂]
  simp

/-- **The canonical scan accepts only phrases of the grammar.** -/
theorem scan_wire (hd : ScanFor resolved d) (budget : Nat) :
    ∀ {s t : Stream PinTrack} {r : Val × NodeInfo} {k : Nat},
      s.aux = trackAt resolved.length k → decodeNode sha256 d budget s = .ok (r, t) →
      ∃ v, InfoFor v r.2 ∧ Scanned sha256 resolved budget (.node v) k s t := by
  induction budget with
  | zero =>
    intro s t r k haux h
    cases h
  | succ b ih =>
    intro s t r k haux h
    obtain ⟨op, u, hrest, haux₁, h₁⟩ := decodeNode_ok h
    rw [haux] at haux₁
    by_cases hnat : (0x80 ≤ op.toNat ∧ op.toNat ≤ 0xef) ∨ op.toNat = 0xf9
    · obtain ⟨n, hmax, hbytes, rfl, haux₂⟩ := decodeOp_nat_ok hd.canonical hnat h₁
      exact ⟨.nat n, infoFor_nat d n, k, _, .nat hmax, hrest.trans hbytes, haux₂.trans haux₁⟩
    have hlt := op.toNat_lt
    unfold decodeOp at h₁
    rw [if_neg (by omega), if_neg (by omega), if_neg (by omega), if_neg (by omega)] at h₁
    split at h₁
    · next happ =>
      obtain ⟨v, k', bs, hinfo, hwire, hrest₁, haux₂⟩ :=
        decodeApp_ok hd ih (by omega) (by omega) haux₁ h₁
      rw [show op.toNat / 8 * 8 = op.toNat by omega, ofNat_toNat_u8] at hwire
      exact ⟨v, hinfo, k', _, hwire, by rw [hrest, hrest₁, List.cons_append], haux₂⟩
    · next happ =>
      split at h₁
      · next hlaw =>
        obtain ⟨v, k', bs, hinfo, hwire, hrest₁, haux₂⟩ := decodeLaw_ok ih haux₁ h₁
        have hop : op = 0xf0 := by rw [← ofNat_toNat_u8 op, hlaw]; rfl
        exact ⟨v, hinfo, k', _, hwire, by rw [hrest, hrest₁, hop, List.cons_append], haux₂⟩
      · next hlaw =>
        split at h₁
        · next hpin =>
          obtain ⟨i, p, hp, hispin, hle, hw, hrest₁, hinfo, haux₂⟩ :=
            decodePin_ok hd (by omega) haux₁ h₁
          refine ⟨p, ?_, max k (i + 1), _, .pin hp hispin hle, ?_, haux₂⟩
          · rw [hinfo]
            refine ⟨?_, ?_, by simp⟩
            · cases p <;> simp_all [Val.isPin, Val.isApp]
            · rintro need head args rfl
              simp [Val.isPin] at hispin
          · rw [hrest, hrest₁, pinBytes, ← hw, show 0xf0 + (op.toNat - 0xf0) = op.toNat by omega,
              ofNat_toNat_u8, hw, List.cons_append]
        · cases h₁

end Backwards

end Enki.Silo
