import Enki.Canon.Named
import Enki.Canon.Turns

/-!
# The names of the printer are fresh

`pin_names_fresh`: when the printer gives every PIN and every variable of a value a name of
its own. What goes wrong otherwise is that a PIN has no candidate left, as with two PINs
whose tag fills the buffer (`long_tag_hangs`). That different tags run into one another does
no harm by itself (`pin_names_fresh_cut`).
-/

namespace Enki.Canon

/-! ## Bases -/

section

variable {pins : List PinRef}

/-- Every PIN is there once. -/
theorem bases_perm (pins : List PinRef) : ((bases pins).map Prod.fst).Perm pins := by
  have hnamed : (pins.filterMap fun p => p.hint.map (p, ·)).map Prod.fst =
      pins.filter fun p => p.hint.isSome := by
    induction pins with
    | nil => rfl
    | cons p pins ih =>
      rw [List.filterMap_cons, List.filter_cons]
      cases hp : p.hint with
      | none => exact ih
      | some hint => exact congrArg (p :: ·) ih
  have hrest : (pins.filter fun p => p.hint.isNone) = pins.filter fun p => !p.hint.isSome :=
    List.filter_congr fun p _ => by cases p.hint <;> rfl
  unfold bases
  rw [List.map_append, List.map_map, hrest]
  have hleft := (List.mergeSort_perm (pins.filterMap fun p => p.hint.map (p, ·)) globalOrder).map
    Prod.fst
  have hright := List.mergeSort_perm (pins.filter fun p => !p.hint.isSome) hashOrder
  rw [hnamed] at hleft
  refine (hleft.append ?_).trans (List.filter_append_perm _ _)
  simpa [Function.comp_def] using hright

end

theorem lookup_isSome {names : List (PinRef × Name)} {p : PinRef} :
    (names.lookup p).isSome = true ↔ p ∈ names.map Prod.fst := by
  rw [List.lookup_isSome_iff, List.mem_map]
  constructor
  · rintro ⟨e, he, heq⟩
    exact ⟨e, he, (eq_of_beq heq).symm⟩
  · rintro ⟨e, he, rfl⟩
    exact ⟨e, he, beq_self_eq_true _⟩

/-! ## Short tags -/

theorem decimal_injective : Function.Injective fun i => decimal (i + 2) := by
  intro i j h
  have hbyte : ∀ a b, a < 10 → b < 10 → UInt8.ofNat (48 + a) = UInt8.ofNat (48 + b) → a = b := by
    intro a b ha hb h
    have := congrArg UInt8.toNat h
    simp only [UInt8.toNat_ofNat'] at this
    omega
  have hdigits : ∀ l l' : List Nat, (∀ d ∈ l, d < 10) → (∀ d ∈ l', d < 10) →
      l.map (fun d => UInt8.ofNat (48 + d)) = l'.map (fun d => UInt8.ofNat (48 + d)) → l = l' := by
    intro l
    induction l with
    | nil =>
      intro l' _ _ h
      exact (List.map_eq_nil_iff.mp h.symm).symm
    | cons d l ih =>
      intro l' hl hl' h
      cases l' with
      | nil => cases h
      | cons d' l' =>
        obtain ⟨hd, hrest⟩ := List.cons.inj h
        rw [hbyte d d' (hl d List.mem_cons_self) (hl' d' List.mem_cons_self) hd,
          ih l' (fun x hx => hl x (List.mem_cons_of_mem _ hx))
            (fun x hx => hl' x (List.mem_cons_of_mem _ hx)) hrest]
  simp only [decimal, Nat.add_eq_zero_iff, OfNat.ofNat_ne_zero, and_false, if_false] at h
  have hlt : ∀ m, ∀ d ∈ (Nat.digits 10 m).reverse, d < 10 := fun m d hd =>
    Nat.digits_lt_base (by decide) (List.mem_reverse.mp hd)
  have := List.reverse_injective (hdigits _ _ (hlt _) (hlt _) h)
  have := Nat.digits_inj_iff.mp this
  omega

/-- A short name has as many candidates as there are numbers. -/
theorem card_candidates {base : Name} (h : base.length ≤ 244) :
    (candidates base).card = 2 ^ 31 - 1 := by
  have hlen : ∀ i, i < 2 ^ 31 → (decimal i).length ≤ 10 := by
    intro i hi
    unfold decimal
    split
    · simp
    · rw [List.length_map, List.length_reverse, Nat.digits_length_le_iff (by decide)]
      exact hi.trans (by decide)
  have hwhole : ∀ i, i < 2 ^ 31 → suffixed base i = base ++ '_'.toUInt8 :: decimal i := by
    intro i hi
    refine List.take_of_length_le ?_
    have := hlen i hi
    rw [List.length_append, List.length_cons]
    omega
  have hinj : Set.InjOn (suffixed base) (Finset.Icc 2 (2 ^ 31 - 1) : Finset Nat) := by
    intro i hi j hj hij
    rw [Finset.coe_Icc, Set.mem_Icc] at hi hj
    rw [hwhole i (by omega), hwhole j (by omega)] at hij
    have hdec := List.cons.inj (List.append_cancel_left hij)
    have := @decimal_injective (i - 2) (j - 2) (by
      dsimp only
      rw [Nat.sub_add_cancel hi.1, Nat.sub_add_cancel hj.1]
      exact hdec.2)
    omega
  have hnew : base ∉ (Finset.Icc 2 (2 ^ 31 - 1)).image (suffixed base) := by
    intro hin
    obtain ⟨i, hi, heq⟩ := Finset.mem_image.mp hin
    rw [Finset.mem_Icc] at hi
    rw [hwhole i (by omega)] at heq
    have := congrArg List.length heq
    rw [List.length_append, List.length_cons] at this
    omega
  rw [candidates, Finset.card_insert_of_notMem hnew, Finset.card_image_of_injOn hinj, Nat.card_Icc]
  norm_num

/-- A short name that fewer names are in use than there are numbers is always found. -/
theorem nameEach_short {used : List Name} {bs : List (PinRef × Name)}
    (hshort : ∀ b ∈ bs, b.2.length ≤ 244) (hfew : used.length + bs.length < 2 ^ 31) :
    (nameEach used bs).isSome := by
  induction bs generalizing used with
  | nil => rfl
  | cons b bs ih =>
    obtain ⟨p, base⟩ := b
    rw [List.length_cons] at hfew
    have hname : freshName used base ≠ none := by
      intro hnone
      have hsub : candidates base ⊆ used.toFinset := fun n hn =>
        List.mem_toFinset.mpr (freshName_none.1 hnone n hn)
      have := (Finset.card_le_card hsub).trans (List.toFinset_card_le _)
      rw [card_candidates (hshort _ List.mem_cons_self)] at this
      omega
    obtain ⟨name, hname⟩ := Option.ne_none_iff_exists'.mp hname
    have hrest := @ih (used ++ [name]) (fun b hb => hshort b (List.mem_cons_of_mem _ hb)) (by
      rw [List.length_append, List.length_singleton]
      omega)
    obtain ⟨r, hr⟩ := Option.isSome_iff_exists.mp hrest
    simp [nameEach, hname, hr]

theorem length_stub (p : PinRef) : (stub p).length ≤ 244 := by
  have hlt : (text "<").length = 1 ∧ (text ">").length = 1 := by decide
  have := List.length_take_le 8 (base58 p.hash.bytes)
  rw [stub, List.length_append, List.length_append, hlt.1, hlt.2]
  omega

/-- Tags of at most 244 bytes are placed, whatever they are, where there are fewer than 2³¹ - 1
names. -/
theorem placed_of_short {used tags : List Name} (hshort : ∀ t ∈ tags, t.length ≤ 244)
    (hfew : used.length + tags.length < 2 ^ 31 - 1) : Placed used tags := by
  intro t ht
  have hcard := Finset.le_card_sdiff used.toFinset (candidates t)
  have hused := List.toFinset_card_le used
  have hcount : tags.count t ≤ tags.length := List.count_le_length
  rw [card_candidates (hshort t ht)] at hcard
  unfold left
  exact ⟨by omega, fun _ => by omega⟩

/-! ## Tags -/

section

variable {pins : List PinRef}

/-- The PINs with a tag, in the order in which they get their names. -/
def hinted (pins : List PinRef) : List (PinRef × Name) :=
  (pins.filterMap fun p => p.hint.map (p, ·)).mergeSort globalOrder

theorem hashOrder_trans (a b c : PinRef) (hab : hashOrder a b) (hbc : hashOrder b c) :
    hashOrder a c := by
  unfold hashOrder at *
  exact decide_eq_true (List.le_trans (of_decide_eq_true hab) (of_decide_eq_true hbc))

theorem globalOrder_trans (a b c : PinRef × Name) (hab : globalOrder a b) (hbc : globalOrder b c) :
    globalOrder a c := by
  unfold globalOrder at *
  by_cases h₁ : a.2 = b.2 <;> by_cases h₂ : b.2 = c.2
  · rw [if_pos h₁] at hab
    rw [if_pos h₂] at hbc
    rw [if_pos (h₁.trans h₂)]
    exact hashOrder_trans _ _ _ hab hbc
  · rw [if_neg h₂] at hbc
    rw [if_neg (h₁ ▸ h₂), h₁]
    exact hbc
  · rw [if_neg h₁] at hab
    rw [if_neg (h₂ ▸ h₁), ← h₂]
    exact hab
  · rw [if_neg h₁] at hab
    rw [if_neg h₂] at hbc
    have hle := List.le_trans (of_decide_eq_true hab) (of_decide_eq_true hbc)
    rw [if_neg, decide_eq_true hle]
    exact fun he => h₁ (List.le_antisymm (of_decide_eq_true hab) (he ▸ of_decide_eq_true hbc))

theorem globalOrder_total (a b : PinRef × Name) : globalOrder a b || globalOrder b a := by
  unfold globalOrder hashOrder
  by_cases h : a.2 = b.2
  · simpa [h] using List.le_total a.1.hash.bytes b.1.hash.bytes
  · simpa [h, Ne.symm h] using List.le_total a.2 b.2

/-- Tags come in their order. -/
theorem hinted_sorted (pins : List PinRef) : ((hinted pins).map Prod.snd).Pairwise (· ≤ ·) := by
  rw [List.pairwise_map]
  refine (List.pairwise_mergeSort globalOrder_trans globalOrder_total _).imp fun {a b} h => ?_
  unfold globalOrder at h
  split at h
  next he => exact he ▸ List.le_refl _
  next => exact of_decide_eq_true h

theorem hinted_tags (pins : List PinRef) :
    ((hinted pins).map Prod.snd).Perm (pins.filterMap PinRef.hint) := by
  refine ((List.mergeSort_perm _ _).map _).trans (.of_eq ?_)
  rw [List.map_filterMap]
  refine List.filterMap_congr fun p _ => ?_
  cases p.hint <;> rfl

end

/-! ## Fresh names -/

/-- The name of a reference, once the PINs have theirs. -/
def Ref.name (names : List (PinRef × Name)) : Ref → Option Name
  | .pin p => names.lookup p
  | .named name => some name
  | .var _ => none

/-- In `doc'` every PIN of `doc` has a name of its own, no name of a law among them, and every
variable has one that is none of these. -/
structure WellNamed (doc : Doc Ref) (names : List (PinRef × Name)) (doc' : Doc Name) : Prop where
  pins : ∀ p, p ∈ names.map Prod.fst ↔ .pin p ∈ refs doc.items
  once : (names.map Prod.fst).Nodup
  distinct : (names.map Prod.snd).Nodup
  notSelf : ∀ n ∈ names.map Prod.snd, n ∉ selfs doc.items
  count : (binders doc'.items).length = (binders doc.items).length
  binders : (binders doc'.items).Nodup
  fresh : ∀ n ∈ Canon.binders doc'.items, n ∉ names.map Prod.snd ∧ n ∉ selfs doc.items
  /-- The names are those in the document. -/
  refs : (refs doc'.items).map some = (Canon.refs doc.items).map (Ref.name names)
  selfs : selfs doc'.items = Canon.selfs doc.items

/-- The printer finds names for a value, and they are fresh. -/
def NamesFresh (v : Value) : Prop :=
  ∃ names doc, pipeline v = some (names, doc) ∧ WellNamed (extract v) names doc

/-- The names of the laws of a value, and the PINs with the names they are to have. -/
def Value.selfs (v : Value) : List Name := (collectDoc {} (extract v)).used

def Value.bases (v : Value) : List (PinRef × Name) := Canon.bases (collectDoc {} (extract v)).pins

/-- Once the PINs have names the rest succeeds. -/
theorem Assigned.wellNamed {v : Value} {names : List (PinRef × Name)} {used' : List Name}
    (h : nameEach v.selfs v.bases = some (names, used')) : NamesFresh v := by
  have ha := nameEach_assigned h
  have hc := collected (extract v).items {}
  rw [← collectDoc_eq] at hc
  have hperm : (names.map Prod.fst).Perm (collectDoc {} (extract v)).pins := by
    rw [ha.pins]
    exact bases_perm _
  have hpins : ∀ p, p ∈ names.map Prod.fst ↔ .pin p ∈ refs (extract v).items := by
    intro p
    rw [hperm.mem_iff, hc.pins]
    simp
  have hselfs : ∀ n, n ∈ v.selfs ↔ n ∈ selfs (extract v).items := by
    intro n
    unfold Value.selfs
    rw [hc.used]
    simp
  have hknown : Known names (extract v).items := fun p hp => lookup_isSome.2 ((hpins p).mpr hp)
  obtain ⟨doc₁, he₁, hr, hs₁⟩ := resolveDoc_spec _ hknown (extract_scoped v)
  have hnopins : NoPins doc₁.items := by
    intro p hp
    rw [hr.refs, List.mem_map] at hp
    obtain ⟨r, -, hr⟩ := hp
    cases r <;> cases hr
  obtain ⟨doc₂, nc, he₂, hn⟩ := @namevarsDoc_spec used' 0 doc₁ hnopins hs₁
  refine ⟨names, doc₂, ?_, hpins, ?_, ha.nodup, fun n hn => ?_, ?_, hn.binders.nodup, fun n hin => ?_,
    ?_, hn.selfs.trans hr.selfs⟩
  · have hassign : assignGlobalNames (collectDoc {} (extract v)) = some (names, used') := h
    simp only [pipeline, hassign, he₁, he₂, Option.bind_eq_bind, Option.bind_some, Option.pure_def]
  · exact hperm.nodup_iff.mpr (hc.nodup List.nodup_nil)
  · rw [← hselfs]
    exact ha.fresh n hn
  · rw [hn.count, hr.binders]
  · have hfree := hn.binders.fresh n hin
    rw [ha.all, List.mem_append, not_or] at hfree
    exact ⟨hfree.2, mt (hselfs n).mpr hfree.1⟩
  · -- a reference is resolved to the name that is looked up for it
    calc (refs doc₂.items).map some
      _ = ((refs doc₂.items).map .named).map (Ref.name []) := by
        rw [List.map_map]
        rfl
      _ = ((refs (extract v).items).map (Ref.resolve names)).map (Ref.name []) := by rw [hn.refs, hr.refs]
      _ = (refs (extract v).items).map (Ref.name names) := by
        rw [List.map_map]
        refine List.map_congr_left fun r hin => ?_
        cases r with
        | var i => rfl
        | named n => rfl
        | pin p =>
          obtain ⟨n, hname⟩ := Option.isSome_iff_exists.mp (hknown p hin)
          show some ((names.lookup p).getD []) = names.lookup p
          rw [hname]
          rfl

theorem NamesFresh.assigned {v : Value} (h : NamesFresh v) :
    ∃ names used', nameEach v.selfs v.bases = some (names, used') := by
  obtain ⟨names, doc, he, -⟩ := h
  simp only [pipeline, Option.bind_eq_bind, Option.pure_def, Option.bind_eq_some_iff] at he
  obtain ⟨⟨names', used'⟩, hassign, -⟩ := he
  exact ⟨names', used', hassign⟩

/-- The tags of the PINs of a value. -/
def Value.tags (v : Value) : List Name := (collectDoc {} (extract v)).pins.filterMap PinRef.hint

/-- The PINs with tags get their names if and only if their tags are placed. -/
theorem hinted_iff (v : Value) :
    (nameEach v.selfs (hinted (collectDoc {} (extract v)).pins)).isSome ↔ Placed v.selfs v.tags := by
  have hempty : Turns v.selfs [] := .nil
  have h := hempty.nameEach_iff (by simpa using hinted_sorted (collectDoc {} (extract v)).pins)
  rw [List.map_nil, List.map_nil, List.append_nil, List.nil_append] at h
  rw [h]
  exact ⟨Placed.perm (hinted_tags _), Placed.perm (hinted_tags _).symm⟩

/-- Where the printer finds fresh names for a value, its tags are placed. -/
theorem NamesFresh.placed {v : Value} (h : NamesFresh v) : Placed v.selfs v.tags := by
  obtain ⟨names, used', he⟩ := h.assigned
  refine (hinted_iff v).1 ?_
  rw [show v.bases = hinted (collectDoc {} (extract v)).pins ++ _ from rfl, nameEach_append,
    Option.bind_eq_some_iff] at he
  obtain ⟨r, hr, -⟩ := he
  exact hr ▸ rfl

/-- Where they are placed it finds names, if there are few enough for the stubs of hashes. -/
theorem Placed.namesFresh {v : Value} (hfew : v.selfs.length + v.bases.length < 2 ^ 31)
    (hp : Placed v.selfs v.tags) : NamesFresh v := by
  have hbases : v.bases = hinted (collectDoc {} (extract v)).pins ++
      ((((collectDoc {} (extract v)).pins.filter fun p => p.hint.isNone).mergeSort hashOrder).map
        fun p => (p, stub p)) := rfl
  obtain ⟨r, hr⟩ := Option.isSome_iff_exists.mp ((hinted_iff v).2 hp)
  have ha := nameEach_assigned hr
  have hlen : r.2.length = v.selfs.length + (hinted (collectDoc {} (extract v)).pins).length := by
    have := congrArg List.length ha.pins
    rw [List.length_map, List.length_map] at this
    rw [ha.all, List.length_append, List.length_map, this]
  -- what is left are the stubs, which are short
  have hstubs : (nameEach r.2 ((((collectDoc {} (extract v)).pins.filter fun p =>
      p.hint.isNone).mergeSort hashOrder).map fun p => (p, stub p))).isSome := by
    refine nameEach_short (fun b hb => ?_) ?_
    · obtain ⟨p, -, rfl⟩ := List.mem_map.mp hb
      exact length_stub p
    · rw [hbases, List.length_append] at hfew
      omega
  obtain ⟨r', hr'⟩ := Option.isSome_iff_exists.mp hstubs
  have hall : nameEach v.selfs v.bases = some (r.1 ++ r'.1, r'.2) := by
    rw [hbases, nameEach_append, hr, Option.bind_some, hr', Option.map_some]
  exact Assigned.wellNamed hall

/-- The printer finds fresh names for a value if and only if the tags of its PINs are placed.
That they are is enough as long as there are fewer names than numbers to tell them apart: each
name takes room in a scratch arena of 2³¹ bytes. -/
theorem pin_names_fresh (v : Value) :
    (NamesFresh v → Placed v.selfs v.tags) ∧
    (v.selfs.length + v.bases.length < 2 ^ 31 → Placed v.selfs v.tags → NamesFresh v) :=
  ⟨NamesFresh.placed, Placed.namesFresh⟩

/-! ## Long tags -/

/-- A PIN whose body is a law of that tag. -/
def tagged (addr : Nat) (tag : Name) : Pin :=
  ⟨addr, some (Hash.ofBytes [UInt8.ofNat addr]), .law (some (LittleEndian.toNat tag))⟩

/-- Two PINs, the one applied to the other. -/
def twoTags (s t : Name) : Value := .app (.pin (tagged 1 s)) [.pin (tagged 2 t)]

/-- A text is the name of the law whose tag it is. -/
theorem tagName_toNat {t : Name} (hlen : 2 ≤ t.length) (hok : t.all strByteOk) :
    tagName (LittleEndian.toNat t) = some t := by
  have hlast : t.getLast? ≠ some 0 := by
    intro h
    have hzero : strByteOk 0 = true := List.all_eq_true.mp hok 0 (List.mem_of_getLast? h)
    exact absurd hzero (by decide)
  have hbytes : natBytes (LittleEndian.toNat t) = t := by
    rw [natBytes, LittleEndian.byteLen_toNat hlast, LittleEndian.bytes_toNat]
  have hstr : natIsStr (LittleEndian.toNat t) = true := by
    rw [natIsStr, hbytes]
    match t, hlen with
    | _ :: _ :: _, _ => exact hok
  rw [tagName, if_pos hstr, hbytes]

theorem twoTags_globals {s t : Name} (hs : tagName (LittleEndian.toNat s) = some s)
    (ht : tagName (LittleEndian.toNat t) = some t) : collectDoc {} (extract (twoTags s t)) =
      ⟨[⟨1, Hash.ofBytes [1], some s⟩, ⟨2, Hash.ofBytes [2], some t⟩], []⟩ := by
  have hdoc : extract (twoTags s t) = .app (.ref (.pin ⟨1, Hash.ofBytes [1], some s⟩))
      [.ref (.pin ⟨2, Hash.ofBytes [2], some t⟩)] := by
    simp [twoTags, tagged, extract, extractArgs, pinDoc, hs, ht]
  rw [hdoc]
  simp [collectDoc, collectDocs]

theorem twoTags_tags {s t : Name} (hs : tagName (LittleEndian.toNat s) = some s)
    (ht : tagName (LittleEndian.toNat t) = some t) : (twoTags s t).tags = [s, t] := by
  rw [Value.tags, twoTags_globals hs ht]
  rfl

/-- A tag that fills the buffer but for one byte, and that tag with an underscore: a candidate
of the first is the second, and the second has no other. -/
def cutTag : Name := List.replicate 254 'a'.toUInt8

theorem pin_names_fresh_cut : NamesFresh (twoTags cutTag (cutTag ++ text "_")) := by
  have hs : tagName (LittleEndian.toNat cutTag) = some cutTag :=
    tagName_toNat (by decide +kernel) (by decide +kernel)
  have ht : tagName (LittleEndian.toNat (cutTag ++ text "_")) = some (cutTag ++ text "_") :=
    tagName_toNat (by decide +kernel) (by decide +kernel)
  have hglobals := twoTags_globals hs ht
  refine (pin_names_fresh _).2 ?_ ?_
  · simp only [Value.selfs, Value.bases, hglobals, bases, List.length_append, List.length_map,
      List.length_mergeSort]
    decide +kernel
  · rw [twoTags_tags hs ht]
    refine placed_of_distinct (by decide +kernel) fun t _ => ?_
    rw [Value.selfs, hglobals]
    exact List.not_mem_nil

/-- A tag that fills the buffer. -/
def longTag : Name := List.replicate 255 'a'.toUInt8

/-- Two PINs with that tag. -/
def longTags : Value := twoTags longTag longTag

theorem long_tag_hangs : ¬ NamesFresh longTags := by
  have htag : tagName (LittleEndian.toNat longTag) = some longTag :=
    tagName_toNat (by decide +kernel) (by decide +kernel)
  intro h
  -- a number behind the tag does not fit, so there is one candidate for two PINs
  have hone : left longTags.selfs longTag ⊆ {longTag} := by
    intro n hn
    have hlen : 255 ≤ longTag.length := by decide +kernel
    rcases mem_candidates_long hlen (Finset.mem_sdiff.mp hn).1 with rfl | rfl
    · exact Finset.mem_singleton_self _
    · exact Finset.mem_singleton.mpr (List.take_of_length_le (by decide +kernel))
  have hcount : longTags.tags.count longTag = 2 := by
    rw [longTags, twoTags_tags htag htag]
    simp
  have henough := (h.placed longTag (List.count_pos_iff.mp (by omega))).1
  have hcard := (Finset.card_le_card hone).trans (Finset.card_singleton longTag).le
  omega

end Enki.Canon
