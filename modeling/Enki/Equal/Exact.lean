import Enki.Equal.Views

/-!
# Structural equality: the comparison

`pl_eq_deep` terminates on normal forms, says whether they denote one tree, and
publishes only targets that fit. A pair on top of the stack is used up before what is
below is looked at (`Outcome`): either its trees are equal and the loop goes on below it,
in a heap with more targets, or they differ and the loop ends. That is proved by
induction on the tree of the first value, and gives the marker below a pair of bodies
what it needs.
-/

namespace Enki.Equal

open Bignum NatVal

/-! ## Indirections -/

/-- A value without indirections in front. -/
def Ref.NotDeferred : Ref → Prop
  | .ptr .defer _ => False
  | _ => True

theorem resolve_views {h : Heap} : ∀ (n : Nat) (v : Ref) (t : Tree), view h n v = some t →
    ∃ w, w.NotDeferred ∧ Views h w t ∧ ∀ r, n ≤ r → resolve h r v = some w
  | 0, _, _, hv => by cases hv
  | n + 1, .direct w, t, hv => by
    refine ⟨.direct w, trivial, ⟨_, hv⟩, fun r hr => ?_⟩
    obtain ⟨r, rfl⟩ : ∃ k, r = k + 1 := ⟨r - 1, by omega⟩
    rfl
  | n + 1, .ptr tag a, t, hv => by
    by_cases htag : tag = .defer
    · subst htag
      have hs := viewCell_eq_some.1 hv
      generalize hcell : h a = cell at hs
      cases hs with
      | ind ht =>
        obtain ⟨w, hw, hviews, hres⟩ := resolve_views n _ t ht
        refine ⟨w, hw, hviews, fun r hr => ?_⟩
        obtain ⟨r, rfl⟩ : ∃ k, r = k + 1 := ⟨r - 1, by omega⟩
        rw [resolve, hcell]
        exact hres r (by omega)
    · refine ⟨.ptr tag a, ?_, ⟨_, hv⟩, fun r hr => ?_⟩
      · cases tag <;> first | exact absurd rfl htag | trivial
      · obtain ⟨r, rfl⟩ : ∃ k, r = k + 1 := ⟨r - 1, by omega⟩
        cases tag <;> first | rfl | exact absurd rfl htag

theorem Views.resolve {h : Heap} {v : Ref} {t : Tree} (hv : Views h v t) :
    ∃ w n, w.NotDeferred ∧ Views h w t ∧ ∀ r, n ≤ r → Equal.resolve h r v = some w := by
  obtain ⟨n, hn⟩ := hv
  obtain ⟨w, hw, hviews, hres⟩ := resolve_views n v t hn
  exact ⟨w, n, hw, hviews, hres⟩

/-! ## Kinds of values -/

/-- The tag of the values that denote a tree. -/
def Tree.tag : Tree → Tag
  | .nat _ => .nat
  | .pin _ => .pin
  | .law _ _ _ => .law
  | .app _ _ => .app

theorem Views.tag_eq {h : Heap} {w : Ref} {t : Tree} (hv : Views h w t) (hw : w.NotDeferred) :
    w.tag = t.tag := by
  cases w with
  | direct w =>
    obtain ⟨-, rfl⟩ := Views.direct_iff.1 hv
    rfl
  | ptr tag a =>
    have hs := Views.ptr_iff.1 hv
    generalize h a = cell at hs
    cases hs with
    | ind _ => exact hw.elim
    | _ => rfl

theorem Ref.isNat_iff {w : Ref} : w.isNat = true ↔ w.tag = .nat := by
  cases w <;> simp [Ref.isNat, Ref.tag]

theorem Views.nat_inv {h : Heap} {w : Ref} {n : Nat} (hv : Views h w (.nat n)) (hw : w.NotDeferred) :
    (natVal h w).Canonical ∧ (natVal h w).val = n := by
  cases w with
  | direct w =>
    obtain ⟨hc, heq⟩ := Views.direct_iff.1 hv
    injection heq with heq
    exact ⟨hc, by rw [heq]; exact val_direct w⟩
  | ptr tag a =>
    have hs := Views.ptr_iff.1 hv
    generalize hcell : h a = cell at hs
    cases hs with
    | nat hc =>
      rw [natVal, hcell]
      exact ⟨hc, rfl⟩
    | ind _ => exact hw.elim

theorem Views.pin_inv {h : Heap} {w : Ref} {t : Tree} (hv : Views h w (.pin t)) (hw : w.NotDeferred) :
    ∃ a, w = .ptr .pin a := by
  have htag := hv.tag_eq hw
  cases w with
  | direct w => cases htag
  | ptr tag a => exact ⟨a, by rw [show tag = .pin from htag]⟩

theorem Views.law_inv {h : Heap} {w : Ref} {k : UInt64} {t u : Tree} (hv : Views h w (.law k t u))
    (hw : w.NotDeferred) : ∃ a name body, w = .ptr .law a ∧ h a = .law k name body ∧
      Views h name t ∧ Views h body u := by
  cases w with
  | direct w =>
    obtain ⟨-, heq⟩ := Views.direct_iff.1 hv
    cases heq
  | ptr tag a =>
    have hs := Views.ptr_iff.1 hv
    generalize hcell : h a = cell at hs
    cases hs with
    | law ht hu => exact ⟨a, _, _, rfl, hcell, ht, hu⟩
    | ind _ => exact hw.elim

theorem Views.app_inv {h : Heap} {w : Ref} {t : Tree} {ts : List Tree} (hv : Views h w (.app t ts))
    (hw : w.NotDeferred) : ∃ a head args, w = .ptr .app a ∧ h a = .app head args ∧
      Views h head t ∧ List.Forall₂ (Views h) args ts := by
  cases w with
  | direct w =>
    obtain ⟨-, heq⟩ := Views.direct_iff.1 hv
    cases heq
  | ptr tag a =>
    have hs := Views.ptr_iff.1 hv
    generalize hcell : h a = cell at hs
    cases hs with
    | app ht hts => exact ⟨a, _, _, rfl, hcell, ht, hts⟩
    | ind _ => exact hw.elim

/-! ## Pins -/

/-- A pin that is not resolved any further: canonical, or a proxy without a target. -/
inductive EndPin (h : Heap) : Ref → Option Hash → Ref → Prop
  | canonical {c : Addr} {hash : Hash} {body : Ref} : h c = .canonical hash body →
    EndPin h (.ptr .pin c) (some hash) body
  | proxy {a : Addr} {body : Ref} : h a = .proxy body none → EndPin h (.ptr .pin a) none body

theorem EndPin.resolve {h : Heap} {v body : Ref} {hash : Option Hash} (hp : EndPin h v hash body) :
    eqResolvePin h v = v := by
  cases hp with
  | canonical hc => simp [eqResolvePin, pinProxyTarget, hc]
  | proxy hc => simp [eqResolvePin, pinProxyTarget, hc]

theorem EndPin.hash {h : Heap} {v body : Ref} {hash : Option Hash} (hp : EndPin h v hash body) :
    pinHash h v = hash := by
  rw [pinHash, hp.resolve]
  cases hp with
  | canonical hc => simp [hc]
  | proxy hc => simp [hc]

theorem EndPin.body {h : Heap} {v body : Ref} {hash : Option Hash} (hp : EndPin h v hash body) :
    pinBody h v = body := by
  rw [pinBody, hp.resolve]
  cases hp with
  | canonical hc => simp [hc]
  | proxy hc => simp [hc]

/-- A pin resolves to one with a body of the same tree. -/
theorem Views.pin {h : Heap} {a : Addr} {t : Tree} (hv : Views h (.ptr .pin a) t) :
    ∃ hash body u, t = .pin u ∧ EndPin h (eqResolvePin h (.ptr .pin a)) hash body ∧ Views h body u := by
  have hs := Views.ptr_iff.1 hv
  generalize hcell : h a = cell at hs
  cases hs with
  | proxy ht =>
    have hend : EndPin h (.ptr .pin a) none _ := .proxy hcell
    exact ⟨none, _, _, rfl, hend.resolve.symm ▸ hend, ht⟩
  | @resolved _ _ c _ _ hc ht =>
    have hres : eqResolvePin h (.ptr .pin a) = .ptr .pin c := by
      simp only [eqResolvePin, pinProxyTarget, hcell]
      rfl
    exact ⟨_, _, _, rfl, hres.symm ▸ EndPin.canonical hc, ht⟩
  | canonical ht =>
    have hend : EndPin h (.ptr .pin a) (some _) _ := .canonical hcell
    exact ⟨_, _, _, rfl, hend.resolve.symm ▸ hend, ht⟩

/-- A canonical pin stays what it is. -/
theorem EndPin.published {h h' : Heap} (hp : Published h h') {v body : Ref} {hash : Hash}
    (he : EndPin h v (some hash) body) : EndPin h' v (some hash) body := by
  cases he with
  | canonical hc => exact .canonical (hp.canonical_iff.mpr hc)

/-- A marker that comes up after its bodies were found equal. -/
theorem eqPublish_published {h h' : Heap} (owns : Option (Ref → Bool)) {p q body body' : Ref}
    {hash : Hash} {t : Tree} (hp : Published h h') (hproxy : EndPin h p none body)
    (hcanon : EndPin h q (some hash) body') (hb : Views h body t) (hb' : Views h body' t) :
    ∃ h'', eqPublish h' owns p q = .ok h'' ∧ Published h h'' := by
  have hres := (hcanon.published hp).resolve
  have hq := hcanon.published hp
  cases hproxy with
  | @proxy a _ hc =>
    cases owns with
    | none => exact ⟨h', by simp [eqPublish], hp⟩
    | some owns =>
      unfold eqPublish
      simp only [hres]
      split
      next =>
        split
        next own hnone =>
          have hcan : isCanonical h' q = true := by
            cases hq with
            | canonical hcell => simp [isCanonical, hcell]
          rw [if_pos hcan]
          refine ⟨_, rfl, fun x => ?_⟩
          by_cases hx : x = a
          · subst hx
            obtain rfl : body = own := by
              rcases hp x with heq | ⟨_, _, _, hset, -⟩
              · rw [hc] at heq
                have := heq.symm.trans hnone
                injection this
              · rw [hset] at hnone
                cases hnone
            refine .inr ⟨body, q, hc, by simp, ?_⟩
            cases hcanon with
            | canonical hcell => exact ⟨_, _, _, t, rfl, hcell, hb, hb'⟩
          · rw [Function.update_of_ne hx]
            exact hp x
        next => exact ⟨h', rfl, hp⟩
      next => exact ⟨h', rfl, hp⟩

/-! ## Pairs -/

section

variable (m : Mpn) (owns : Option (Ref → Bool))

/-- What a run does with the top of the stack: it goes on below, or it ends. -/
def Outcome (h : Heap) (top rest : List Pair) (same : Prop) : Prop :=
  ∃ bound steps h', Published h h' ∧
    ((same ∧ ∀ r, bound ≤ r → ∀ n,
      eqLoop m owns r (n + steps) h (top ++ rest) = eqLoop m owns r n h' rest) ∨
    (¬ same ∧ ∀ r, bound ≤ r → ∀ n,
      eqLoop m owns r (n + steps) h (top ++ rest) = .ok (false, h')))

variable {m owns} {h : Heap} {rest : List Pair} {same : Prop}

theorem Outcome.nil (hs : same) : Outcome m owns h [] rest same :=
  ⟨0, 0, h, .refl h, .inl ⟨hs, fun _ _ _ => rfl⟩⟩

theorem Outcome.congr {top : List Pair} {same' : Prop} (ho : Outcome m owns h top rest same)
    (hiff : same ↔ same') : Outcome m owns h top rest same' := propext hiff ▸ ho

/-- One pair after the other. -/
theorem Outcome.append {top top' : List Pair} {same' : Prop}
    (ho : Outcome m owns h top (top' ++ rest) same)
    (ho' : ∀ h', Published h h' → Outcome m owns h' top' rest same') :
    Outcome m owns h (top ++ top') rest (same ∧ same') := by
  obtain ⟨bound, steps, h₁, hp, ⟨hs, hrun⟩ | ⟨hs, hrun⟩⟩ := ho
  · obtain ⟨bound', steps', h₂, hp', hcases⟩ := ho' h₁ hp
    refine ⟨max bound bound', steps' + steps, h₂, hp.trans hp', ?_⟩
    rcases hcases with ⟨hs', hrun'⟩ | ⟨hs', hrun'⟩
    · refine .inl ⟨⟨hs, hs'⟩, fun r hr n => ?_⟩
      rw [List.append_assoc, ← Nat.add_assoc, hrun r (by omega), hrun' r (by omega)]
    · refine .inr ⟨fun hboth => hs' hboth.2, fun r hr n => ?_⟩
      rw [List.append_assoc, ← Nat.add_assoc, hrun r (by omega), hrun' r (by omega)]
  · refine ⟨bound, steps, h₁, hp, .inr ⟨fun hboth => hs hboth.1, fun r hr n => ?_⟩⟩
    rw [List.append_assoc, hrun r hr]

/-- A pair whose comparison pushes others. -/
theorem Outcome.push {a b a' b' : Ref} {pushed : List Pair} {n n' : Nat}
    (ha : ∀ r, n ≤ r → resolve h r a = some a') (hb : ∀ r, n' ≤ r → resolve h r b = some b')
    (hpair : eqPair m h a' b' = .ok (some pushed)) (ho : Outcome m owns h pushed rest same) :
    Outcome m owns h [⟨a, b, false⟩] rest same := by
  obtain ⟨bound, steps, h', hp, hcases⟩ := ho
  have hstep : ∀ r, max bound (max n n') ≤ r → ∀ k, eqLoop m owns r (k + (steps + 1)) h
      ([⟨a, b, false⟩] ++ rest) = eqLoop m owns r (k + steps) h (pushed ++ rest) := by
    intro r hr k
    rw [← Nat.add_assoc, List.singleton_append, eqLoop, if_neg (by simp), ha r (by omega),
      hb r (by omega)]
    simp only [hpair]
  refine ⟨max bound (max n n'), steps + 1, h', hp, ?_⟩
  rcases hcases with ⟨hs, hrun⟩ | ⟨hs, hrun⟩
  · exact .inl ⟨hs, fun r hr k => (hstep r hr k).trans (hrun r (by omega) k)⟩
  · exact .inr ⟨hs, fun r hr k => (hstep r hr k).trans (hrun r (by omega) k)⟩

/-- A pair that differs. -/
theorem Outcome.differ {a b a' b' : Ref} {n n' : Nat}
    (ha : ∀ r, n ≤ r → resolve h r a = some a') (hb : ∀ r, n' ≤ r → resolve h r b = some b')
    (hpair : eqPair m h a' b' = .ok none) (hs : ¬ same) :
    Outcome m owns h [⟨a, b, false⟩] rest same := by
  refine ⟨max n n', 1, h, .refl h, .inr ⟨hs, fun r hr k => ?_⟩⟩
  rw [List.singleton_append, eqLoop, if_neg (by simp), ha r (by omega), hb r (by omega)]
  simp only [hpair]

/-- A marker under the pair of bodies. -/
theorem Outcome.mark {x y p q body body' : Ref} {hash : Hash} {t u : Tree}
    (ho : Outcome m owns h [⟨x, y, false⟩] (⟨p, q, true⟩ :: rest) (t = u))
    (hproxy : EndPin h p none body) (hcanon : EndPin h q (some hash) body') (hb : Views h body t ∨ Views h body u)
    (hb' : Views h body' u ∨ Views h body' t) :
    Outcome m owns h [⟨x, y, false⟩, ⟨p, q, true⟩] rest (t = u) := by
  obtain ⟨bound, steps, h₁, hp, ⟨rfl, hrun⟩ | ⟨hs, hrun⟩⟩ := ho
  · obtain ⟨h₂, hpub, hp₂⟩ := eqPublish_published owns hp hproxy hcanon (hb.elim id id) (hb'.elim id id)
    refine ⟨bound, 1 + steps, h₂, hp₂, .inl ⟨rfl, fun r hr n => ?_⟩⟩
    have := hrun r hr (n + 1)
    rw [← Nat.add_assoc]
    refine this.trans ?_
    rw [eqLoop, if_pos rfl]
    simp only [hpub]
  · exact ⟨bound, steps, h₁, hp, .inr ⟨hs, hrun⟩⟩

/-! ## The loop -/

/-- Pairs of values one after the other. -/
theorem outcome_zip (h₀ : Heap) (ts us : List Tree) (hlen : ts.length = us.length)
    (hpair : ∀ h, Published h₀ h → ∀ a b t u rest, t ∈ ts → Views h a t → Views h b u →
      Outcome m owns h [⟨a, b, false⟩] rest (t = u)) :
    ∀ (h : Heap) (as bs : List Ref) (rest : List Pair), Published h₀ h →
      List.Forall₂ (Views h) as ts → List.Forall₂ (Views h) bs us →
      Outcome m owns h (List.zipWith (fun x y => ⟨x, y, false⟩) as bs) rest (ts = us) := by
  induction ts generalizing us with
  | nil =>
    intro h as bs rest hp has hbs
    obtain rfl : us = [] := List.length_eq_zero_iff.mp hlen.symm
    cases has
    exact Outcome.nil rfl
  | cons t ts ih =>
    intro h as bs rest hp has hbs
    match us, hlen with
    | u :: us, hlen =>
      rcases has with _ | ⟨ht, has⟩
      rcases hbs with _ | ⟨hu, hbs⟩
      rename_i a as b bs
      have hhead := hpair h hp a b t u (List.zipWith (fun x y => ⟨x, y, false⟩) as bs ++ rest)
        (by simp) ht hu
      refine (Outcome.append hhead fun h' hp' => ?_).congr List.cons_eq_cons.symm
      exact ih us (by simpa using hlen)
        (fun h hp a b t u rest hmem => hpair h hp a b t u rest (List.mem_cons_of_mem _ hmem))
        h' as bs rest (hp.trans hp') (has.imp fun _ _ hv => hp'.views_iff.mpr hv)
        (hbs.imp fun _ _ hv => hp'.views_iff.mpr hv)

/-- A pair is compared as its trees are. -/
theorem outcome_pair (hm : m.Meets) : ∀ (bound : Nat) (h : Heap) (a b : Ref) (ta tb : Tree)
    (rest : List Pair), sizeOf ta < bound → Faithful h → Views h a ta → Views h b tb →
    Outcome m owns h [⟨a, b, false⟩] rest (ta = tb) := by
  intro bound
  induction bound with
  | zero => exact fun _ _ _ _ _ _ hsize => absurd hsize (Nat.not_lt_zero _)
  | succ bound ih =>
  intro h a b ta tb rest hsize hf hva hvb
  obtain ⟨a', na, ha', hva', hra⟩ := hva.resolve
  obtain ⟨b', nb, hb', hvb', hrb⟩ := hvb.resolve
  by_cases hab : a' = b'
  · subst hab
    exact .push hra hrb (if_pos rfl) (.nil (hva'.unique hvb'))
  have htaga := hva'.tag_eq ha'
  have htagb := hvb'.tag_eq hb'
  by_cases htag : ta.tag = tb.tag
  swap
  · -- Different tags.
    have hnat : (a'.isNat && b'.isNat) = false := by
      rw [Bool.and_eq_false_iff]
      by_contra hno
      push Not at hno
      have h1 := Ref.isNat_iff.1 (Bool.of_not_eq_false hno.1)
      have h2 := Ref.isNat_iff.1 (Bool.of_not_eq_false hno.2)
      exact htag (by rw [← htaga, ← htagb, h1, h2])
    have hne : (a'.isDirect || b'.isDirect || a'.tag != b'.tag) = true := by
      rw [htaga, htagb]
      simp [htag]
    refine .differ hra hrb ?_ fun heq => htag (by rw [heq])
    rw [eqPair, if_neg hab, if_neg (by simp [hnat]), if_pos hne]
  -- Objects of one tag that are no naturals.
  have hobjects : ta.tag ≠ .nat → eqPair m h a' b' = .ok (eqObjects h a' b') := fun hnat => by
    have hdirect : ∀ w : Ref, w.tag ≠ .nat → w.isDirect = false ∧ w.isNat = false := fun w hw => by
      cases w with
      | direct w => exact absurd rfl hw
      | ptr tag a => exact ⟨rfl, by simpa [Ref.isNat, Ref.tag] using hw⟩
    obtain ⟨hda, hna⟩ := hdirect a' (by rwa [htaga])
    obtain ⟨hdb, hnb⟩ := hdirect b' (by rwa [htagb, ← htag])
    rw [eqPair, if_neg hab, if_neg (by simp [hna]),
      if_neg (by simp [hda, hdb, htaga, htagb, htag])]
  match ta, tb, htag with
  | .nat n, .nat k, _ =>
    obtain ⟨hca, hna⟩ := hva'.nat_inv ha'
    obtain ⟨hcb, hnb⟩ := hvb'.nat_inv hb'
    have hia := Ref.isNat_iff.2 htaga
    have hib := Ref.isNat_iff.2 htagb
    have hspec := eq_spec hm hca hcb
    rw [hna, hnb] at hspec
    have hpair : eqPair m h a' b' = .ok (if n = k then some [] else none) := by
      rw [eqPair, if_neg hab, if_pos (by simp [hia, hib]), hspec]
      by_cases hnk : n = k <;> simp [hnk, bind, Except.bind, pure, Except.pure]
    by_cases hnk : n = k
    · rw [if_pos hnk] at hpair
      exact .push hra hrb hpair (.nil (by rw [hnk]))
    · rw [if_neg hnk] at hpair
      exact .differ hra hrb hpair fun heq => hnk (Tree.nat.inj heq)
  | .pin t, .pin u, _ =>
    obtain ⟨x, rfl⟩ := hva'.pin_inv ha'
    obtain ⟨y, rfl⟩ := hvb'.pin_inv hb'
    obtain ⟨ha, body, t', heqt, hea, hvt⟩ := hva'.pin
    obtain ⟨hb, body', u', hequ, heb, hvu⟩ := hvb'.pin
    obtain rfl := Tree.pin.inj heqt
    obtain rfl := Tree.pin.inj hequ
    have hpins : eqPair m h (.ptr .pin x) (.ptr .pin y) =
        .ok (eqPins h (.ptr .pin x) (.ptr .pin y)) := hobjects (by simp [Tree.tag])
    unfold eqPins at hpins
    simp only [hea.hash, heb.hash, hea.body, heb.body] at hpins
    have hiff : t = u ↔ Tree.pin t = Tree.pin u := by simp
    by_cases hsame : eqResolvePin h (.ptr .pin x) = eqResolvePin h (.ptr .pin y)
    · -- One pin.
      rw [if_pos hsame] at hpins
      have hbody : body = body' := by rw [← hea.body, hsame, heb.body]
      subst hbody
      exact .push hra hrb hpins (.nil (hiff.mp (hvt.unique hvu)))
    rw [if_neg hsame] at hpins
    have hbodies : ∀ rest, Outcome m owns h [⟨body, body', false⟩] rest (t = u) := fun rest =>
      ih h body body' t u rest (by simp at hsize; omega) hf hvt hvu
    match ha, hb, hea, heb, hpins with
    | some p, some q, hea, heb, hpins =>
      -- Both hashed: the hashes decide.
      have hhash : p = q ↔ t = u := by
        generalize eqResolvePin h (.ptr .pin x) = v at hea
        generalize eqResolvePin h (.ptr .pin y) = w at heb
        cases hea with
        | canonical hc =>
          cases heb with
          | canonical hc' => exact hf _ _ _ _ _ _ _ _ hc hc' hvt hvu
      dsimp only at hpins
      by_cases hpq : p = q
      · rw [if_pos hpq] at hpins
        exact .push hra hrb hpins (.nil (hiff.mp (hhash.mp hpq)))
      · rw [if_neg hpq] at hpins
        exact .differ hra hrb hpins fun heq => hpq (hhash.mpr (hiff.mpr heq))
    | none, some q, hea, heb, hpins =>
      exact .push hra hrb hpins
        ((Outcome.mark (hbodies _) hea heb (.inl hvt) (.inl hvu)).congr hiff)
    | some p, none, hea, heb, hpins =>
      exact .push hra hrb hpins
        ((Outcome.mark (hbodies _) heb hea (.inr hvu) (.inr hvt)).congr hiff)
    | none, none, hea, heb, hpins =>
      exact .push hra hrb hpins ((hbodies rest).congr hiff)
  | .law k t u, .law k' t' u', _ =>
    obtain ⟨x, name, body, rfl, hx, hvt, hvu⟩ := hva'.law_inv ha'
    obtain ⟨y, name', body', rfl, hy, hvt', hvu'⟩ := hvb'.law_inv hb'
    have hpair := hobjects (by simp [Tree.tag])
    simp only [eqObjects, hx, hy] at hpair
    by_cases hk : k = k'
    · subst hk
      rw [if_neg (by simp)] at hpair
      simp at hsize
      have hname := ih h name name' t t' (⟨body, body', false⟩ :: rest) (by omega) hf hvt hvt'
      have hboth : Outcome m owns h ([⟨name, name', false⟩] ++ [⟨body, body', false⟩]) rest
          (t = t' ∧ u = u') := .append hname fun h' hp =>
        ih h' body body' u u' rest (by omega) (hf.published hp) (hp.views_iff.mpr hvu)
          (hp.views_iff.mpr hvu')
      exact .push hra hrb hpair (hboth.congr (by simp))
    · rw [if_pos hk] at hpair
      exact .differ hra hrb hpair fun heq => hk (Tree.law.inj heq).1
  | .app t ts, .app u us, _ =>
    obtain ⟨x, head, args, rfl, hx, hvt, hvts⟩ := hva'.app_inv ha'
    obtain ⟨y, head', args', rfl, hy, hvu, hvus⟩ := hvb'.app_inv hb'
    have hpair := hobjects (by simp [Tree.tag])
    simp only [eqObjects, hx, hy, hvts.length_eq, hvus.length_eq] at hpair
    by_cases hlen : ts.length = us.length
    · rw [if_neg (by simpa using hlen)] at hpair
      have hhead := ih h head head' t u (List.zipWith (fun x y => ⟨x, y, false⟩) args args' ++ rest)
        (by simp at hsize; omega) hf hvt hvu
      have hall : Outcome m owns h ([⟨head, head', false⟩] ++
          List.zipWith (fun x y => ⟨x, y, false⟩) args args') rest (t = u ∧ ts = us) := by
        refine .append hhead fun h' hp => outcome_zip h' ts us hlen ?_ h' args args' rest (.refl h')
          (hvts.imp fun _ _ hv => hp.views_iff.mpr hv) (hvus.imp fun _ _ hv => hp.views_iff.mpr hv)
        intro h'' hp'' a b v w rest hmem hva hvb
        exact ih h'' a b v w rest (sub_arg hsize hmem) ((hf.published hp).published hp'') hva hvb
      exact .push hra hrb hpair (hall.congr (by simp))
    · rw [if_pos (by simpa using hlen)] at hpair
      exact .differ hra hrb hpair fun heq => hlen (by rw [(Tree.app.inj heq).2])

end

/-- On normal forms the comparison ends, says whether they denote one tree, and every target it
publishes is a canonical pin whose body denotes the tree of the proxy's body. -/
theorem eqDeep_exact {m : Mpn} (hm : m.Meets) (owns : Option (Ref → Bool)) {h : Heap} {a b : Ref}
    {ta tb : Tree} (hf : Faithful h) (ha : Views h a ta) (hb : Views h b tb) :
    ∃ rounds same h', (∀ r, rounds ≤ r → eqDeep m owns r h a b = .ok (same, h')) ∧
      (same = true ↔ ta = tb) ∧ Published h h' := by
  have hout : Outcome m owns h [⟨a, b, false⟩] [] (ta = tb) :=
    outcome_pair hm _ h a b ta tb [] (Nat.lt_succ_self _) hf ha hb
  obtain ⟨bound, steps, h', hp, ⟨hs, hrun⟩ | ⟨hs, hrun⟩⟩ := hout
  · refine ⟨max bound steps, true, h', fun r hr => ?_, by simp [hs], hp⟩
    have := hrun r (by omega) (r - steps)
    rw [Nat.sub_add_cancel (by omega), List.append_nil] at this
    rw [eqDeep, this]
    cases r - steps <;> rfl
  · refine ⟨max bound steps, false, h', fun r hr => ?_, by simp [hs], hp⟩
    have := hrun r (by omega) (r - steps)
    rw [Nat.sub_add_cancel (by omega), List.append_nil] at this
    rw [eqDeep, this]

/-- A proxy at 0 and a canonical pin at 1, both of the natural 5. -/
def twoPins : Heap
  | 0 => .proxy (.direct 5) none
  | 1 => .canonical ⟨List.replicate 32 0, by simp⟩ (.direct 5)
  | _ => .other

theorem twoPins_views {a : Addr} (ha : a = 0 ∨ a = 1) : Views twoPins (.ptr .pin a) (.pin (.nat 5)) := by
  rcases ha with rfl | rfl
  · exact ⟨2, rfl⟩
  · exact ⟨2, rfl⟩

theorem twoPins_faithful : Faithful twoPins := by
  have hone : ∀ {c x body}, twoPins c = .canonical x body → c = 1 := by
    intro c x body hc
    match c, hc with
    | 1, _ => rfl
  intro c c' x x' body body' t t' hc hc' ht ht'
  obtain rfl := hone hc
  obtain rfl := hone hc'
  rw [hc] at hc'
  injection hc' with hx hbody
  subst hbody
  exact iff_of_true hx (ht.unique ht')

/-- The proxy is compared with the canonical pin. -/
theorem eqDeep_twoPins : ∃ rounds same h',
    (∀ r, rounds ≤ r → eqDeep .schoolbook (some fun _ => true) r twoPins (.ptr .pin 0) (.ptr .pin 1) =
      .ok (same, h')) ∧
    (same = true ↔ Tree.pin (.nat 5) = Tree.pin (.nat 5)) ∧ Published twoPins h' :=
  eqDeep_exact Mpn.schoolbook_meets _ twoPins_faithful (twoPins_views (.inl rfl))
    (twoPins_views (.inr rfl))

end Enki.Equal
