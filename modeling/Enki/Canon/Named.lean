import Enki.Canon.Fresh

/-!
# The names of a whole document

What the passes do to the items of a document: a reference to a PIN becomes the name of
that PIN, and every variable that is bound gets a name of its own. The passes do not fail on
what `extract` makes (`Doc.Scoped`), so that only the names of PINs decide whether the printer comes to
an end (`pin_names_fresh`).
-/

namespace Enki.Canon

/-! ## Scopes -/

/-- A variable is one of the law that it is in, and no reference of an expression is to a PIN. -/
def Ref.Scoped (dom : List Ref) : Ref → Prop
  | .var i => .var i ∈ dom
  | .named _ => True
  | .pin _ => False

mutual

def Doc.Scoped : Doc Ref → Prop
  | .num _ | .str _ | .liquid => True
  | .pin inner => inner.Scoped
  | .ref r => ∀ i, r ≠ .var i
  | .app head args => head.Scoped ∧ ScopedDocs args
  | .law tag _ args lets body =>
    tag.Scoped ∧ (∀ r ∈ args ++ lets.map Prod.fst, ∃ i, r = .var i) ∧
      ScopedLets (args ++ lets.map Prod.fst) lets ∧ body.Scoped (args ++ lets.map Prod.fst)

def ScopedDocs : List (Doc Ref) → Prop
  | [] => True
  | d :: ds => d.Scoped ∧ ScopedDocs ds

def ScopedLets (dom : List Ref) : List (Ref × Expr Ref) → Prop
  | [] => True
  | (_, e) :: lets => e.Scoped dom ∧ ScopedLets dom lets

def Expr.Scoped (dom : List Ref) : Expr Ref → Prop
  | .var r => r.Scoped dom
  | .app f x => f.Scoped dom ∧ x.Scoped dom
  | .const d | .esc d => d.Scoped

end

theorem natDoc_scoped (n : Nat) : (natDoc n).Scoped := by
  unfold natDoc
  split <;> trivial

theorem pinDoc_scoped (p : Pin) : (pinDoc p).Scoped := by
  unfold pinDoc
  split
  · trivial
  · exact natDoc_scoped _
  · exact nofun
  · exact nofun

/-- The variables of a law of which `maxref` is the last. -/
def vars (maxref : Nat) : List Ref := (List.range' 1 maxref).map .var

theorem mem_vars {maxref n : Nat} : .var n ∈ vars maxref ↔ 1 ≤ n ∧ n ≤ maxref := by
  unfold vars
  rw [List.mem_map_of_injective fun _ _ h => Ref.var.inj h, List.mem_range'_1]
  omega

/-- Every variable of an extracted document is bound. -/
theorem extract_scoped (v : Value) : (extract v).Scoped := by
  refine (extract.mutual_induct (fun v => (extract v).Scoped) (fun vs => ScopedDocs (extractArgs vs))
    (fun self maxref i v =>
      (extractLets self maxref i v).1.map Prod.fst = (List.range' i (countLets v)).map Ref.var ∧
      ScopedLets (vars maxref) (extractLets self maxref i v).1 ∧
      (extractLets self maxref i v).2.Scoped (vars maxref))
    (fun self maxref v => (extractExpr self maxref v).Scoped (vars maxref))
    ?nat ?pin ?law ?app ?nil ?cons ?bind ?body ?apply ?quote ?var ?number ?escape).1 v
  case nat =>
    intro n
    rw [extract]
    exact natDoc_scoped n
  case pin =>
    intro p
    rw [extract]
    exact pinDoc_scoped p
  case law =>
    intro arity name body maxref lets e he ⟨hvars, hlets, hbody⟩ hname
    rw [he] at hvars hlets hbody
    have hdom : (List.range' 1 arity).map Ref.var ++ lets.map Prod.fst =
        vars (arity + countLets body) := by
      rw [hvars, ← List.map_append, vars, Nat.add_comm arity 1, List.range'_append_1]
    rw [extract, he]
    dsimp only
    unfold Doc.Scoped
    rw [hdom]
    refine ⟨hname, fun r hr => ?_, hlets, hbody⟩
    obtain ⟨i, -, rfl⟩ := List.mem_map.mp hr
    exact ⟨i, rfl⟩
  case app =>
    intro head args hhead hargs
    rw [extract]
    exact ⟨hhead, hargs⟩
  case nil =>
    rw [extractArgs]
    trivial
  case cons =>
    intro v vs hv hvs
    rw [extractArgs]
    exact ⟨hv, hvs⟩
  case bind =>
    rintro self maxref i v k lets e he ⟨hvars, hlets, hbody⟩ hv
    rw [he] at hvars hlets hbody
    rw [extractLets, he]
    refine ⟨?_, ⟨hv, hlets⟩, hbody⟩
    rw [countLets, List.map_cons, hvars, List.range'_succ, List.map_cons]
  case body =>
    intro self maxref i v hno hv
    rw [extractLets.eq_2 _ _ _ _ hno, countLets.eq_2 _ hno]
    exact ⟨rfl, trivial, hv⟩
  case apply =>
    intro self maxref f x hf hx
    rw [extractExpr]
    exact ⟨hf, hx⟩
  case quote =>
    intro self maxref x hx
    rw [extractExpr]
    exact hx
  case var =>
    intro self maxref n hn
    rw [extractExpr, if_pos hn]
    split
    · trivial
    · exact mem_vars.2 ⟨by omega, hn.2⟩
  case number =>
    intro self maxref n hn
    rw [extractExpr, if_neg hn]
    exact natDoc_scoped n
  case escape =>
    intro self maxref v hno hno' hno'' hv
    rw [extractExpr.eq_4 _ _ _ hno hno' hno'']
    exact hv

/-! ## References to PINs -/

section

variable {names : List (PinRef × Name)}

/-- What `cn_resolve_doc` makes of a reference. -/
def Ref.resolve (names : List (PinRef × Name)) : Ref → Ref
  | .pin p => .named ((names.lookup p).getD [])
  | r => r

/-- The items after the PINs have been resolved. -/
structure Resolved (names : List (PinRef × Name)) (is is' : List (Item Ref)) : Prop where
  selfs : selfs is' = selfs is
  binders : binders is' = binders is
  refs : refs is' = (refs is).map (Ref.resolve names)

theorem Resolved.append {is₁ is₁' is₂ is₂' : List (Item Ref)} (h₁ : Resolved names is₁ is₁')
    (h₂ : Resolved names is₂ is₂') : Resolved names (is₁ ++ is₂) (is₁' ++ is₂') := by
  refine ⟨?_, ?_, ?_⟩
  · rw [selfs_append, selfs_append, h₁.selfs, h₂.selfs]
  · rw [binders_append, binders_append, h₁.binders, h₂.binders]
  · rw [refs_append, refs_append, List.map_append, h₁.refs, h₂.refs]

theorem Resolved.nil : Resolved names [] [] := ⟨rfl, rfl, rfl⟩

theorem Resolved.self {is is' : List (Item Ref)} (self : Name) (h : Resolved names is is') :
    Resolved names (.self self :: is) (.self self :: is') :=
  ⟨congrArg (self :: ·) h.selfs, h.binders, h.refs⟩

theorem Resolved.binder (rs : List Ref) : Resolved names (rs.map .binder) (rs.map .binder) :=
  ⟨rfl, rfl, by rw [refs_map]; rfl⟩

/-- The PINs of these items have names. -/
def Known (names : List (PinRef × Name)) (is : List (Item Ref)) : Prop :=
  ∀ p, .pin p ∈ refs is → (names.lookup p).isSome = true

theorem Known.left {is is' : List (Item Ref)} (h : Known names (is ++ is')) : Known names is :=
  fun p hp => h p (by rw [refs_append]; exact List.mem_append_left _ hp)

theorem Known.right {is is' : List (Item Ref)} (h : Known names (is ++ is')) : Known names is' :=
  fun p hp => h p (by rw [refs_append]; exact List.mem_append_right _ hp)

mutual

/-- Resolving succeeds where the PINs have names, and leaves the scopes. -/
theorem resolveDoc_spec : ∀ d : Doc Ref, Known names d.items → d.Scoped →
    ∃ d', resolveDoc names d = some d' ∧ Resolved names d.items d'.items ∧ d'.Scoped
  | .num n, _, _ => ⟨.num n, rfl, .nil, trivial⟩
  | .str n, _, _ => ⟨.str n, rfl, .nil, trivial⟩
  | .liquid, _, _ => ⟨.liquid, rfl, .nil, trivial⟩
  | .pin inner, hk, hs => by
    obtain ⟨d', he, hr, hs'⟩ := resolveDoc_spec inner hk hs
    exact ⟨.pin d', by rw [resolveDoc, he]; rfl, hr, hs'⟩
  | .ref (.pin p), hk, _ => by
    obtain ⟨name, hname⟩ := Option.isSome_iff_exists.mp (hk p (List.mem_singleton.mpr rfl))
    refine ⟨.ref (.named name), by rw [resolveDoc, hname]; rfl, ⟨rfl, rfl, ?_⟩, nofun⟩
    simp [Doc.items, refs, Ref.resolve, hname]
  | .ref (.named name), _, _ => ⟨.ref (.named name), rfl, ⟨rfl, rfl, rfl⟩, nofun⟩
  | .ref (.var i), _, hs => absurd rfl (hs i)
  | .app head args, hk, hs => by
    obtain ⟨head', he, hr, hs₁⟩ := resolveDoc_spec head hk.left hs.1
    obtain ⟨args', he', hr', hs₂⟩ := resolveDocs_spec args hk.right hs.2
    exact ⟨.app head' args', by rw [resolveDoc, he, he']; rfl, hr.append hr', hs₁, hs₂⟩
  | .law tag self args lets body, hk, hs => by
    obtain ⟨htag, hvars, hlets, hbody⟩ := hs
    have hk' : Known names (.self self :: tag.items) := hk.left.left
    obtain ⟨tag', he, hr, hs₁⟩ := resolveDoc_spec tag hk' htag
    obtain ⟨lets', he', hr', hfst, hs₂⟩ := resolveLets_spec lets hk.right.left hlets
    obtain ⟨body', he'', hr'', hs₃⟩ := resolveExpr_spec body hk.right.right hbody
    refine ⟨.law tag' self args lets' body', by rw [resolveDoc, he, he', he'']; rfl, ?_, hs₁, ?_, ?_, ?_⟩
    · rw [Doc.items, Doc.items, hfst]
      exact ((hr.self self).append (.binder _)).append (hr'.append hr'')
    · rw [hfst]
      exact hvars
    · rw [hfst]
      exact hs₂
    · rw [hfst]
      exact hs₃

theorem resolveDocs_spec : ∀ ds : List (Doc Ref), Known names (docsItems ds) → ScopedDocs ds →
    ∃ ds', resolveDocs names ds = some ds' ∧ Resolved names (docsItems ds) (docsItems ds') ∧
      ScopedDocs ds'
  | [], _, _ => ⟨[], rfl, .nil, trivial⟩
  | d :: ds, hk, hs => by
    obtain ⟨d', he, hr, hs₁⟩ := resolveDoc_spec d hk.left hs.1
    obtain ⟨ds', he', hr', hs₂⟩ := resolveDocs_spec ds hk.right hs.2
    exact ⟨d' :: ds', by rw [resolveDocs, he, he']; rfl, hr.append hr', hs₁, hs₂⟩

theorem resolveLets_spec {dom : List Ref} : ∀ lets : List (Ref × Expr Ref),
    Known names (letsItems lets) → ScopedLets dom lets →
    ∃ lets', resolveLets names lets = some lets' ∧
      Resolved names (letsItems lets) (letsItems lets') ∧
      lets'.map Prod.fst = lets.map Prod.fst ∧ ScopedLets dom lets'
  | [], _, _ => ⟨[], rfl, .nil, rfl, trivial⟩
  | (r, e) :: lets, hk, hs => by
    obtain ⟨e', he, hr, hs₁⟩ := resolveExpr_spec e hk.left hs.1
    obtain ⟨lets', he', hr', hfst, hs₂⟩ := resolveLets_spec lets hk.right hs.2
    refine ⟨(r, e') :: lets', by rw [resolveLets, he, he']; rfl, hr.append hr', ?_, hs₁, hs₂⟩
    rw [List.map_cons, hfst, List.map_cons]

theorem resolveExpr_spec {dom : List Ref} : ∀ e : Expr Ref, Known names e.items → e.Scoped dom →
    ∃ e', resolveExpr names e = some e' ∧ Resolved names e.items e'.items ∧ e'.Scoped dom
  | .var r, _, hs => ⟨.var r, rfl, .nil, hs⟩
  | .app f x, hk, hs => by
    obtain ⟨f', he, hr, hs₁⟩ := resolveExpr_spec f hk.left hs.1
    obtain ⟨x', he', hr', hs₂⟩ := resolveExpr_spec x hk.right hs.2
    exact ⟨.app f' x', by rw [resolveExpr, he, he']; rfl, hr.append hr', hs₁, hs₂⟩
  | .const d, hk, hs => by
    obtain ⟨d', he, hr, hs'⟩ := resolveDoc_spec d hk hs
    exact ⟨.const d', by rw [resolveExpr, he]; rfl, hr, hs'⟩
  | .esc d, hk, hs => by
    obtain ⟨d', he, hr, hs'⟩ := resolveDoc_spec d hk hs
    exact ⟨.esc d', by rw [resolveExpr, he]; rfl, hr, hs'⟩

end

end

/-! ## Variables -/

section

variable {used : List Name} {nc nc₁ nc₂ nc' : Nat}

/-- Names that were generated from number `nc` on, and before `nc'`. -/
structure Generated (used : List Name) (nc nc' : Nat) (ns : List Name) : Prop where
  le : nc ≤ nc'
  nodup : ns.Nodup
  fresh : ∀ n ∈ ns, n ∉ used
  number : ∀ n ∈ ns, ∃ k, nc ≤ k ∧ k < nc' ∧ n = genLocal k

theorem Generated.nil : Generated used nc nc [] := ⟨le_rfl, by simp, nofun, nofun⟩

theorem Generated.append {ns ns' : List Name} (h : Generated used nc nc₁ ns)
    (h' : Generated used nc₁ nc₂ ns') : Generated used nc nc₂ (ns ++ ns') := by
  refine ⟨h.le.trans h'.le, ?_, fun n hn => ?_, fun n hn => ?_⟩
  · rw [List.nodup_append]
    refine ⟨h.nodup, h'.nodup, ?_⟩
    rintro n hn n' hn' rfl
    obtain ⟨k, -, hlt, rfl⟩ := h.number n hn
    obtain ⟨k', hle, -, heq⟩ := h'.number _ hn'
    have := genLocal_injective heq
    omega
  · rcases List.mem_append.mp hn with hn | hn
    · exact h.fresh n hn
    · exact h'.fresh n hn
  · have hle := h.le
    have hle' := h'.le
    rcases List.mem_append.mp hn with hn | hn
    · obtain ⟨k, hk, hk', heq⟩ := h.number n hn
      exact ⟨k, hk, by omega, heq⟩
    · obtain ⟨k, hk, hk', heq⟩ := h'.number n hn
      exact ⟨k, by omega, hk', heq⟩

/-- Names for variables, and a table in which they are. -/
theorem nameBinders_spec : ∀ (rs : List Ref) (tbl : Table) (nc : Nat), (∀ r ∈ rs, ∃ i, r = .var i) →
    ∃ ns tbl' nc', nameBinders used tbl nc rs = some (ns, tbl', nc') ∧ Generated used nc nc' ns ∧
      ns.length = rs.length ∧
      ∀ i, (tbl.lookup i).isSome = true ∨ .var i ∈ rs → (tbl'.lookup i).isSome = true
  | [], tbl, nc, _ => ⟨[], tbl, nc, rfl, .nil, rfl, fun i h => h.resolve_right (by simp)⟩
  | r :: rs, tbl, nc, h => by
    obtain ⟨j, rfl⟩ := h _ List.mem_cons_self
    obtain ⟨k, hfresh, hk, hfree⟩ := nextFresh_spec used nc
    obtain ⟨ns, tbl', nc', he, hg, hlen, htbl⟩ := nameBinders_spec rs ((j, genLocal k) :: tbl) (k + 1)
      fun r hr => h r (List.mem_cons_of_mem _ hr)
    have hone : Generated used nc (k + 1) [genLocal k] := by
      refine ⟨by omega, by simp, fun n hn => ?_, fun n hn => ?_⟩
      · exact List.mem_singleton.mp hn ▸ hfree
      · exact ⟨k, hk, by omega, List.mem_singleton.mp hn⟩
    refine ⟨genLocal k :: ns, tbl', nc', ?_, hone.append hg, congrArg (· + 1) hlen, fun i hi => ?_⟩
    · simp only [nameBinders, hfresh, he, Option.bind_eq_bind, Option.bind_some, Option.pure_def]
    · refine htbl i ?_
      rw [List.lookup_cons]
      by_cases hij : i = j
      · exact .inl (by simp [hij])
      · have hne : (i == j) = false := by simpa using hij
        rw [hne]
        rcases hi with hi | hi
        · exact .inl hi
        · rcases List.mem_cons.mp hi with heq | hi
          · exact absurd (Ref.var.inj heq) hij
          · exact .inr hi

/-- The items after the variables have been named. -/
structure Named (used : List Name) (nc nc' : Nat) (is : List (Item Ref)) (is' : List (Item Name)) :
    Prop where
  selfs : selfs is' = selfs is
  refs : (refs is').map .named = refs is
  count : (binders is').length = (binders is).length
  binders : Generated used nc nc' (binders is')

theorem Named.nil : Named used nc nc [] [] := ⟨rfl, rfl, rfl, .nil⟩

theorem Named.append {is₁ is₂ : List (Item Ref)} {is₁' is₂' : List (Item Name)}
    (h₁ : Named used nc nc₁ is₁ is₁') (h₂ : Named used nc₁ nc₂ is₂ is₂') :
    Named used nc nc₂ (is₁ ++ is₂) (is₁' ++ is₂') := by
  refine ⟨?_, ?_, ?_, ?_⟩
  · rw [selfs_append, selfs_append, h₁.selfs, h₂.selfs]
  · rw [refs_append, refs_append, List.map_append, h₁.refs, h₂.refs]
  · rw [binders_append, binders_append, List.length_append, List.length_append, h₁.count, h₂.count]
  · rw [binders_append]
    exact h₁.binders.append h₂.binders

theorem Named.self {is : List (Item Ref)} {is' : List (Item Name)} (self : Name)
    (h : Named used nc nc' is is') : Named used nc nc' (.self self :: is) (.self self :: is') :=
  ⟨congrArg (self :: ·) h.selfs, h.refs, h.count, h.binders⟩

theorem Named.binder {rs : List Ref} {ns : List Name} (h : Generated used nc nc' ns)
    (hlen : ns.length = rs.length) : Named used nc nc' (rs.map .binder) (ns.map .binder) := by
  refine ⟨by rw [selfs_map, selfs_map], by rw [refs_map, refs_map]; rfl, ?_, ?_⟩
  · rw [binders_map, binders_map, hlen]
  · rw [binders_map]
    exact h

/-- No reference is to a PIN. -/
def NoPins (is : List (Item Ref)) : Prop := ∀ p, .pin p ∉ refs is

theorem NoPins.left {is is' : List (Item Ref)} (h : NoPins (is ++ is')) : NoPins is :=
  fun p hp => h p (by rw [refs_append]; exact List.mem_append_left _ hp)

theorem NoPins.right {is is' : List (Item Ref)} (h : NoPins (is ++ is')) : NoPins is' :=
  fun p hp => h p (by rw [refs_append]; exact List.mem_append_right _ hp)

/-- The table has every variable of the scope. -/
def Table.Covers (tbl : Table) (dom : List Ref) : Prop :=
  ∀ i, .var i ∈ dom → (tbl.lookup i).isSome = true

mutual

/-- Naming the variables of a scoped document always succeeds. -/
theorem namevarsDoc_spec (nc : Nat) : ∀ d : Doc Ref, NoPins d.items → d.Scoped →
    ∃ d' nc', namevarsDoc used nc d = some (d', nc') ∧ Named used nc nc' d.items d'.items
  | .num n, _, _ => ⟨.num n, nc, rfl, .nil⟩
  | .str n, _, _ => ⟨.str n, nc, rfl, .nil⟩
  | .liquid, _, _ => ⟨.liquid, nc, rfl, .nil⟩
  | .pin inner, hp, hs => by
    obtain ⟨d', nc', he, hn⟩ := namevarsDoc_spec nc inner hp hs
    exact ⟨.pin d', nc', by rw [namevarsDoc, he]; rfl, hn⟩
  | .ref (.named name), _, _ => ⟨.ref name, nc, rfl, rfl, rfl, rfl, .nil⟩
  | .ref (.pin p), hp, _ => absurd (List.mem_singleton.mpr rfl) (hp p)
  | .ref (.var i), _, hs => absurd rfl (hs i)
  | .app head args, hp, hs => by
    obtain ⟨head', nc₁, he, hn⟩ := namevarsDoc_spec nc head hp.left hs.1
    obtain ⟨args', nc₂, he', hn'⟩ := namevarsDocs_spec nc₁ args hp.right hs.2
    refine ⟨.app head' args', nc₂, ?_, hn.append hn'⟩
    simp only [namevarsDoc, he, he', Option.bind_eq_bind, Option.bind_some, Option.pure_def]
  | .law tag self args lets body, hp, hs => by
    obtain ⟨htag, hvars, hlets, hbody⟩ := hs
    have hp' : NoPins (.self self :: tag.items) := hp.left.left
    obtain ⟨tag', nc₁, he, hn⟩ := namevarsDoc_spec nc tag hp' htag
    obtain ⟨ns, tbl, nc₂, he₂, hg, hlen, htbl⟩ := @nameBinders_spec used args [(0, self)] nc₁
      fun r hr => hvars r (List.mem_append_left _ hr)
    obtain ⟨ns', tbl', nc₃, he₃, hg', hlen', htbl'⟩ := @nameBinders_spec used (lets.map Prod.fst)
      tbl nc₂ fun r hr => hvars r (List.mem_append_right _ hr)
    have hcov : Table.Covers tbl' (args ++ lets.map Prod.fst) := by
      intro i hi
      rcases List.mem_append.mp hi with hi | hi
      · exact htbl' i (.inl (htbl i (.inr hi)))
      · exact htbl' i (.inr hi)
    obtain ⟨rhss, nc₄, he₄, hrlen, hn₄⟩ := namevarsLets_spec nc₃ hcov lets hp.right.left hlets
    obtain ⟨body', nc₅, he₅, hn₅⟩ := namevarsExpr_spec nc₄ hcov body hp.right.right hbody
    have hzip : (ns'.zip rhss).map Prod.fst = ns' := by
      rw [List.map_fst_zip]
      rw [hlen', List.length_map, hrlen]
    refine ⟨.law tag' self ns (ns'.zip rhss) body', nc₅, ?_, ?_⟩
    · simp only [namevarsDoc, he, he₂, he₃, he₄, he₅, Option.bind_eq_bind, Option.bind_some,
        Option.pure_def]
    · rw [Doc.items, Doc.items, hzip]
      refine ((hn.self self).append (.binder (hg.append hg') ?_)).append ((hn₄ ns' ?_).append hn₅)
      · rw [List.length_append, List.length_append, hlen, hlen']
      · rw [hlen', List.length_map, hrlen]

theorem namevarsDocs_spec (nc : Nat) : ∀ ds : List (Doc Ref), NoPins (docsItems ds) →
    ScopedDocs ds → ∃ ds' nc', namevarsDocs used nc ds = some (ds', nc') ∧
      Named used nc nc' (docsItems ds) (docsItems ds')
  | [], _, _ => ⟨[], nc, rfl, .nil⟩
  | d :: ds, hp, hs => by
    obtain ⟨d', nc₁, he, hn⟩ := namevarsDoc_spec nc d hp.left hs.1
    obtain ⟨ds', nc₂, he', hn'⟩ := namevarsDocs_spec nc₁ ds hp.right hs.2
    refine ⟨d' :: ds', nc₂, ?_, hn.append hn'⟩
    simp only [namevarsDocs, he, he', Option.bind_eq_bind, Option.bind_some, Option.pure_def]

theorem namevarsLets_spec {dom : List Ref} {tbl : Table} (nc : Nat) (hcov : tbl.Covers dom) :
    ∀ lets : List (Ref × Expr Ref), NoPins (letsItems lets) → ScopedLets dom lets →
    ∃ es nc', namevarsLets used tbl nc lets = some (es, nc') ∧ es.length = lets.length ∧
      ∀ ns : List Name, ns.length = es.length →
        Named used nc nc' (letsItems lets) (letsItems (ns.zip es))
  | [], _, _ => ⟨[], nc, rfl, rfl, fun ns _ => by rw [List.zip_nil_right]; exact .nil⟩
  | (_, e) :: lets, hp, hs => by
    obtain ⟨e', nc₁, he, hn⟩ := namevarsExpr_spec nc hcov e hp.left hs.1
    obtain ⟨es, nc₂, he', hlen, hn'⟩ := namevarsLets_spec nc₁ hcov lets hp.right hs.2
    refine ⟨e' :: es, nc₂, ?_, congrArg (· + 1) hlen, fun ns hns => ?_⟩
    · simp only [namevarsLets, he, he', Option.bind_eq_bind, Option.bind_some, Option.pure_def]
    · cases ns with
      | nil => cases hns
      | cons n ns => exact hn.append (hn' ns (Nat.succ.inj hns))

theorem namevarsExpr_spec {dom : List Ref} {tbl : Table} (nc : Nat) (hcov : tbl.Covers dom) :
    ∀ e : Expr Ref, NoPins e.items → e.Scoped dom →
    ∃ e' nc', namevarsExpr used tbl nc e = some (e', nc') ∧ Named used nc nc' e.items e'.items
  | .var (.var i), _, hs => by
    obtain ⟨name, hname⟩ := Option.isSome_iff_exists.mp (hcov i hs)
    exact ⟨.var name, nc, by rw [namevarsExpr, hname]; rfl, .nil⟩
  | .var (.named name), _, _ => ⟨.var name, nc, rfl, .nil⟩
  | .var (.pin _), _, hs => hs.elim
  | .app f x, hp, hs => by
    obtain ⟨f', nc₁, he, hn⟩ := namevarsExpr_spec nc hcov f hp.left hs.1
    obtain ⟨x', nc₂, he', hn'⟩ := namevarsExpr_spec nc₁ hcov x hp.right hs.2
    refine ⟨.app f' x', nc₂, ?_, hn.append hn'⟩
    simp only [namevarsExpr, he, he', Option.bind_eq_bind, Option.bind_some, Option.pure_def]
  | .const d, hp, hs => by
    obtain ⟨d', nc', he, hn⟩ := namevarsDoc_spec nc d hp hs
    exact ⟨.const d', nc', by rw [namevarsExpr, he]; rfl, hn⟩
  | .esc d, hp, hs => by
    obtain ⟨d', nc', he, hn⟩ := namevarsDoc_spec nc d hp hs
    exact ⟨.esc d', nc', by rw [namevarsExpr, he]; rfl, hn⟩

end

end

end Enki.Canon
