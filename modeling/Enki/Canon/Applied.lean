import Enki.Canon.Naming

/-!
# Applied

An application of the heap has at least one argument. So has every application of a document
that the passes of the printer make of a value.
-/

namespace Enki.Canon

mutual

/-- Every application has an argument. -/
def Doc.Applied {ρ : Type} : Doc ρ → Prop
  | .num _ | .str _ | .ref _ | .liquid => True
  | .pin inner => inner.Applied
  | .law tag _ _ lets body => tag.Applied ∧ LetsApplied lets ∧ body.Applied
  | .app head args => head.Applied ∧ args ≠ [] ∧ DocsApplied args

def DocsApplied {ρ : Type} : List (Doc ρ) → Prop
  | [] => True
  | d :: ds => d.Applied ∧ DocsApplied ds

def LetsApplied {ρ : Type} : List (ρ × Expr ρ) → Prop
  | [] => True
  | (_, e) :: lets => e.Applied ∧ LetsApplied lets

def Expr.Applied {ρ : Type} : Expr ρ → Prop
  | .var _ => True
  | .const doc | .esc doc => doc.Applied
  | .app f x => f.Applied ∧ x.Applied

end

mutual

/-- Every application has an argument, as the heap's do. -/
def Value.Applied : Value → Prop
  | .nat _ | .pin _ => True
  | .law _ name body => name.Applied ∧ body.Applied
  | .app head args => head.Applied ∧ args ≠ [] ∧ ValuesApplied args

def ValuesApplied : List Value → Prop
  | [] => True
  | v :: vs => v.Applied ∧ ValuesApplied vs

end

/-- A number prints without an application. -/
theorem natDoc_applied (n : Nat) : (natDoc n).Applied := by
  unfold natDoc
  split <;> trivial

/-- So does a pin, whatever it refers to. -/
theorem pinDoc_applied (p : Pin) : (pinDoc p).Applied := by
  unfold pinDoc
  split
  · trivial
  · exact natDoc_applied _
  · trivial
  · trivial

/-- Extraction makes applications of applications only, and each `let` of a law goes where the
heap has one. By the recursion of `extract` itself, over values, arguments, bindings and bodies
at once. -/
theorem extract_applied (v : Value) : v.Applied → (extract v).Applied := by
  refine (extract.mutual_induct (fun v => v.Applied → (extract v).Applied)
    (fun vs => ValuesApplied vs → DocsApplied (extractArgs vs))
    (fun self maxref i v => v.Applied →
      LetsApplied (extractLets self maxref i v).1 ∧ (extractLets self maxref i v).2.Applied)
    (fun self maxref v => v.Applied → (extractExpr self maxref v).Applied)
    ?nat ?pin ?law ?app ?nil ?cons ?bind ?body ?apply ?quote ?var ?number ?escape).1 v
  case nat =>
    intro n _
    rw [extract]
    exact natDoc_applied n
  case pin =>
    intro p _
    rw [extract]
    exact pinDoc_applied p
  case law =>
    intro arity name body maxref lets e he hbody hname h
    -- the bindings and the body come out of the same node
    have hboth := hbody h.2
    rw [he] at hboth
    rw [extract, he]
    exact ⟨hname h.1, hboth⟩
  case app =>
    intro head args hhead hargs h
    rw [extract]
    refine ⟨hhead h.1, ?_, hargs h.2.2⟩
    cases args with
    | nil => exact absurd rfl h.2.1
    | cons v vs =>
      rw [extractArgs]
      exact List.cons_ne_nil _ _
  case nil =>
    intro _
    rw [extractArgs]
    trivial
  case cons =>
    intro v vs hv hvs h
    rw [extractArgs]
    exact ⟨hv h.1, hvs h.2⟩
  -- a binding is an application with the value and the rest as its arguments
  case bind =>
    intro self maxref i v k lets e he hk hv h
    have hboth := hk h.2.2.2.1
    rw [he] at hboth
    rw [extractLets, he]
    exact ⟨⟨hv h.2.2.1, hboth.1⟩, hboth.2⟩
  case body =>
    intro self maxref i v hno hv h
    rw [extractLets.eq_2 _ _ _ _ hno]
    exact ⟨trivial, hv h⟩
  case apply =>
    intro self maxref f x hf hx h
    rw [extractExpr]
    exact ⟨hf h.2.2.1, hx h.2.2.2.1⟩
  case quote =>
    intro self maxref x hx h
    rw [extractExpr]
    exact hx h.2.2.1
  case var =>
    intro self maxref n hn _
    rw [extractExpr, if_pos hn]
    split <;> trivial
  case number =>
    intro self maxref n hn _
    rw [extractExpr, if_neg hn]
    exact natDoc_applied n
  case escape =>
    intro self maxref v hno hno' hno'' hv h
    rw [extractExpr.eq_4 _ _ _ hno hno' hno'']
    exact hv h

/-! ## Applications of the documents -/

section

variable {names : List (PinRef × Name)}

/-- Resolving keeps the number of arguments. -/
theorem resolveDocs_ne_nil {ds ds' : List (Doc Ref)} (hr : resolveDocs names ds = some ds')
    (h : ds ≠ []) : ds' ≠ [] := by
  cases ds with
  | nil => exact absurd rfl h
  | cons d ds =>
    obtain ⟨d', -, hr⟩ := Option.bind_eq_some_iff.1 hr
    obtain ⟨ds'', -, hd⟩ := Option.bind_eq_some_iff.1 hr
    cases hd
    exact List.cons_ne_nil _ _

mutual

/-- Names are put for references, and nothing else changes; by recursion on the document. -/
theorem resolveDoc_applied : ∀ {d d' : Doc Ref}, resolveDoc names d = some d' →
    d.Applied → d'.Applied
  | .num _, _, rfl, _ | .str _, _, rfl, _ | .liquid, _, rfl, _ => trivial
  | .ref (.var _), _, rfl, _ | .ref (.named _), _, rfl, _ => trivial
  | .ref (.pin p), d', hr, _ => by
    obtain ⟨name, -, hd⟩ := Option.bind_eq_some_iff.1 hr
    cases hd
    trivial
  | .pin inner, d', hr, h => by
    obtain ⟨i, hi, hd⟩ := Option.bind_eq_some_iff.1 hr
    have happlied := resolveDoc_applied hi h
    cases hd
    exact happlied
  | .app head args, d', hr, h => by
    obtain ⟨head', hhead, hr⟩ := Option.bind_eq_some_iff.1 hr
    obtain ⟨args', hargs, hd⟩ := Option.bind_eq_some_iff.1 hr
    have happlied := resolveDoc_applied hhead h.1
    have happlieds := resolveDocs_applied hargs h.2.2
    cases hd
    exact ⟨happlied, resolveDocs_ne_nil hargs h.2.1, happlieds⟩
  | .law tag self args lets body, d', hr, h => by
    obtain ⟨tag', htag, hr⟩ := Option.bind_eq_some_iff.1 hr
    obtain ⟨lets', hlets, hr⟩ := Option.bind_eq_some_iff.1 hr
    obtain ⟨body', hbody, hd⟩ := Option.bind_eq_some_iff.1 hr
    have htag' := resolveDoc_applied htag h.1
    have hlets' := resolveLets_applied hlets h.2.1
    have hbody' := resolveExpr_applied hbody h.2.2
    cases hd
    exact ⟨htag', hlets', hbody'⟩

theorem resolveDocs_applied : ∀ {ds ds' : List (Doc Ref)}, resolveDocs names ds = some ds' →
    DocsApplied ds → DocsApplied ds'
  | [], _, rfl, _ => trivial
  | d :: ds, ds', hr, h => by
    obtain ⟨d', hd, hr⟩ := Option.bind_eq_some_iff.1 hr
    obtain ⟨ds'', hds, hd'⟩ := Option.bind_eq_some_iff.1 hr
    have happlied := resolveDoc_applied hd h.1
    have happlieds := resolveDocs_applied hds h.2
    cases hd'
    exact ⟨happlied, happlieds⟩

theorem resolveLets_applied : ∀ {lets lets' : List (Ref × Expr Ref)},
    resolveLets names lets = some lets' → LetsApplied lets → LetsApplied lets'
  | [], _, rfl, _ => trivial
  | (r, e) :: lets, lets', hr, h => by
    obtain ⟨e', he, hr⟩ := Option.bind_eq_some_iff.1 hr
    obtain ⟨lets'', hlets, hd⟩ := Option.bind_eq_some_iff.1 hr
    have happlied := resolveExpr_applied he h.1
    have happlieds := resolveLets_applied hlets h.2
    cases hd
    exact ⟨happlied, happlieds⟩

theorem resolveExpr_applied : ∀ {e e' : Expr Ref}, resolveExpr names e = some e' →
    e.Applied → e'.Applied
  | .var _, _, rfl, _ => trivial
  | .const d, _, hr, h | .esc d, _, hr, h => by
    obtain ⟨d', hd, hr⟩ := Option.bind_eq_some_iff.1 hr
    have happlied := resolveDoc_applied hd h
    cases hr
    exact happlied
  | .app f x, _, hr, h => by
    obtain ⟨f', hf, hr⟩ := Option.bind_eq_some_iff.1 hr
    obtain ⟨x', hx, hr⟩ := Option.bind_eq_some_iff.1 hr
    have happlied := resolveExpr_applied hf h.1
    have happlied' := resolveExpr_applied hx h.2
    cases hr
    exact ⟨happlied, happlied'⟩

end

end

section

variable {used : List Name} {nc nc' : Nat}

/-- Naming keeps the number of arguments too. -/
theorem namevarsDocs_ne_nil {ds : List (Doc Ref)} {ds' : List (Doc Name)}
    (hr : namevarsDocs used nc ds = some (ds', nc')) (h : ds ≠ []) : ds' ≠ [] := by
  cases ds with
  | nil => exact absurd rfl h
  | cons d ds =>
    obtain ⟨⟨d', nc₁⟩, -, hr⟩ := Option.bind_eq_some_iff.1 hr
    obtain ⟨⟨ds'', nc₂⟩, -, hd⟩ := Option.bind_eq_some_iff.1 hr
    cases hd
    exact List.cons_ne_nil _ _

/-- The right-hand sides of bindings, with names for them. -/
theorem LetsApplied.zip : ∀ {es : List (Expr Name)} (ns : List Name), (∀ e ∈ es, e.Applied) →
    LetsApplied (ns.zip es)
  | [], [], _ | [], _ :: _, _ | _ :: _, [], _ => trivial
  | _ :: _, _ :: ns, h =>
    ⟨h _ List.mem_cons_self, LetsApplied.zip ns fun e he => h e (List.mem_cons_of_mem _ he)⟩

mutual

/-- Variables get names. The bindings come back as names and right-hand sides, which are put
together again. -/
theorem namevarsDoc_applied : ∀ {d : Doc Ref} {d' : Doc Name} {nc nc' : Nat},
    namevarsDoc used nc d = some (d', nc') → d.Applied → d'.Applied
  | .num _, _, _, _, rfl, _ | .str _, _, _, _, rfl, _ | .liquid, _, _, _, rfl, _
  | .ref (.named _), _, _, _, rfl, _ => trivial
  | .ref (.var _), _, _, _, hr, _ | .ref (.pin _), _, _, _, hr, _ => by cases hr
  | .pin inner, d', nc, nc', hr, h => by
    obtain ⟨⟨i, nc₁⟩, hi, hd⟩ := Option.bind_eq_some_iff.1 hr
    have happlied := namevarsDoc_applied hi h
    cases hd
    exact happlied
  | .app head args, d', nc, nc', hr, h => by
    obtain ⟨⟨head', nc₁⟩, hhead, hr⟩ := Option.bind_eq_some_iff.1 hr
    obtain ⟨⟨args', nc₂⟩, hargs, hd⟩ := Option.bind_eq_some_iff.1 hr
    have happlied := namevarsDoc_applied hhead h.1
    have happlieds := namevarsDocs_applied hargs h.2.2
    cases hd
    exact ⟨happlied, namevarsDocs_ne_nil hargs h.2.1, happlieds⟩
  | .law tag self args lets body, d', nc, nc', hr, h => by
    obtain ⟨⟨tag', nc₁⟩, htag, hr⟩ := Option.bind_eq_some_iff.1 hr
    obtain ⟨⟨args', tbl, nc₂⟩, -, hr⟩ := Option.bind_eq_some_iff.1 hr
    obtain ⟨⟨binders, tbl', nc₃⟩, -, hr⟩ := Option.bind_eq_some_iff.1 hr
    obtain ⟨⟨rhss, nc₄⟩, hrhss, hr⟩ := Option.bind_eq_some_iff.1 hr
    obtain ⟨⟨body', nc₅⟩, hbody, hd⟩ := Option.bind_eq_some_iff.1 hr
    have htag' := namevarsDoc_applied htag h.1
    have hrhss' := namevarsLets_applied hrhss h.2.1
    have hbody' := namevarsExpr_applied hbody h.2.2
    cases hd
    -- the binders are only names
    exact ⟨htag', .zip binders hrhss', hbody'⟩

theorem namevarsDocs_applied : ∀ {ds : List (Doc Ref)} {ds' : List (Doc Name)} {nc nc' : Nat},
    namevarsDocs used nc ds = some (ds', nc') → DocsApplied ds → DocsApplied ds'
  | [], _, _, _, rfl, _ => trivial
  | d :: ds, ds', nc, nc', hr, h => by
    obtain ⟨⟨d', nc₁⟩, hd, hr⟩ := Option.bind_eq_some_iff.1 hr
    obtain ⟨⟨ds'', nc₂⟩, hds, hd'⟩ := Option.bind_eq_some_iff.1 hr
    have happlied := namevarsDoc_applied hd h.1
    have happlieds := namevarsDocs_applied hds h.2
    cases hd'
    exact ⟨happlied, happlieds⟩

theorem namevarsLets_applied {tbl : Table} : ∀ {lets : List (Ref × Expr Ref)}
    {es : List (Expr Name)} {nc nc' : Nat}, namevarsLets used tbl nc lets = some (es, nc') →
      LetsApplied lets → ∀ e ∈ es, e.Applied
  | [], _, _, _, rfl, _ => by simp
  | (r, e) :: lets, es, nc, nc', hr, h => by
    obtain ⟨⟨e', nc₁⟩, he, hr⟩ := Option.bind_eq_some_iff.1 hr
    obtain ⟨⟨es', nc₂⟩, hlets, hd⟩ := Option.bind_eq_some_iff.1 hr
    have happlied := namevarsExpr_applied he h.1
    have happlieds := namevarsLets_applied hlets h.2
    cases hd
    exact List.forall_mem_cons.2 ⟨happlied, happlieds⟩

theorem namevarsExpr_applied {tbl : Table} : ∀ {e : Expr Ref} {e' : Expr Name} {nc nc' : Nat},
    namevarsExpr used tbl nc e = some (e', nc') → e.Applied → e'.Applied
  | .var (.var i), _, _, _, hr, _ => by
    obtain ⟨name, -, hd⟩ := Option.bind_eq_some_iff.1 hr
    cases hd
    trivial
  | .var (.named _), _, _, _, rfl, _ => trivial
  | .var (.pin _), _, _, _, hr, _ => by cases hr
  | .const d, _, _, _, hr, h | .esc d, _, _, _, hr, h => by
    obtain ⟨⟨d', nc₁⟩, hd, hr⟩ := Option.bind_eq_some_iff.1 hr
    have happlied := namevarsDoc_applied hd h
    cases hr
    exact happlied
  | .app f x, _, _, _, hr, h => by
    obtain ⟨⟨f', nc₁⟩, hf, hr⟩ := Option.bind_eq_some_iff.1 hr
    obtain ⟨⟨x', nc₂⟩, hx, hr⟩ := Option.bind_eq_some_iff.1 hr
    have happlied := namevarsExpr_applied hf h.1
    have happlied' := namevarsExpr_applied hx h.2
    cases hr
    exact ⟨happlied, happlied'⟩

end

end

/-- Extraction, resolution and naming in a row. -/
theorem pipeline_applied {v : Value} {names : List (PinRef × Name)} {doc : Doc Name}
    (hp : pipeline v = some (names, doc)) (h : v.Applied) : doc.Applied := by
  obtain ⟨⟨names', used⟩, -, hp⟩ := Option.bind_eq_some_iff.1 hp
  obtain ⟨doc₁, hresolve, hp⟩ := Option.bind_eq_some_iff.1 hp
  obtain ⟨⟨doc₂, nc⟩, hnames, hp⟩ := Option.bind_eq_some_iff.1 hp
  have happlied := namevarsDoc_applied hnames (resolveDoc_applied hresolve (extract_applied v h))
  cases hp
  exact happlied

end Enki.Canon
