import Enki.Canon.Naming

/-!
# What is named in a document

The names of laws, the variables they bind and the references of a document, in the order
in which the passes meet them (`Doc.items`). To a pass a document is this list:
`collectDoc` is a fold over it, `resolveDoc` maps its references.
-/

namespace Enki.Canon

/-- What has a name. -/
inductive Item (ρ : Type) where
  | self (name : Name)
  | binder (r : ρ)
  | ref (r : ρ)

section

variable {ρ : Type}

mutual

def Doc.items : Doc ρ → List (Item ρ)
  | .num _ | .str _ | .liquid => []
  | .pin inner => inner.items
  | .ref r => [.ref r]
  | .app head args => head.items ++ docsItems args
  | .law tag self args lets body =>
    .self self :: tag.items ++ (args ++ lets.map Prod.fst).map .binder ++
      (letsItems lets ++ body.items)

def docsItems : List (Doc ρ) → List (Item ρ)
  | [] => []
  | d :: ds => d.items ++ docsItems ds

def letsItems : List (ρ × Expr ρ) → List (Item ρ)
  | [] => []
  | (_, e) :: lets => e.items ++ letsItems lets

def Expr.items : Expr ρ → List (Item ρ)
  | .var _ => []
  | .app f x => f.items ++ x.items
  | .const d | .esc d => d.items

end

/-- The names of the laws. -/
def selfs (is : List (Item ρ)) : List Name :=
  is.filterMap fun | .self name => some name | _ => none

/-- The arguments and the bindings of the laws. -/
def binders (is : List (Item ρ)) : List ρ :=
  is.filterMap fun | .binder r => some r | _ => none

/-- The references of documents; those of expressions to variables are not among them. -/
def refs (is : List (Item ρ)) : List ρ :=
  is.filterMap fun | .ref r => some r | _ => none

variable {is is' : List (Item ρ)}

@[simp] theorem selfs_append : selfs (is ++ is') = selfs is ++ selfs is' := List.filterMap_append ..

@[simp] theorem binders_append : binders (is ++ is') = binders is ++ binders is' :=
  List.filterMap_append ..

@[simp] theorem refs_append : refs (is ++ is') = refs is ++ refs is' := List.filterMap_append ..

@[simp] theorem binders_map (rs : List ρ) : binders (rs.map .binder) = rs := by
  induction rs with
  | nil => rfl
  | cons r rs ih => exact congrArg (r :: ·) ih

@[simp] theorem selfs_map (rs : List ρ) : selfs (rs.map .binder) = [] := by
  induction rs with
  | nil => rfl
  | cons r rs ih => exact ih

@[simp] theorem refs_map (rs : List ρ) : refs (rs.map .binder) = [] := by
  induction rs with
  | nil => rfl
  | cons r rs ih => exact ih

end

/-! ## Globals -/

/-- One item of `cn_collect_doc`. -/
def Globals.add (c : Globals) : Item Ref → Globals
  | .self name => if name ∈ c.used then c else { c with used := c.used ++ [name] }
  | .ref (.pin p) => if p ∈ c.pins then c else { c with pins := c.pins ++ [p] }
  | _ => c

theorem foldl_add_binders (c : Globals) (rs : List Ref) :
    (rs.map Item.binder).foldl Globals.add c = c := by
  induction rs generalizing c with
  | nil => rfl
  | cons r rs ih => exact ih c

mutual

/-- Collecting is a fold over the items. -/
theorem collectDoc_eq (c : Globals) : ∀ d : Doc Ref, collectDoc c d = d.items.foldl Globals.add c
  | .num _ | .str _ | .liquid => rfl
  | .pin inner => by rw [collectDoc, Doc.items, collectDoc_eq c inner]
  | .ref r => by cases r <;> rfl
  | .app head args => by
    rw [collectDoc, Doc.items, List.foldl_append, collectDoc_eq c head, collectDocs_eq _ args]
  | .law tag self args lets body => by
    rw [collectDoc, Doc.items, List.foldl_append, List.foldl_append, List.foldl_append,
      List.foldl_cons, foldl_add_binders, collectDoc_eq _ tag,
      collectLets_eq _ lets, collectExpr_eq _ body]
    rfl

theorem collectDocs_eq (c : Globals) : ∀ ds : List (Doc Ref),
    collectDocs c ds = (docsItems ds).foldl Globals.add c
  | [] => rfl
  | d :: ds => by
    rw [collectDocs, docsItems, List.foldl_append, collectDoc_eq c d, collectDocs_eq _ ds]

theorem collectLets_eq (c : Globals) : ∀ lets : List (Ref × Expr Ref),
    collectLets c lets = (letsItems lets).foldl Globals.add c
  | [] => rfl
  | (_, e) :: lets => by
    rw [collectLets, letsItems, List.foldl_append, collectExpr_eq c e, collectLets_eq _ lets]

theorem collectExpr_eq (c : Globals) : ∀ e : Expr Ref,
    collectExpr c e = e.items.foldl Globals.add c
  | .var _ => rfl
  | .app f x => by
    rw [collectExpr, Expr.items, List.foldl_append, collectExpr_eq c f, collectExpr_eq _ x]
  | .const d | .esc d => by rw [collectExpr, Expr.items, collectDoc_eq c d]

end

/-- What has been collected: every PIN and every name once. -/
structure Collected (is : List (Item Ref)) (c c' : Globals) : Prop where
  pins : ∀ p, p ∈ c'.pins ↔ p ∈ c.pins ∨ .pin p ∈ refs is
  used : ∀ n, n ∈ c'.used ↔ n ∈ c.used ∨ n ∈ selfs is
  nodup : c.pins.Nodup → c'.pins.Nodup

theorem collected (is : List (Item Ref)) (c : Globals) :
    Collected is c (is.foldl Globals.add c) := by
  induction is generalizing c with
  | nil => exact ⟨by simp [refs], by simp [selfs], id⟩
  | cons i is ih =>
    obtain ⟨hp, hu, hn⟩ := ih (c.add i)
    rw [List.foldl_cons]
    cases i with
    | binder r => exact ⟨hp, hu, hn⟩
    | self name =>
      refine ⟨fun p => ?_, fun n => ?_, fun h => hn ?_⟩
      · rw [hp, Globals.add]
        split <;> rfl
      · rw [hu, Globals.add]
        split
        · next hin =>
          simp only [selfs, List.filterMap_cons, List.mem_cons]
          constructor
          · tauto
          · rintro (h | rfl | h)
            · exact .inl h
            · exact .inl hin
            · exact .inr h
        · simp only [selfs, List.filterMap_cons, List.mem_cons, List.mem_append, List.not_mem_nil,
            or_false]
          tauto
      · rw [Globals.add]
        split
        · exact h
        · exact h
    | ref r =>
      cases r with
      | var i =>
        refine ⟨fun p => ?_, hu, hn⟩
        rw [hp]
        simp [refs, Globals.add]
      | named name =>
        refine ⟨fun p => ?_, hu, hn⟩
        rw [hp]
        simp [refs, Globals.add]
      | pin q =>
        refine ⟨fun p => ?_, fun n => ?_, fun h => hn ?_⟩
        · rw [hp, Globals.add]
          split
          · next hin =>
            simp only [refs, List.filterMap_cons, List.mem_cons, Ref.pin.injEq]
            constructor
            · tauto
            · rintro (h | rfl | h)
              · exact .inl h
              · exact .inl hin
              · exact .inr h
          · simp only [refs, List.filterMap_cons, List.mem_cons, Ref.pin.injEq, List.mem_append,
              List.not_mem_nil, or_false]
            tauto
        · rw [hu, Globals.add]
          split <;> rfl
        · rw [Globals.add]
          split
          · exact h
          · next hnew =>
            rw [List.nodup_append]
            refine ⟨h, by simp, ?_⟩
            rintro a ha b hb rfl
            exact hnew (List.mem_singleton.mp hb ▸ ha)

end Enki.Canon
