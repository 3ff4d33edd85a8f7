import Mathlib.Order.Lattice
import Mathlib.Data.Tree.Basic
import Mathlib.Order.Defs.LinearOrder
import Mathlib.Data.List.Basic

/-!
# Binary search trees of records

Records are ordered by a key. An insertion goes down by comparisons and replaces the
record that has the same key. The in-order list of a search tree is strictly sorted,
and an insertion into a tree without the key adds just that record to it.
-/

namespace SearchTree

variable {α κ : Type} [LinearOrder κ] (key : α → κ)

/-- The records from left to right. -/
def inorder : BinaryTree α → List α
  | .nil => []
  | .node a l r => inorder l ++ a :: inorder r

/-- The keys increase from left to right. -/
def IsSearchTree (t : BinaryTree α) : Prop := (inorder t).Pairwise fun a b => key a < key b

/-- Insert a record. -/
def insert (a : α) : BinaryTree α → BinaryTree α
  | .nil => .node a .nil .nil
  | .node b l r =>
    if key a < key b then .node b (insert a l) r
    else if key b < key a then .node b l (insert a r)
    else .node a l r

variable {key}

theorem mem_inorder_node {a b : α} {l r : BinaryTree α} :
    b ∈ inorder (.node a l r) ↔ b ∈ inorder l ∨ b = a ∨ b ∈ inorder r := by
  rw [inorder, List.mem_append, List.mem_cons]

/-- A node of a search tree separates the keys. -/
theorem isSearchTree_node {a : α} {l r : BinaryTree α} :
    IsSearchTree key (.node a l r) ↔ IsSearchTree key l ∧ IsSearchTree key r ∧
      (∀ b ∈ inorder l, key b < key a) ∧ ∀ b ∈ inorder r, key a < key b := by
  simp only [IsSearchTree, inorder, List.pairwise_append, List.pairwise_cons, List.mem_cons]
  constructor
  · rintro ⟨hl, ⟨hra, hr⟩, hlr⟩
    exact ⟨hl, hr, fun b hb => hlr b hb a (.inl rfl), hra⟩
  · rintro ⟨hl, hr, hla, hra⟩
    refine ⟨hl, ⟨hra, hr⟩, fun b hb c hc => ?_⟩
    rcases hc with rfl | hc
    · exact hla b hb
    · exact lt_trans (hla b hb) (hra c hc)

theorem mem_insert_of_new {a : α} {t : BinaryTree α} (hnew : ∀ b ∈ inorder t, key b ≠ key a)
    {b : α} : b ∈ inorder (insert key a t) ↔ b = a ∨ b ∈ inorder t := by
  induction t with
  | nil => simp [insert, inorder]
  | node c l r ihl ihr =>
    have hl : ∀ b ∈ inorder l, key b ≠ key a := fun b hb => hnew b (mem_inorder_node.2 (.inl hb))
    have hr : ∀ b ∈ inorder r, key b ≠ key a :=
      fun b hb => hnew b (mem_inorder_node.2 (.inr (.inr hb)))
    rw [insert]
    split_ifs with hlt hgt
    · rw [mem_inorder_node, mem_inorder_node, ihl hl, or_assoc]
    · rw [mem_inorder_node, mem_inorder_node, ihr hr]
      tauto
    · have heq : key c = key a := le_antisymm (not_lt.mp hlt) (not_lt.mp hgt)
      exact absurd heq (hnew c (mem_inorder_node.2 (.inr (.inl rfl))))

/-- Inserting keeps a search tree. -/
theorem isSearchTree_insert {a : α} {t : BinaryTree α} (h : IsSearchTree key t)
    (hnew : ∀ b ∈ inorder t, key b ≠ key a) : IsSearchTree key (insert key a t) := by
  induction t with
  | nil => simp [insert, IsSearchTree, inorder]
  | node c l r ihl ihr =>
    obtain ⟨hsl, hsr, hlc, hrc⟩ := isSearchTree_node.1 h
    have hl : ∀ b ∈ inorder l, key b ≠ key a := fun b hb => hnew b (mem_inorder_node.2 (.inl hb))
    have hr : ∀ b ∈ inorder r, key b ≠ key a :=
      fun b hb => hnew b (mem_inorder_node.2 (.inr (.inr hb)))
    rw [insert]
    split_ifs with hlt hgt
    · refine isSearchTree_node.2 ⟨ihl hsl hl, hsr, fun b hb => ?_, hrc⟩
      rcases (mem_insert_of_new hl).mp hb with rfl | hb
      · exact hlt
      · exact hlc b hb
    · refine isSearchTree_node.2 ⟨hsl, ihr hsr hr, hlc, fun b hb => ?_⟩
      rcases (mem_insert_of_new hr).mp hb with rfl | hb
      · exact hgt
      · exact hrc b hb
    · have heq : key c = key a := le_antisymm (not_lt.mp hlt) (not_lt.mp hgt)
      exact absurd heq (hnew c (mem_inorder_node.2 (.inr (.inl rfl))))

/-- A tree grown from records with distinct keys: a search tree of just these. -/
theorem foldl_insert {as : List α} : ∀ {t : BinaryTree α}, IsSearchTree key t →
    (inorder t ++ as).Pairwise (fun a b => key a ≠ key b) →
    IsSearchTree key (as.foldl (fun t a => insert key a t) t) ∧
      ∀ b, b ∈ inorder (as.foldl (fun t a => insert key a t) t) ↔ b ∈ inorder t ∨ b ∈ as := by
  induction as with
  | nil => exact fun h _ => ⟨h, by simp⟩
  | cons a as ih =>
    intro t h hdistinct
    obtain ⟨ht, has, hcross⟩ := List.pairwise_append.mp hdistinct
    obtain ⟨ha, has⟩ := List.pairwise_cons.mp has
    have hnew : ∀ b ∈ inorder t, key b ≠ key a := fun b hb => hcross b hb a List.mem_cons_self
    have hinsert := isSearchTree_insert h hnew
    have hnext : (inorder (insert key a t) ++ as).Pairwise fun a b => key a ≠ key b := by
      refine List.pairwise_append.mpr ⟨hinsert.imp ne_of_lt, has, fun b hb c hc => ?_⟩
      rcases (mem_insert_of_new hnew).mp hb with rfl | hb
      · exact ha c hc
      · exact hcross b hb c (List.mem_cons_of_mem a hc)
    obtain ⟨hsearch, hmem⟩ := ih hinsert hnext
    refine ⟨hsearch, fun b => ?_⟩
    rw [List.foldl_cons, hmem, mem_insert_of_new hnew, List.mem_cons]
    tauto

end SearchTree
