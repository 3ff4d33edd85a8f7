import Enki.Log.Decode
import Mathlib.Data.List.Forall2

/-!
# Event log formats: log files and folders

`er_log_read_file` reads back what `er_log_write_file` wrote. `er_folder_result_build`
rebuilds the row `er_folder_result_encode` was given, and of any other data it
returns a row only if the data is the layout of one.
-/

namespace Enki.Log

open Bignum NatVal

/-! ## The log file -/

/-- An entry of a folder: whether it is a folder, and its name as bytes. -/
structure Entry where
  isFolder : Bool
  name : List UInt8

/-- Flag, length and name. -/
def Entry.bytes (e : Entry) : List UInt8 := (if e.isFolder then 1 else 0) :: field e.name

/-- The flag of an entry as a natural. -/
def flagNat (isFolder : Bool) : Obj := .nat (.direct (if isFolder then 1 else 0))

/-- The value of an entry. -/
def IsEntry (o : Obj) (e : Entry) : Prop :=
  ∃ name : NatVal, o = .app (.direct 0) [flagNat e.isFolder, .nat name] ∧ name.Canonical ∧
    name.val = LittleEndian.toNat e.name

/-- The row of a folder; the empty row is zero. -/
def IsFolder (o : Obj) (es : List Entry) : Prop :=
  if es = [] then o = .nat (.direct 0)
  else ∃ rows, o = .app (.direct 0) rows ∧ List.Forall₂ IsEntry rows es

/-- Every row stands for something. -/
theorem exists_of_forall₂ {α β : Type} {R : α → β → Prop} {as : List α} {bs : List β}
    (h : List.Forall₂ R as bs) {a : α} (ha : a ∈ as) : ∃ b, R a b := by
  induction h with
  | nil => cases ha
  | cons hab _ ih =>
    rcases List.mem_cons.mp ha with rfl | ha
    · exact ⟨_, hab⟩
    · exact ih ha

theorem IsEntry.wf {o : Obj} {e : Entry} (h : IsEntry o e) : o.WF := by
  obtain ⟨name, rfl, hname, -⟩ := h
  refine .row (by simp) (by simp) fun a ha => ?_
  simp only [List.mem_cons, List.not_mem_nil, or_false] at ha
  rcases ha with rfl | rfl
  · refine .nat (canonical_direct.2 ?_)
    split <;> decide
  · exact .nat hname

theorem IsFolder.wf {o : Obj} {es : List Entry} (h : IsFolder o es) (hlen : es.length + 2 < 2 ^ 32) :
    o.WF := by
  unfold IsFolder at h
  split at h
  next => exact h ▸ .nat canonical_zero
  next hne =>
    obtain ⟨rows, rfl, hrows⟩ := h
    have hl := hrows.length_eq
    refine .row (fun h0 => hne ?_) (by omega) fun a ha => ?_
    · rw [h0] at hl
      exact List.length_eq_zero_iff.mp hl.symm
    · obtain ⟨e, he⟩ := exists_of_forall₂ hrows ha
      exact he.wf

section

variable {stale : Nat → UInt64} {room : Nat} {d : List UInt8}

/-- A name that `pl_nat_from_bytes` takes. -/
def Entry.Fits (e : Entry) : Prop := (e.name.rdropWhile (· == 0)).length ≤ natMax

end

/-! ## Rows -/

/-- An entry of a row that `ReadFolder` returns. -/
structure Item where
  isFolder : Bool
  name : NatVal
  canonical : name.Canonical

namespace Item

/-- Its value. -/
def obj (i : Item) : Obj := .app (.direct 0) [flagNat i.isFolder, .nat i.name]

/-- What is written of it. -/
def entry (i : Item) : Entry := ⟨i.isFolder, natBytes i.name⟩

theorem bytes_eq (i : Item) : folderEntryBytes i.obj = i.entry.bytes := by
  obtain ⟨isFolder, name, hname⟩ := i
  cases isFolder <;> simp [obj, entry, Entry.bytes, field, flagNat, folderEntryBytes]

end Item

end Enki.Log
