import Enki.Canon.Relaid

/-!
# Line breaks undone

A line break that layout makes is a line feed with its indentation. No other line feed is
printed of a document whose names have none: strings escape theirs. So the text on one line
comes back when each line feed and its indentation become a space. Where the indentation ends
is seen in the text itself if no name is empty or begins with a space.
-/

namespace Enki.Canon

/-! ## The names of a document -/

mutual

def Doc.names : Doc Name → List Name
  | .num _ | .str _ | .liquid => []
  | .ref name => [name]
  | .pin inner => inner.names
  | .law tag self args lets body => tag.names ++ (self :: args ++ (letsNames lets ++ body.names))
  | .app head args => head.names ++ docsNames args

def docsNames : List (Doc Name) → List Name
  | [] => []
  | d :: ds => d.names ++ docsNames ds

def letsNames : List (Name × Expr Name) → List Name
  | [] => []
  | (name, e) :: lets => name :: (e.names ++ letsNames lets)

def Expr.names : Expr Name → List Name
  | .var name => [name]
  | .const doc | .esc doc => doc.names
  | .app f x => f.names ++ x.names

end

/-! ## Undoing line breaks -/

/-- The text with a space for each line feed and its indentation. -/
inductive Unindents : Name → Name → Prop
  | nil : Unindents [] []
  | keep {b : UInt8} {w s : Name} (hb : b ≠ '\n'.toUInt8) (h : Unindents w s) :
    Unindents (b :: w) (b :: s)
  | line (col : Nat) {w s : Name} (h : Unindents w s) :
    Unindents (nl col ++ w) (' '.toUInt8 :: s)

/-- The same, where all spaces after a line feed are its indentation. -/
def unindent : Name → Name
  | [] => []
  | b :: w =>
    if b = '\n'.toUInt8 then ' '.toUInt8 :: unindent (w.dropWhile (· == ' '.toUInt8))
    else b :: unindent w
termination_by w => w.length
decreasing_by
  · have := (List.dropWhile_sublist (· == ' '.toUInt8) (l := w)).length_le
    simp only [List.length_cons]
    omega
  · simp

/-- No line feed is in the text. -/
def OneLine (t : Gapped) : Prop := some '\n'.toUInt8 ∉ t

/-- The text begins with something that is no space. -/
def Begins (t : Gapped) : Prop := ∃ b u, t = some b :: u ∧ b ≠ ' '.toUInt8

/-- What comes after a gap does. -/
def Closed : Gapped → Prop
  | [] => True
  | none :: t => Begins t ∧ Closed t
  | some _ :: t => Closed t

section

variable {t u : Gapped} {w : Name}

theorem oneLine_append : OneLine (t ++ u) ↔ OneLine t ∧ OneLine u := by
  simp [OneLine, not_or]

theorem oneLine_none_cons : OneLine (none :: t) ↔ OneLine t := by simp [OneLine]

theorem oneLine_solid {s : Name} : OneLine (solid s) ↔ '\n'.toUInt8 ∉ s := by
  simp [OneLine, solid]

/-- Each gap is a space, or a line feed with an indentation. -/
theorem Relaid.unindents (h : Relaid t w) (ht : OneLine t) : Unindents w t.flat := by
  induction h with
  | nil => exact .nil
  | keep b h ih =>
    have hb : b ≠ '\n'.toUInt8 := fun hb => ht (hb ▸ List.mem_cons_self)
    exact .keep hb (ih fun hmem => ht (List.mem_cons_of_mem _ hmem))
  | space h ih => exact .keep (by decide) (ih (oneLine_none_cons.1 ht))
  | newline col h ih => exact .line col (ih (oneLine_none_cons.1 ht))

theorem Begins.append (h : Begins t) (u : Gapped) : Begins (t ++ u) := by
  obtain ⟨b, v, rfl, hb⟩ := h
  exact ⟨b, v ++ u, rfl, hb⟩

theorem Closed.append (h : Closed t) (hu : Closed u) : Closed (t ++ u) := by
  induction t with
  | nil => exact hu
  | cons o t ih =>
    cases o with
    | none => exact ⟨h.1.append u, ih h.2⟩
    | some b => exact ih h

theorem closed_solid (s : Name) : Closed (solid s) := by
  induction s with
  | nil => trivial
  | cons b s ih => exact ih

theorem begins_solid {b : UInt8} (hb : b ≠ ' '.toUInt8) (s : Name) : Begins (solid (b :: s)) :=
  ⟨b, solid s, rfl, hb⟩

/-- A laid out text begins as the text does. -/
theorem Relaid.dropWhile (h : Relaid t w) (ht : Begins t) :
    w.dropWhile (· == ' '.toUInt8) = w := by
  obtain ⟨b, u, rfl, hb⟩ := ht
  cases h with
  | keep _ h => rw [List.dropWhile_cons_of_neg (by simpa using hb)]

/-- The indentation is all there is of spaces. -/
theorem Relaid.unindent (h : Relaid t w) (ht : OneLine t) (hc : Closed t) :
    Canon.unindent w = t.flat := by
  induction h with
  | nil => rw [Canon.unindent]; rfl
  | keep b h ih =>
    have hb : b ≠ '\n'.toUInt8 := fun hb => ht (hb ▸ List.mem_cons_self)
    rw [Canon.unindent, if_neg hb, ih (fun hmem => ht (List.mem_cons_of_mem _ hmem)) hc]
    rfl
  | space h ih =>
    rw [Canon.unindent, if_neg (by decide), ih (oneLine_none_cons.1 ht) hc.2]
    rfl
  | @newline col f w h ih =>
    have hdrop : (List.replicate col ' '.toUInt8 ++ w).dropWhile (· == ' '.toUInt8) = w := by
      rw [List.dropWhile_append_of_pos fun b hb => by simp [List.eq_of_mem_replicate hb]]
      exact h.dropWhile hc.1
    rw [nl, List.cons_append, Canon.unindent, if_pos rfl, hdrop, ih (oneLine_none_cons.1 ht) hc.2]
    rfl

end

/-! ## Texts of documents -/

/-- A text within one that has no line feed, and, if `B`, something after each gap. -/
structure Inner (B : Prop) (t : Gapped) : Prop where
  oneLine : OneLine t
  closed : B → Closed t

/-- Such a text, which may stand after a gap. -/
structure Plain (B : Prop) (t : Gapped) : Prop extends Inner B t where
  begins : B → Begins t

section

variable {B : Prop} {t u : Gapped} {ts : List Gapped}

theorem Inner.append (h : Inner B t) (hu : Inner B u) : Inner B (t ++ u) :=
  ⟨oneLine_append.2 ⟨h.oneLine, hu.oneLine⟩, fun hb => (h.closed hb).append (hu.closed hb)⟩

theorem Inner.solid {s : Name} (h : '\n'.toUInt8 ∉ s) : Inner B (solid s) :=
  ⟨oneLine_solid.2 h, fun _ => closed_solid s⟩

theorem Inner.gap (h : Plain B t) : Inner B (none :: t) :=
  ⟨oneLine_none_cons.2 h.oneLine, fun hb => ⟨h.begins hb, h.closed hb⟩⟩

theorem Inner.gapped (h : ∀ t ∈ ts, Plain B t) : Inner B (gapped ts) := by
  induction ts with
  | nil => exact ⟨by simp [OneLine], fun _ => trivial⟩
  | cons t ts ih =>
    rw [gapped_cons]
    exact (Inner.gap (h t List.mem_cons_self)).append (ih fun u hu => h u (List.mem_cons_of_mem t hu))

theorem Plain.append (h : Plain B t) (hu : Inner B u) : Plain B (t ++ u) :=
  ⟨h.toInner.append hu, fun hb => (h.begins hb).append u⟩

theorem Plain.solid {b : UInt8} {s : Name} (hb : b ≠ ' '.toUInt8) (hs : '\n'.toUInt8 ∉ b :: s) :
    Plain B (solid (b :: s)) :=
  ⟨.solid hs, fun _ => begins_solid hb s⟩

theorem Plain.wrap (h : Plain B t) : Inner B t.wrap := by
  unfold Gapped.wrap
  split
  · exact h.toInner
  · exact ((Inner.solid (by decide)).append h.toInner).append (.solid (by decide))

theorem Plain.escaped (h : Plain B t) : Plain B t.escaped := by
  unfold Gapped.escaped
  split
  · exact (Plain.solid (by decide) (by decide)).append h.toInner
  · exact ((Plain.solid (by decide) (by decide)).append h.toInner).append (.solid (by decide))

theorem Plain.spine {s : Gapped × List Gapped} (h : Plain B s.1) (hs : ∀ t ∈ s.2, Plain B t) :
    Plain B (spineText s) := by
  unfold spineText
  split
  · exact h
  · exact (((Plain.solid (by decide) (by decide)).append h.toInner).append
      (.gapped fun t ht => hs t (List.mem_reverse.1 ht))).append (.solid (by decide))

end

theorem numStr_plain (B : Prop) (n : Nat) : Plain B (solid (numStr n)) := by
  have hdigit : ∀ b ∈ decimal n, b ≠ ' '.toUInt8 ∧ b ≠ '\n'.toUInt8 := by
    intro b hb
    have hrange := mem_decimal hb
    constructor
    · rintro rfl
      exact absurd hrange (by decide)
    · rintro rfl
      exact absurd hrange (by decide)
  unfold numStr
  cases hd : decimal n with
  | nil => exact absurd hd (decimal_ne_nil n)
  | cons b s =>
    rw [hd] at hdigit
    exact .solid (hdigit b List.mem_cons_self).1 fun hmem => (hdigit _ hmem).2 rfl

theorem strShow_plain (B : Prop) (n : Nat) : Plain B (solid (strShow n)) := by
  refine .solid (b := '"'.toUInt8) (by decide) ?_
  show '\n'.toUInt8 ∉ strShow n
  have hescape : ∀ b, '\n'.toUInt8 ∉ escape b := by
    intro b
    unfold escape
    split
    · decide
    · split
      · decide
      · simpa using Ne.symm ‹_›
  unfold strShow
  rw [List.mem_append, List.mem_append, List.mem_flatMap, not_or, not_or]
  refine ⟨⟨by decide, ?_⟩, by decide⟩
  rintro ⟨b, -, hb⟩
  exact hescape b hb

/-- What a name may be: without a line feed, and, if `B`, not empty and without a space before
the rest. -/
def Spelled (B : Prop) (s : Name) : Prop :=
  '\n'.toUInt8 ∉ s ∧ (B → s ≠ [] ∧ s.head? ≠ some ' '.toUInt8)

theorem Spelled.plain {B : Prop} {s : Name} (h : Spelled B s) : Plain B (solid s) := by
  refine ⟨.solid h.1, fun hb => ?_⟩
  obtain ⟨hne, hhead⟩ := h.2 hb
  cases s with
  | nil => exact absurd rfl hne
  | cons b s => exact begins_solid (by simpa using hhead) s

theorem spaced_oneLine {ss : List Name} (h : ∀ s ∈ ss, '\n'.toUInt8 ∉ s) :
    '\n'.toUInt8 ∉ spaced ss := by
  unfold spaced
  rw [List.mem_flatMap]
  rintro ⟨s, hs, hmem⟩
  rcases List.mem_append.1 hmem with hmem | hmem
  · exact absurd hmem (by decide)
  · exact h s hs hmem

mutual

theorem docText_plain {B : Prop} : ∀ d : Doc Name, (∀ s ∈ d.names, Spelled B s) →
    Plain B (docText d)
  | .num n, _ => numStr_plain B n
  | .str n, _ => strShow_plain B n
  | .ref name, h => (h name List.mem_cons_self).plain
  | .liquid, _ => .solid (by decide) (by decide)
  | .pin inner, h =>
    ((Plain.solid (by decide) (by decide)).append (docText_plain inner h).toInner).append
      (.solid (by decide))
  | .law tag self args lets body, h => by
    simp only [Doc.names, List.cons_append, List.mem_append, List.mem_cons, or_imp, forall_and,
      forall_eq] at h
    obtain ⟨htag, hself, hargs, hlets, hbody⟩ := h
    have hsig : '\n'.toUInt8 ∉ text " (" ++ self ++ spaced args ++ text ")" := by
      simp only [List.mem_append, not_or]
      exact ⟨⟨⟨by decide, hself.1⟩, spaced_oneLine fun s hs => (hargs s hs).1⟩, by decide⟩
    have hexpr := exprText_plain body hbody
    rw [docText]
    have hopen : Plain B (solid (text "(#law ")) := .solid (by decide) (by decide)
    have hclose : Inner B (solid (text ")")) := .solid (by decide)
    exact ((((hopen.append (docText_plain tag htag).toInner).append (.solid hsig)).append
      (letsText_inner lets hlets)).append (.gap (hexpr.1.spine hexpr.2))).append hclose
  | .app head args, h => by
    simp only [Doc.names, List.mem_append, or_imp, forall_and] at h
    rw [docText]
    exact (((Plain.solid (by decide) (by decide)).append (docText_plain head h.1).toInner).append
      (.gapped (docsTexts_plain args h.2))).append (.solid (by decide))

theorem docsTexts_plain {B : Prop} : ∀ ds : List (Doc Name), (∀ s ∈ docsNames ds, Spelled B s) →
    ∀ t ∈ docsTexts ds, Plain B t
  | [], _ => fun t ht => by cases ht
  | d :: ds, h => by
    simp only [docsNames, List.mem_append, or_imp, forall_and] at h
    intro t ht
    rcases List.mem_cons.1 ht with rfl | ht
    · exact docText_plain d h.1
    · exact docsTexts_plain ds h.2 t ht

theorem letsText_inner {B : Prop} : ∀ lets : List (Name × Expr Name),
    (∀ s ∈ letsNames lets, Spelled B s) → Inner B (letsText lets)
  | [], _ => ⟨by simp [letsText, OneLine], fun _ => trivial⟩
  | (name, e) :: lets, h => by
    simp only [letsNames, List.mem_cons, List.mem_append, or_imp, forall_and, forall_eq] at h
    obtain ⟨hname, he, hlets⟩ := h
    have hexpr := exprText_plain e he
    rw [letsText]
    exact ((Inner.gap hname.plain).append (hexpr.1.spine hexpr.2).wrap).append
      (letsText_inner lets hlets)

theorem exprText_plain {B : Prop} : ∀ e : Expr Name, (∀ s ∈ e.names, Spelled B s) →
    Plain B (exprText e).1 ∧ ∀ t ∈ (exprText e).2, Plain B t
  | .var name, h => ⟨(h name List.mem_cons_self).plain, fun t ht => by cases ht⟩
  | .const doc, h => by
    have hdoc := docText_plain doc h
    cases doc with
    | app head args =>
      simp only [Expr.names, Doc.names, List.mem_append, or_imp, forall_and] at h
      refine ⟨?_, fun t ht => by cases ht⟩
      show Plain B (solid (text "(#app ") ++ docText head ++ gapped (docsTexts args) ++
        solid (text ")"))
      have hopen : Plain B (solid (text "(#app ")) := .solid (by decide) (by decide)
      have hclose : Inner B (solid (text ")")) := .solid (by decide)
      exact ((hopen.append (docText_plain head h.1).toInner).append
        (.gapped (docsTexts_plain args h.2))).append hclose
    | _ => exact ⟨hdoc, fun t ht => by cases ht⟩
  | .esc doc, h => ⟨(docText_plain doc h).escaped, fun t ht => by cases ht⟩
  | .app f x, h => by
    simp only [Expr.names, List.mem_append, or_imp, forall_and] at h
    have hf := exprText_plain f h.1
    have hx := exprText_plain x h.2
    refine ⟨hf.1, fun t ht => ?_⟩
    rcases List.mem_cons.1 ht with rfl | ht
    · exact hx.1.spine hx.2
    · exact hf.2 t ht

end

/-! ## What is printed -/

/-- **Layout only changes whitespace.** Whatever the column and the width, below that of the
placeholder: what `cn_pp` prints of a document whose names have no line feed is its text on one
line once a space stands for each line feed with its indentation; and the indentation is all the
spaces after a line feed, if no name is empty or begins with a space. The text on one line is
what `cn_pp_flat` renders in any width that has room for it. -/
theorem pp_unindents {maxw : Nat} (hmaxw : maxw < 4095) (col : Nat) {d : Doc Name} (h : d.Applied)
    (hnames : ∀ s ∈ d.names, '\n'.toUInt8 ∉ s) :
    Unindents (pp maxw col d) (docText d).flat ∧
      ((∀ s ∈ d.names, s ≠ [] ∧ s.head? ≠ some ' '.toUInt8) →
        unindent (pp maxw col d) = (docText d).flat) ∧
      ∀ room < 4095, (docText d).flat.length ≤ room → (render room d).flat = (docText d).flat := by
  have hrelaid := (pp_printed hmaxw col h).relaid
  have hplain := docText_plain (B := ∀ s ∈ d.names, s ≠ [] ∧ s.head? ≠ some ' '.toUInt8) d
    fun s hs => ⟨hnames s hs, fun hb => hb s hs⟩
  exact ⟨hrelaid.unindents hplain.oneLine,
    fun hb => hrelaid.unindent hplain.oneLine (hplain.closed hb),
    fun _ hroom hfit => (render_lays hroom d h).approx.fits hfit⟩

/-- A law with a binding. -/
def lawSample : Doc Name :=
  .law (.ref (text "Tag")) (text "f") [text "x"] [(text "y", .app (.var (text "x")) (.var (text "x")))]
    (.app (.app (.var (text "f")) (.var (text "y")))
      (.const (.app (.ref (text "pair")) [.ref (text "left"), .liquid])))

/-- It is too wide for a line of twelve. -/
theorem pp_unindents_sample : 12 < (docText lawSample).flat.length ∧
    Unindents (pp 12 0 lawSample) (docText lawSample).flat ∧
      unindent (pp 12 0 lawSample) = (docText lawSample).flat ∧
      (render 80 lawSample).flat = (docText lawSample).flat := by
  have happlied : lawSample.Applied :=
    ⟨trivial, ⟨⟨trivial, trivial⟩, trivial⟩, ⟨trivial, trivial⟩,
      trivial, List.cons_ne_nil _ _, trivial, trivial, trivial⟩
  have hnames : ∀ s ∈ lawSample.names, '\n'.toUInt8 ∉ s := by decide
  have hsolid : ∀ s ∈ lawSample.names, s ≠ [] ∧ s.head? ≠ some ' '.toUInt8 := by decide
  obtain ⟨hlines, hspaces, hflat⟩ := pp_unindents (by decide : 12 < 4095) 0 happlied hnames
  exact ⟨by decide, hlines, hspaces hsolid, hflat 80 (by decide) (by decide)⟩

/-- An application without arguments has a space before its closing parenthesis where it fits,
and none where it does not. -/
theorem unapplied_loses_space :
    unindent (pp 2 0 (.app (.ref (text "abc")) [])) ≠
      (render 80 (.app (.ref (text "abc")) [])).flat := by
  have hwide : pp 2 0 (.app (.ref (text "abc")) []) = text "(abc)" := by decide +kernel
  have hflat : (render 80 (.app (.ref (text "abc")) [])).flat = text "(abc )" := rfl
  have hsame : unindent (text "(abc)") = (solid (text "(abc)")).flat :=
    (Relaid.solid _).unindent (oneLine_solid.2 (by decide)) (closed_solid _)
  rw [hwide, hflat, hsame, Gapped.flat_solid]
  decide

end Enki.Canon
