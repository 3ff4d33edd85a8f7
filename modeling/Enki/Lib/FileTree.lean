import Mathlib.Data.List.DropRight

/-!
# File trees and path resolution

A file system as a tree of directories, files and symbolic links, and how POSIX resolves
a path in it: `walk` goes from a directory along the components of a path and follows the
links it meets, at most `n` of them.

A place in the tree is the list of names on the way to it from the root (`Loc`). `walk`
ends at a place where there is something other than a link (`walk_sound`), and the path
that spells such a place out leads back to it (`walk_clear`).
-/

namespace FileTree

/-- A name in a directory. -/
abbrev Name := List UInt8

/-- The names from the root to a place. -/
abbrev Loc := List Name

def slash : UInt8 := 47
def dot : Name := [46]
def dotdot : Name := [46, 46]

/-- A name that is a component of its own. -/
structure GoodName (c : Name) : Prop where
  ne_nil : c ≠ []
  ne_dot : c ≠ dot
  ne_dotdot : c ≠ dotdot
  no_slash : slash ∉ c

/-- Every name on the way is good. -/
def Good (l : Loc) : Prop := ∀ c ∈ l, GoodName c

/-- A file, a link with the path it holds, or a directory. -/
inductive Node where
  | file (content : List UInt8)
  | link (target : List UInt8)
  | dir (entries : List (Name × Node))

/-- Why a path is not resolved. -/
inductive Errno where
  | enoent
  | enotdir
  | eloop
  | eisdir
  deriving DecidableEq

namespace Node

/-- A directory's entry. -/
def lookup (c : Name) : Node → Option Node
  | dir es => es.lookup c
  | _ => none

def isLink : Node → Bool
  | link _ => true
  | _ => false

def isDir : Node → Bool
  | dir _ => true
  | _ => false

/-- What is at a place. Links are not followed. -/
def get (n : Node) : Loc → Option Node
  | [] => some n
  | c :: l => (n.lookup c).bind fun m => m.get l

/-- Put an entry into a directory, in the place of the one of that name. -/
def setEntry (c : Name) (m : Node) : List (Name × Node) → List (Name × Node)
  | [] => [(c, m)]
  | (d, n) :: es => if d = c then (d, m) :: es else (d, n) :: setEntry c m es

/-- Put something at a place. -/
def put (n : Node) : Loc → Node → Node
  | [], m => m
  | c :: l, m =>
    match n with
    | dir es => dir (setEntry c (((es.lookup c).getD (dir [])).put l m) es)
    | n => n

end Node

/-- The components of a path. An empty one stands between two slashes, and at an end. -/
def components (p : List UInt8) : List Name := p.splitOn slash

/-- A path that begins at the root. -/
def isAbsolute (p : List UInt8) : Bool := p.head? == some slash

/-- The path of a place. -/
def render (l : Loc) : List UInt8 := if l = [] then [slash] else l.flatMap (slash :: ·)

section

variable (root : Node) (create : Bool)

/-- Resolution up to the first link, where `next` goes on. An empty component stands for the
directory it is in, as `.` does. With `create` a missing last component is no error. -/
def walkWith (next : Loc → List Name → Except Errno Loc) : Loc → List Name → Except Errno Loc
  | cur, [] => .ok cur
  | cur, c :: cs =>
    match root.get cur with
    | some (.dir es) =>
      if c = [] ∨ c = dot then walkWith next cur cs
      else if c = dotdot then walkWith next cur.dropLast cs
      else
        match es.lookup c with
        | none => if create ∧ cs = [] then .ok (cur ++ [c]) else .error .enoent
        | some (.link target) =>
          if target = [] then .error .enoent
          else next (if isAbsolute target then [] else cur) (components target ++ cs)
        | some _ => walkWith next (cur ++ [c]) cs
    | some _ => .error .enotdir
    | none => .error .enoent

/-- Resolution of components from a directory on; `n` links at most are followed. -/
def walk : Nat → Loc → List Name → Except Errno Loc
  | 0 => walkWith root create fun _ _ => .error .eloop
  | n + 1 => walkWith root create (walk n)

end

/-- A file system as a process sees it. -/
structure Fs where
  /-- The root directory. -/
  entries : List (Name × Node)
  cwd : Loc
  /-- `SYMLOOP_MAX` -/
  maxLinks : Nat
  cwd_good : Good cwd

namespace Fs

variable (fs : Fs)

def root : Node := .dir fs.entries

/-- Make a file at a place, or replace what is in it. -/
def write (l : Loc) (content : List UInt8) : Fs :=
  match fs.root.put l (.file content) with
  | .dir es => { fs with entries := es }
  | _ => fs

/-- Where the resolution of a path begins. -/
def start (p : List UInt8) : Loc := if isAbsolute p then [] else fs.cwd

/-- Resolution of a path; `create` is whether a file may be made. -/
def resolve (create : Bool) (p : List UInt8) : Except Errno Loc :=
  if p = [] then .error .enoent
  else walk fs.root create fs.maxLinks (fs.start p) (components p)

/-- `realpath(3)` -/
def realpath (p : List UInt8) : Except Errno (List UInt8) := (fs.resolve false p).map render

/-- `lstat(2)`: a link at the end of the path is not followed. -/
def lstat (p : List UInt8) : Except Errno Node :=
  if p = [] then .error .enoent
  else do
    let cs := components p
    let c := cs.getLastD []
    if c = [] ∨ c = dot ∨ c = dotdot then
      let l ← walk fs.root false fs.maxLinks (fs.start p) cs
      (fs.root.get l).elim (.error .enoent) .ok
    else
      let d ← walk fs.root false fs.maxLinks (fs.start p) cs.dropLast
      match fs.root.get d with
      | some (.dir es) => (es.lookup c).elim (.error .enoent) .ok
      | some _ => .error .enotdir
      | none => .error .enoent

end Fs

/-- Trailing slashes taken off. -/
def stripSlashes (p : List UInt8) : List UInt8 := p.rdropWhile (· == slash)

/-- `dirname(3)` -/
def dirname (p : List UInt8) : List UInt8 :=
  let q := stripSlashes p
  if p = [] then dot
  else if q = [] then [slash]
  else if slash ∉ q then dot
  else
    let d := stripSlashes (q.rdropWhile (· != slash))
    if d = [] then [slash] else d

/-- `basename(3)` -/
def basename (p : List UInt8) : List UInt8 :=
  let q := stripSlashes p
  if p = [] then dot
  else if q = [] then [slash]
  else q.rtakeWhile (· != slash)

/-! ## Places -/

theorem Good.append {l l' : Loc} (h : Good l) (h' : Good l') : Good (l ++ l') := fun c hc =>
  (List.mem_append.mp hc).elim (h c) (h' c)

theorem Good.dropLast {l : Loc} (h : Good l) : Good l.dropLast := fun c hc =>
  h c (List.dropLast_subset l hc)

/-- Something other than a link is there. -/
def Clear (root : Node) (l : Loc) : Prop := ∃ m, root.get l = some m ∧ m.isLink = false

theorem get_append (n : Node) (l l' : Loc) : n.get (l ++ l') = (n.get l).bind fun m => m.get l' := by
  induction l generalizing n with
  | nil => rfl
  | cons c l ih =>
    show (n.lookup c).bind (fun m => m.get (l ++ l')) = ((n.lookup c).bind fun m => m.get l).bind _
    cases n.lookup c with
    | none => rfl
    | some m => exact ih m

/-- Where something has an entry there is a directory. -/
theorem lookup_isSome {n m : Node} {c : Name} (h : n.lookup c = some m) :
    ∃ es, n = .dir es ∧ es.lookup c = some m := by
  cases n with
  | file _ => cases h
  | link _ => cases h
  | dir es => exact ⟨es, rfl, h⟩

/-- The parent of a place is a directory that has it as an entry. -/
theorem get_concat {root m : Node} {l : Loc} {c : Name} (h : root.get (l ++ [c]) = some m) :
    ∃ es, root.get l = some (.dir es) ∧ es.lookup c = some m := by
  rw [get_append] at h
  obtain ⟨n, hn, h⟩ := Option.bind_eq_some_iff.mp h
  obtain ⟨m', hm', h⟩ := Option.bind_eq_some_iff.mp (h : (n.lookup c).bind _ = _)
  cases h
  obtain ⟨es, rfl, hes⟩ := lookup_isSome hm'
  exact ⟨es, hn, hes⟩

theorem Clear.dropLast {root : Node} {l : Loc} (h : Clear root l) : Clear root l.dropLast := by
  rcases List.eq_nil_or_concat l with rfl | ⟨l, c, rfl⟩
  · exact h
  · obtain ⟨m, hm, -⟩ := h
    rw [List.concat_eq_append] at hm ⊢
    obtain ⟨es, hes, -⟩ := get_concat hm
    rw [List.dropLast_concat]
    exact ⟨_, hes, rfl⟩

/-! ## Components -/

theorem components_slash (p q : List UInt8) :
    components (p ++ slash :: q) = components p ++ components q :=
  List.splitOn_append_cons_self p q

theorem components_name {c : List UInt8} (h : slash ∉ c) : components c = [c] :=
  List.splitOn_eq_singleton h

theorem components_ne_nil (p : List UInt8) : components p ≠ [] := List.splitOn_ne_nil _ _

theorem slash_notMem_components : ∀ {p c : List UInt8}, c ∈ components p → slash ∉ c := by
  intro p c hc
  induction p generalizing c with
  | nil =>
    obtain rfl : c = [] := by simpa [components] using hc
    simp
  | cons b p ih =>
    unfold components at hc ih
    rw [List.splitOn_cons_eq_if_modifyHead] at hc
    split at hc
    next hb =>
      rcases List.mem_cons.mp hc with rfl | hc
      · simp
      · exact ih hc
    next hb =>
      obtain ⟨d, ds, hds⟩ := List.exists_cons_of_ne_nil (List.splitOn_ne_nil slash p)
      rw [hds] at hc ih
      rcases List.mem_cons.mp hc with rfl | hc
      · have hd := ih List.mem_cons_self
        simp only [beq_iff_eq] at hb
        simp only [List.mem_cons, not_or]
        exact ⟨fun h => hb h.symm, hd⟩
      · exact ih (List.mem_cons_of_mem _ hc)

/-- The components of a path below a place. -/
theorem components_below {l : Loc} (h : Good l) (p : List UInt8) :
    components (l.flatMap (slash :: ·) ++ slash :: p) = [] :: (l ++ components p) := by
  induction l with
  | nil => exact components_slash [] p
  | cons c l ih =>
    obtain ⟨hc, hl⟩ := List.forall_mem_cons.mp h
    have hq : l.flatMap (slash :: ·) ++ slash :: p =
        slash :: (l.flatMap (slash :: ·) ++ slash :: p).tail := by
      cases l <;> rfl
    have ih := ih hl
    rw [hq] at ih
    have ih' : components (l.flatMap (slash :: ·) ++ slash :: p).tail = l ++ components p :=
      List.cons.inj ((components_slash [] _).symm.trans ih) |>.2
    rw [List.flatMap_cons, List.append_assoc, List.cons_append, hq]
    calc components (slash :: (c ++ slash :: (l.flatMap (slash :: ·) ++ slash :: p).tail))
        = [] :: components (c ++ slash :: (l.flatMap (slash :: ·) ++ slash :: p).tail) :=
          components_slash [] _
      _ = [] :: (c :: components (l.flatMap (slash :: ·) ++ slash :: p).tail) := by
          rw [components_slash, components_name hc.no_slash]
          rfl
      _ = [] :: (c :: l ++ components p) := by rw [ih']; rfl

/-- The components of the path of a place. -/
theorem components_render {l : Loc} (h : Good l) (hne : l ≠ []) : components (render l) = [] :: l := by
  obtain ⟨l', c, rfl⟩ := (List.eq_nil_or_concat l).resolve_left hne
  rw [List.concat_eq_append] at h ⊢
  have hc : GoodName c := h c (by simp)
  have hl : Good l' := fun d hd => h d (by simp [hd])
  unfold render
  rw [if_neg (by simp), List.flatMap_append, List.flatMap_singleton, components_below hl,
    components_name hc.no_slash]

theorem isAbsolute_render (l : Loc) : isAbsolute (render l) = true := by
  cases l <;> rfl

theorem render_ne_nil (l : Loc) : render l ≠ [] := by
  cases l <;> simp [render]

/-! ## Where a walk ends -/

/-- There is something other than a link, or, where a file may be made, there is nothing in a
directory. -/
def Ends (root : Node) (create : Bool) (l : Loc) : Prop :=
  Clear root l ∨ create = true ∧ ∃ d c es, l = d ++ [c] ∧ root.get d = some (.dir es) ∧
    es.lookup c = none

section

variable {root : Node} {create : Bool} {next : Loc → List Name → Except Errno Loc}

theorem walkWith_cons (cur : Loc) (c : Name) (cs : List Name) :
    walkWith root create next cur (c :: cs) =
      match root.get cur with
      | some (.dir es) =>
        if c = [] ∨ c = dot then walkWith root create next cur cs
        else if c = dotdot then walkWith root create next cur.dropLast cs
        else
          match es.lookup c with
          | none => if create ∧ cs = [] then .ok (cur ++ [c]) else .error .enoent
          | some (.link target) =>
            if target = [] then .error .enoent
            else next (if isAbsolute target then [] else cur) (components target ++ cs)
          | some _ => walkWith root create next (cur ++ [c]) cs
      | some _ => .error .enotdir
      | none => .error .enoent :=
  rfl

/-- An empty component and `.` lead nowhere else. -/
theorem walkWith_stay {cur : Loc} {es : List (Name × Node)} {c : Name} (cs : List Name)
    (h : root.get cur = some (.dir es)) (hc : c = [] ∨ c = dot) :
    walkWith root create next cur (c :: cs) = walkWith root create next cur cs := by
  rw [walkWith_cons, h]
  exact if_pos hc

/-- However many links may be followed, a walk is one up to the first link. -/
theorem walk_eq_walkWith (root : Node) (create : Bool) (n : Nat) :
    ∃ next, walk root create n = walkWith root create next := by
  cases n with
  | zero => exact ⟨_, rfl⟩
  | succ n => exact ⟨_, rfl⟩

/-- A walk that goes on well from links ends well. -/
theorem walkWith_sound (hroot : root.isLink = false) (hnext : ∀ cur cs l, Good cur → cs ≠ [] →
      (∀ c ∈ cs, slash ∉ c) → next cur cs = .ok l → Good l ∧ Ends root create l) :
    ∀ (cs : List Name) (cur l : Loc), Good cur → (cs = [] → Clear root cur) → (∀ c ∈ cs, slash ∉ c) →
      walkWith root create next cur cs = .ok l → Good l ∧ Ends root create l
  | [], cur, l, hgood, hclear, _, h => by
    cases h
    exact ⟨hgood, .inl (hclear rfl)⟩
  | c :: cs, cur, l, hgood, _, hslash, h => by
    obtain ⟨hc, hcs⟩ := List.forall_mem_cons.mp hslash
    rw [walkWith_cons] at h
    split at h
    next es hes =>
      have hcur : Clear root cur := ⟨_, hes, rfl⟩
      by_cases h1 : c = [] ∨ c = dot
      · rw [if_pos h1] at h
        exact walkWith_sound hroot hnext cs cur l hgood (fun _ => hcur) hcs h
      by_cases h2 : c = dotdot
      · rw [if_neg h1, if_pos h2] at h
        exact walkWith_sound hroot hnext cs _ l hgood.dropLast (fun _ => hcur.dropLast) hcs h
      have hname : GoodName c := ⟨fun h0 => h1 (.inl h0), fun h0 => h1 (.inr h0), h2, hc⟩
      have hdown : Good (cur ++ [c]) := hgood.append fun d hd => by
        rw [List.mem_singleton.mp hd]
        exact hname
      rw [if_neg h1, if_neg h2] at h
      split at h
      next hno =>
        split at h
        next hmake =>
          cases h
          exact ⟨hdown, .inr ⟨hmake.1, cur, c, es, rfl, hes, hno⟩⟩
        next => cases h
      next target htarget =>
        split at h
        next => cases h
        next =>
          refine hnext _ _ _ ?_ (by simp [components_ne_nil]) (fun d hd => ?_) h
          · split
            · exact fun d hd => absurd hd List.not_mem_nil
            · exact hgood
          · exact (List.mem_append.mp hd).elim slash_notMem_components (hcs d)
      next m hlink hm =>
        refine walkWith_sound hroot hnext cs _ l hdown (fun _ => ⟨m, ?_, ?_⟩) hcs h
        · rw [get_append, hes]
          show ((Node.dir es).lookup c).bind _ = _
          rw [show (Node.dir es).lookup c = some m from hm]
          rfl
        · cases m with
          | link target => exact absurd rfl (hlink target)
          | file _ => rfl
          | dir _ => rfl
    next => cases h
    next => cases h

theorem walk_sound (hroot : root.isLink = false) : ∀ (n : Nat) (cs : List Name) (cur l : Loc),
    Good cur → cs ≠ [] → (∀ c ∈ cs, slash ∉ c) → walk root create n cur cs = .ok l →
      Good l ∧ Ends root create l
  | 0, cs, cur, l, hgood, hne, hslash, h =>
    walkWith_sound hroot (fun _ _ _ _ _ _ h => by cases h) cs cur l hgood (fun h0 => absurd h0 hne)
      hslash h
  | n + 1, cs, cur, l, hgood, hne, hslash, h =>
    walkWith_sound hroot (fun cur cs l => walk_sound hroot n cs cur l) cs cur l hgood
      (fun h0 => absurd h0 hne) hslash h

/-- Along names that lead to something other than a link, a walk just follows them. -/
theorem walkWith_clear : ∀ (cs : List Name) {cur : Loc} (rest : List Name), Good cs →
    Clear root (cur ++ cs) →
    walkWith root create next cur (cs ++ rest) = walkWith root create next (cur ++ cs) rest
  | [], cur, rest, _, _ => by rw [List.nil_append, List.append_nil]
  | c :: cs, cur, rest, hgood, hclear => by
    obtain ⟨hc, hcs⟩ := List.forall_mem_cons.mp hgood
    have hassoc : cur ++ c :: cs = (cur ++ [c]) ++ cs := by simp
    obtain ⟨m, hm, hlink⟩ := hclear
    -- The next name is an entry of a directory, and not a link: the walk goes on from it.
    rw [hassoc, get_append] at hm
    obtain ⟨m', hm', hrest⟩ := Option.bind_eq_some_iff.mp hm
    obtain ⟨es, hes, hentry⟩ := get_concat hm'
    have hm'link : m'.isLink = false := by
      cases cs with
      | nil =>
        cases hrest
        exact hlink
      | cons d cs =>
        obtain ⟨m'', hm'', -⟩ := Option.bind_eq_some_iff.mp (hrest : (m'.lookup d).bind _ = _)
        obtain ⟨es', rfl, -⟩ := lookup_isSome hm''
        rfl
    have hstep : walkWith root create next cur (c :: (cs ++ rest)) =
        walkWith root create next (cur ++ [c]) (cs ++ rest) := by
      rw [walkWith_cons, hes]
      dsimp only
      rw [if_neg (fun h => h.elim hc.ne_nil hc.ne_dot), if_neg hc.ne_dotdot, hentry]
      cases m' with
      | link _ => cases hm'link
      | file _ => rfl
      | dir _ => rfl
    have hdown : Clear root ((cur ++ [c]) ++ cs) := ⟨m, by rw [get_append, hm']; exact hrest, hlink⟩
    rw [List.cons_append, hstep, walkWith_clear cs rest hcs hdown, hassoc]

theorem walk_clear {n : Nat} {cs : List Name} {cur : Loc} (rest : List Name) (hgood : Good cs)
    (hclear : Clear root (cur ++ cs)) :
    walk root create n cur (cs ++ rest) = walk root create n (cur ++ cs) rest := by
  cases n <;> exact walkWith_clear cs rest hgood hclear

/-- There is no way on from a file. -/
theorem walk_file {n : Nat} {cur : Loc} {m : Node} (h : root.get cur = some m)
    (hlink : m.isLink = false) (hdir : m.isDir = false) (c : Name) (cs : List Name) :
    walk root create n cur (c :: cs) = .error .enotdir := by
  obtain ⟨content, rfl⟩ : ∃ content, m = .file content := by
    cases m with
    | file content => exact ⟨content, rfl⟩
    | link _ => cases hlink
    | dir _ => cases hdir
  obtain ⟨next, hwalk⟩ := walk_eq_walkWith root create n
  rw [hwalk, walkWith_cons, h]

/-- A file may be made under a name that a directory does not have. -/
theorem walk_missing {n : Nat} {cur : Loc} {es : List (Name × Node)} {c : Name}
    (h : root.get cur = some (.dir es)) (hc : GoodName c) (hno : es.lookup c = none) :
    walk root true n cur [c] = .ok (cur ++ [c]) := by
  obtain ⟨next, hwalk⟩ := walk_eq_walkWith root true n
  rw [hwalk, walkWith_cons, h]
  dsimp only
  rw [if_neg (fun h => h.elim hc.ne_nil hc.ne_dot), if_neg hc.ne_dotdot, hno]
  rfl

/-- A walk with nothing more to do. -/
theorem walk_nil {n : Nat} {cur : Loc} : walk root create n cur [] = .ok cur := by
  cases n <;> rfl

/-- Where names lead further there is a directory. -/
theorem get_dir {n m : Node} {l l' : Loc} (h : n.get (l ++ l') = some m) (hne : l' ≠ []) :
    ∃ es, n.get l = some (.dir es) := by
  rw [get_append] at h
  obtain ⟨n', hn', h⟩ := Option.bind_eq_some_iff.mp h
  obtain ⟨c, l', rfl⟩ := List.exists_cons_of_ne_nil hne
  obtain ⟨m', hm', -⟩ := Option.bind_eq_some_iff.mp (h : (n'.lookup c).bind _ = _)
  obtain ⟨es, rfl, -⟩ := lookup_isSome hm'
  exact ⟨es, hn'⟩

/-- Components that spell out names, with empty ones between them: the walk follows the names.
Empty ones at the end ask for a directory. -/
theorem walkWith_spelled {m : Node} : ∀ (cs : List Name) {cur : Loc},
    (∀ c ∈ cs, c ≠ [] → GoodName c) → root.get (cur ++ cs.filter (· ≠ [])) = some m →
    m.isLink = false → (m.isDir = true ∨ cs.getLast? ≠ some []) →
    walkWith root create next cur cs = .ok (cur ++ cs.filter (· ≠ []))
  | [], cur, _, _, _, _ => by
    rw [List.filter_nil, List.append_nil]
    rfl
  | c :: cs, cur, hgood, hm, hlink, hlast => by
    obtain ⟨hc, hcs⟩ := List.forall_mem_cons.mp hgood
    have hlast' : m.isDir = true ∨ cs.getLast? ≠ some [] := by
      refine hlast.imp_right fun h => ?_
      cases cs with
      | nil => simp
      | cons d cs => rwa [List.getLast?_cons_cons] at h
    by_cases h0 : c = []
    · subst h0
      have hfilter : ([] :: cs).filter (· ≠ []) = cs.filter (· ≠ ([] : Name)) := by simp
      rw [hfilter] at hm ⊢
      -- There is a directory here: names lead on from it, or it is what is asked for.
      obtain ⟨es, hes⟩ : ∃ es, root.get cur = some (.dir es) := by
        by_cases hnil : cs.filter (· ≠ []) = []
        · rw [hnil, List.append_nil] at hm
          have hdir : m.isDir = true := by
            refine hlast.resolve_right fun h => h ?_
            rcases List.eq_nil_or_concat cs with rfl | ⟨cs', d, rfl⟩
            · rfl
            · have hd := List.filter_eq_nil_iff.mp hnil d (by simp)
              simp only [ne_eq, decide_not, Bool.not_eq_true', decide_eq_false_iff_not,
                not_not] at hd
              rw [hd, List.concat_eq_append]
              exact List.getLast?_concat (l := [] :: cs')
          cases m with
          | dir es => exact ⟨es, hm⟩
          | file _ => cases hdir
          | link _ => cases hdir
        · exact get_dir hm hnil
      rw [walkWith_stay cs hes (.inl rfl)]
      exact walkWith_spelled cs hcs hm hlink hlast'
    · have hname := hc h0
      have hfilter : (c :: cs).filter (· ≠ []) = [c] ++ cs.filter (· ≠ []) := by simp [h0]
      rw [hfilter, ← List.append_assoc] at hm ⊢
      have hone : Good [c] := fun d hd => List.mem_singleton.mp hd ▸ hname
      have hclear : Clear root (cur ++ [c]) := by
        by_cases hnil : cs.filter (· ≠ []) = []
        · rw [hnil, List.append_nil] at hm
          exact ⟨m, hm, hlink⟩
        · obtain ⟨es, hes⟩ := get_dir hm hnil
          exact ⟨_, hes, rfl⟩
      rw [show c :: cs = [c] ++ cs from rfl, walkWith_clear [c] cs hone hclear]
      exact walkWith_spelled cs hcs hm hlink hlast'

theorem walk_spelled {m : Node} {n : Nat} {cs : List Name} {cur : Loc}
    (hgood : ∀ c ∈ cs, c ≠ [] → GoodName c) (hm : root.get (cur ++ cs.filter (· ≠ [])) = some m)
    (hlink : m.isLink = false) (hlast : m.isDir = true ∨ cs.getLast? ≠ some []) :
    walk root create n cur cs = .ok (cur ++ cs.filter (· ≠ [])) := by
  cases n <;> exact walkWith_spelled cs hgood hm hlink hlast

/-- In a directory, an empty component leads nowhere else. -/
theorem walk_empty {n : Nat} {cur : Loc} {es : List (Name × Node)} (h : root.get cur = some (.dir es))
    (cs : List Name) : walk root create n cur ([] :: cs) = walk root create n cur cs := by
  obtain ⟨next, hwalk⟩ := walk_eq_walkWith root create n
  rw [hwalk, walkWith_stay cs h (.inl rfl)]

/-- `.` leads nowhere else either. -/
theorem walk_dot {n : Nat} {cur : Loc} {es : List (Name × Node)} (h : root.get cur = some (.dir es)) :
    walk root create n cur [dot] = .ok cur := by
  obtain ⟨next, hwalk⟩ := walk_eq_walkWith root create n
  rw [hwalk, walkWith_stay [] h (.inr rfl)]
  rfl

end

/-! ## Where a path leads -/

namespace Fs

variable {fs : Fs} {create : Bool}

theorem start_good (p : List UInt8) : Good (fs.start p) := by
  unfold start
  split
  · exact fun c hc => absurd hc List.not_mem_nil
  · exact fs.cwd_good

theorem resolve_sound {p : List UInt8} {l : Loc} (h : fs.resolve create p = .ok l) :
    Good l ∧ Ends fs.root create l := by
  unfold resolve at h
  split at h
  · cases h
  · exact walk_sound rfl _ _ _ _ (start_good p) (components_ne_nil p)
      (fun _ => slash_notMem_components) h

/-- A path below a place is walked from there. -/
theorem resolve_below {l : Loc} (hgood : Good l) (hclear : Clear fs.root l) (p : List UInt8) :
    fs.resolve create (l.flatMap (slash :: ·) ++ slash :: p) =
      walk fs.root create fs.maxLinks l (components p) := by
  have habs : isAbsolute (l.flatMap (slash :: ·) ++ slash :: p) = true := by
    cases l <;> rfl
  have hclear : Clear fs.root ([] ++ l) := hclear
  unfold resolve start
  rw [if_neg (by simp), if_pos habs, components_below hgood, walk_empty rfl,
    walk_clear _ hgood hclear, List.nil_append]

/-- `lstat` of a name in a place. -/
theorem lstat_below {l : Loc} (hgood : Good l) {m : Node} (hm : fs.root.get l = some m)
    (hlink : m.isLink = false) {c : Name} (hc : GoodName c) :
    fs.lstat (l.flatMap (slash :: ·) ++ slash :: c) =
      if m.isDir then (m.lookup c).elim (.error .enoent) .ok else .error .enotdir := by
  have habs : isAbsolute (l.flatMap (slash :: ·) ++ slash :: c) = true := by
    cases l <;> rfl
  have hclear : Clear fs.root ([] ++ l) := ⟨m, hm, hlink⟩
  have hcomp : components (l.flatMap (slash :: ·) ++ slash :: c) = ([] :: l) ++ [c] := by
    rw [components_below hgood, components_name hc.no_slash]
    rfl
  have hwalk : walk fs.root false fs.maxLinks [] ([] :: l) = .ok l := by
    rw [walk_empty rfl, ← List.append_nil l, walk_clear _ hgood hclear, walk_nil, List.nil_append,
      List.append_nil]
  unfold lstat start
  rw [if_neg (by simp), if_pos habs, hcomp]
  dsimp only
  rw [List.getLastD_concat, if_neg (by simp [hc.ne_nil, hc.ne_dot, hc.ne_dotdot]),
    List.dropLast_concat, hwalk]
  show (match fs.root.get l with
    | some (.dir es) => (es.lookup c).elim (.error .enoent) .ok
    | some _ => .error .enotdir
    | none => .error .enoent : Except Errno Node) = _
  rw [hm]
  cases m with
  | file _ => rfl
  | link _ => cases hlink
  | dir _ => rfl

/-- The path of a place leads to it. -/
theorem resolve_render {l : Loc} (hgood : Good l) (hclear : Clear fs.root l) :
    fs.resolve create (render l) = .ok l := by
  have hclear : Clear fs.root ([] ++ l) := hclear
  unfold resolve start
  rw [if_neg (render_ne_nil l), if_pos (isAbsolute_render l)]
  by_cases hl : l = []
  · subst hl
    show walk fs.root create fs.maxLinks [] [[], []] = _
    rw [walk_empty rfl, walk_empty rfl, walk_nil]
  · rw [components_render hgood hl, walk_empty rfl, ← List.append_nil l, walk_clear _ hgood hclear,
      walk_nil, List.nil_append, List.append_nil]

theorem realpath_ok {p q : List UInt8} (h : fs.realpath p = .ok q) :
    ∃ l, fs.resolve false p = .ok l ∧ q = render l ∧ Good l ∧ Clear fs.root l := by
  unfold realpath at h
  cases hl : fs.resolve false p with
  | error e =>
    rw [hl] at h
    cases h
  | ok l =>
    rw [hl] at h
    cases h
    obtain ⟨hgood, hclear | ⟨hno, -⟩⟩ := resolve_sound hl
    · exact ⟨l, rfl, rfl, hgood, hclear⟩
    · cases hno

end Fs

/-- One place is below another if its path says so: it is the other's with nothing or a slash
behind it. -/
theorem prefix_iff_render {r l : Loc} (hr : Good r) (hl : Good l) (hne : r ≠ []) :
    (∃ rest, render l = render r ++ rest ∧ (rest = [] ∨ rest.head? = some slash)) ↔ r <+: l := by
  have hrender : render r = r.flatMap (slash :: ·) := if_neg hne
  constructor
  · rintro ⟨rest, heq, hrest⟩
    have hlne : l ≠ [] := by
      rintro rfl
      obtain ⟨c, r, rfl⟩ := List.exists_cons_of_ne_nil hne
      have hlen := congrArg List.length heq
      have hc := List.length_pos_iff.mpr (hr c List.mem_cons_self).ne_nil
      have hone : (render []).length = 1 := rfl
      rw [hone, hrender, List.flatMap_cons, List.length_append, List.length_append,
        List.length_cons] at hlen
      omega
    have hcomp := components_render hl hlne
    rcases hrest with rfl | hslash
    · rw [heq, List.append_nil, components_render hr hne] at hcomp
      exact (List.cons.inj hcomp).2 ▸ List.prefix_rfl
    · obtain ⟨q, rfl⟩ : ∃ q, rest = slash :: q := by
        cases rest with
        | nil => cases hslash
        | cons c q =>
          obtain rfl : c = slash := Option.some.inj hslash
          exact ⟨q, rfl⟩
      rw [heq, hrender, components_below hr] at hcomp
      exact ⟨components q, (List.cons.inj hcomp).2⟩
  · rintro ⟨s, rfl⟩
    refine ⟨s.flatMap (slash :: ·), ?_, ?_⟩
    · rw [hrender]
      unfold render
      rw [if_neg (by simp [hne]), List.flatMap_append]
    · cases s with
      | nil => exact .inl rfl
      | cons c s => exact .inr rfl

/-! ## Parts of a path -/

/-- The components that are not empty. -/
def names (p : List UInt8) : Loc := (components p).filter (· ≠ [])

theorem names_slash (p q : List UInt8) : names (p ++ slash :: q) = names p ++ names q := by
  unfold names
  rw [components_slash, List.filter_append]

theorem names_name {c : List UInt8} (hne : c ≠ []) (h : slash ∉ c) : names c = [c] := by
  unfold names
  rw [components_name h]
  simp [hne]

theorem names_stripSlashes (p : List UInt8) : names (stripSlashes p) = names p := by
  unfold stripSlashes
  induction p using List.reverseRecOn with
  | nil => rfl
  | append_singleton p c ih =>
    by_cases hc : c = slash
    · subst hc
      rw [List.rdropWhile_concat_pos _ _ _ (by simp), ih, names_slash]
      show names p = names p ++ []
      rw [List.append_nil]
    · rw [List.rdropWhile_concat_neg _ _ _ (by simp [hc])]

/-- The parts of a path that ends in a name. A path of one name has `.` for its directory. -/
theorem parts_of_path {p : List UInt8} (h : (components p).getLast? ≠ some []) :
    basename p ≠ [] ∧ slash ∉ basename p ∧
      (dirname p = dot ∧ names p = [basename p] ∨ names p = names (dirname p) ++ [basename p]) := by
  have hne : p ≠ [] := by
    rintro rfl
    exact h rfl
  have hlast : ∀ hp : p ≠ [], ¬ (p.getLast hp == slash) = true := by
    intro hp hs
    refine h ?_
    rw [← List.dropLast_append_getLast hp, beq_iff_eq.mp hs, components_slash]
    exact List.getLast?_concat
  have hstrip : stripSlashes p = p := List.rdropWhile_eq_self_iff.mpr hlast
  have hbase : basename p = p.rtakeWhile (· != slash) := by
    unfold basename
    rw [hstrip]
    dsimp only
    rw [if_neg hne, if_neg hne]
  have hbasene : p.rtakeWhile (· != slash) ≠ [] := by
    rw [ne_eq, List.rtakeWhile_eq_nil_iff]
    intro hall
    exact hall hne (by simpa using hlast hne)
  have hnoslash : slash ∉ p.rtakeWhile (· != slash) := fun hs => by
    simpa using List.mem_rtakeWhile_imp hs
  rw [hbase]
  refine ⟨hbasene, hnoslash, ?_⟩
  by_cases hs : slash ∈ p
  · right
    have hpre : p.rdropWhile (· != slash) ≠ [] := by
      rw [ne_eq, List.rdropWhile_eq_nil_iff]
      exact fun hall => by simpa using hall slash hs
    have hend : (p.rdropWhile (· != slash)).getLast hpre = slash := by
      simpa using List.rdropWhile_last_not (· != slash) p hpre
    have hdir : names (dirname p) = names (p.rdropWhile (· != slash)) := by
      unfold dirname
      rw [hstrip]
      dsimp only
      rw [if_neg hne, if_neg hne, if_neg (by simp [hs])]
      split
      next h0 => rw [← names_stripSlashes (p.rdropWhile _), h0]; rfl
      next => exact names_stripSlashes _
    have hsplit : p.rdropWhile (· != slash) = (p.rdropWhile (· != slash)).dropLast ++ [slash] := by
      have happ := List.dropLast_append_getLast hpre
      rw [hend] at happ
      exact happ.symm
    have hp : p = (p.rdropWhile (· != slash)).dropLast ++ slash :: p.rtakeWhile (· != slash) := by
      rw [← List.singleton_append, ← List.append_assoc, ← hsplit, List.rdropWhile_append_rtakeWhile]
    rw [hdir, hsplit, names_slash]
    conv_lhs => rw [hp, names_slash, names_name hbasene hnoslash]
    show _ = names _ ++ [] ++ _
    rw [List.append_nil]
  · left
    have hall : p.rtakeWhile (· != slash) = p := List.rtakeWhile_eq_self_iff.mpr fun c hc => by
      simp only [bne_iff_ne, ne_eq]
      rintro rfl
      exact hs hc
    refine ⟨?_, by rw [hall, names_name hne hs]⟩
    unfold dirname
    rw [hstrip]
    dsimp only
    rw [if_neg hne, if_neg hne, if_pos hs]

/-! ## Writing -/

/-- What is at a place, less what is below it. -/
inductive Kind where
  | file (content : List UInt8)
  | link (target : List UInt8)
  | dir
  deriving DecidableEq

def Node.kind : Node → Kind
  | .file content => .file content
  | .link target => .link target
  | .dir _ => .dir

theorem lookup_setEntry (c d : Name) (m : Node) (es : List (Name × Node)) :
    (Node.setEntry c m es).lookup d = if d = c then some m else es.lookup d := by
  induction es with
  | nil =>
    by_cases hd : d = c
    · simp [Node.setEntry, hd]
    · have hdc : (d == c) = false := beq_eq_false_iff_ne.mpr hd
      simp [Node.setEntry, List.lookup_cons, hd, hdc]
  | cons e es ih =>
    obtain ⟨b, n⟩ := e
    by_cases hb : b = c
    · subst hb
      by_cases hd : d = b
      · simp [Node.setEntry, hd]
      · have hdb : (d == b) = false := beq_eq_false_iff_ne.mpr hd
        simp [Node.setEntry, List.lookup_cons, hd, hdb]
    · by_cases hd : d = b
      · subst hd
        simp [Node.setEntry, hb]
      · have hdb : (d == b) = false := beq_eq_false_iff_ne.mpr hd
        rw [Node.setEntry, if_neg hb, List.lookup_cons, List.lookup_cons, hdb]
        exact ih

/-- What is put into a directory leaves the places elsewhere as they are. -/
theorem get_put {l : Loc} {c : Name} {m : Node} : ∀ {n : Node} {es : List (Name × Node)} {l' : Loc},
    n.get l = some (.dir es) → ¬ l ++ [c] <+: l' →
    ((n.put (l ++ [c]) m).get l').map Node.kind = (n.get l').map Node.kind := by
  induction l with
  | nil =>
    intro n es l' hn hno
    cases hn
    cases l' with
    | nil => rfl
    | cons d l' =>
      have hd : d ≠ c := by
        rintro rfl
        exact hno ⟨l', rfl⟩
      show (((Node.setEntry c _ es).lookup d).bind _).map _ = ((es.lookup d).bind _).map _
      rw [lookup_setEntry, if_neg hd]
  | cons b l ih =>
    intro n es l' hn hno
    obtain ⟨m', hm', hrest⟩ := Option.bind_eq_some_iff.mp (hn : (n.lookup b).bind _ = _)
    obtain ⟨es', rfl, hes'⟩ := lookup_isSome hm'
    cases l' with
    | nil => rfl
    | cons d l' =>
      show (((Node.setEntry b _ es').lookup d).bind _).map _ = ((es'.lookup d).bind _).map _
      rw [lookup_setEntry]
      by_cases hd : d = b
      · subst hd
        rw [if_pos rfl, hes']
        exact ih hrest fun ⟨t, ht⟩ => hno ⟨t, by rw [← ht]; rfl⟩
      · rw [if_neg hd]

theorem root_write {fs : Fs} {l : Loc} (hne : l ≠ []) (content : List UInt8) :
    (fs.write l content).root = fs.root.put l (.file content) := by
  obtain ⟨c, l, rfl⟩ := List.exists_cons_of_ne_nil hne
  rfl

/-- A file that is written changes no other place. -/
theorem get_write {fs : Fs} {l l' : Loc} {c : Name} {es : List (Name × Node)} {content : List UInt8}
    (hl : fs.root.get l = some (.dir es)) (hno : ¬ l ++ [c] <+: l') :
    ((fs.write (l ++ [c]) content).root.get l').map Node.kind = (fs.root.get l').map Node.kind := by
  rw [root_write (by simp)]
  exact get_put hl hno

/-- The directory of a file that is written is there afterwards. -/
theorem get_write_dir {fs : Fs} {l : Loc} {c : Name} {es : List (Name × Node)} {content : List UInt8}
    (hl : fs.root.get l = some (.dir es)) :
    ∃ es', (fs.write (l ++ [c]) content).root.get l = some (.dir es') := by
  have hno : ¬ l ++ [c] <+: l := fun h => by
    have hlen := h.length_le
    rw [List.length_append, List.length_singleton] at hlen
    exact Nat.not_succ_le_self _ hlen
  have hkind := @get_write fs l l c es content hl hno
  rw [hl] at hkind
  obtain ⟨m, hm, hdir⟩ := Option.map_eq_some_iff.mp hkind
  cases m with
  | dir es' => exact ⟨es', hm⟩
  | file _ => cases hdir
  | link _ => cases hdir

end FileTree
