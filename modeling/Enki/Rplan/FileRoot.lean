import Enki.Rplan.Effects

/-!
# Confinement to the file root

With a file root, the paths that the effects hand to the operating system lead to places
at or below the root, whatever path the program gives and whatever links there are
(`file_root_confines`). A path that spells a file below the root out is accepted and
leads to that file. `ReadFolder` keeps to the root with the directory it opens, but looks
through the links it finds there, which may lead out (`folder_looks_outside`).
-/

namespace Enki.Rplan

open Bignum Log FileTree

/-- A place at or below the file root. -/
def Below (f : Files) (l : Loc) : Prop :=
  ∃ r, f.fs.resolve false (f.fileRoot.getD []) = .ok r ∧ r <+: l

/-! ## Paths of places -/

theorem rpJoinPath_render {l : Loc} (h : Good l) (p : List UInt8) :
    rpJoinPath (render l) p = l.flatMap (slash :: ·) ++ slash :: p := by
  unfold rpJoinPath
  rcases List.eq_nil_or_concat l with rfl | ⟨l, c, rfl⟩
  · rfl
  · rw [List.concat_eq_append] at h ⊢
    have hc : GoodName c := h c (by simp)
    have hrender : render (l ++ [c]) = (l ++ [c]).flatMap (slash :: ·) := if_neg (by simp)
    have hlast : (render (l ++ [c])).getLast? ≠ some slash := by
      rw [hrender, List.flatMap_append, List.flatMap_singleton]
      obtain ⟨c', b, hcb⟩ := (List.eq_nil_or_concat c).resolve_left hc.ne_nil
      rw [hcb, List.concat_eq_append, ← List.cons_append, ← List.append_assoc,
        List.getLast?_concat]
      intro hb
      refine hc.no_slash ?_
      rw [hcb, Option.some.inj hb]
      simp
    rw [if_neg hlast, hrender]

theorem rpPathUnderRoot_iff {r l : Loc} (hr : Good r) (hl : Good l) :
    rpPathUnderRoot (render r) (render l) = true ↔ r <+: l := by
  by_cases hne : r = []
  · subst hne
    exact iff_of_true (by simp [rpPathUnderRoot, render]) List.nil_prefix
  · have hroot : (render r == [slash]) = false := by
      obtain ⟨c, r, rfl⟩ := List.exists_cons_of_ne_nil hne
      obtain ⟨b, c, rfl⟩ := List.exists_cons_of_ne_nil (hr c List.mem_cons_self).ne_nil
      rfl
    rw [← prefix_iff_render hr hl hne]
    unfold rpPathUnderRoot
    rw [hroot, Bool.false_or, Bool.and_eq_true, List.isPrefixOf_iff_prefix, Bool.or_eq_true,
      beq_iff_eq, beq_iff_eq]
    constructor
    · rintro ⟨⟨rest, hrest⟩, hend⟩
      rw [← hrest, List.drop_left] at hend
      exact ⟨rest, hrest.symm, hend⟩
    · rintro ⟨rest, heq, hend⟩
      rw [heq, List.drop_left]
      exact ⟨List.prefix_append _ _, hend⟩

/-! ## Reading -/

section

variable {f : Files}

/-- What reading resolves a path to. -/
theorem rpResolveReadPath_spec {p q : List UInt8} (hconf : f.unconfined = false)
    (h : rpResolveReadPath f p = some q) :
    ∃ r l, f.fs.realpath (f.fileRoot.getD []) = .ok (render r) ∧
      f.fs.resolve false (f.fileRoot.getD []) = .ok r ∧ q = render l ∧ Good r ∧ Good l ∧
      Clear f.fs.root l ∧ r <+: l := by
  unfold rpResolveReadPath at h
  rw [hconf, if_neg (by simp)] at h
  cases hroot : f.fs.realpath (f.fileRoot.getD []) with
  | error e =>
    rw [hroot] at h
    cases h
  | ok root =>
    rw [hroot] at h
    dsimp only at h
    obtain ⟨r, hr, rfl, hgood, -⟩ := Fs.realpath_ok hroot
    cases hres : f.fs.realpath (rpJoinPath (render r) p) with
    | error e =>
      rw [hres] at h
      cases h
    | ok resolved =>
      rw [hres] at h
      dsimp only at h
      obtain ⟨l, -, rfl, hl, hclear⟩ := Fs.realpath_ok hres
      split at h
      next hunder =>
        cases h
        exact ⟨r, l, rfl, hr, rfl, hgood, hl, hclear, (rpPathUnderRoot_iff hgood hl).mp hunder⟩
      next => cases h

/-- What is opened to read, or inspected, is below the root. -/
theorem openRead_below {p q : List UInt8} {l : Loc} (hconf : f.unconfined = false)
    (h : rpResolveReadPath f p = some q) (hl : f.openRead q = some l) : Below f l := by
  obtain ⟨r, l', -, hr, rfl, -, hgood, hclear, hpre⟩ := rpResolveReadPath_spec hconf h
  unfold Files.openRead at hl
  rw [Fs.resolve_render hgood hclear] at hl
  cases hl
  exact ⟨r, hr, hpre⟩

theorem openDir_below {p q : List UInt8} {l : Loc} {es : List (Name × Node)}
    (hconf : f.unconfined = false) (h : rpResolveReadPath f p = some q)
    (hl : f.openDir q = some (l, es)) : Below f l ∧ f.fs.root.get l = some (.dir es) := by
  obtain ⟨r, l', -, hr, rfl, -, hgood, hclear, hpre⟩ := rpResolveReadPath_spec hconf h
  unfold Files.openDir at hl
  rw [Fs.resolve_render hgood hclear] at hl
  obtain ⟨l'', hl'', hl⟩ := Option.bind_eq_some_iff.mp hl
  cases hl''
  split at hl
  next hes =>
    cases hl
    exact ⟨⟨r, hr, hpre⟩, hes⟩
  next => cases hl

/-! ## Writing -/

/-- The last part of a path is one name, or slashes only. -/
theorem rpSplitWritePath_spec {p dirPath basePath : List UInt8}
    (h : rpSplitWritePath p = some (dirPath, basePath)) :
    GoodName basePath ∨ basePath = [slash] := by
  unfold rpSplitWritePath at h
  dsimp only at h
  split at h
  next hb =>
    obtain ⟨-, rfl⟩ := Prod.mk.inj (Option.some.inj h)
    by_cases hslash : slash ∈ basename p
    · right
      unfold basename at hslash ⊢
      dsimp only at hslash ⊢
      split at hslash
      next => exact absurd hslash (by decide)
      next hne =>
        rw [if_neg hne]
        split at hslash
        next h0 => rw [if_pos h0]
        next => exact absurd (List.mem_rtakeWhile_imp hslash) (by simp)
    · exact .inl ⟨hb.1, hb.2.1, hb.2.2, hslash⟩
  next => cases h

/-- A new name in a directory: there is no link of that name. -/
theorem missing_name {d : Loc} {base : List UInt8} (hd : Good d) (hclear : Clear f.fs.root d)
    (hbase : GoodName base ∨ base = [slash])
    (hreal : f.fs.realpath (rpJoinPath (render d) base) = .error .enoent)
    (hlstat : f.fs.lstat (rpJoinPath (render d) base) = .error .enoent) :
    GoodName base ∧ ∃ es, f.fs.root.get d = some (.dir es) ∧ es.lookup base = none := by
  obtain ⟨m, hm, hlink⟩ := hclear
  rw [rpJoinPath_render hd] at hreal hlstat
  have hdir : m.isDir = true := by
    by_contra hno
    rw [Bool.not_eq_true] at hno
    obtain ⟨c, cs, hcs⟩ := List.exists_cons_of_ne_nil (components_ne_nil base)
    unfold Fs.realpath at hreal
    rw [Fs.resolve_below hd ⟨m, hm, hlink⟩, hcs, walk_file hm hlink hno] at hreal
    cases hreal
  obtain ⟨es, rfl⟩ : ∃ es, m = .dir es := by
    cases m with
    | dir es => exact ⟨es, rfl⟩
    | file _ => cases hdir
    | link _ => cases hdir
  rcases hbase with hbase | rfl
  · rw [Fs.lstat_below hd hm hlink hbase, if_pos hdir] at hlstat
    refine ⟨hbase, es, hm, ?_⟩
    show (Node.dir es).lookup base = none
    cases hentry : (Node.dir es).lookup base with
    | none => rfl
    | some n =>
      rw [hentry] at hlstat
      cases hlstat
  · -- Slashes only: that is the directory, which there is.
    unfold Fs.realpath at hreal
    rw [Fs.resolve_below hd ⟨_, hm, hlink⟩] at hreal
    rw [show components [slash] = [[], []] from rfl, walk_empty hm, walk_empty hm, walk_nil] at hreal
    cases hreal

/-- What writing resolves a path to, and the place that is then opened. -/
theorem rpResolveWritePath_spec {p q : List UInt8} {l : Loc} (hconf : f.unconfined = false)
    (h : rpResolveWritePath f p = some q) (hl : f.openWrite q = some l) :
    Below f l ∧ ∃ d c es, l = d ++ [c] ∧ f.fs.root.get d = some (.dir es) := by
  obtain ⟨⟨dirPath, basePath⟩, hsplit, h⟩ := Option.bind_eq_some_iff.mp h
  obtain ⟨resolvedDir, hdir, h⟩ := Option.bind_eq_some_iff.mp h
  obtain ⟨r, d, hroot, hr, rfl, hgood, hd, hclear, hpre⟩ := rpResolveReadPath_spec hconf hdir
  have hbase := rpSplitWritePath_spec hsplit
  dsimp only at h
  rw [hconf, if_neg (by simp), hroot] at h
  dsimp only at h
  cases hcand : f.fs.realpath (rpJoinPath (render d) basePath) with
  | ok target =>
    -- The file is there, and the path that is opened is its own.
    rw [hcand] at h
    dsimp only at h
    obtain ⟨t, -, rfl, ht, htclear⟩ := Fs.realpath_ok hcand
    split at h
    next hunder =>
      cases h
      unfold Files.openWrite at hl
      rw [Fs.resolve_render ht htclear] at hl
      obtain ⟨t', ht', hl⟩ := Option.bind_eq_some_iff.mp hl
      obtain rfl : t = t' := Option.some.inj ht'
      obtain ⟨m, hm, -⟩ := htclear
      split at hl
      next => cases hl
      next hfile =>
        cases hl
        refine ⟨⟨r, hr, (rpPathUnderRoot_iff hgood ht).mp hunder⟩, ?_⟩
        rcases List.eq_nil_or_concat l with rfl | ⟨d', c, rfl⟩
        · exact absurd rfl (hfile f.fs.entries)
        · rw [List.concat_eq_append] at hm ⊢
          obtain ⟨es, hes, -⟩ := get_concat hm
          exact ⟨d', c, es, rfl, hes⟩
    next => cases h
  | error e =>
    rw [hcand] at h
    cases e with
    | enoent =>
      dsimp only at h
      cases hlstat : f.fs.lstat (rpJoinPath (render d) basePath) with
      | ok m =>
        rw [hlstat] at h
        cases h
      | error e =>
        rw [hlstat] at h
        cases e with
        | enoent =>
          cases h
          obtain ⟨hname, es, hes, hnone⟩ := missing_name hd hclear hbase hcand hlstat
          unfold Files.openWrite at hl
          rw [rpJoinPath_render hd, Fs.resolve_below hd hclear, components_name hname.no_slash,
            walk_missing hes hname hnone] at hl
          obtain ⟨l', hl', hl⟩ := Option.bind_eq_some_iff.mp hl
          cases hl'
          split at hl
          next => cases hl
          next =>
            cases hl
            exact ⟨⟨r, hr, hpre.trans (List.prefix_append _ _)⟩, d, basePath, es, rfl, hes⟩
        | _ => cases h
    | _ => cases h

end

/-! ## Paths that are accepted -/

section

variable {f : Files} {r l : Loc} {p : List UInt8}

/-- A path that leads from the root to a place below it is resolved to that place. -/
theorem rpResolveReadPath_ok (hconf : f.unconfined = false)
    (hr : f.fs.resolve false (f.fileRoot.getD []) = .ok r) (hpre : r <+: l)
    (hwalk : walk f.fs.root false f.fs.maxLinks r (components p) = .ok l) :
    rpResolveReadPath f p = some (render l) := by
  obtain ⟨hgood, hclear | ⟨hno, -⟩⟩ := Fs.resolve_sound hr
  swap
  · cases hno
  have hres : f.fs.resolve false (rpJoinPath (render r) p) = .ok l := by
    rw [rpJoinPath_render hgood, Fs.resolve_below hgood hclear, hwalk]
  have hl := (Fs.resolve_sound hres).1
  have hroot : f.fs.realpath (f.fileRoot.getD []) = .ok (render r) := by
    rw [Fs.realpath, hr]
    rfl
  have hpath : f.fs.realpath (rpJoinPath (render r) p) = .ok (render l) := by
    rw [Fs.realpath, hres]
    rfl
  unfold rpResolveReadPath
  rw [hconf, if_neg (by simp), hroot]
  dsimp only
  rw [hpath]
  exact if_pos ((rpPathUnderRoot_iff hgood hl).mpr hpre)

theorem good_of_names (h : Good (names p)) : ∀ c ∈ components p, c ≠ [] → GoodName c :=
  fun c hc hne => h c (List.mem_filter.mpr ⟨hc, by simpa using hne⟩)

/-- A file below the root, spelled out: reading and writing get to it. -/
theorem file_accepted {content : List UInt8} (hconf : f.unconfined = false)
    (hr : f.fs.resolve false (f.fileRoot.getD []) = .ok r) (hgood : Good (names p))
    (hlast : (components p).getLast? ≠ some [])
    (hfile : f.fs.root.get (r ++ names p) = some (.file content)) :
    (∃ q, rpResolveReadPath f p = some q ∧ f.openRead q = some (r ++ names p)) ∧
    ∃ q, rpResolveWritePath f p = some q ∧ f.openWrite q = some (r ++ names p) := by
  have hrgood := (Fs.resolve_sound hr).1
  have hlgood : Good (r ++ names p) := hrgood.append hgood
  have hlclear : Clear f.fs.root (r ++ names p) := ⟨_, hfile, rfl⟩
  have hpre : r <+: r ++ names p := List.prefix_append _ _
  have hopen : ∀ create, f.fs.resolve create (render (r ++ names p)) = .ok (r ++ names p) := fun _ =>
    Fs.resolve_render hlgood hlclear
  refine ⟨⟨render (r ++ names p), ?_, ?_⟩, render (r ++ names p), ?_, ?_⟩
  · exact rpResolveReadPath_ok hconf hr hpre
      (walk_spelled (good_of_names hgood) hfile rfl (.inr hlast))
  · unfold Files.openRead
    rw [hopen]
    rfl
  · -- The directory is resolved first, then the file in it.
    obtain ⟨hbase, hnoslash, hparts⟩ := parts_of_path hlast
    obtain ⟨d, es, hnames, hes, hwalk⟩ : ∃ d es, names p = d ++ [basename p] ∧
        f.fs.root.get (r ++ d) = some (.dir es) ∧
        walk f.fs.root false f.fs.maxLinks r (components (dirname p)) = .ok (r ++ d) := by
      rcases hparts with ⟨hdot, hone⟩ | hparts
      · rw [hone] at hfile
        obtain ⟨es, hes, -⟩ := get_concat hfile
        rw [hdot, show components dot = [dot] from rfl]
        exact ⟨[], es, hone, by rwa [List.append_nil], by rw [List.append_nil]; exact walk_dot hes⟩
      · rw [hparts, ← List.append_assoc] at hfile
        obtain ⟨es, hes, -⟩ := get_concat hfile
        have hdir : Good (names (dirname p)) := fun c hc => hgood c (by rw [hparts]; simp [hc])
        exact ⟨names (dirname p), es, hparts, hes, walk_spelled (good_of_names hdir) hes rfl (.inl rfl)⟩
    have hname : GoodName (basename p) := hgood _ (by rw [hnames]; simp)
    have hsplit : rpSplitWritePath p = some (dirname p, basename p) :=
      if_pos ⟨hbase, hname.ne_dot, hname.ne_dotdot⟩
    have hdgood : Good (r ++ d) := hrgood.append fun c hc => hgood c (by rw [hnames]; simp [hc])
    have hone : Good [basename p] := fun c hc => List.mem_singleton.mp hc ▸ hname
    rw [hnames, ← List.append_assoc] at hlclear hlgood hpre ⊢
    have hcand : f.fs.realpath (rpJoinPath (render (r ++ d)) (basename p)) =
        .ok (render (r ++ d ++ [basename p])) := by
      unfold Fs.realpath
      rw [rpJoinPath_render hdgood, Fs.resolve_below hdgood ⟨_, hes, rfl⟩,
        components_name hname.no_slash, ← List.append_nil [basename p], walk_clear [] hone hlclear,
        walk_nil]
      rfl
    have hroot : f.fs.realpath (f.fileRoot.getD []) = .ok (render r) := by
      unfold Fs.realpath
      rw [hr]
      rfl
    unfold rpResolveWritePath
    rw [hsplit]
    show (rpResolveReadPath f (dirname p)).bind _ = _
    rw [rpResolveReadPath_ok hconf hr (List.prefix_append _ _) hwalk, Option.bind_some, hconf,
      if_neg (by simp), hroot]
    dsimp only
    rw [hcand]
    exact if_pos ((rpPathUnderRoot_iff hrgood hlgood).mpr hpre)
  · unfold Files.openWrite
    rw [hopen]
    simp only [Except.toOption, Option.bind_eq_bind, Option.bind_some, hfile]

end

/-! ## What the effects touch -/

section

variable {w : World} {os : Answers} {l : Loc}

theorem readFile_touched {fresh : Nat → UInt64} {garbage : Nat → UInt8} {a : Option CNat}
    (hconf : w.unconfined = false) (h : l ∈ (readFile fresh w os garbage a).touched) :
    Below w.toFiles l := by
  unfold readFile rpWantNat at h
  cases a with
  | none => simp [World.raises] at h
  | some v =>
    dsimp only at h
    cases hpath : rpResolveReadPath w.toFiles (rpNatPath v.1) with
    | none => simp [hpath, World.returns] at h
    | some path =>
      rw [hpath] at h
      dsimp only at h
      cases hopen : w.openRead path with
      | none => simp [hopen, World.returns] at h
      | some l' =>
        rw [hopen] at h
        dsimp only at h
        obtain rfl : l = l' := by
          split at h
          · simpa using h
          · split at h
            · simpa using h
            · split at h
              · simpa using h
              · split at h <;> simpa using h
        exact openRead_below hconf hpath hopen

theorem stamp_touched {a : Option CNat} (hconf : w.unconfined = false)
    (h : l ∈ (stamp w os a).touched) : Below w.toFiles l := by
  unfold stamp rpWantNat at h
  cases a with
  | none => simp [World.raises] at h
  | some v =>
    dsimp only at h
    cases hpath : rpResolveReadPath w.toFiles (rpNatPath v.1) with
    | none => simp [hpath, World.returns] at h
    | some path =>
      rw [hpath] at h
      dsimp only at h
      cases hopen : w.openRead path with
      | none => simp [hopen, World.returns] at h
      | some l' =>
        rw [hopen] at h
        dsimp only at h
        obtain rfl : l = l' := by
          split at h <;> simpa using h
        exact openRead_below hconf hpath hopen

theorem rplanReadBat_touched {fresh : Nat → UInt64} {room used : Nat} {v : CNat}
    (hconf : w.unconfined = false) (h : l ∈ (rplanReadBat fresh w os room used v).2) :
    Below w.toFiles l := by
  unfold rplanReadBat at h
  cases hpath : rpResolveReadPath w.toFiles (rpNatPath v.1) with
  | none => simp [hpath] at h
  | some path =>
    cases hopen : w.openRead path with
    | none => simp [hpath, hopen] at h
    | some l' =>
      obtain rfl : l = l' := by simpa [hpath, hopen] using h
      exact openRead_below hconf hpath hopen

/-- What a link in a folder below the root leads to. -/
def ThroughLink (f : Files) (l : Loc) : Prop :=
  ∃ d es c target, Below f d ∧ f.fs.root.get d = some (.dir es) ∧
    es.lookup c = some (.link target) ∧ rpFstatat f.fs d c = some l

/-- By the name of an entry that is no link nothing below it is left. -/
theorem rpFstatat_stays {f : Files} {d l : Loc} {es : List (Name × Node)} {c : Name}
    (hes : f.fs.root.get d = some (.dir es)) (hc : c ≠ dot ∧ c ≠ dotdot)
    (h : rpFstatat f.fs d c = some l) : d <+: l ∨ ∃ target, es.lookup c = some (.link target) := by
  obtain ⟨next, hnext⟩ := walk_eq_walkWith f.fs.root false f.fs.maxLinks
  rw [rpFstatat, hnext, walkWith_cons, hes] at h
  dsimp only at h
  by_cases hnil : c = []
  · rw [if_pos (.inl hnil)] at h
    cases h
    exact .inl List.prefix_rfl
  rw [if_neg (not_or.2 ⟨hnil, hc.1⟩), if_neg hc.2] at h
  cases hlook : es.lookup c with
  | none =>
    rw [hlook] at h
    cases h
  | some m =>
    rw [hlook] at h
    cases m with
    | link target => exact .inr ⟨target, rfl⟩
    | file _ =>
      cases h
      exact .inl (List.prefix_append _ _)
    | dir _ =>
      cases h
      exact .inl (List.prefix_append _ _)

/-- `ReadFolder` opens a folder below the root, and looks at what its entries lead to. -/
theorem rplanReadFolder_touched {fresh : Nat → UInt64} {room : Nat} {v : CNat}
    (hconf : w.unconfined = false) (h : l ∈ (rplanReadFolder fresh w os room v).2) :
    Below w.toFiles l ∨ ThroughLink w.toFiles l := by
  unfold rplanReadFolder at h
  cases hpath : rpResolveReadPath w.toFiles (rpNatPath v.1) with
  | none => simp [hpath] at h
  | some path =>
    rw [hpath] at h
    dsimp only at h
    cases hopen : w.openDir path with
    | none => simp [hopen] at h
    | some r =>
      obtain ⟨d, es⟩ := r
      rw [hopen] at h
      dsimp only at h
      obtain ⟨hbelow, hes⟩ := openDir_below hconf hpath hopen
      have hmem : l = d ∨ l ∈ (rpFolderItems w.fs d es).filterMap Prod.fst := by
        split at h
        · exact .inl (by simpa using h)
        · split at h
          · exact List.mem_cons.mp h
          · split at h <;> exact List.mem_cons.mp h
      rcases hmem with rfl | hmem
      · exact .inl hbelow
      · obtain ⟨item, hitem, hplace⟩ := List.mem_filterMap.mp hmem
        obtain ⟨e, he, rfl⟩ := List.mem_map.mp hitem
        have hname : e.1 ≠ dot ∧ e.1 ≠ dotdot := of_decide_eq_true (List.mem_filter.mp he).2
        obtain hin | ⟨target, hlink⟩ := rpFstatat_stays (f := w.toFiles) hes hname hplace
        · obtain ⟨r, hr, hpre⟩ := hbelow
          exact .inl ⟨r, hr, hpre.trans hin⟩
        · exact .inr ⟨d, es, e.1, target, hbelow, hes, hlink, hplace⟩

/-- Where `WriteFile` may write, and what it does to the files. -/
theorem writeFile_spec (a b : Option CNat) (hconf : w.unconfined = false) :
    ((writeFile w os a b).touched = [] ∧ (writeFile w os a b).world.fs = w.fs) ∨
    ∃ l d c es, (writeFile w os a b).touched = [l] ∧ Below w.toFiles l ∧ l = d ++ [c] ∧
      w.fs.root.get d = some (.dir es) ∧
      ((writeFile w os a b).world.fs = w.fs.write l [] ∨
        ∃ content, (writeFile w os a b).world.fs = (w.fs.write l []).write l content) := by
  cases a with
  | none => exact .inl ⟨rfl, rfl⟩
  | some v =>
    unfold writeFile
    simp only [rpWantNat]
    cases hpath : rpResolveWritePath w.toFiles (rpNatPath v.1) with
    | none => exact .inl ⟨rfl, rfl⟩
    | some path =>
      dsimp only
      cases hopen : w.openWrite path with
      | none => exact .inl ⟨rfl, rfl⟩
      | some l =>
        dsimp only
        cases hos : os.opens with
        | false => exact .inl ⟨rfl, rfl⟩
        | true =>
          obtain ⟨hbelow, d, c, es, rfl, hes⟩ := rpResolveWritePath_spec hconf hpath hopen
          refine .inr ⟨_, d, c, es, rfl, hbelow, rfl, hes, ?_⟩
          cases b with
          | none => exact .inl rfl
          | some v' =>
            right
            refine ⟨(writeAll os.writes (rpNatBytes v'.1 true)).2, ?_⟩
            dsimp only
            cases (writeAll os.writes (rpNatBytes v'.1 true)).1 <;> rfl

/-- Places elsewhere are as they were. -/
theorem writeFile_elsewhere (a b : Option CNat) (hconf : w.unconfined = false)
    (hl : ¬ Below w.toFiles l) : ((writeFile w os a b).world.fs.root.get l).map Node.kind =
      (w.fs.root.get l).map Node.kind := by
  rcases writeFile_spec a b hconf with ⟨-, hfs⟩ | ⟨t, d, c, es, -, hbelow, rfl, hes, hfs⟩
  · rw [hfs]
  · have hno : ¬ d ++ [c] <+: l := fun h => by
      obtain ⟨r, hr, hpre⟩ := hbelow
      exact hl ⟨r, hr, hpre.trans h⟩
    rcases hfs with hfs | ⟨content, hfs⟩
    · rw [hfs, get_write hes hno]
    · obtain ⟨es', hes'⟩ := @get_write_dir w.fs d c es [] hes
      rw [hfs, get_write hes' hno, get_write hes hno]

end

/-- What `ReadFile`, `Stamp`, `WriteFile` and `ReadBat` open, inspect or make on a path is below
the file root, and nothing elsewhere is written. So is the folder that `ReadFolder` opens; what
else it looks at is below the root, too, or what a link in that folder leads to. A path of
names that leads from the root to a file is accepted for reading and for writing, and leads to
that file. -/
theorem file_root_confines (env : Env) (w : World) (os : Answers) (arg : Nat → Option CNat)
    (hconf : w.unconfined = false) :
    (∀ e ∈ [Effect.readFile, .stamp, .writeFile], ∀ l ∈ (e.run env w os arg).touched,
      Below w.toFiles l) ∧
    (∀ room used v, ∀ l ∈ (rplanReadBat env.fresh w os room used v).2, Below w.toFiles l) ∧
    (∀ (v : CNat) q d es, rpResolveReadPath w.toFiles (rpNatPath v.1) = some q →
      w.openDir q = some (d, es) → Below w.toFiles d) ∧
    (∀ room v, ∀ l ∈ (rplanReadFolder env.fresh w os room v).2,
      Below w.toFiles l ∨ ThroughLink w.toFiles l) ∧
    (∀ l, ¬ Below w.toFiles l →
      ((Effect.writeFile.run env w os arg).world.fs.root.get l).map Node.kind =
        (w.fs.root.get l).map Node.kind) ∧
    (∀ (v : CNat) (r : Loc) (content : List UInt8),
      w.fs.resolve false (w.fileRoot.getD []) = .ok r → Good (names (rpNatPath v.1)) →
      (components (rpNatPath v.1)).getLast? ≠ some [] →
      w.fs.root.get (r ++ names (rpNatPath v.1)) = some (.file content) →
      (∃ q, rpResolveReadPath w.toFiles (rpNatPath v.1) = some q ∧
        w.openRead q = some (r ++ names (rpNatPath v.1))) ∧
      ∃ q, rpResolveWritePath w.toFiles (rpNatPath v.1) = some q ∧
        w.openWrite q = some (r ++ names (rpNatPath v.1))) := by
  refine ⟨fun e he l hl => ?_, fun _ _ _ _ hl => rplanReadBat_touched hconf hl,
    fun _ _ _ _ hpath hopen => (openDir_below hconf hpath hopen).1,
    fun _ _ _ hl => rplanReadFolder_touched hconf hl, fun l hl => ?_, fun v r content hr hgood hlast
      hfile => file_accepted hconf hr hgood hlast hfile⟩
  · simp only [List.mem_cons, List.not_mem_nil, or_false] at he
    rcases he with rfl | rfl | rfl
    · exact readFile_touched hconf hl
    · exact stamp_touched hconf hl
    · rcases writeFile_spec (arg 0) (arg 1) hconf with ⟨hnone, -⟩ | ⟨t, d, c, es, hone, hbelow, -⟩
      · rw [show (Effect.writeFile.run env w os arg).touched = [] from hnone] at hl
        cases hl
      · rw [show (Effect.writeFile.run env w os arg).touched = [t] from hone] at hl
        rw [List.mem_singleton.mp hl]
        exact hbelow
  · exact writeFile_elsewhere (arg 0) (arg 1) hconf hl

/-- A root `/j` with a file `a`, a link `x` to a directory outside, and a dangling link `y`. -/
def jail : World where
  fs :=
    { entries :=
        [([106], .dir [([97], .file [1]), ([120], .link [47, 101]), ([121], .link [47, 122])]),
          ([101], .dir [([112], .file [2])])]
      cwd := []
      maxLinks := 40
      cwd_good := fun _ hc => absurd hc List.not_mem_nil }
  fileRoot := some [47, 106]
  fds := []
  table := .initial

/-- An operating system where nothing happens. -/
def quiet : Answers where
  reads := []
  writes := []
  opens := true
  size := none
  mtime := none
  clock := none
  addresses := fun _ _ _ => .ok []
  socket := false
  setsockopt := false
  bindListen := false
  accept := false
  close := true
  lists := true

/-- The natural whose path is `a` is canonical. -/
theorem aCanonical : (NatVal.direct 97).Canonical := canonical_direct.2 (by decide)

/-- The path of the file `a`, and further arguments that are no naturals. -/
def fileA (i : Nat) : Option CNat := if i = 0 then some ⟨.direct 97, aCanonical⟩ else none

/-- The natural whose path is `.` is canonical. -/
theorem dotCanonical : (NatVal.direct 46).Canonical := canonical_direct.2 (by decide)

/-- Fresh memory is zero. -/
def blank : Env := ⟨fun _ => 0, fun _ => 0⟩

/-- The file is opened, by the place where it is, and nothing else is; a folder of links is
listed. -/
theorem file_root_confines_jail :
    (∀ l ∈ (Effect.readFile.run blank jail quiet fileA).touched, Below jail.toFiles l) ∧
      (Effect.readFile.run blank jail quiet fileA).touched = [[[106], [97]]] ∧
      (∀ l ∈ (rplanReadFolder blank.fresh jail quiet 16 ⟨.direct 46, dotCanonical⟩).2,
        Below jail.toFiles l ∨ ThroughLink jail.toFiles l) ∧
      ∃ q, rpResolveWritePath jail.toFiles [97] = some q ∧ jail.openWrite q = some [[106], [97]] := by
  have hpath : rpNatPath (.direct 97) = [97] := by decide +kernel
  have hgood : Good (names [97]) := fun c hc => by
    obtain rfl : c = [97] := by simpa using (show c ∈ [[97]] from hc)
    exact ⟨by decide, by decide, by decide, by decide⟩
  obtain ⟨hread, -, -, hfolder, -, haccept⟩ := file_root_confines blank jail quiet fileA rfl
  have hfile := haccept ⟨.direct 97, canonical_direct.2 (by decide)⟩ [[106]] [1]
  rw [hpath] at hfile
  exact ⟨hread _ List.mem_cons_self, by decide +kernel, hfolder 16 _, (hfile rfl hgood (by decide) rfl).2⟩

/-- What `ReadFolder` looks at on `.`: the root, the file in it, and the folder outside that the
link leads to. The dangling link leads nowhere. -/
theorem folder_places : (rplanReadFolder blank.fresh jail quiet 16 ⟨.direct 46, dotCanonical⟩).2 =
    [[[106]], [[106], [97]], [[101]]] := by
  decide +kernel

/-- The link leads out of the root. -/
theorem folder_looks_outside : ¬ ∀ (env : Env) (w : World) (os : Answers) (room : Nat) (v : CNat),
    w.unconfined = false → ∀ l ∈ (rplanReadFolder env.fresh w os room v).2, Below w.toFiles l := by
  intro h
  obtain ⟨r, hr, hpre⟩ := h blank jail quiet 16 ⟨.direct 46, dotCanonical⟩ rfl [[101]]
    (by rw [folder_places]; decide)
  obtain rfl : [[106]] = r := Except.ok.inj hr
  exact absurd hpre (by decide)

/-- The links out of the root are refused, with or without something behind them. -/
example : rpResolveReadPath jail.toFiles [120, 47, 112] = none ∧
    rpResolveWritePath jail.toFiles [120, 47, 112] = none ∧
    rpResolveWritePath jail.toFiles [121] = none ∧
    rpResolveWritePath jail.toFiles [98] = some [47, 106, 47, 98] := by
  decide +kernel

end Enki.Rplan
