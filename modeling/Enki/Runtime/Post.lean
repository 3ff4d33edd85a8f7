import Enki.Runtime.Step

/-!
# The actor runtime: mail and handles

The abstract side of messaging: who has which mail, which handles, what was
heard and what was accepted (`Post`), with the few ways it can change. Every step
of the runtime is one such change (`step_post`), whatever it does to queues,
workers and threads; that a step leaves all of it alone is `Quiet`.
-/

namespace Enki.Runtime

/-- What the runtime knows about messages and handles. -/
structure Post where
  mbox : Nat → List Msg
  handles : Nat → List (Option Nat)
  heard : Nat → List Msg
  accepted : List Sent
  next : Nat

namespace Post

/-- Actor `i` hears the first message of its mailbox, and gets its handles. -/
def recv (p : Post) (i : Nat) : Post :=
  match p.mbox i with
  | [] => p
  | m :: rest =>
    { p with
      mbox := Function.update p.mbox i rest
      handles := Function.update p.handles i (p.handles i ++ m.caps.map some)
      heard := Function.update p.heard i (p.heard i ++ [m]) }

/-- A message is accepted and queued. -/
def accept (p : Post) (s : Sent) : Post :=
  { p with
    mbox := Function.update p.mbox s.dest (p.mbox s.dest ++ [s.msg])
    accepted := p.accepted ++ [s] }

/-- A new actor. -/
def register (p : Post) : Post :=
  { p with
    mbox := Function.update p.mbox p.next []
    handles := Function.update p.handles p.next [some p.next]
    heard := Function.update p.heard p.next []
    next := p.next + 1 }

/-- Actor `i` gets a handle to `t`. -/
def alloc (p : Post) (i t : Nat) : Post :=
  { p with handles := Function.update p.handles i (p.handles i ++ [some t]) }

/-- Actor `i` closes handle `n`. -/
def close (p : Post) (i n : Nat) : Post :=
  { p with handles := Function.update p.handles i ((p.handles i).set n none) }

/-- Actor `i` has a live handle to `t`. -/
def holds (p : Post) (i t : Nat) : Prop := some t ∈ p.handles i

/-- A message that may be accepted: an injection carries no handles; an actor
sends to one it may send to, and passes on handles it has. -/
structure Justified (p : Post) (may : Nat → Nat → Prop) (s : Sent) : Prop where
  host : s.sender = none → s.msg.caps = [] ∧ s.dest < p.next
  actor : ∀ i, s.sender = some i → may i s.dest ∧ ∀ j ∈ s.msg.caps, p.holds i j

/-- The ways mail and handles change in one step. `may i d` is that actor `i` may
send to `d`. -/
inductive Change (p : Post) (may : Nat → Nat → Prop) : Post → Prop where
  | same : Change p may p
  | register : Change p may p.register
  | accept (s : Sent) : Justified p may s → Change p may (p.accept s)
  /-- The receiver was parked, and hears the message at once. -/
  | hear (s : Sent) : Justified p may s → Change p may ((p.accept s).recv s.dest)
  | recv (i : Nat) : Change p may (p.recv i)
  | close (i n : Nat) : Change p may (p.close i n)
  | spawn (i : Nat) : Change p may (p.register.alloc i p.next)

/-- The more an actor may send to, the more changes there are. -/
theorem Change.mono {p p' : Post} {may may' : Nat → Nat → Prop} (h : Change p may p')
    (hle : ∀ i d, may i d → may' i d) : Change p may' p' := by
  have hj : ∀ s, Justified p may s → Justified p may' s := fun s hs =>
    ⟨hs.host, fun i hi => ⟨hle _ _ (hs.actor i hi).1, (hs.actor i hi).2⟩⟩
  cases h with
  | same => exact .same
  | register => exact .register
  | accept s hs => exact .accept s (hj s hs)
  | hear s hs => exact .hear s (hj s hs)
  | recv i => exact .recv i
  | close i n => exact .close i n
  | spawn i => exact .spawn i

end Post

/-- The receiver a pending service has looked up. -/
def Pending.dest : Pending → Option Nat
  | .send d _ | .sendCaps d _ _ => some d
  | _ => none

namespace World

variable {w w' w'' : World}

/-- The mail and the handles of a state. -/
def post (w : World) : Post :=
  ⟨fun i => (w.actor i).mbox, fun i => (w.actor i).handles, fun i => (w.actor i).heard, w.accepted,
    w.next⟩

/-- A service of `i` has dropped the lock and still has `p` to do. -/
def Pends (w : World) (i : Nat) (p : Pending) : Prop :=
  .serving i p ∈ w.pool.map (·.pc) ∨ w.ctl = .mtServing i p

/-- Mail and handles stay as they are, and no service is begun. -/
structure Quiet (w w' : World) : Prop where
  post : w'.post = w.post
  pends : ∀ i p, w'.Pends i p → w.Pends i p

theorem Quiet.refl (w : World) : Quiet w w := ⟨rfl, fun _ _ => id⟩

theorem Quiet.trans (h : Quiet w w') (h' : Quiet w' w'') : Quiet w w'' :=
  ⟨h'.post.trans h.post, fun i p hp => h.pends i p (h'.pends i p hp)⟩

/-- Fields that neither mail nor pending services are made of. -/
theorem Quiet.of_eq (ha : w'.actor = w.actor) (hn : w'.next = w.next)
    (hacc : w'.accepted = w.accepted) (hp : w'.pool.map (·.pc) = w.pool.map (·.pc))
    (hc : ∀ r p, w'.ctl = .mtServing r p → w.ctl = .mtServing r p) : Quiet w w' := by
  refine ⟨?_, fun i p h => ?_⟩
  · unfold World.post
    rw [ha, hn, hacc]
  · rcases h with h | h
    · exact .inl (hp ▸ h)
    · exact .inr (hc i p h)

/-- Only fields changed that neither mail nor pending services are made of. -/
theorem Quiet.set_of (u : World) (h : Quiet w u) (ha : w'.actor = u.actor) (hn : w'.next = u.next)
    (hacc : w'.accepted = u.accepted) (hp : w'.pool.map (·.pc) = u.pool.map (·.pc))
    (hc : ∀ r p, w'.ctl = .mtServing r p → u.ctl = .mtServing r p) : Quiet w w' :=
  h.trans (.of_eq ha hn hacc hp hc)

/-- An assertion that fails leaves the pool as it is. -/
theorem worker_assume (c : Bool) (k : Nat) : (w.assume c).worker k = w.worker k := by
  unfold World.assume World.worker
  split <;> rfl

section Quiet

variable (h : Quiet w w')

include h

theorem Quiet.set (ha : w''.actor = w'.actor) (hn : w''.next = w'.next)
    (hacc : w''.accepted = w'.accepted) (hp : w''.pool.map (·.pc) = w'.pool.map (·.pc))
    (hc : ∀ r p, w''.ctl = .mtServing r p → w'.ctl = .mtServing r p) : Quiet w w'' :=
  h.trans (.of_eq ha hn hacc hp hc)

theorem Quiet.assume (c : Bool) : Quiet w (w'.assume c) := by
  unfold World.assume
  split
  · exact h
  · exact h.set rfl rfl rfl rfl fun _ _ => id

/-- An actor may change in everything but its mail and its handles. -/
theorem Quiet.modify (i : Nat) {f : Actor → Actor}
    (hm : (f (w'.actor i)).mbox = (w'.actor i).mbox)
    (hh : (f (w'.actor i)).handles = (w'.actor i).handles)
    (hd : (f (w'.actor i)).heard = (w'.actor i).heard) : Quiet w (w'.modify i f) := by
  refine h.trans ⟨?_, fun _ _ => id⟩
  -- the changed actor has the same mail, the others are the same
  have hact : ∀ j, ((w'.modify i f).actor j).mbox = (w'.actor j).mbox ∧
      ((w'.modify i f).actor j).handles = (w'.actor j).handles ∧
      ((w'.modify i f).actor j).heard = (w'.actor j).heard := by
    intro j
    unfold World.modify
    by_cases hj : j = i
    · subst hj
      simp [hm, hh, hd]
    · simp [Function.update_of_ne hj]
  unfold World.post
  congr 1
  · exact funext fun j => (hact j).1
  · exact funext fun j => (hact j).2.1
  · exact funext fun j => (hact j).2.2

/-- A worker changes, but not its place. -/
theorem Quiet.setWorker (k : Nat) (x : Worker) (hx : x.pc = (w'.worker k).pc) :
    Quiet w (w'.setWorker k x) := by
  refine h.set rfl rfl rfl ?_ fun _ _ => id
  unfold World.setWorker
  rw [List.map_set]
  refine List.ext_getElem? fun j => ?_
  rw [List.getElem?_set]
  split
  next hj =>
    subst hj
    split
    next hk =>
      have hk' : k < w'.pool.length := by simpa using hk
      rw [hx, World.worker, List.getElem?_map, List.getElem?_eq_getElem hk']
      simp [List.getD, hk']
    next hk =>
      rw [List.getElem?_eq_none (by simpa using hk)]
  next => rfl

/-- A worker goes to a place where it serves nobody. -/
theorem Quiet.setPc (k : Nat) {pc : Pc} (hpc : ∀ i p, pc ≠ .serving i p) :
    Quiet w (w'.setPc k pc) := by
  refine h.trans ⟨rfl, fun i p hp => ?_⟩
  rcases hp with hp | hp
  · unfold World.setPc World.setWorker at hp
    rw [List.map_set] at hp
    rcases List.mem_or_eq_of_mem_set hp with hp | hp
    · exact .inl hp
    · exact absurd hp.symm (hpc i p)
  · exact .inr hp

/-- Queues hold actors, and no mail. -/
theorem Quiet.enqueue (i : Nat) : Quiet w (w'.enqueue i) := by
  unfold World.enqueue
  cases (w'.actor i).owner with
  | none =>
    dsimp only
    split
    · exact h
    · exact h.set rfl rfl rfl rfl fun _ _ => id
  | some k =>
    have ha := h.assume (i ∉ w'.queue.dropLast)
    dsimp only
    split
    · exact ha
    · exact (ha.setWorker k { (w'.assume (i ∉ w'.queue.dropLast)).worker k with ready := true }
        rfl).set rfl rfl rfl rfl fun _ _ => id

theorem Quiet.deposit (i : Nat) (v : Val) : Quiet w (w'.deposit i v) :=
  (h.assume _).modify i rfl rfl rfl

theorem Quiet.resume (i : Nat) (v : Val) : Quiet w (w'.resume i v) :=
  ((h.deposit i v).modify i rfl rfl rfl).enqueue i

theorem Quiet.crash (i : Nat) : Quiet w (w'.crash i) := by
  refine Quiet.set_of (w'.modify i fun a => { a with status := .crashed }) ?_ rfl rfl rfl rfl
    fun _ _ => id
  exact h.modify i rfl rfl rfl

theorem Quiet.unwind (i : Nat) : Quiet w (w'.unwind i) :=
  (h.assume _).modify i rfl rfl rfl

theorem Quiet.runThread (i : Nat) : Quiet w (w'.runThread i) := h.assume _

theorem Quiet.stopThread (i : Nat) (s : RunStatus) : Quiet w (w'.stopThread i s) :=
  h.modify i rfl rfl rfl

theorem Quiet.park (i : Nat) : Quiet w (w'.park i) := by
  refine Quiet.set_of (w'.modify i fun a => { a with http := true, status := .blocked }) ?_ rfl
    rfl rfl rfl fun _ _ => id
  exact h.modify i rfl rfl rfl

theorem Quiet.dispatch (i : Nat) : Quiet w (w'.dispatch i) :=
  (h.park i).set rfl rfl rfl rfl fun _ _ => id

theorem Quiet.httpResume (i : Nat) (v : Val) : Quiet w (w'.httpResume i v) := by
  have hd := h.deposit i v
  unfold World.httpResume
  dsimp only
  split
  · refine Quiet.enqueue (Quiet.modify ?_ i rfl rfl rfl) i
    refine Quiet.set_of ((w'.deposit i v).modify i fun a => { a with http := false }) ?_ rfl rfl
      rfl rfl fun _ _ => id
    exact hd.modify i rfl rfl rfl
  · exact (hd.modify i rfl rfl rfl).enqueue i

theorem Quiet.unlinkInflight (i : Nat) : Quiet w (w'.unlinkInflight i) :=
  (h.assume (i ∈ w'.inflight)).set rfl rfl rfl rfl fun _ _ => id

/-- A finished transfer carries an answer to a request, which is no message. -/
theorem Quiet.harvest {hs : List (Nat × Val)} (hh : World.harvest hs w' = some w'') :
    Quiet w w'' := by
  induction hs generalizing w' with
  | nil =>
    cases hh
    exact h
  | cons x xs ih =>
    obtain ⟨w₁, h₁, hh⟩ := Option.bind_eq_some_iff.mp hh
    refine ih ?_ hh
    unfold World.harvest1 at h₁
    split at h₁
    · cases h₁
      exact (h.unlinkInflight x.1).set rfl rfl rfl rfl fun _ _ => id
    · cases h₁

theorem Quiet.depositHead : Quiet w w'.depositHead := by
  unfold World.depositHead
  split
  · exact h.assume _
  next i v rest _ =>
    refine Quiet.httpResume ?_ i v
    exact h.set rfl rfl rfl rfl fun _ _ => id

theorem Quiet.depositAll : Quiet w w'.depositAll := by
  unfold World.depositAll
  generalize w'.done = l
  induction l generalizing w' with
  | nil => exact h
  | cons x l ih => exact ih h.depositHead

/-- A worker that is promoted or new serves nobody. -/
theorem Quiet.promote : Quiet w w'.promote := by
  unfold World.promote
  split
  next k _ =>
    exact (h.setWorker k { w'.worker k with role := .general } rfl).set rfl rfl rfl rfl
      fun _ _ => id
  · refine h.trans ⟨rfl, fun i p hp => ?_⟩
    rcases hp with hp | hp
    · simp only [List.map_append, List.map_cons, List.map_nil, List.mem_append,
        List.mem_singleton] at hp
      rcases hp with hp | hp
      · exact .inl hp
      · cases hp
    · exact .inr hp

/-- Binding names an owner. -/
theorem Quiet.bind (k i : Nat) : Quiet w (w'.bind k i) := by
  unfold World.bind
  dsimp only
  split
  · exact h.assume _
  · refine Quiet.assume (Quiet.promote ?_) _
    refine Quiet.set_of (((w'.assume _).setWorker k
      { w'.worker k with role := .bound, actor := some i }).modify i fun a =>
        { a with owner := some k }) ?_ rfl rfl rfl rfl fun _ _ => id
    refine Quiet.modify (Quiet.setWorker (h.assume _) k _ ?_) i rfl rfl rfl
    -- the worker keeps its place
    rw [worker_assume]

theorem Quiet.release (k : Nat) : Quiet w (w'.release k) := by
  unfold World.release
  dsimp only
  split
  · exact h.assume _
  next i _ =>
    refine Quiet.setWorker ((h.assume _).modify i rfl rfl rfl) k _ ?_
    change _ = ((w'.assume _).worker k).pc
    rw [worker_assume]

theorem Quiet.maybeComplete : Quiet w w'.maybeComplete := by
  unfold World.maybeComplete
  split
  · exact h
  · exact h.set rfl rfl rfl rfl fun _ _ => id

end Quiet

/-! ## Operations on mail -/

/-- The mail becomes `p`, and no service is begun. -/
structure Posts (w : World) (p : Post) (w' : World) : Prop where
  post : w'.post = p
  pends : ∀ i q, w'.Pends i q → w.Pends i q

theorem Posts.quiet {p : Post} (h : Posts w p w') (h' : Quiet w' w'') : Posts w p w'' :=
  ⟨h'.post.trans h.post, fun i q hq => h.pends i q (h'.pends i q hq)⟩

theorem Quiet.posts (h : Quiet w w') : Posts w w.post w' := ⟨h.post, h.pends⟩

/-- The mail of one actor changes. -/
theorem post_modify (i : Nat) (f : Actor → Actor) : (w.modify i f).post =
    { w.post with
      mbox := Function.update w.post.mbox i (f (w.actor i)).mbox
      handles := Function.update w.post.handles i (f (w.actor i)).handles
      heard := Function.update w.post.heard i (f (w.actor i)).heard } := by
  unfold World.post World.modify
  congr 1
  all_goals
    funext j
    by_cases hj : j = i
    · subst hj
      simp
    · simp [Function.update_of_ne hj]

/-- The handles of one actor change. -/
theorem post_modify_handles (i : Nat) (f : Actor → Actor)
    (hm : (f (w.actor i)).mbox = (w.actor i).mbox)
    (hd : (f (w.actor i)).heard = (w.actor i).heard) : (w.modify i f).post =
    { w.post with handles := Function.update w.post.handles i (f (w.actor i)).handles } := by
  have hm' : Function.update w.post.mbox i (w.actor i).mbox = w.post.mbox :=
    Function.update_eq_self i w.post.mbox
  have hd' : Function.update w.post.heard i (w.actor i).heard = w.post.heard :=
    Function.update_eq_self i w.post.heard
  rw [post_modify, hm, hd, hm', hd']

/-- A receiver that is ready hears the first message of its mailbox, and gets the handles in it.
-/
theorem posts_recvReady (i : Nat) : Posts w (w.post.recv i) (w.recvReady i) := by
  unfold World.recvReady Post.recv
  change Posts w (match (w.actor i).mbox with
    | [] => w.post
    | m :: rest => _) _
  cases (w.actor i).mbox with
  -- the source asserts that there is one
  | nil => exact ((Quiet.refl w).assume _).posts
  | cons m rest =>
    dsimp only
    have hres := (Quiet.refl (w.modify i fun a =>
      { handleAlloc a m.caps with mbox := rest, heard := a.heard ++ [m] })).resume i
        (recvResponse (w.actor i) m)
    exact ⟨hres.post.trans (post_modify i _), hres.pends⟩

/-- The receiver of a message is parked on `Recv`. -/
def receiving (w : World) (d : Nat) : Prop :=
  (w.actor d).status = .blocked ∧ (w.actor d).http = false

instance (w : World) (d : Nat) : Decidable (w.receiving d) := by
  unfold receiving
  infer_instance

/-- A message that is accepted is queued, and heard at once by a receiver that is parked for it.
-/
theorem posts_accept (s : Sent) : Posts w
    (if w.receiving s.dest then (w.post.accept s).recv s.dest else w.post.accept s)
    (w.accept s.sender s.dest s.msg) := by
  obtain ⟨snd, d, m⟩ := s
  unfold World.accept World.deliver
  -- first it is queued
  have hpost : World.post (World.modify { w with accepted := w.accepted ++ [Sent.mk snd d m] } d
      fun a => { a with mbox := a.mbox ++ [m] }) = w.post.accept ⟨snd, d, m⟩ := by
    refine (post_modify d _).trans ?_
    unfold Post.accept World.post
    simp only [Post.mk.injEq, and_true, true_and]
    exact ⟨Function.update_eq_self d fun i => (w.actor i).handles,
      Function.update_eq_self d fun i => (w.actor i).heard⟩
  dsimp only
  by_cases hr : w.receiving d
  · rw [if_pos hr, if_pos (by simpa [World.modify, receiving] using hr), ← hpost]
    have := posts_recvReady (w := World.modify { w with accepted := w.accepted ++ [Sent.mk snd d m] }
      d fun a => { a with mbox := a.mbox ++ [m] }) d
    exact ⟨this.post, this.pends⟩
  · rw [if_neg hr, if_neg (by simpa [World.modify, receiving] using hr)]
    exact ⟨hpost, fun _ _ => id⟩

/-- A new actor has no mail, and a handle to itself. -/
theorem post_register (b : Bool) : (w.register b).post = w.post.register := by
  unfold World.register World.post Post.register
  congr 1
  all_goals
    funext j
    by_cases hj : j = w.next
    · subst hj
      simp
    · simp [Function.update_of_ne hj]

/-- The first call of an actor is a thread, not a message. -/
theorem quiet_start (h : Quiet w w') (i : Nat) (fn : Val) : Quiet w (w'.start i fn) :=
  ((h.assume _).modify i rfl rfl rfl).enqueue i

/-! ## Services -/

/-- A handle that is looked up is a live one. -/
theorem handleGet_mem {a : Actor} {h : Val} {d : Nat} (hd : handleGet a h = some d) :
    some d ∈ a.handles := by
  unfold handleGet at hd
  split at hd
  next n _ =>
    cases hn : a.handles[n]? with
    | none => simp [hn] at hd
    | some o =>
      rw [hn] at hd
      have ho : o = some d := by simpa using hd
      exact ho ▸ List.mem_of_getElem? hn
  next => cases hd

/-- So are all the handles of a row that is loaded, one entry after another. -/
theorem loadCap_mem {a : Actor} {es : List Val} {caps : List Nat} (h : loadCap a es = some caps) :
    ∀ j ∈ caps, some j ∈ a.handles := by
  induction es generalizing caps with
  | nil =>
    cases h
    simp
  | cons e es ih =>
    unfold loadCap at h
    split at h
    · exact ih h
    · split at h
      · cases h
      next t ht =>
        obtain ⟨cs, hcs, rfl⟩ := Option.map_eq_some_iff.mp h
        intro j hj
        rcases List.mem_cons.mp hj with rfl | hj
        · exact handleGet_mem ht
        · exact ih hcs j hj

/-- A row of handles, or no row at all. -/
theorem loadCaps_mem {a : Actor} {row : Val} {caps : List Nat} (h : loadCaps a row = some caps) :
    ∀ j ∈ caps, some j ∈ a.handles := by
  cases row with
  | app _ _ es => exact loadCap_mem h
  | _ =>
    cases h
    simp

/-- `er_service` up to the first hold of the lock. -/
theorem beginService_change (i : Nat) (req : Request) (may : Nat → Nat → Prop) :
    w.post.Change may (w.beginService i req).1.post ∧
    (∀ j q, (w.beginService i req).1.Pends j q → w.Pends j q) ∧
    ∀ p d, (w.beginService i req).2 = some p → p.dest = some d → w.post.holds i d := by
  -- a quiet request changes no mail
  have hq : ∀ {u : World}, Quiet w u → w.post.Change may u.post := fun h => h.post ▸ .same
  cases req with
  | recv =>
    simp only [beginService]
    split
    · have := (Quiet.refl w).modify i (f := fun a => { a with status := .blocked }) rfl rfl rfl
      exact ⟨hq this, this.pends, by simp⟩
    · have := posts_recvReady (w := w) i
      exact ⟨this.post ▸ .recv i, this.pends, by simp⟩
  | send h payload =>
    simp only [beginService]
    split
    · exact ⟨hq ((Quiet.refl w).crash i), ((Quiet.refl w).crash i).pends, by simp⟩
    -- the receiver is looked up by a live handle, and remembered
    next d hd =>
      refine ⟨.same, fun _ _ => id, fun p d' hp hd' => ?_⟩
      cases hp
      cases hd'
      exact handleGet_mem hd
  | sendCaps h payload row =>
    simp only [beginService]
    split
    · exact ⟨hq ((Quiet.refl w).crash i), ((Quiet.refl w).crash i).pends, by simp⟩
    next d hd =>
      refine ⟨.same, fun _ _ => id, fun p d' hp hd' => ?_⟩
      cases hp
      cases hd'
      exact handleGet_mem hd
  | spawn fn => exact ⟨.same, fun _ _ => id, by rintro p d ⟨⟩ ⟨⟩⟩
  | fetch rq cfg check =>
    cases check with
    | malformed =>
      exact ⟨hq ((Quiet.refl w).crash i), ((Quiet.refl w).crash i).pends, by simp [beginService]⟩
    | invalid code =>
      have := (Quiet.refl w).httpResume i (.app 0 (.nat 1) [.nat code])
      exact ⟨hq this, this.pends, by simp [beginService]⟩
    | sound =>
      simp only [beginService]
      split
      · exact ⟨hq ((Quiet.refl w).park i), ((Quiet.refl w).park i).pends, by simp⟩
      · split
        · exact ⟨.same, fun _ _ => id, by rintro p d ⟨⟩ ⟨⟩⟩
        · exact ⟨hq ((Quiet.refl w).dispatch i), ((Quiet.refl w).dispatch i).pends, by simp⟩
  | readBat path => exact ⟨.same, fun _ _ => id, by rintro p d ⟨⟩ ⟨⟩⟩
  | readFolder path => exact ⟨.same, fun _ _ => id, by rintro p d ⟨⟩ ⟨⟩⟩
  | sleep secs => exact ⟨.same, fun _ _ => id, by rintro p d ⟨⟩ ⟨⟩⟩
  | closeHandle h =>
    simp only [beginService]
    refine ⟨?_, ?_, by simp⟩
    · split
      -- closing is the one request that takes a handle away
      next n _ =>
        rw [((Quiet.refl _).resume i _).post, post_modify_handles i _ rfl rfl]
        exact .close i n
      · exact hq ((Quiet.refl w).resume i _)
    · intro j q
      split
      next n _ => exact ((Quiet.refl _).resume i _).pends j q
      · exact ((Quiet.refl w).resume i _).pends j q

/-- The rest of `er_service`. -/
theorem finishService_change (i : Nat) (v : Val) (p : Pending) (may : Nat → Nat → Prop)
    (hmay : ∀ d, p.dest = some d → may i d) :
    w.post.Change may (w.finishService i v p).post ∧
    ∀ j q, (w.finishService i v p).Pends j q → w.Pends j q := by
  -- Either kind of message is accepted in the same way, and its sender goes on.
  have hacc : ∀ s : Sent, w.post.Justified may s → ∀ v,
      w.post.Change may ((w.accept s.sender s.dest s.msg).resume i v).post ∧
      ∀ j q, ((w.accept s.sender s.dest s.msg).resume i v).Pends j q → w.Pends j q := by
    intro s hs v
    have := (posts_accept (w := w) s).quiet ((Quiet.refl _).resume i v)
    refine ⟨?_, this.pends⟩
    rw [this.post]
    split
    · exact .hear s hs
    · exact .accept s hs
  cases p with
  | send d payload =>
    refine hacc ⟨some i, d, ⟨payload, []⟩⟩ ⟨by simp, fun j hj => ?_⟩ _
    cases hj
    exact ⟨hmay d rfl, by simp⟩
  | sendCaps d payload row =>
    simp only [finishService]
    split
    · exact ⟨((Quiet.refl w).crash i).post ▸ .same, ((Quiet.refl w).crash i).pends⟩
    next caps hcaps =>
      refine hacc ⟨some i, d, ⟨payload, caps⟩⟩ ⟨by simp, fun j hj => ?_⟩ _
      cases hj
      exact ⟨hmay d rfl, loadCaps_mem hcaps⟩
  -- The new actor comes with a handle for its parent.
  | spawn fn =>
    simp only [finishService]
    have hst := quiet_start (Quiet.refl (w.register false)) w.next fn
    have hres := (Quiet.refl ((w.register false |>.start w.next fn).modify i fun a =>
      handleAlloc a [w.next])).resume i (.nat ((w.register false |>.start w.next fn).actor
        i).handles.length)
    refine ⟨?_, fun j q hj => ?_⟩
    · have hp := hst.post.trans (post_register false)
      rw [hres.post, post_modify_handles i _ rfl rfl, hp]
      have hh : (handleAlloc ((w.register false |>.start w.next fn).actor i) [w.next]).handles =
          w.post.register.handles i ++ [some w.next] :=
        congrArg (· ++ [some w.next]) (congrFun (congrArg Post.handles hp) i)
      rw [hh]
      exact .spawn i
    · have := hst.pends j q (hres.pends j q hj)
      exact this
  | fetch => exact ⟨((Quiet.refl w).dispatch i).post ▸ .same, ((Quiet.refl w).dispatch i).pends⟩
  | answer => exact ⟨((Quiet.refl w).resume i v).post ▸ .same, ((Quiet.refl w).resume i v).pends⟩
  | sleep => exact ⟨((Quiet.refl w).resume i _).post ▸ .same, ((Quiet.refl w).resume i _).pends⟩

/-- A service that drops the lock has done nothing yet. -/
theorem beginService_pending {i : Nat} {req : Request} {u : World} {p : Pending}
    (h : w.beginService i req = (u, some p)) : u = w := by
  cases req with
  | recv =>
    simp only [beginService] at h
    split at h <;> cases h
  -- a handle that is dead crashes the sender instead
  | send _ _ | sendCaps _ _ _ =>
    simp only [beginService] at h
    split at h
    · cases h
    · cases h
      rfl
  | spawn _ | readBat _ | readFolder _ | sleep _ =>
    cases h
    rfl
  | fetch _ _ check =>
    cases check with
    | malformed | invalid _ => cases h
    | sound =>
      simp only [beginService] at h
      split at h
      · cases h
      · split at h
        · cases h
          rfl
        · cases h
  | closeHandle _ => cases h

/-! ## Steps -/

/-- The actors `i` may send to: those it has a live handle of, and the one a
pending service of it has looked up. -/
def May (w : World) (i d : Nat) : Prop :=
  w.post.holds i d ∨ ∃ p, w.Pends i p ∧ p.dest = some d

/-- What a step does to mail, handles and pending services. -/
structure StepPost (w w' : World) : Prop where
  change : w.post.Change w.May w'.post
  pends : ∀ i p, w'.Pends i p → w.Pends i p ∨ ∀ d, p.dest = some d → w.post.holds i d

theorem Quiet.stepPost (h : Quiet w w') : StepPost w w' :=
  ⟨h.post ▸ .same, fun i p hp => .inl (h.pends i p hp)⟩

theorem StepPost.quiet (h : StepPost w w') (h' : Quiet w' w'') : StepPost w w'' :=
  ⟨h'.post ▸ h.change, fun i p hp => h.pends i p (h'.pends i p hp)⟩

/-- After a quiet beginning, a change of mail that begins no service. -/
theorem Quiet.stepPost_of (h : Quiet w w') {may : Nat → Nat → Prop}
    (hc : w'.post.Change may w''.post) (hmay : ∀ i d, may i d → w.May i d)
    (hp : ∀ i p, w''.Pends i p → w'.Pends i p) : StepPost w w'' :=
  ⟨h.post ▸ hc.mono hmay, fun i p hq => .inl (h.pends i p (hp i p hq))⟩

/-- `er_service` in one go. -/
theorem Quiet.service (h : Quiet w w') (i : Nat) (req : Request) (v : Val) :
    StepPost w (w'.service i req v) := by
  unfold World.service
  obtain ⟨hc, hp, hd⟩ := beginService_change (w := w') i req w.May
  split
  next u hu =>
    rw [hu] at hc hp
    exact h.stepPost_of hc (fun _ _ => id) hp
  next u p hu =>
    obtain rfl := beginService_pending hu
    rw [hu] at hd
    obtain ⟨hc', hp'⟩ := finishService_change (w := u) i v p w.May fun d hpd =>
      .inl (h.post ▸ hd p d rfl hpd)
    exact h.stepPost_of hc' (fun _ _ => id) hp'

/-- The second half of a service, when the caller is known to have it pending. -/
theorem Quiet.finishService (h : Quiet w w') {i : Nat} {p : Pending} (hpend : w.Pends i p)
    (v : Val) : StepPost w (w'.finishService i v p) := by
  obtain ⟨hc, hp⟩ := finishService_change (w := w') i v p w.May fun d hd =>
    .inr ⟨p, hpend, hd⟩
  exact h.stepPost_of hc (fun _ _ => id) hp

theorem Quiet.endSlice (h : Quiet w w') (i : Nat) (o : Outcome) : Quiet w (w'.endSlice i o) := by
  unfold World.endSlice
  cases o with
  | done => exact h.modify i rfl rfl rfl
  | exn => exact h.crash i
  | yielded | blocked _ => exact h.enqueue i

theorem Quiet.enterSlice (h : Quiet w w') (k i : Nat) : Quiet w (w'.enterSlice k i) := by
  refine Quiet.set_of ((w'.runThread i).setPc k (.slice i)) ?_ rfl rfl rfl rfl fun _ _ => id
  exact (h.runThread i).setPc k fun _ _ => by simp

theorem Quiet.dequeue {i : Nat} (h : Quiet w w') (hq : w'.dequeue = some (i, w'')) : Quiet w w'' := by
  unfold World.dequeue at hq
  split at hq
  · cases hq
  · cases hq
    exact h.set rfl rfl rfl rfl fun _ _ => id

theorem Quiet.dequeueSpawned {i : Nat} (h : Quiet w w') (hq : w'.dequeueSpawned = some (i, w'')) :
    Quiet w w'' := by
  unfold World.dequeueSpawned at hq
  split at hq
  · cases hq
  · cases hq
    exact h.set rfl rfl rfl rfl fun _ _ => id

/-- Taking an actor from a queue, releasing one and completing a run are no messages. -/
theorem workerTop_quiet {k : Nat} (h : w.workerTop k = some w') : Quiet w w' := by
  have hrefl := Quiet.refl w
  unfold World.workerTop at h
  dsimp only at h
  split at h
  · cases h
    exact hrefl.setPc k fun _ _ => by simp
  split at h
  · cases h
  split at h
  · split at h
    · cases h
      exact hrefl.assume _
    split at h
    · cases h
      exact hrefl.release k
    split at h
    · cases h
      exact hrefl.maybeComplete
    next i _ _ _ =>
      cases h
      refine Quiet.enterSlice ?_ k i
      refine Quiet.set_of ((w.assume _).setWorker k { w.worker k with ready := false }) ?_ rfl rfl rfl
        rfl fun _ _ => id
      exact (hrefl.assume _).setWorker k _ (by rw [worker_assume])
  · cases h
  · split at h
    · cases h
      exact Quiet.set (hrefl.setPc k fun _ _ => by simp) rfl rfl rfl rfl fun _ _ => id
    next i u hu =>
      cases h
      have hq : Quiet w u := by
        split at hu
        · exact hrefl.dequeue hu
        · exact hrefl.dequeueSpawned hu
      refine Quiet.enterSlice ?_ k i
      split
      · exact (hq.assume _).bind k i
      · exact hq.assume _

/-- The request of a slice is begun, and may be left pending in the worker. -/
theorem workerSliceEnd_post (k i : Nat) (o : Outcome) : StepPost w (w.workerSliceEnd k i o) := by
  have hrefl : Quiet w ((w.stopThread i o.status).setPc k (.after i)) :=
    ((Quiet.refl w).stopThread i _).setPc k fun _ _ => by simp
  unfold World.workerSliceEnd
  dsimp only
  cases o with
  | blocked req =>
    dsimp only
    obtain ⟨hc, hp, hd⟩ := beginService_change
      (w := (w.stopThread i (Outcome.blocked req).status).setPc k (.after i)) i req w.May
    split
    next u hu =>
      rw [hu] at hc hp
      exact hrefl.stepPost_of hc (fun _ _ => id) hp
    next u p hu =>
      obtain rfl := beginService_pending hu
      rw [hu] at hd
      refine ⟨hrefl.post ▸ .same, fun j q hq => ?_⟩
      -- what is pending afterwards was so before, or is this one
      rcases hq with hq | hq
      · unfold World.setPc World.setWorker at hq
        rw [List.map_set] at hq
        rcases List.mem_or_eq_of_mem_set hq with hq | hq
        · exact .inl (hrefl.pends j q (.inl hq))
        · cases hq
          exact .inr fun d hpd => hrefl.post ▸ hd p d rfl hpd
      · exact .inl (hrefl.pends j q (.inr hq))
  | yielded => exact (hrefl.endSlice i _).stepPost
  | done => exact (hrefl.endSlice i _).stepPost
  | exn => exact (hrefl.endSlice i _).stepPost

theorem workerEffect_quiet (k i : Nat) : Quiet w (w.workerEffect k i) := by
  have h : Quiet w (w.modify i fun a => { a with effectful := true }) :=
    (Quiet.refl w).modify i rfl rfl rfl
  unfold World.workerEffect
  dsimp only
  split
  · exact h
  · exact h.bind k i

theorem workerAfter_quiet (k i : Nat) : Quiet w (w.workerAfter k i) := by
  have h : Quiet w { w.setPc k .top with busyN := w.busyN - 1 } :=
    Quiet.set ((Quiet.refl w).setPc k fun _ _ => by simp) rfl rfl rfl rfl fun _ _ => id
  unfold World.workerAfter
  dsimp only
  split
  · exact (h.release k).maybeComplete
  · exact h.maybeComplete

theorem pumpTry_quiet (k : Nat) : Quiet w (w.pumpTry k) := by
  unfold World.pumpTry
  split
  · exact (Quiet.refl w).setPc k fun _ _ => by simp
  · exact Quiet.set ((Quiet.refl w).setPc k fun _ _ => by simp) rfl rfl rfl rfl fun _ _ => id

theorem pumpEnd_quiet {k : Nat} {hs : List (Nat × Val)} (h : w.pumpEnd k hs = some w') :
    Quiet w w' := by
  obtain ⟨u, hu, rfl⟩ := Option.map_eq_some_iff.mp h
  refine Quiet.depositAll (Quiet.harvest ?_ hu)
  exact Quiet.set ((Quiet.refl w).setPc k fun _ _ => by simp) rfl rfl rfl rfl fun _ _ => id

theorem workerPumped_quiet (k : Nat) : Quiet w (w.workerPumped k) := by
  refine Quiet.maybeComplete ?_
  exact Quiet.set ((Quiet.refl w).setPc k fun _ _ => by simp) rfl rfl rfl rfl fun _ _ => id

theorem detReturn_quiet (root : Option Nat) : Quiet w (w.detReturn root) := by
  unfold World.detReturn
  cases root with
  | none => exact (Quiet.refl w).set rfl rfl rfl rfl fun _ _ h => by cases h
  | some r => exact ((Quiet.refl w).unwind r).set rfl rfl rfl rfl fun _ _ h => by cases h

/-- Pumping answers and taking an actor from the queue. -/
theorem detTop_quiet {root : Option Nat} {hs : List (Nat × Val)}
    (h : w.detTop root hs = some w') : Quiet w w' := by
  obtain ⟨u, hu, rfl⟩ := Option.map_eq_some_iff.mp h
  have hq : Quiet w u := by
    unfold World.httpPump at hu
    split at hu
    · obtain ⟨u', hu', rfl⟩ := Option.map_eq_some_iff.mp hu
      have := (Quiet.refl w).harvest hu'
      split
      · exact this.depositAll
      · exact this
    · cases hu
      exact .refl w
  split
  · exact hq.set rfl rfl rfl rfl fun _ _ h => by cases h
  next i u' hd =>
    have hd' := hq.dequeue hd
    refine Quiet.set_of (World.runThread (if root = none then
      u'.assume (!(u'.actor i).adopted) else u') i) (Quiet.runThread ?_ i) rfl rfl rfl rfl
      fun _ _ h => by cases h
    split
    · exact hd'.assume _
    · exact hd'

/-- Waiting, or replaying an answer of the log. -/
theorem detIdle_quiet {root : Option Nat} {hs : List (Nat × Val)}
    (h : w.detIdle root hs = some w') : Quiet w w' := by
  have hrefl := Quiet.refl w
  unfold World.detIdle at h
  split at h
  · split at h
    · cases h
      exact detReturn_quiet root
    split at h
    · split at h
      · cases h
        exact ((hrefl.httpResume _ _).unlinkInflight _).set rfl rfl rfl rfl fun _ _ h => by cases h
      · cases h
    · cases h
  · split at h
    · cases h
      exact detReturn_quiet root
    obtain ⟨u, hu, h⟩ := Option.bind_eq_some_iff.mp h
    have hq := hrefl.harvest hu
    split at h
    · cases h
    · cases h
      refine Quiet.set_of (if w.mode = .live then u.depositAll else u.depositHead) ?_ rfl rfl rfl rfl
        fun _ _ h => by cases h
      split
      · exact hq.depositAll
      · exact hq.depositHead

/-- The single-threaded loop does a whole service in one step. -/
theorem detSliceEnd_post (root : Option Nat) (i : Nat) (o : Outcome) (v : Val) :
    StepPost w (w.detSliceEnd root i o v) := by
  have hrefl : Quiet w { w.stopThread i o.status with ctl := .detTop root } :=
    ((Quiet.refl w).stopThread i _).set rfl rfl rfl rfl fun _ _ h => by cases h
  unfold World.detSliceEnd
  dsimp only
  cases o with
  | blocked req =>
    dsimp only
    have hs := hrefl.service i req v
    split
    · exact hs.quiet (((Quiet.refl _).unwind i).set rfl rfl rfl rfl fun _ _ h => by cases h)
    · exact hs
  | yielded => exact (hrefl.enqueue i).stepPost
  | done =>
    dsimp only
    split
    · refine Quiet.stepPost ?_
      exact hrefl.set rfl rfl rfl rfl fun _ _ h => by cases h
    · exact (hrefl.endSlice i _).stepPost
  | exn =>
    dsimp only
    split
    · refine Quiet.stepPost ?_
      exact hrefl.set rfl rfl rfl rfl fun _ _ h => by cases h
    · exact (hrefl.endSlice i _).stepPost

theorem mtTop_quiet {r : Nat} (h : w.mtTop r = some w') : Quiet w w' := by
  unfold World.mtTop at h
  split at h
  · cases h
    exact ((Quiet.refl w).runThread r).set rfl rfl rfl rfl fun _ _ h => by cases h
  split at h
  · cases h
    exact (Quiet.refl w).set rfl rfl rfl rfl fun _ _ h => by cases h
  · cases h

theorem Quiet.mtServed (h : Quiet w w') (r : Nat) : Quiet w (w'.mtServed r) := by
  unfold World.mtServed
  split
  · exact (h.unwind r).set rfl rfl rfl rfl fun _ _ h => by cases h
  · exact h

/-- The root of a drive is served like any other actor; what is pending is kept by the
controller. -/
theorem mtSliceEnd_post (r : Nat) (o : Outcome) : StepPost w (w.mtSliceEnd r o) := by
  have hrefl : Quiet w { w.stopThread r o.status with ctl := .mtTop r } :=
    ((Quiet.refl w).stopThread r _).set rfl rfl rfl rfl fun _ _ h => by cases h
  unfold World.mtSliceEnd
  dsimp only
  cases o with
  | blocked req =>
    dsimp only
    obtain ⟨hc, hp, hd⟩ := beginService_change
      (w := { w.stopThread r (Outcome.blocked req).status with ctl := .mtTop r }) r req w.May
    split
    next u hu =>
      rw [hu] at hc hp
      exact (hrefl.stepPost_of hc (fun _ _ => id) hp).quiet ((Quiet.refl u).mtServed r)
    next u p hu =>
      obtain rfl := beginService_pending hu
      rw [hu] at hd
      refine ⟨hrefl.post ▸ .same, fun j q hq => ?_⟩
      rcases hq with hq | hq
      · exact .inl (hrefl.pends j q (.inl hq))
      · cases hq
        exact .inr fun d hpd => hrefl.post ▸ hd p d rfl hpd
  | yielded => exact (hrefl.modify r rfl rfl rfl).stepPost
  | done | exn =>
    refine Quiet.stepPost ?_
    exact hrefl.set rfl rfl rfl rfl fun _ _ h => by cases h

theorem mtCheck_quiet (r : Nat) : Quiet w (w.mtCheck r) := by
  unfold World.mtCheck
  split
  · exact ((Quiet.refl w).unwind r).set rfl rfl rfl rfl fun _ _ h => by cases h
  · exact (Quiet.refl w).set rfl rfl rfl rfl fun _ _ h => by cases h

theorem Quiet.detach (h : Quiet w w') (k : Nat) : Quiet w (w'.detach k) := by
  unfold World.detach
  dsimp only
  cases hx : (w'.worker k).actor with
  | none => exact h
  | some i =>
    dsimp only
    have ho : Quiet w ((w'.assume ((w'.actor i).owner = some k)).modify i fun a =>
        { a with owner := none }) := (h.assume _).modify i rfl rfl rfl
    have hw : ((w'.assume ((w'.actor i).owner = some k)).modify i fun a =>
        { a with owner := none }).worker k = w'.worker k := worker_assume (w := w') _ k
    generalize (w'.assume ((w'.actor i).owner = some k)).modify i (fun a =>
        { a with owner := none }) = u at ho hw ⊢
    -- The private queue is emptied, then the worker lets go of the actor.
    have hidle : ∀ u' : World, Quiet w u' → u'.worker k = w'.worker k →
        Quiet w (if ((u'.setWorker k { w'.worker k with actor := none, ready := false }).actor
          i).status = .runnable then
          (u'.setWorker k { w'.worker k with actor := none, ready := false }).enqueue i
          else u'.setWorker k { w'.worker k with actor := none, ready := false }) := by
      intro u' hu' hw'
      have hset := hu'.setWorker k { w'.worker k with actor := none, ready := false }
        (by rw [hw'])
      split
      · exact hset.enqueue i
      · exact hset
    by_cases hr : (w'.worker k).ready = true
    · simp only [hr, if_true] at hidle ⊢
      refine hidle _ ((ho.assume _).set rfl rfl rfl rfl fun _ _ => id) ?_
      exact (worker_assume _ k).trans hw
    · simp only [hr] at hidle ⊢
      exact hidle u ho hw

/-- Freeing the executor detaches every worker and forgets the pool. -/
theorem endFree_quiet : Quiet w w.endFree := by
  have hfold : ∀ (l : List Nat) (u : World), Quiet w u → Quiet w (l.foldl World.detach u) := by
    intro l
    induction l with
    | nil => exact fun u h => h
    | cons k l ih => exact fun u h => ih _ (h.detach k)
  unfold World.endFree
  refine Quiet.trans (hfold _ w (.refl w)) ⟨rfl, fun i p hp => ?_⟩
  -- nobody is served by an empty pool
  rcases hp with hp | hp
  · simp at hp
  · cases hp

/-- What the rest of a service of `i` accepts for delivery. -/
def pendingAccepts (w : World) (i : Nat) : Pending → List Sent
  | .send d payload => [⟨some i, d, ⟨payload, []⟩⟩]
  | .sendCaps d payload row =>
    match loadCaps (w.actor i) row with
    | some caps => [⟨some i, d, ⟨payload, caps⟩⟩]
    | none => []
  | _ => []

/-- What a service of `i` accepts when nothing else runs. -/
def requestAccepts (w : World) (i : Nat) : Request → List Sent
  | .send h payload =>
    match handleGet (w.actor i) h with
    | some d => w.pendingAccepts i (.send d payload)
    | none => []
  | .sendCaps h payload row =>
    match handleGet (w.actor i) h with
    | some d => w.pendingAccepts i (.sendCaps d payload row)
    | none => []
  | _ => []

/-- What a step accepts for delivery: an injection, or the message of a `Send` or
`SendCaps` whose handles are all live. -/
def accepts (w : World) : Event → List Sent
  | .inject i v => if w.terminated i then [] else [⟨none, i, ⟨v, []⟩⟩]
  | .detSliceEnd (.blocked req) _ =>
    match w.ctl with
    | .detSlice _ i => w.requestAccepts i req
    | _ => []
  | .served k _ =>
    match (w.worker k).pc with
    | .serving i p => w.pendingAccepts i p
    | _ => []
  | .mtServed _ =>
    match w.ctl with
    | .mtServing r p => w.pendingAccepts r p
    | _ => []
  | _ => []

/-- The steps that may change mail or handles; every other one is quiet. -/
inductive Mailing (w : World) : Event → World → Prop where
  | quiet {e : Event} {w' : World} : Quiet w w' → w.accepts e = [] → Mailing w e w'
  | inject (i : Nat) (v : Val) : i < w.next → Mailing w (.inject i v) (w.inject i v)
  | register {e : Event} (b : Bool) : w.accepts e = [] → Mailing w e (w.register b)
  | sliceEnd (k i : Nat) (o : Outcome) : Mailing w (.sliceEnd k o) (w.workerSliceEnd k i o)
  | served (k i : Nat) (p : Pending) (v : Val) : w.Pends i p → (w.worker k).pc = .serving i p →
      Mailing w (.served k v) ((w.setPc k (.after i)).finishService i v p)
  | detSliceEnd (root : Option Nat) (i : Nat) (o : Outcome) (v : Val) : w.ctl = .detSlice root i →
      Mailing w (.detSliceEnd o v) (w.detSliceEnd root i o v)
  | mtSliceEnd (r : Nat) (o : Outcome) : Mailing w (.mtSliceEnd o) (w.mtSliceEnd r o)
  | mtServed (r : Nat) (p : Pending) (v : Val) : w.ctl = .mtServing r p →
      Mailing w (.mtServed v) ((World.finishService { w with ctl := .mtTop r } r v p).mtServed r)

/-- Of a worker's steps only the end of a slice and the rest of a service touch mail. -/
theorem workerStep_mailing {e : Event} (h : w.workerStep e = some w') : Mailing w e w' := by
  -- a worker that serves has that service pending
  have hpend : ∀ {k i : Nat} {p : Pending} {r : Role} {a : Option Nat} {b : Bool},
      w.pool[k]? = some (Worker.mk r a b (.serving i p)) → w.Pends i p := by
    intro k i p r a b hk
    refine .inl (List.mem_map.mpr ⟨_, List.mem_of_getElem? hk, rfl⟩)
  cases e <;> simp only [World.workerStep] at h <;> try cases h
  case top k =>
    split at h
    · exact .quiet (workerTop_quiet h) rfl
    · cases h
  case effect k =>
    split at h
    · cases h
      exact .quiet (workerEffect_quiet k _) rfl
    · cases h
      exact .quiet (workerEffect_quiet k _) rfl
    · cases h
  case sliceEnd k o =>
    split at h
    · cases h
      exact .sliceEnd k _ o
    · cases h
  case served k v =>
    split at h
    next hk =>
      split at h
      · cases h
        exact .served k _ _ v (hpend hk) (by simp [worker, List.getD, hk])
      · cases h
    · cases h
  case after k =>
    split at h
    · cases h
      exact .quiet (workerAfter_quiet k _) rfl
    · cases h
  case pumpTry k =>
    split at h
    · cases h
      exact .quiet (pumpTry_quiet k) rfl
    · cases h
  case pumpEnd k hs =>
    split at h
    · exact .quiet (pumpEnd_quiet h) rfl
    · cases h
  case pumped k =>
    split at h
    · cases h
      exact .quiet (workerPumped_quiet k) rfl
    · cases h

/-- The same two for the controller, in either mode. -/
theorem ctlStep_mailing {e : Event} (h : w.ctlStep e = some w') : Mailing w e w' := by
  cases e <;> simp only [World.ctlStep] at h <;> try cases h
  case endFree =>
    split at h
    · cases h
      exact .quiet endFree_quiet rfl
    · cases h
  case detTop hs =>
    split at h
    · exact .quiet (detTop_quiet h) rfl
    · cases h
  case detIdle hs =>
    split at h
    · exact .quiet (detIdle_quiet h) rfl
    · cases h
  case detEffect =>
    split at h
    · cases h
      exact .quiet ((Quiet.refl w).modify _ rfl rfl rfl) rfl
    · cases h
  case detSliceEnd o v =>
    split at h
    · cases h
      exact .detSliceEnd _ _ o v (by assumption)
    · cases h
  case mtTop =>
    split at h
    · exact .quiet (mtTop_quiet h) rfl
    · cases h
  case mtEffect =>
    split at h
    · cases h
      exact .quiet ((Quiet.refl w).modify _ rfl rfl rfl) rfl
    · cases h
      exact .quiet ((Quiet.refl w).modify _ rfl rfl rfl) rfl
    · cases h
  case mtSliceEnd o =>
    split at h
    · cases h
      exact .mtSliceEnd _ o
    · cases h
  case mtServed v =>
    split at h
    next r p hc =>
      split at h
      · cases h
        exact .mtServed r p v hc
      · cases h
    · cases h
  case mtCheck =>
    split at h
    · cases h
      exact .quiet (mtCheck_quiet _) rfl
    · cases h
  case mtDone =>
    split at h
    · cases h
      refine .quiet ?_ rfl
      exact (Quiet.refl w).set rfl rfl rfl rfl fun _ _ h => by cases h
    · cases h
  case mtLeave =>
    split at h
    · split at h
      · cases h
        refine .quiet ?_ rfl
        exact (Quiet.refl w).set rfl rfl rfl rfl fun _ _ h => by cases h
      · cases h
    · cases h
  case mtRunReturn =>
    split at h
    · cases h
      refine .quiet ?_ rfl
      exact (Quiet.refl w).set rfl rfl rfl rfl fun _ _ h => by cases h
    · cases h

/-- The host registers actors, and its other calls leave mail alone. -/
theorem hostStep_mailing {e : Event} (h : w.hostStep e = some w') : Mailing w e w' := by
  have hrefl := Quiet.refl w
  cases e <;> simp only [World.hostStep] at h <;> try cases h
  case newActor => exact .register false rfl
  case adopt => exact .register true rfl
  case start i fn =>
    split at h
    · cases h
      exact .quiet (quiet_start hrefl i fn) rfl
    · cases h
  case arm i v =>
    split at h
    · cases h
      exact .quiet (hrefl.modify i rfl rfl rfl) rfl
    · cases h
  case setMode m =>
    split at h
    · cases h
      refine .quiet ?_ rfl
      exact hrefl.set rfl rfl rfl rfl fun _ _ => id
    · cases h
  case newExecutor n =>
    split at h
    · cases h
      refine .quiet ⟨rfl, fun i p hp => ?_⟩ rfl
      rcases hp with hp | hp
      · simp [World.newExecutor] at hp
      · exact .inr hp
    · cases h
  case beginFree =>
    split at h
    · cases h
      refine .quiet ?_ rfl
      exact (hrefl.assume _).set rfl rfl rfl rfl fun _ _ h => by cases h
    · cases h
  case callRun =>
    split at h
    · cases h
      refine .quiet ?_ rfl
      exact hrefl.set rfl rfl rfl rfl fun _ _ h => by cases h
    · cases h
  case callDrive r =>
    split at h
    · cases h
      refine .quiet (Quiet.enqueue (Quiet.modify ?_ r rfl rfl rfl) r) rfl
      exact hrefl.set rfl rfl rfl rfl fun _ _ h => by cases h
    · cases h
  case callMtRun =>
    split at h
    · cases h
      refine .quiet (Quiet.maybeComplete ?_) rfl
      exact (hrefl.assume _).set rfl rfl rfl rfl fun _ _ h => by cases h
    · cases h
  case callMtDrive r =>
    split at h
    · cases h
      refine .quiet ?_ rfl
      refine Quiet.set_of ((w.assume (!w.entered ∧ !w.running)).modify r fun a =>
        { a with status := .runnable }) ?_ rfl rfl rfl rfl fun _ _ h => by cases h
      exact (hrefl.assume _).modify r rfl rfl rfl
    · cases h

/-- What a step can do to mail and handles, by the code it runs. -/
theorem step_mailing {e : Event} (h : World.step e w = some w') : Mailing w e w' := by
  unfold World.step at h
  split at h
  case h_1 i v =>
    split at h
    next hi =>
      cases h
      exact .inject i v hi.1
    · cases h
  all_goals first
    | exact workerStep_mailing h
    | (split at h
       next => exact hostStep_mailing h
       next => cases h)
    | exact ctlStep_mailing h

/-- Every step changes mail and handles in one of the ways of `Post.Change`. -/
theorem step_post {e : Event} (h : World.step e w = some w') : StepPost w w' := by
  cases step_mailing h with
  | quiet h _ => exact h.stepPost
  | inject i v hi =>
    unfold World.inject
    split
    · exact (Quiet.refl w).stepPost
    · have := posts_accept (w := w) ⟨none, i, ⟨v, []⟩⟩
      refine ⟨?_, fun j q hq => .inl (this.pends j q hq)⟩
      -- an injection has no sender, and carries no handles
      have hj : w.post.Justified w.May ⟨none, i, ⟨v, []⟩⟩ := ⟨fun _ => ⟨rfl, hi⟩, by simp⟩
      rw [this.post]
      split
      · exact .hear _ hj
      · exact .accept _ hj
  | register b _ => exact ⟨post_register (w := w) b ▸ .register, fun _ _ => .inl⟩
  | sliceEnd k i o => exact workerSliceEnd_post k i o
  | served k i p v hp _ =>
    exact Quiet.finishService ((Quiet.refl w).setPc k fun _ _ => by simp) hp v
  | detSliceEnd root i o v _ => exact detSliceEnd_post root i o v
  | mtSliceEnd r o => exact mtSliceEnd_post r o
  | mtServed r p v hc =>
    have hq : Quiet w { w with ctl := .mtTop r } :=
      (Quiet.refl w).set rfl rfl rfl rfl fun _ _ h => by cases h
    exact (hq.finishService (.inr hc) v).quiet ((Quiet.refl _).mtServed r)

end World

end Enki.Runtime
