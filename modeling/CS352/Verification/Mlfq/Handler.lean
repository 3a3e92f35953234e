import CS352.Model.Mlfq.Handler
import CS352.Verification.Mlfq.Interrupts

/-! # When an interrupt inside `dequeue` loses a process

While `dequeue` unlinks the first process of a queue, the table is that of a shadow
kernel in which the process is still linked, with some entries overwritten. Handlers act
on the shadow and on the table alike, so the only thing that can go wrong is that the
local `oldNext` no longer is the successor of the process in the shadow. -/

namespace CS352.Mlfq

open Transition Function

variable {k : Kernel} {i : Level} {p x : ℕ} {xs : List ℕ} {me : Option ℕ} {chan : Chan}

/-! ## A process at the front of a queue -/

/-- The queues hold exactly the runnable processes, and queue `i` is `p :: xs`. -/
structure Front (k : Kernel) (i : Level) (p : ℕ) (xs : List ℕ) : Prop where
  sync : Sync (fun _ => False) k
  lane : ∃ L, Queues k L ∧ L i = p :: xs

theorem Front.runnable (h : Front k i p xs) : (k.proc p).state = .runnable := by
  obtain ⟨L, hL, hi⟩ := h.lane
  exact (h.sync.unlinkFront hL hi).2.1

theorem Front.prev_eq (h : Front k i p xs) : k.qtable.prev p = headQ i := by
  obtain ⟨L, hL, hi⟩ := h.lane
  exact hL.lanes.prev_of_cons hi

theorem Front.next_eq (h : Front k i p xs) : k.qtable.next p = xs.headD (tailQ i) := by
  obtain ⟨L, hL, hi⟩ := h.lane
  exact hL.lanes.next_of_cons hi

theorem Front.prev_tail_ne (h : Front k i p xs) (l : Level) :
    k.qtable.prev (tailQ l) ≠ headQ i := by
  obtain ⟨L, hL, hi⟩ := h.lane
  by_cases hl : l = i
  · subst l
    have hmem := hL.lanes.prev_tail_mem_of_ne_nil (i := i) (by simp [hi])
    exact ne_headQ (hL.bound i _ hmem) i
  · rcases List.mem_cons.mp (hL.lanes.prev_tail_mem l) with hhead | hmem
    · rw [hhead]
      exact fun heq => hl (sentinels.head_inj l i heq)
    · exact ne_headQ (hL.bound l _ hmem) i

theorem Sync.front (h : Sync (fun _ => False) k) (hne : k.qtable.next (headQ i) ≠ tailQ i) :
    ∃ xs, Front k i (k.qtable.next (headQ i)) xs := by
  obtain ⟨L, hL, _⟩ := h.queued
  cases hi : L i with
  | nil => exact absurd (hL.lanes.next_head_eq_tail_iff.mpr hi) hne
  | cons y ys =>
    have hy := hL.lanes.next_head_of_cons hi
    exact ⟨ys, h, L, hL, by rw [hi, hy]⟩

/-- A woken process joins the end of the queue that `enqueue` assigns. -/
theorem Front.makeRunnable (h : Front k i p xs) (hx : x < nproc)
    (hs : (k.proc x).state ≠ .runnable) :
    Front (makeRunnable k x) i p
      (xs ++ if assignedLevel (k.proc x) = i then [x] else []) := by
  refine ⟨h.sync.makeRunnable hx hs, ?_⟩
  obtain ⟨L, hL, hi⟩ := h.lane
  have hfresh : ∀ j, x ∉ L j := by
    intro j hj
    obtain ⟨L', hL', hmem⟩ := h.sync.queued
    obtain rfl := hL'.toWellFormed.unique hL.toWellFormed
    exact hs ((hmem x hx).mp ⟨j, hj⟩).1
  have hset : Queues (k.setProc x { k.proc x with state := .runnable }) L := by
    refine hL.congr rfl ?_
    intro j y hy
    have hyx : y ≠ x := fun hyx => hfresh j (hyx ▸ hy)
    simp [hyx]
  have hnew := hset.enqueue hx hfresh
  rw [Mlfq.makeRunnable, ensureQueue_of_setup _ (by simpa using h.sync.setup)]
  refine ⟨_, hnew, ?_⟩
  have hlevel : assignedLevel ((k.setProc x { k.proc x with state := .runnable }).proc x) =
      assignedLevel (k.proc x) := by
    simp only [setProc_proc, update_self]
    rfl
  rw [hlevel]
  by_cases hl : assignedLevel (k.proc x) = i
  · subst i
    simp [hi]
  · rw [update_of_ne (Ne.symm hl), hi]
    simp [hl]

/-! ## Handlers and overwritten tables -/

/-- The kernel with `T` applied to its table. -/
def onTable (T : QTable → QTable) (k : Kernel) : Kernel := { k with qtable := T k.qtable }

/-- `T` does not interfere with appending a process while `p` is at the front of
queue `i`. -/
def Commutes (T : QTable → QTable) (i : Level) (p : ℕ) : Prop :=
  ∀ k xs, Front k i p xs → ∀ x < nproc, x ≠ p → ∀ l,
    T (appendTo k.qtable x l) = appendTo (T k.qtable) x l

theorem makeRunnable_onTable {T : QTable → QTable} (hset : k.isQueueSetup = true)
    (hT : T (appendTo k.qtable x (assignedLevel (k.proc x))) =
      appendTo (T k.qtable) x (assignedLevel (k.proc x))) :
    makeRunnable (onTable T k) x = onTable T (makeRunnable k x) := by
  have hlevel : assignedLevel { k.proc x with state := .runnable } = assignedLevel (k.proc x) := rfl
  rw [makeRunnable, makeRunnable, ensureQueue_of_setup _ (by simpa [onTable] using hset),
    ensureQueue_of_setup _ (by simpa using hset), enqueue_eq, enqueue_eq]
  simp only [insertInto, onTable, Kernel.setProc, Kernel.record, update_self, hlevel, hT]

/-- `wakeup(chan)` wakes `x`. -/
def Woken (k : Kernel) (me : Option ℕ) (chan : Chan) (x : ℕ) : Prop :=
  me ≠ some x ∧ (k.proc x).state = .sleeping ∧ (k.proc x).chan = chan

instance : Decidable (Woken k me chan x) := inferInstanceAs (Decidable (_ ∧ _))

/-- The body of the loop in `wakeup`. -/
def wakeOne (me : Option ℕ) (chan : Chan) (k : Kernel) (x : ℕ) : Kernel :=
  if Woken k me chan x then makeRunnable k x else k

theorem wakeup_eq_foldl (k : Kernel) (me : Option ℕ) (chan : Chan) :
    wakeup k me chan = (List.range nproc).foldl (wakeOne me chan) k := rfl

theorem wakeOne_of_not (h : ¬ Woken k me chan x) : wakeOne me chan k x = k := if_neg h

theorem wakeOne_of_woken (h : Woken k me chan x) : wakeOne me chan k x = makeRunnable k x :=
  if_pos h

/-- What the loop of `wakeup` over `zs` does while `p` is at the front of queue `i`: the
queue grows at its end, by nothing exactly when no woken process is assigned to it, and an
overwritten table follows. -/
theorem Front.wakeOne_foldl {zs : List ℕ} (h : Front k i p xs) (me : Option ℕ) (chan : Chan)
    (hnodup : zs.Nodup) (hlt : ∀ z ∈ zs, z < nproc) :
    ∃ ys, Front (zs.foldl (wakeOne me chan) k) i p (xs ++ ys) ∧
      (ys = [] ↔ ∀ x ∈ zs, Woken k me chan x → assignedLevel (k.proc x) ≠ i) ∧
      ∀ T, Commutes T i p →
        zs.foldl (wakeOne me chan) (onTable T k) = onTable T (zs.foldl (wakeOne me chan) k) := by
  induction zs generalizing k xs with
  | nil => exact ⟨[], by simpa using h, by simp, fun _ _ => rfl⟩
  | cons z zs ih =>
    obtain ⟨hz, hnodup⟩ := List.nodup_cons.mp hnodup
    have hltz : z < nproc := hlt z (by simp)
    have hlt' : ∀ y ∈ zs, y < nproc := fun y hy => hlt y (by simp [hy])
    by_cases hw : Woken k me chan z
    · have hsleep : (k.proc z).state ≠ .runnable := by simp [hw.2.1]
      have hzp : z ≠ p := by
        rintro rfl
        exact hsleep h.runnable
      obtain ⟨ys, hfront, hys, hT⟩ := ih (h.makeRunnable hltz hsleep) hnodup hlt'
      refine ⟨_, by rw [List.foldl_cons, wakeOne_of_woken hw, ← List.append_assoc]; exact hfront,
        ?_, ?_⟩
      · -- The other processes are as they were before `z` woke.
        have hother : ∀ y ∈ zs, (Mlfq.makeRunnable k z).proc y = k.proc y := by
          intro y hy
          have hyz : y ≠ z := fun hyz => hz (hyz ▸ hy)
          simp [hyz]
        rw [List.append_eq_nil_iff, hys, List.forall_mem_cons]
        refine and_congr ?_ (forall₂_congr fun y hy => ?_)
        · by_cases hl : assignedLevel (k.proc z) = i <;> simp [hl, hw]
        · simp only [Woken, hother y hy]
      · intro T hcomm
        have hrun := makeRunnable_onTable h.sync.setup
          (hcomm k xs h z hltz hzp (assignedLevel (k.proc z)))
        have hwT : Woken (onTable T k) me chan z := hw
        rw [List.foldl_cons, List.foldl_cons, wakeOne_of_woken hw, wakeOne_of_woken hwT, hrun,
          hT T hcomm]
    · obtain ⟨ys, hfront, hys, hT⟩ := ih h hnodup hlt'
      refine ⟨ys, by rwa [List.foldl_cons, wakeOne_of_not hw], ?_, ?_⟩
      · rw [hys, List.forall_mem_cons]
        simp [hw]
      · intro T hcomm
        have hwT : ¬ Woken (onTable T k) me chan z := hw
        rw [List.foldl_cons, List.foldl_cons, wakeOne_of_not hw, wakeOne_of_not hwT, hT T hcomm]

theorem Front.wakeup (h : Front k i p xs) (me : Option ℕ) (chan : Chan) :
    ∃ ys, Front (wakeup k me chan) i p (xs ++ ys) ∧
      (ys = [] ↔ ∀ x < nproc, Woken k me chan x → assignedLevel (k.proc x) ≠ i) ∧
      ∀ T, Commutes T i p → wakeup (onTable T k) me chan = onTable T (wakeup k me chan) := by
  have hloop := h.wakeOne_foldl me chan List.nodup_range fun z hz => List.mem_range.mp hz
  simpa only [List.mem_range, wakeup_eq_foldl] using hloop

/-! ## The tables inside `removeFromQueue` -/

/-- After `qtable[pindex].queue = EMPTY`. -/
def mark (p : ℕ) (q : QTable) : QTable := q.setQueue p empty

/-- After `qtable[oldPrev].next = oldNext` as well, where `oldPrev` is the head. -/
def bypass (i : Level) (p oldNext : ℕ) (q : QTable) : QTable :=
  (mark p q).setNext (headQ i) oldNext

theorem commutes_mark (i : Level) (p : ℕ) : Commutes (mark p) i p := by
  intro k xs _ x _ hxp l
  simp only [mark, appendTo, QTable.setQueue, QTable.setPrev, QTable.setNext,
    update_comm hxp]

theorem commutes_bypass (i : Level) (p oldNext : ℕ) : Commutes (bypass i p oldNext) i p := by
  intro k xs h x hx hxp l
  simp only [bypass, mark, appendTo, QTable.setQueue, QTable.setPrev, QTable.setNext,
    update_comm hxp, update_comm (ne_headQ hx i),
    update_comm (h.prev_tail_ne l)]

/-- `k` is a kernel with `p` at the front of queue `i`, with `T` applied to its table. -/
def Shadowed (T : QTable → QTable) (k : Kernel) (i : Level) (p : ℕ) (xs : List ℕ) : Prop :=
  ∃ k₀, Front k₀ i p xs ∧ k = onTable T k₀

theorem Shadowed.wakeup {T : QTable → QTable} (h : Shadowed T k i p xs) (hT : Commutes T i p)
    (me : Option ℕ) (chan : Chan) :
    ∃ ys, Shadowed T (wakeup k me chan) i p (xs ++ ys) ∧
      (ys = [] ↔ ∀ x < nproc, Woken k me chan x → assignedLevel (k.proc x) ≠ i) := by
  obtain ⟨k₀, hfront, rfl⟩ := h
  obtain ⟨ys, hnew, hys, hcomm⟩ := hfront.wakeup me chan
  exact ⟨ys, ⟨_, hnew, hcomm T hT⟩, hys⟩

theorem Shadowed.bound {T : QTable → QTable} (h : Shadowed T k i p xs) :
    ∀ x ∈ xs, x < nproc := by
  obtain ⟨k₀, hfront, -⟩ := h
  obtain ⟨L, hL, hi⟩ := hfront.lane
  exact fun x hx => hL.bound i x (by simp [hi, hx])

/-- With the current successor in `oldNext` the two writes unlink the process. -/
theorem Front.unlink (h : Front k i p xs) :
    Sync (fun y => y = p)
      { onTable (bypass i p (xs.headD (tailQ i))) k with
        qtable := (bypass i p (xs.headD (tailQ i)) k.qtable).setPrev (xs.headD (tailQ i))
          (headQ i) } := by
  obtain ⟨L, hL, hi⟩ := h.lane
  have hunlink := (h.sync.unlinkFront hL hi).2.2.2
  have htable : removeFromQueue k.qtable p =
      (bypass i p (xs.headD (tailQ i)) k.qtable).setPrev (xs.headD (tailQ i)) (headQ i) := by
    simp only [removeFromQueue, bypass, mark, QTable.setQueue_prev, QTable.setQueue_next,
      h.prev_eq, h.next_eq]
  rw [← htable]
  exact hunlink.of_iff (by simp)

/-! ## Lost processes -/

/-- `y` is runnable but on no queue, and it is not the process `p` that `dequeue` has
taken off. -/
structure Lost (k : Kernel) (p y : ℕ) : Prop where
  setup : k.isQueueSetup = true
  ne : y ≠ p
  lt : y < nproc
  runnable : (k.proc y).state = .runnable
  awake : (k.proc p).state ≠ .sleeping
  lanes : ∃ L, WellFormed k.qtable L ∧ (∀ j, ∀ x ∈ L j, (k.proc x).state = .runnable) ∧
    (∀ j, p ∉ L j) ∧ ∀ j, y ∉ L j

variable {y : ℕ}

theorem Lost.makeRunnable (h : Lost k p y) (hx : x < nproc) (hs : (k.proc x).state = .sleeping) :
    Lost (makeRunnable k x) p y := by
  obtain ⟨hsetup, hne, hlt, hrun, hawake, L, hL, hmem, hp, hy⟩ := h
  have hxp : p ≠ x := by
    rintro rfl
    exact hawake hs
  have hxy : y ≠ x := by
    rintro rfl
    simp [hs] at hrun
  have hfresh : ∀ j, x ∉ L j := by
    intro j hj
    simp [hmem j x hj] at hs
  have hready := ensureQueue_of_setup (k.setProc x { k.proc x with state := .runnable })
    (by simpa using hsetup)
  refine ⟨?_, hne, hlt, by simp [hxy, hrun], by simp [hxp, hawake], ?_⟩
  · rw [Mlfq.makeRunnable, hready]
    simp [hsetup]
  · generalize hl : assignedLevel
      ((k.setProc x { k.proc x with state := .runnable }).proc x) = l
    have hkeep : ∀ z, z ≠ x → (∀ j, z ∉ L j) →
        ∀ j, z ∉ update L l (L l ++ [x]) j := by
      intro z hzx hz j hj
      rcases mem_update_append.mp ⟨j, hj⟩ with ⟨j', hj'⟩ | hzx'
      · exact hz j' hj'
      · exact hzx hzx'
    refine ⟨update L l (L l ++ [x]), ?_, ?_, hkeep p hxp hp, hkeep y hxy hy⟩
    · rw [Mlfq.makeRunnable, hready, enqueue_qtable, hl]
      exact hL.appendTo hx hfresh l
    · intro j z hz
      by_cases hzx : z = x
      · simp [hzx]
      · rcases mem_update_append.mp ⟨j, hz⟩ with ⟨j', hj'⟩ | hzx'
        · simpa [hzx] using hmem j' z hj'
        · exact absurd hzx' hzx

theorem Lost.wakeup (h : Lost k p y) (me : Option ℕ) (chan : Chan) :
    Lost (wakeup k me chan) p y := by
  rw [wakeup_eq_foldl]
  have hlt : ∀ z ∈ List.range nproc, z < nproc := fun z hz => List.mem_range.mp hz
  generalize List.range nproc = zs at hlt
  induction zs generalizing k with
  | nil => exact h
  | cons z zs ih =>
    refine ih ?_ fun w hw => hlt w (by simp [hw])
    by_cases hw : Woken k me chan z
    · rw [wakeOne_of_woken hw]
      exact h.makeRunnable (hlt z (by simp)) hw.2.1
    · rwa [wakeOne_of_not hw]

theorem Lost.markRunning (h : Lost k p y) : Lost (markRunning k p) p y := by
  obtain ⟨hsetup, hne, hlt, hrun, hawake, L, hL, hmem, hp, hy⟩ := h
  refine ⟨hsetup, hne, hlt, by simp [Mlfq.markRunning, hne, hrun],
    by simp [Mlfq.markRunning], L, hL, ?_, hp, hy⟩
  intro j x hx
  have hxp : x ≠ p := fun hxp => hp j (hxp ▸ hx)
  simpa [Mlfq.markRunning, hxp] using hmem j x hx

/-- With the tail still in `oldNext` although the queue has grown, the two writes empty
the queue. -/
theorem Front.lost (h : Front k i p (y :: xs)) :
    Lost { onTable (bypass i p (tailQ i)) k with
      qtable := (bypass i p (tailQ i) k.qtable).setPrev (tailQ i) (headQ i) } p y := by
  obtain ⟨L, hL, hi⟩ := h.lane
  have hrun : ∀ j, ∀ x ∈ L j, (k.proc x).state = .runnable := by
    intro j x hx
    obtain ⟨L', hL', hmem⟩ := h.sync.queued
    obtain rfl := hL'.toWellFormed.unique hL.toWellFormed
    exact ((hmem x (hL.bound j x hx)).mp ⟨j, hx⟩).1
  have hsub : ∀ j, ∀ x ∈ update L i [] j, j ≠ i ∧ x ∈ L j := by
    intro j x hx
    by_cases hj : j = i
    · subst j
      simp at hx
    · exact ⟨hj, by simpa [hj] using hx⟩
  have hgone : ∀ x ∈ L i, ∀ j, x ∉ update L i [] j := by
    intro x hx j hj
    obtain ⟨hji, hxj⟩ := hsub j x hj
    exact hL.lanes.disjoint j i hji hxj hx
  have hnodup := hL.lanes.nodup i
  rw [hi] at hnodup
  have hpi : p ∈ L i := by simp [hi]
  have hyi : y ∈ L i := by simp [hi]
  refine ⟨h.sync.setup, by grind, hL.bound i y hyi, hrun i y hyi,
    by simp [onTable, h.runnable], update L i [], ⟨?_, ?_⟩, ?_, hgone p hpi, hgone y hyi⟩
  · exact hL.lanes.clear sentinels i
  · exact fun j x hx => hL.bound j x (hsub j x hx).2
  · exact fun j x hx => hrun j x (hsub j x hx).2

/-! ## Right and wrong turns -/

/-- What the context switch needs: well-formed queues with every runnable process but
`p` on exactly one of them. -/
def SwitchesCleanly (k : Kernel) (p : ℕ) : Prop :=
  ∃ L, Queues k L ∧
    ∀ x < nproc, x ≠ p → (k.proc x).state = .runnable → ∃! j, x ∈ L j

theorem Sync.switchesCleanly (h : Sync (fun _ => False) k) (p : ℕ) : SwitchesCleanly k p := by
  obtain ⟨L, hL, hmem⟩ := h.queued
  refine ⟨L, hL, ?_⟩
  intro x hx _ hrun
  exact hL.toWellFormed.existsUnique ((hmem x hx).mpr ⟨hrun, not_false⟩)

theorem Lost.not_switchesCleanly (h : Lost k p y) : ¬ SwitchesCleanly k p := by
  rintro ⟨L', hL', hall⟩
  obtain ⟨L, hL, -, -, hy⟩ := h.lanes
  obtain rfl := hL.unique hL'.toWellFormed
  obtain ⟨j, hj, -⟩ := hall y h.lt h.ne h.runnable
  exact hy j hj

/-- So far nothing is lost. -/
def OnTrack (s : DequeueState) : Prop :=
  match s.pc with
  | .test _ | .returned | .setProc _ | .swtch _ => Sync (fun _ => False) s.kernel
  | .choose i => ∃ p xs, Front s.kernel i p xs
  | .setQueue p => ∃ i xs, Front s.kernel i p xs
  | .readPrev p => ∃ i xs, Shadowed (mark p) s.kernel i p xs
  | .readNext p oldPrev => ∃ i xs, Shadowed (mark p) s.kernel i p xs ∧ oldPrev = headQ i
  | .writeNext p oldPrev oldNext => ∃ i xs, Shadowed (mark p) s.kernel i p xs ∧
      oldPrev = headQ i ∧ oldNext = xs.headD (tailQ i)
  | .writePrev p oldPrev oldNext => ∃ i xs, Shadowed (bypass i p oldNext) s.kernel i p xs ∧
      oldPrev = headQ i ∧ oldNext = xs.headD (tailQ i)
  | .clearProc p | .intrOn p | .acquire p | .setState p => Sync (fun y => y = p) s.kernel

/-- A process is lost, or will be by the remaining writes of `removeFromQueue`. -/
def Astray (s : DequeueState) : Prop :=
  match s.pc with
  | .writeNext p oldPrev oldNext => ∃ i y xs, Shadowed (mark p) s.kernel i p (y :: xs) ∧
      oldPrev = headQ i ∧ oldNext = tailQ i
  | .writePrev p oldPrev oldNext => ∃ i y xs, Shadowed (bypass i p oldNext) s.kernel i p (y :: xs) ∧
      oldPrev = headQ i ∧ oldNext = tailQ i
  | .clearProc p | .intrOn p | .acquire p | .setState p | .setProc p | .swtch p =>
    ∃ y, Lost s.kernel p y
  | _ => False

/-- The local `oldNext`, from its read to the last write of `removeFromQueue`. -/
def DequeuePc.window : DequeuePc → Option ℕ
  | .writeNext _ _ oldNext | .writePrev _ _ oldNext => some oldNext
  | _ => none

/-- An interrupt in the window wakes no process that `enqueue` puts on the queue whose
tail `oldNext` is. -/
def WakesElsewhere (s : DequeueState) : DequeueAction → Prop
  | .step => True
  | .interrupt chan => ∀ oldNext ∈ s.pc.window, ∀ i, oldNext = tailQ i →
      ∀ x < nproc, Woken s.kernel s.cpu chan x → assignedLevel (s.kernel.proc x) ≠ i

instance (s : DequeueState) : (a : DequeueAction) → Decidable (WakesElsewhere s a)
  | .step => instDecidableTrue
  | .interrupt chan => inferInstanceAs (Decidable (∀ oldNext ∈ s.pc.window, ∀ i, _ →
      ∀ x < nproc, Woken s.kernel s.cpu chan x → assignedLevel (s.kernel.proc x) ≠ i))

variable {s s' : DequeueState}

theorem OnTrack.step (h : OnTrack s) (hs : dequeueStep s .step = some s') : OnTrack s' := by
  obtain ⟨k, cpu, hart, pc⟩ := s
  cases pc with
  | test i =>
    obtain rfl := Option.some.inj hs
    simp only [OnTrack] at h ⊢
    by_cases hne : k.qtable.next (headQ i) ≠ tailQ i
    · simp only [if_pos hne]
      obtain ⟨xs, hfront⟩ := h.front hne
      exact ⟨_, xs, hfront⟩
    · simp only [if_neg hne]
      fin_cases i <;> exact h
  | choose i =>
    obtain rfl := Option.some.inj hs
    obtain ⟨p, xs, hfront⟩ := h
    obtain ⟨L, hL, hi⟩ := hfront.lane
    refine ⟨i, xs, ?_⟩
    rw [hL.lanes.next_head_of_cons hi]
    exact hfront
  | setQueue p =>
    obtain rfl := Option.some.inj hs
    obtain ⟨i, xs, hfront⟩ := h
    exact ⟨i, xs, k, hfront, rfl⟩
  | readPrev p =>
    obtain rfl := Option.some.inj hs
    obtain ⟨i, xs, hshadow⟩ := h
    refine ⟨i, xs, hshadow, ?_⟩
    obtain ⟨k₀, hfront, rfl⟩ := hshadow
    exact hfront.prev_eq
  | readNext p oldPrev =>
    obtain rfl := Option.some.inj hs
    obtain ⟨i, xs, hshadow, hprev⟩ := h
    refine ⟨i, xs, hshadow, hprev, ?_⟩
    obtain ⟨k₀, hfront, rfl⟩ := hshadow
    exact hfront.next_eq
  | writeNext p oldPrev oldNext =>
    obtain rfl := Option.some.inj hs
    obtain ⟨i, xs, ⟨k₀, hfront, rfl⟩, rfl, hnext⟩ := h
    exact ⟨i, xs, ⟨k₀, hfront, rfl⟩, rfl, hnext⟩
  | writePrev p oldPrev oldNext =>
    obtain rfl := Option.some.inj hs
    obtain ⟨i, xs, ⟨k₀, hfront, rfl⟩, rfl, rfl⟩ := h
    exact hfront.unlink
  | clearProc p | intrOn p | acquire p =>
    obtain rfl := Option.some.inj hs
    exact h
  | setState p =>
    obtain rfl := Option.some.inj hs
    exact (Sync.markRunning h rfl).of_iff (by simp)
  | setProc p =>
    obtain rfl := Option.some.inj hs
    exact h
  | swtch p | returned => cases hs

theorem Astray.step (h : Astray s) (hs : dequeueStep s .step = some s') : Astray s' := by
  obtain ⟨k, cpu, hart, pc⟩ := s
  cases pc with
  | test | choose | setQueue | readPrev | readNext | returned => exact h.elim
  | writeNext p oldPrev oldNext =>
    obtain rfl := Option.some.inj hs
    obtain ⟨i, y, xs, ⟨k₀, hfront, rfl⟩, rfl, rfl⟩ := h
    exact ⟨i, y, xs, ⟨k₀, hfront, rfl⟩, rfl, rfl⟩
  | writePrev p oldPrev oldNext =>
    obtain rfl := Option.some.inj hs
    obtain ⟨i, y, xs, ⟨k₀, hfront, rfl⟩, rfl, rfl⟩ := h
    exact ⟨y, hfront.lost⟩
  | clearProc p | intrOn p | acquire p | setProc p =>
    obtain rfl := Option.some.inj hs
    exact h
  | setState p =>
    obtain rfl := Option.some.inj hs
    obtain ⟨y, hlost⟩ := h
    exact ⟨y, hlost.markRunning⟩
  | swtch p => cases hs

/-- A handler inside the window either leaves `oldNext` the successor of the process, or
makes the queue grow behind it. -/
theorem Shadowed.window {T : QTable → QTable} (h : Shadowed T k i p xs) (hT : Commutes T i p)
    {oldNext : ℕ} (hnext : oldNext = xs.headD (tailQ i)) (me : Option ℕ) (chan : Chan) :
    ((∀ j, oldNext = tailQ j → ∀ x < nproc, Woken k me chan x → assignedLevel (k.proc x) ≠ j) ∧
      ∃ xs', Shadowed T (Mlfq.wakeup k me chan) i p xs' ∧ oldNext = xs'.headD (tailQ i)) ∨
    (¬ (∀ j, oldNext = tailQ j → ∀ x < nproc, Woken k me chan x → assignedLevel (k.proc x) ≠ j) ∧
      ∃ y xs', Shadowed T (Mlfq.wakeup k me chan) i p (y :: xs') ∧ oldNext = tailQ i) := by
  obtain ⟨ys, hnew, hys⟩ := h.wakeup hT me chan
  cases xs with
  | cons z zs =>
    -- The successor is a process, so `oldNext` is no tail.
    have hz : z < nproc := h.bound z (by simp)
    refine .inl ⟨?_, z :: zs ++ ys, hnew, hnext⟩
    intro j hj
    exact absurd (hnext.symm.trans hj) (ne_tailQ hz j)
  | nil =>
    obtain rfl : oldNext = tailQ i := hnext
    cases ys with
    | nil =>
      refine .inl ⟨?_, [], hnew, rfl⟩
      intro j hj
      obtain rfl := sentinels.tail_inj i j hj
      exact hys.mp rfl
    | cons y ys =>
      refine .inr ⟨?_, y, ys, hnew, rfl⟩
      intro hall
      simpa using hys.mpr (hall i rfl)

/-- What a handler does to the kernel, at every position of `dequeue` that is on track. -/
theorem OnTrack.wakeup {k : Kernel} {cpu : Option ℕ} {hart : Hart} {pc : DequeuePc}
    (h : OnTrack ⟨k, cpu, hart, pc⟩) (chan : Chan) :
    (WakesElsewhere ⟨k, cpu, hart, pc⟩ (.interrupt chan) ∧
        OnTrack ⟨wakeup k cpu chan, cpu, hart, pc⟩) ∨
      (¬ WakesElsewhere ⟨k, cpu, hart, pc⟩ (.interrupt chan) ∧
        Astray ⟨wakeup k cpu chan, cpu, hart, pc⟩) := by
  have hup := wakeup_updates k cpu chan
  cases pc with
  | test | returned | setProc | swtch | clearProc | intrOn | acquire | setState =>
    simp only [OnTrack] at h
    refine .inl ⟨by simp [WakesElsewhere, DequeuePc.window], ?_⟩
    simp only [OnTrack]
    exact h.updates hup
  | choose i =>
    obtain ⟨p, xs, hfront⟩ := h
    obtain ⟨ys, hnew, -⟩ := hfront.wakeup cpu chan
    refine .inl ⟨by simp [WakesElsewhere, DequeuePc.window], ?_⟩
    simp only [OnTrack]
    exact ⟨p, _, hnew⟩
  | setQueue p =>
    obtain ⟨i, xs, hfront⟩ := h
    obtain ⟨ys, hnew, -⟩ := hfront.wakeup cpu chan
    refine .inl ⟨by simp [WakesElsewhere, DequeuePc.window], ?_⟩
    simp only [OnTrack]
    exact ⟨i, _, hnew⟩
  | readPrev p =>
    obtain ⟨i, xs, hshadow⟩ := h
    obtain ⟨ys, hnew, -⟩ := hshadow.wakeup (commutes_mark i p) cpu chan
    refine .inl ⟨by simp [WakesElsewhere, DequeuePc.window], ?_⟩
    simp only [OnTrack]
    exact ⟨i, _, hnew⟩
  | readNext p oldPrev =>
    obtain ⟨i, xs, hshadow, hprev⟩ := h
    obtain ⟨ys, hnew, -⟩ := hshadow.wakeup (commutes_mark i p) cpu chan
    refine .inl ⟨by simp [WakesElsewhere, DequeuePc.window], ?_⟩
    simp only [OnTrack]
    exact ⟨i, _, hnew, hprev⟩
  | writeNext p oldPrev oldNext =>
    obtain ⟨i, xs, hshadow, hprev, hnext⟩ := h
    simp only [OnTrack, Astray, WakesElsewhere, DequeuePc.window, Option.mem_def,
      Option.some.injEq, forall_eq']
    rcases hshadow.window (commutes_mark i p) hnext cpu chan with
      ⟨hcond, xs', hnew, hnext'⟩ | ⟨hcond, y, xs', hnew, hnext'⟩
    · exact .inl ⟨hcond, i, xs', hnew, hprev, hnext'⟩
    · exact .inr ⟨hcond, i, y, xs', hnew, hprev, hnext'⟩
  | writePrev p oldPrev oldNext =>
    obtain ⟨i, xs, hshadow, hprev, hnext⟩ := h
    simp only [OnTrack, Astray, WakesElsewhere, DequeuePc.window, Option.mem_def,
      Option.some.injEq, forall_eq']
    rcases hshadow.window (commutes_bypass i p oldNext) hnext cpu chan with
      ⟨hcond, xs', hnew, hnext'⟩ | ⟨hcond, y, xs', hnew, hnext'⟩
    · exact .inl ⟨hcond, i, xs', hnew, hprev, hnext'⟩
    · exact .inr ⟨hcond, i, y, xs', hnew, hprev, hnext'⟩

theorem Astray.wakeup {k : Kernel} {cpu : Option ℕ} {hart : Hart} {pc : DequeuePc}
    (h : Astray ⟨k, cpu, hart, pc⟩) (chan : Chan) :
    Astray ⟨wakeup k cpu chan, cpu, hart, pc⟩ := by
  cases pc with
  | test | choose | setQueue | readPrev | readNext | returned => exact h.elim
  | writeNext p oldPrev oldNext =>
    obtain ⟨i, y, xs, hshadow, hrest⟩ := h
    obtain ⟨ys, hnew, -⟩ := hshadow.wakeup (commutes_mark i p) cpu chan
    simp only [Astray]
    exact ⟨i, y, xs ++ ys, hnew, hrest⟩
  | writePrev p oldPrev oldNext =>
    obtain ⟨i, y, xs, hshadow, hrest⟩ := h
    obtain ⟨ys, hnew, -⟩ := hshadow.wakeup (commutes_bypass i p oldNext) cpu chan
    simp only [Astray]
    exact ⟨i, y, xs ++ ys, hnew, hrest⟩
  | clearProc | intrOn | acquire | setState | setProc | swtch =>
    obtain ⟨y, hlost⟩ := h
    simp only [Astray]
    exact ⟨y, hlost.wakeup cpu chan⟩

/-! ## Main result -/

theorem OnTrack.dequeueStep {a : DequeueAction} (h : OnTrack s)
    (hs : dequeueStep s a = some s') :
    (WakesElsewhere s a ∧ OnTrack s') ∨ (¬ WakesElsewhere s a ∧ Astray s') := by
  cases a with
  | step => exact .inl ⟨trivial, h.step hs⟩
  | interrupt chan =>
    obtain ⟨-, hs⟩ := Option.ite_none_right_eq_some.mp hs
    obtain rfl := Option.some.inj hs
    exact h.wakeup chan

theorem Astray.dequeueStep {a : DequeueAction} (h : Astray s)
    (hs : dequeueStep s a = some s') : Astray s' := by
  cases a with
  | step => exact h.step hs
  | interrupt chan =>
    obtain ⟨-, hs⟩ := Option.ite_none_right_eq_some.mp hs
    obtain rfl := Option.some.inj hs
    exact h.wakeup chan

/-- For every kernel with exact queues, every interrupt state and every interleaving of
`dequeue` with handlers that reaches the context switch, the queues are clean there if and
only if no handler in the window of `removeFromQueue` wakes a process onto the queue of
which the chosen process was the only member. -/
theorem dequeue_switchesCleanly_iff {k : Kernel} (hk : Sync (fun _ => False) k) (h : Hart)
    (as : List DequeueAction) {s : DequeueState} {p : ℕ}
    (hrun : exec dequeueStep (callDequeue k h) as = some s) (hpc : s.pc = .swtch p) :
    SwitchesCleanly s.kernel p ↔ Along dequeueStep WakesElsewhere (callDequeue k h) as := by
  have hstart : OnTrack (callDequeue k h) := hk
  have hend := exec_along (C := WakesElsewhere) (G := OnTrack) (B := Astray)
    (fun u a v hu hc hs => ((hu.dequeueStep hs).resolve_right fun hn => hn.1 hc).2)
    (fun u a v hu hc hs => ((hu.dequeueStep hs).resolve_left fun hn => hc hn.1).2)
    (fun u a v hu hs => hu.dequeueStep hs) hstart hrun
  rcases hend with ⟨halong, htrack⟩ | ⟨halong, hastray⟩
  · simp only [OnTrack, hpc] at htrack
    exact iff_of_true (htrack.switchesCleanly p) halong
  · simp only [Astray, hpc] at hastray
    obtain ⟨y, hlost⟩ := hastray
    exact iff_of_false hlost.not_switchesCleanly halong

/-- A child waits alone on its queue, the first process sleeps until the next tick, and
interrupts are on. -/
def oneQueued : HartState := (exec hartStep bootState childQueued).getD bootState

theorem sync_oneQueued : Sync (fun _ => False) oneQueued.machine.kernel := by
  have hrun : (exec (fun s a => if CpuExitsEnabled s a then hartStep s a else none) bootState
      childQueued).isSome = true := by decide +kernel
  obtain ⟨s, hs⟩ := Option.isSome_iff_exists.mp hrun
  have hinv := reachWhere_hartInv booted_bootState (reachWhere_of_exec hs)
  rw [oneQueued, (along_of_exec hs).1]
  exact hinv.inv.sync

/-- The clock ticks after `dequeue` has chosen the child, before `oldNext` is read. -/
def tickEarly : List DequeueAction :=
  .replicate 4 .step ++ .interrupt .ticks :: .replicate 9 .step

theorem dequeue_switchesCleanly_tickEarly : ∃ s : DequeueState,
    exec dequeueStep (callDequeue oneQueued.machine.kernel oneQueued.hart) tickEarly = some s ∧
      s.pc = .swtch 1 ∧ (s.kernel.proc 0).state = .runnable ∧ SwitchesCleanly s.kernel 1 := by
  have hrun : (exec (fun s a => if WakesElsewhere s a then dequeueStep s a else none)
      (callDequeue oneQueued.machine.kernel oneQueued.hart) tickEarly).map
        (fun s => (s.pc, (s.kernel.proc 0).state)) = some (.swtch 1, .runnable) := by
    decide +kernel
  obtain ⟨s, hs, hview⟩ := Option.map_eq_some_iff.mp hrun
  obtain ⟨hpc, hstate⟩ := Prod.mk.inj hview
  obtain ⟨hexec, halong⟩ := along_of_exec hs
  exact ⟨s, hexec, hpc, hstate,
    (dequeue_switchesCleanly_iff sync_oneQueued _ _ hexec hpc).mpr halong⟩

/-- The clock ticks after `oldNext` has been read. -/
def tickLate : List DequeueAction :=
  .replicate 6 .step ++ .interrupt .ticks :: .replicate 7 .step

/-- The tick wakes the first process, and it is on no queue when `dequeue` switches. -/
theorem tickLate_not_switchesCleanly : ∃ s : DequeueState,
    Sync (fun _ => False) oneQueued.machine.kernel ∧
      exec dequeueStep (callDequeue oneQueued.machine.kernel oneQueued.hart) tickLate = some s ∧
      s.pc = .swtch 1 ∧ (s.kernel.proc 0).state = .runnable ∧
      (∀ i, s.kernel.qtable.next (headQ i) = tailQ i) ∧ ¬ SwitchesCleanly s.kernel 1 := by
  have hrun : (exec dequeueStep (callDequeue oneQueued.machine.kernel oneQueued.hart)
      tickLate).map (fun s => (s.pc, (s.kernel.proc 0).state,
        decide (∀ i, s.kernel.qtable.next (headQ i) = tailQ i))) =
        some (.swtch 1, .runnable, true) := by
    decide +kernel
  obtain ⟨s, hs, hview⟩ := Option.map_eq_some_iff.mp hrun
  simp only [Prod.mk.injEq, decide_eq_true_eq] at hview
  obtain ⟨hpc, hstate, hempty⟩ := hview
  refine ⟨s, sync_oneQueued, hs, hpc, hstate, hempty, ?_⟩
  rintro ⟨L, hL, hall⟩
  obtain ⟨j, hj, -⟩ := hall 0 (by decide) (by decide) hstate
  rw [hL.lanes.next_head_eq_tail_iff.mp (hempty j)] at hj
  exact List.not_mem_nil hj

end CS352.Mlfq
