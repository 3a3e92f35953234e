import CS352.Library.Kinship
import CS352.Library.History
import CS352.Library.Transition
import CS352.Model.Mlfq.Tree
import CS352.Verification.Mlfq.Runnable

/-! # The process tree

Every section of `fork`, `exit` and `wait` is one event in the life of a family, or none;
the children of a process that exits pass to `initproc`. -/

namespace CS352.Mlfq

open Transition History Kinship Function

variable {k k' : Kernel} {p x np root : ℕ}

/-! ## The sections make up the calls -/

/-- `fork` runs its three sections one after the other. -/
theorem fork_eq_sections (k : Kernel) (p : ℕ) (mem : Memory) :
    (fork k p mem).1 =
      match (List.range nproc).find? fun i => (k.proc i).state = .unused with
      | none => k
      | some i =>
        let k₁ := (forkAt k i mem).1
        if (forkAt k i mem).2 then
          makeRunnable (k₁.setProc i { k₁.proc i with parent := some p }) i
        else k₁ := by
  obtain ⟨trapframe, pagetable, image⟩ := mem
  unfold fork allocproc forkAt
  cases (List.range nproc).find? fun i => (k.proc i).state = .unused with
  | none => rfl
  | some i => cases trapframe <;> cases pagetable <;> cases image <;> rfl

theorem kill_eq_section (k : Kernel) (pid : ℤ) :
    (kill k pid).1 =
      match (List.range nproc).find? fun i => (k.proc i).pid = pid with
      | none => k
      | some i => killAt k i := by
  unfold kill killAt
  cases (List.range nproc).find? fun i => (k.proc i).pid = pid <;> rfl

theorem wait_of_found {addr : ℕ} {copyoutOk : Bool} (hx : foundZombie k p = some x) :
    wait k p addr copyoutOk =
      if addr ≠ 0 ∧ copyoutOk = false then (k, some (-1))
      else (freeproc k x, some (k.proc x).pid) := by
  unfold foundZombie at hx
  simp only [wait, hx]

theorem foundZombie_spec (hx : foundZombie k p = some x) :
    x < nproc ∧ (k.proc x).parent = some p ∧ (k.proc x).state = .zombie := by
  have hlt := List.mem_range.mp (List.mem_of_find?_eq_some hx)
  have hfound := List.find?_some hx
  simp only [Bool.decide_and, Bool.and_eq_true, decide_eq_true_eq] at hfound
  exact ⟨hlt, hfound⟩

/-! ## The kernel as a family -/

def phase : ProcState → Kinship.Phase
  | .unused => .free
  | .used => .embryo
  | .sleeping | .runnable | .running => .alive
  | .zombie => .dead

def family (k : Kernel) (x : ℕ) : Member ℕ := ⟨phase (k.proc x).state, (k.proc x).parent⟩

theorem phase_eq_dead {s : ProcState} : phase s = .dead ↔ s = .zombie := by
  cases s <;> simp [phase]

theorem phase_eq_free {s : ProcState} : phase s = .free ↔ s = .unused := by
  cases s <;> simp [phase]

/-- The pid and status of an exit that no `wait` has reported. -/
def unreported (k : Kernel) (x : ℕ) : Option (ℤ × ℤ) :=
  if (k.proc x).state = .zombie then some ((k.proc x).pid, (k.proc x).xstate) else none

theorem unreported_of_not_dead (hx : (family k x).phase ≠ .dead) : unreported k x = none :=
  if_neg fun hzombie => hx (phase_eq_dead.mpr hzombie)

/-- A change that the family does not notice. -/
structure Quiet (k k' : Kernel) : Prop where
  family : family k' = family k
  unreported : ∀ x, unreported k' x = unreported k x
  initproc : k'.initproc = k.initproc

/-- A change to one process that is no zombie before or after. -/
theorem family_of_proc (hother : ∀ y, y ≠ x → k'.proc y = k.proc y)
    (hnot : (k.proc x).state ≠ .zombie) (hnot' : (k'.proc x).state ≠ .zombie) :
    family k' = update (family k) x (family k' x) ∧
      ∀ y, unreported k' y = unreported k y := by
  refine ⟨?_, ?_⟩
  · funext y
    by_cases hy : y = x
    · subst y
      simp
    · simp [Mlfq.family, hother y hy, hy]
  · intro y
    by_cases hy : y = x
    · subst y
      simp [Mlfq.unreported, hnot, hnot']
    · simp [Mlfq.unreported, hother y hy]

theorem quiet_of_proc (hother : ∀ y, y ≠ x → k'.proc y = k.proc y)
    (hinit : k'.initproc = k.initproc) (hfamily : family k' x = family k x)
    (hnot : (k.proc x).state ≠ .zombie) : Quiet k k' := by
  have hnot' : (k'.proc x).state ≠ .zombie := by
    have hphase : phase (k'.proc x).state = phase (k.proc x).state := congrArg Member.phase hfamily
    rw [Ne, ← phase_eq_dead, hphase, phase_eq_dead]
    exact hnot
  obtain ⟨hall, hunreported⟩ := family_of_proc hother hnot hnot'
  refine ⟨?_, hunreported, hinit⟩
  rw [hall, hfamily, update_eq_self]

@[simp] theorem setProc_initproc (q : Proc) : (k.setProc x q).initproc = k.initproc := rfl

@[simp] theorem enqueue_initproc : (enqueue k x).initproc = k.initproc := by
  rw [enqueue_eq]
  rfl

@[simp] theorem ensureQueue_initproc : (ensureQueue k).initproc = k.initproc := by
  unfold ensureQueue
  split <;> rfl

@[simp] theorem makeRunnable_initproc : (makeRunnable k x).initproc = k.initproc := by
  simp [makeRunnable]

@[simp] theorem yield_initproc : (yield k p).initproc = k.initproc := by
  have hready : (ensureQueue (k.setProc p { k.proc p with state := .runnable })).initproc =
      k.initproc := by simp
  exact enqueue_initproc.trans hready

/-! ## `wakeup` -/

/-- A change that `wakeup` makes. -/
structure SameRecords (k k' : Kernel) : Prop where
  family : family k' = family k
  pid : ∀ x, (k'.proc x).pid = (k.proc x).pid
  xstate : ∀ x, (k'.proc x).xstate = (k.proc x).xstate
  initproc : k'.initproc = k.initproc

theorem SameRecords.refl (k : Kernel) : SameRecords k k := ⟨rfl, fun _ => rfl, fun _ => rfl, rfl⟩

theorem SameRecords.trans {k₁ k₂ : Kernel} (h : SameRecords k k₁) (h' : SameRecords k₁ k₂) :
    SameRecords k k₂ :=
  ⟨h'.family.trans h.family, fun x => (h'.pid x).trans (h.pid x),
    fun x => (h'.xstate x).trans (h.xstate x), h'.initproc.trans h.initproc⟩

theorem zombie_iff_of_family (h : family k' x = family k x) :
    (k'.proc x).state = .zombie ↔ (k.proc x).state = .zombie := by
  rw [← phase_eq_dead, ← phase_eq_dead]
  have hphase : phase (k'.proc x).state = phase (k.proc x).state := congrArg Member.phase h
  rw [hphase]

theorem not_zombie_of_family {parent : Option ℕ} (h : family k x = ⟨.embryo, parent⟩) :
    (k.proc x).state ≠ .zombie := by
  have hphase : phase (k.proc x).state = .embryo := congrArg Member.phase h
  rw [Ne, ← phase_eq_dead, hphase]
  simp

theorem unreported_congr (hfamily : family k' x = family k x)
    (hpid : (k'.proc x).pid = (k.proc x).pid) (hxstate : (k'.proc x).xstate = (k.proc x).xstate) :
    unreported k' x = unreported k x := by
  unfold unreported
  rw [hpid, hxstate]
  simp only [zombie_iff_of_family hfamily]

theorem SameRecords.quiet (h : SameRecords k k') : Quiet k k' :=
  ⟨h.family, fun x => unreported_congr (congrFun h.family x) (h.pid x) (h.xstate x), h.initproc⟩

theorem makeRunnable_sameRecords (hx : (k.proc x).state = .sleeping) :
    SameRecords k (makeRunnable k x) := by
  refine ⟨?_, ?_, ?_, by simp⟩
  · funext y
    by_cases hy : y = x
    · subst y
      simp [Mlfq.family, hx, phase]
    · simp [Mlfq.family, hy]
  · intro y
    by_cases hy : y = x <;> simp [hy]
  · intro y
    by_cases hy : y = x <;> simp [hy]

theorem wakeup_sameRecords (k : Kernel) (me : Option ℕ) (chan : Chan) :
    SameRecords k (wakeup k me chan) := by
  unfold wakeup
  induction List.range nproc generalizing k with
  | nil => exact .refl k
  | cons x xs ih =>
    rw [List.foldl_cons]
    refine SameRecords.trans ?_ (ih _)
    split
    · rename_i hwake
      exact makeRunnable_sameRecords hwake.2.1
    · exact .refl k

/-! ## `exit` -/

/-- The loop of `reparent` over part of the table. -/
structure Reparented (p : ℕ) (xs : List ℕ) (k k' : Kernel) : Prop where
  family : ∀ y, family k' y =
    ⟨phase (k.proc y).state,
      if y ∈ xs ∧ (k.proc y).parent = some p then k.initproc else (k.proc y).parent⟩
  pid : ∀ x, (k'.proc x).pid = (k.proc x).pid
  xstate : ∀ x, (k'.proc x).xstate = (k.proc x).xstate
  initproc : k'.initproc = k.initproc

theorem reparented_nil : Reparented p [] k k :=
  ⟨fun y => by simp [Mlfq.family], fun _ => rfl, fun _ => rfl, rfl⟩

/-- One iteration for process `x`. -/
theorem reparented_singleton (hx : (k.proc x).parent = some p) :
    Reparented p [x] k
      (wakeup (k.setProc x { k.proc x with parent := k.initproc }) (some p)
        (.ofProc k.initproc)) := by
  have hwoken := wakeup_sameRecords (k.setProc x { k.proc x with parent := k.initproc }) (some p)
    (.ofProc k.initproc)
  refine ⟨?_, ?_, ?_, hwoken.initproc⟩
  · intro y
    rw [hwoken.family]
    by_cases hy : y = x
    · subst y
      simp [Mlfq.family, hx]
    · simp [Mlfq.family, hy]
  · intro y
    rw [hwoken.pid]
    by_cases hy : y = x <;> simp [hy]
  · intro y
    rw [hwoken.xstate]
    by_cases hy : y = x <;> simp [hy]

theorem Reparented.append {xs ys : List ℕ} {k₁ k₂ : Kernel} (h : Reparented p xs k k₁)
    (h' : Reparented p ys k₁ k₂) (hdisjoint : ∀ x ∈ xs, x ∉ ys) :
    Reparented p (xs ++ ys) k k₂ := by
  refine ⟨?_, fun x => (h'.pid x).trans (h.pid x), fun x => (h'.xstate x).trans (h.xstate x),
    h'.initproc.trans h.initproc⟩
  intro y
  have hphase : phase (k₁.proc y).state = phase (k.proc y).state :=
    congrArg Member.phase (h.family y)
  have hparent : (k₁.proc y).parent =
      if y ∈ xs ∧ (k.proc y).parent = some p then k.initproc else (k.proc y).parent :=
    congrArg Member.parent (h.family y)
  rw [h'.family y, hphase, hparent, h.initproc]
  by_cases hxs : y ∈ xs
  · simp [hxs, hdisjoint y hxs]
  · simp [hxs]

theorem reparent_reparented (k : Kernel) (p : ℕ) :
    Reparented p (List.range nproc) k (reparent k p) := by
  unfold reparent
  have hnodup : (List.range nproc).Nodup := List.nodup_range
  generalize List.range nproc = xs at hnodup ⊢
  induction xs generalizing k with
  | nil => exact reparented_nil
  | cons x xs ih =>
    obtain ⟨hx, hnodup⟩ := List.nodup_cons.mp hnodup
    rw [List.foldl_cons]
    refine Reparented.append (?_ : Reparented p [x] k _) (ih _ hnodup) (by simpa using hx)
    split
    · rename_i hparent
      exact reparented_singleton hparent
    · rename_i hparent
      refine ⟨?_, fun _ => rfl, fun _ => rfl, rfl⟩
      intro y
      by_cases hy : y = x
      · subst y
        simp [Mlfq.family, hparent]
      · simp [Mlfq.family, hy]

/-- `exit` is a death. -/
theorem exit_spec {status : ℤ} (h : exit k p status = some k') (hroot : k.initproc = some root)
    (hbound : ∀ y, nproc ≤ y → (k.proc y).parent = none) :
    p ≠ root ∧
      family k' = (fun y => ⟨if y = p then .dead else (family k y).phase,
        disown root p (family k y).parent⟩) ∧
      (∀ y, y ≠ p → unreported k' y = unreported k y) ∧
      unreported k' p = some ((k.proc p).pid, status) ∧ k'.initproc = k.initproc := by
  unfold exit at h
  split at h
  · cases h
  rename_i hne
  simp only [Option.some.injEq] at h
  subst h
  have hp : p ≠ root := by
    rintro rfl
    exact hne hroot
  have hrep := reparent_reparented k p
  generalize reparent k p = k₁ at hrep
  have hwoken := wakeup_sameRecords k₁ (some p) (.ofProc (k₁.proc p).parent)
  generalize wakeup k₁ (some p) (.ofProc (k₁.proc p).parent) = k₂ at hwoken
  have hparent : ∀ y, (k₂.proc y).parent = disown root p (k.proc y).parent := by
    intro y
    have h₂ : (k₂.proc y).parent = (k₁.proc y).parent :=
      congrArg Member.parent (congrFun hwoken.family y)
    have h₁ : (k₁.proc y).parent = _ := congrArg Member.parent (hrep.family y)
    rw [h₂, h₁, hroot]
    by_cases hy : y < nproc
    · simp [disown, hy]
    · simp [disown, hy, hbound y (Nat.le_of_not_lt hy)]
  have hphase : ∀ y, phase (k₂.proc y).state = phase (k.proc y).state := by
    intro y
    have h₂ : phase (k₂.proc y).state = phase (k₁.proc y).state :=
      congrArg Member.phase (congrFun hwoken.family y)
    have h₁ : phase (k₁.proc y).state = phase (k.proc y).state :=
      congrArg Member.phase (hrep.family y)
    exact h₂.trans h₁
  refine ⟨hp, ?_, ?_, ?_, ?_⟩
  · funext y
    by_cases hy : y = p
    · subst y
      simp [Mlfq.family, hparent, phase]
    · simp [Mlfq.family, hparent, hphase, hy]
  · intro y hy
    have hzombie : (k₂.proc y).state = .zombie ↔ (k.proc y).state = .zombie := by
      rw [← phase_eq_dead, hphase y, phase_eq_dead]
    simp [unreported, hy, hzombie, (hwoken.pid y).trans (hrep.pid y),
      (hwoken.xstate y).trans (hrep.xstate y)]
  · simp [unreported, (hwoken.pid p).trans (hrep.pid p)]
  · exact hwoken.initproc.trans hrep.initproc

/-! ## Other sections -/

theorem setParent_family (q : Option ℕ) :
    family (k.setProc x { k.proc x with parent := q }) =
        update (family k) x { family k x with parent := q } ∧
      ∀ y, unreported (k.setProc x { k.proc x with parent := q }) y = unreported k y := by
  refine ⟨?_, ?_⟩
  · funext y
    by_cases hy : y = x
    · subst y
      simp [family]
    · simp [family, hy]
  · intro y
    by_cases hy : y = x
    · subst y
      simp [unreported]
    · simp [unreported, hy]

theorem freeproc_family (k : Kernel) (x : ℕ) :
    family (freeproc k x) = update (family k) x ⟨.free, none⟩ := by
  funext y
  by_cases hy : y = x
  · subst y
    simp [family, phase]
  · simp [family, hy]

theorem freeproc_unreported (k : Kernel) (x y : ℕ) :
    unreported (freeproc k x) y = if y = x then none else unreported k y := by
  by_cases hy : y = x
  · subst y
    simp [unreported]
  · simp [unreported, hy]

theorem forkAt_other {mem : Memory} {y : ℕ} (hy : y ≠ x) :
    (forkAt k x mem).1.proc y = k.proc y := by
  obtain ⟨trapframe, pagetable, image⟩ := mem
  cases trapframe <;> cases pagetable <;> cases image <;> simp [forkAt, hy]

theorem forkAt_initproc (mem : Memory) : (forkAt k x mem).1.initproc = k.initproc := by
  obtain ⟨trapframe, pagetable, image⟩ := mem
  cases trapframe <;> cases pagetable <;> cases image <;> rfl

theorem forkAt_family (mem : Memory) : family (forkAt k x mem).1 x =
    if (forkAt k x mem).2 then ⟨.embryo, (k.proc x).parent⟩ else ⟨.free, none⟩ := by
  obtain ⟨trapframe, pagetable, image⟩ := mem
  cases trapframe <;> cases pagetable <;> cases image <;> simp [forkAt, family, phase]

theorem killAt_quiet (k : Kernel) (x : ℕ) : Quiet k (killAt k x) := by
  have hmark : SameRecords k (k.setProc x { k.proc x with killed := 1 }) := by
    refine ⟨?_, ?_, ?_, rfl⟩
    · funext y
      by_cases hy : y = x
      · subst y
        simp [Mlfq.family]
      · simp [Mlfq.family, hy]
    · intro y
      by_cases hy : y = x <;> simp [hy]
    · intro y
      by_cases hy : y = x <;> simp [hy]
  unfold killAt
  dsimp only
  split
  · rename_i hsleep
    exact (hmark.trans (makeRunnable_sameRecords hsleep)).quiet
  · exact hmark.quiet

theorem sleep_quiet (chan : Chan) (hp : (k.proc p).state = .running) :
    Quiet k (sleep k p chan) := by
  refine quiet_of_proc (x := p) ?_ rfl (by simp [Mlfq.family, sleep, hp, phase]) (by simp [hp])
  intro y hy
  simp [sleep, hy]

theorem yield_quiet (hp : (k.proc p).state = .running) : Quiet k (yield k p) := by
  refine quiet_of_proc (x := p) ?_ yield_initproc ?_ (by simp [hp])
  · intro y hy
    simp [Mlfq.yield, hy]
  · simp [Mlfq.yield, Mlfq.family, hp, phase]

theorem dispatch_quiet (hx : (k.proc x).state = .runnable) :
    Quiet k (resume (markRunning (unlinkProc k x) x) x) := by
  refine quiet_of_proc (x := x) ?_ rfl ?_ (by simp [hx])
  · intro y hy
    simp [resume, markRunning, unlinkProc, hy]
  · simp [resume, markRunning, unlinkProc, Mlfq.family, hx, phase]

/-! ## The invariant -/

/-- A `wait` that frees a slot reports the exit right before it in the history of the slot:
it is executed by the parent, returns the pid and stores the status. -/
def Reports (before : List SlotEvent) : SlotEvent → Prop
  | .exit _ _ => True
  | .reap caller parent addr returned stored =>
    ∃ older pid status, before = older ++ [.exit pid status] ∧ parent = some caller ∧
      returned = some pid ∧ stored = if addr ≠ 0 then some status else none

/-- The history of a slot ends with the exit that is not reported yet, if there is one. -/
structure Chronicle (events : List SlotEvent) (pending : Option (ℤ × ℤ)) : Prop where
  guarded : Guarded Reports events
  last : ∀ pid status, pending = some (pid, status) →
    ∃ older, events = older ++ [.exit pid status]

structure TreeInv (root : ℕ) (s : Tree) : Prop where
  init : s.kernel.initproc = some root
  sound : Sound root (family s.kernel)
  bound : ∀ x, nproc ≤ x → family s.kernel x = ⟨.free, none⟩
  adopting : ∀ p np, s.place p = .adopting np → family s.kernel np = ⟨.embryo, none⟩
  starting : ∀ p np, s.place p = .starting np → family s.kernel np = ⟨.embryo, some p⟩
  /-- Two calls of `fork` never work on one slot. -/
  distinct : ∀ p q np, (s.place p).child = some np → (s.place q).child = some np → p = q
  alive : ∀ p, s.place p ≠ .out → s.place p ≠ .exiting → (family s.kernel p).phase = .alive
  chronicle : ∀ x, Chronicle (s.events x) (unreported s.kernel x)

section Fields

variable (s : Tree) (k : Kernel) (p : ℕ) (place : TreePlace)

@[simp] theorem setKernel_kernel : (s.setKernel k).kernel = k := rfl
@[simp] theorem setKernel_events : (s.setKernel k).events = s.events := rfl

end Fields

variable {s s' : Tree}

theorem TreeInv.embryo (h : TreeInv root s) (hp : (s.place p).child = some np) :
    (family s.kernel np).phase = .embryo := by
  cases hplace : s.place p with
  | adopting y =>
    rw [hplace] at hp
    cases hp
    rw [h.adopting p np hplace]
  | starting y =>
    rw [hplace] at hp
    cases hp
    rw [h.starting p np hplace]
  | _ => simp [hplace, TreePlace.child] at hp

theorem TreeInv.quiet (h : TreeInv root s) (hk : Quiet s.kernel k) :
    TreeInv root (s.setKernel k) := by
  refine ⟨hk.initproc.trans h.init, ?_, ?_, ?_, ?_, h.distinct, ?_, ?_⟩
  · exact hk.family ▸ h.sound
  · exact hk.family ▸ h.bound
  · exact hk.family ▸ h.adopting
  · exact hk.family ▸ h.starting
  · exact hk.family ▸ h.alive
  · intro x
    have hx : unreported (s.setKernel k).kernel x = unreported s.kernel x := hk.unreported x
    rw [hx]
    exact h.chronicle x

/-- A process goes to another place. -/
theorem TreeInv.moveTo {place : TreePlace} (h : TreeInv root s)
    (hadopting : ∀ np, place = .adopting np → family s.kernel np = ⟨.embryo, none⟩)
    (hstarting : ∀ np, place = .starting np → family s.kernel np = ⟨.embryo, some p⟩)
    (hfresh : ∀ np, place.child = some np → ∀ q, q ≠ p → (s.place q).child ≠ some np)
    (halive : place ≠ .out → place ≠ .exiting → (family s.kernel p).phase = .alive) :
    TreeInv root (s.moveTo p place) := by
  have hself : (s.moveTo p place).place p = place := by simp [Tree.moveTo]
  have hother : ∀ q, q ≠ p → (s.moveTo p place).place q = s.place q :=
    fun q hq => by simp [Tree.moveTo, hq]
  refine ⟨h.init, h.sound, h.bound, ?_, ?_, ?_, ?_, h.chronicle⟩
  · intro q np hq
    by_cases hqp : q = p
    · subst q
      exact hadopting np (hself.symm.trans hq)
    · exact h.adopting q np ((hother q hqp).symm.trans hq)
  · intro q np hq
    by_cases hqp : q = p
    · subst q
      exact hstarting np (hself.symm.trans hq)
    · exact h.starting q np ((hother q hqp).symm.trans hq)
  · intro q r np hq hr
    by_cases hqp : q = p
    · subst q
      rw [hself] at hq
      by_contra hne
      rw [hother r (Ne.symm hne)] at hr
      exact hfresh np hq r (Ne.symm hne) hr
    · rw [hother q hqp] at hq
      by_cases hrp : r = p
      · subst r
        rw [hself] at hr
        exact absurd hq (hfresh np hr q hqp)
      · rw [hother r hrp] at hr
        exact h.distinct q r np hq hr
  · intro q hout hexiting
    by_cases hqp : q = p
    · subst q
      rw [hself] at hout hexiting
      exact halive hout hexiting
    · rw [hother q hqp] at hout hexiting
      exact h.alive q hout hexiting

/-- A process goes to a place at which it has taken no slot. -/
theorem TreeInv.moveClear {place : TreePlace} (h : TreeInv root s) (hclear : place.child = none)
    (halive : place ≠ .out → place ≠ .exiting → (family s.kernel p).phase = .alive) :
    TreeInv root (s.moveTo p place) := by
  refine h.moveTo ?_ ?_ ?_ halive
  · rintro np rfl
    cases hclear
  · rintro np rfl
    cases hclear
  · intro np hnp
    rw [hclear] at hnp
    cases hnp

/-- An event in the life of a process that is not alive before and that no `fork` works
on. -/
theorem TreeInv.change {m : Member ℕ} {events : ℕ → List SlotEvent} (h : TreeInv root s)
    (hx : x < nproc)
    (hevent : Kinship.Event root (family s.kernel) (update (family s.kernel) x m))
    (hdead : (family s.kernel x).phase ≠ .alive) (hfree : ∀ p, (s.place p).child ≠ some x)
    (hfamily : family k = update (family s.kernel) x m)
    (hinit : k.initproc = s.kernel.initproc)
    (hchronicle : ∀ y, Chronicle (events y) (unreported k y)) :
    TreeInv root { s with kernel := k, events := events } := by
  have hother : ∀ y, y ≠ x → family k y = family s.kernel y := fun y hy => by simp [hfamily, hy]
  refine ⟨hinit.trans h.init, ?_, ?_, ?_, ?_, h.distinct, ?_, hchronicle⟩
  · rw [hfamily]
    exact h.sound.event hevent
  · intro y hy
    have hyx : y ≠ x := by omega
    exact (hother y hyx).trans (h.bound y hy)
  · intro p np hp
    have hp : s.place p = .adopting np := hp
    have hnp : np ≠ x := by
      rintro rfl
      exact hfree p (by simp [hp, TreePlace.child])
    exact (hother np hnp).trans (h.adopting p np hp)
  · intro p np hp
    have hp : s.place p = .starting np := hp
    have hnp : np ≠ x := by
      rintro rfl
      exact hfree p (by simp [hp, TreePlace.child])
    exact (hother np hnp).trans (h.starting p np hp)
  · intro p hout hexiting
    have halive := h.alive p hout hexiting
    have hpx : p ≠ x := by
      rintro rfl
      exact hdead halive
    rw [hother p hpx]
    exact halive

theorem moveTo_moveTo (place place' : TreePlace) :
    ((s.moveTo p place).setKernel k).moveTo p place' = (s.setKernel k).moveTo p place' := by
  simp [Tree.moveTo, Tree.setKernel]

/-! ## Steps -/

/-- `fork` takes the free slot that it has found, or gives it back at once. -/
theorem TreeInv.forkAt {mem : Memory} (h : TreeInv root s) (hx : x < nproc)
    (hunused : (s.kernel.proc x).state = .unused) (halive : (family s.kernel p).phase = .alive) :
    TreeInv root ((s.setKernel (forkAt s.kernel x mem).1).moveTo p
      (if (forkAt s.kernel x mem).2 then .adopting x else .out)) := by
  have hphase : (family s.kernel x).phase = .free := phase_eq_free.mpr hunused
  have hparent : (s.kernel.proc x).parent = none := h.sound.free x hphase
  have hinit := forkAt_initproc (k := s.kernel) (x := x) mem
  have hself := forkAt_family (k := s.kernel) (x := x) mem
  have hother : ∀ y, y ≠ x → (Mlfq.forkAt s.kernel x mem).1.proc y = s.kernel.proc y :=
    fun y hy => forkAt_other hy
  have hnot : (s.kernel.proc x).state ≠ .zombie := by simp [hunused]
  generalize Mlfq.forkAt s.kernel x mem = r at hinit hself hother ⊢
  obtain ⟨k, kept⟩ := r
  cases kept with
  | true =>
    have hself : family k x = ⟨.embryo, none⟩ := by simpa [hparent] using hself
    obtain ⟨hfamily, hunreported⟩ := family_of_proc hother hnot (not_zombie_of_family hself)
    have hnone : ∀ q, (s.place q).child ≠ some x := by
      intro q hq
      rw [h.embryo hq] at hphase
      cases hphase
    have hpx : p ≠ x := by
      rintro rfl
      rw [halive] at hphase
      cases hphase
    have hchange : TreeInv root (s.setKernel k) := by
      refine h.change hx (.conceive x hphase) (by simp [hphase]) hnone ?_ hinit ?_
      · rw [hfamily, hself]
        simp [family, hparent]
      · intro y
        rw [hunreported y]
        exact h.chronicle y
    refine hchange.moveTo ?_ (by simp) ?_ ?_
    · intro np hnp
      cases hnp
      exact hself
    · intro np hnp q _
      cases hnp
      exact hnone q
    · intro _ _
      have hsame : family k p = family s.kernel p := by
        rw [hfamily, update_of_ne hpx]
      exact (congrArg Member.phase hsame).trans halive
  | false =>
    have hself : family k x = family s.kernel x := by
      have hfree : family s.kernel x = ⟨.free, none⟩ := by simp [family, hunused, phase, hparent]
      simpa [hfree] using hself
    exact (h.quiet (quiet_of_proc hother hinit hself hnot)).moveClear rfl (by simp)

/-- The slot that a `fork` has taken, once the caller has left it. -/
theorem TreeInv.takenSlot (h : TreeInv root s) (hp : (s.place p).child = some np) :
    np < nproc ∧ (s.kernel.proc np).state ≠ .zombie ∧ (family s.kernel p).phase = .alive ∧
      TreeInv root (s.moveTo p .out) ∧ ∀ q, ((s.moveTo p .out).place q).child ≠ some np := by
  have hphase := h.embryo hp
  refine ⟨?_, ?_, ?_, h.moveClear rfl (by simp), ?_⟩
  · by_contra hge
    rw [h.bound np (Nat.le_of_not_lt hge)] at hphase
    cases hphase
  · intro hzombie
    rw [family, phase_eq_dead.mpr hzombie] at hphase
    cases hphase
  · refine h.alive p ?_ ?_
    · intro hout
      simp [hout, TreePlace.child] at hp
    · intro hexiting
      simp [hexiting, TreePlace.child] at hp
  · intro q hq
    by_cases hqp : q = p
    · subst q
      simp [Tree.moveTo, TreePlace.child] at hq
    · exact hqp (h.distinct q p np (by simpa [Tree.moveTo, hqp] using hq) hp)

/-- `fork` sets the parent of the slot that it has taken. -/
theorem TreeInv.adopt (h : TreeInv root s) (hp : s.place p = .adopting np) :
    TreeInv root ((s.setKernel (s.kernel.setProc np
      { s.kernel.proc np with parent := some p })).moveTo p (.starting np)) := by
  have hchild : (s.place p).child = some np := by simp [hp, TreePlace.child]
  obtain ⟨hlt, -, halive, hout, hfree⟩ := h.takenSlot hchild
  have hphase := h.embryo hchild
  obtain ⟨hfamily, hunreported⟩ := setParent_family (k := s.kernel) (x := np) (some p)
  have hchange : TreeInv root ((s.moveTo p .out).setKernel
      (s.kernel.setProc np { s.kernel.proc np with parent := some p })) := by
    refine hout.change hlt (.adopt np p hphase halive) (by simp [Tree.moveTo, hphase]) hfree hfamily
      rfl ?_
    intro y
    rw [hunreported y]
    exact h.chronicle y
  rw [← moveTo_moveTo .out]
  refine hchange.moveTo (by simp) ?_ ?_ ?_
  · intro y hy
    cases hy
    rw [Tree.setKernel, hfamily, h.adopting p np hp]
    simp
  · intro y hy q _
    cases hy
    exact hfree q
  · intro _ _
    have hnp : p ≠ np := by
      rintro rfl
      rw [hphase] at halive
      cases halive
    rw [Tree.setKernel, hfamily, update_of_ne hnp]
    exact halive

/-- `fork` lets its child run. -/
theorem TreeInv.start (h : TreeInv root s) (hp : s.place p = .starting np) :
    TreeInv root ((s.setKernel (makeRunnable s.kernel np)).moveTo p .out) := by
  have hchild : (s.place p).child = some np := by simp [hp, TreePlace.child]
  obtain ⟨hlt, hnot, -, hout, hfree⟩ := h.takenSlot hchild
  have hphase := h.embryo hchild
  have hparent : (family s.kernel np).parent ≠ none := by simp [h.starting p np hp]
  obtain ⟨hfamily, hunreported⟩ := family_of_proc (k := s.kernel) (x := np)
    (fun y hy => by simp [hy] : ∀ y, y ≠ np → (makeRunnable s.kernel np).proc y = s.kernel.proc y)
    hnot (by simp)
  have hchange : TreeInv root ((s.moveTo p .out).setKernel (makeRunnable s.kernel np)) := by
    refine hout.change hlt (.deliver np hphase hparent) (by simp [Tree.moveTo, hphase]) hfree ?_
      makeRunnable_initproc ?_
    · rw [hfamily]
      simp [family, phase, Tree.moveTo]
    · intro y
      rw [hunreported y]
      exact h.chronicle y
  rw [← moveTo_moveTo .out]
  exact hchange.moveClear rfl (by simp)

/-- `wait` frees a zombie. -/
theorem TreeInv.reap {addr : ℕ} {stored : Option ℤ} (h : TreeInv root s)
    (hx : foundZombie s.kernel p = some x)
    (hstored : stored = if addr ≠ 0 then some (s.kernel.proc x).xstate else none) :
    TreeInv root ((s.setKernel (freeproc s.kernel x)).record x
      (.reap p (s.kernel.proc x).parent addr (some (s.kernel.proc x).pid) stored)) := by
  obtain ⟨hlt, hparent, hzombie⟩ := foundZombie_spec hx
  have hphase : (family s.kernel x).phase = .dead := phase_eq_dead.mpr hzombie
  refine h.change hlt (.reap x hphase) (by simp [hphase]) ?_ (freeproc_family _ x) rfl ?_
  · intro q hq
    rw [h.embryo hq] at hphase
    cases hphase
  · intro y
    have hold := h.chronicle y
    rw [setKernel_kernel, freeproc_unreported]
    by_cases hy : y = x
    · subst y
      have hpending : unreported s.kernel x =
          some ((s.kernel.proc x).pid, (s.kernel.proc x).xstate) := if_pos hzombie
      obtain ⟨older, holder⟩ := hold.last _ _ hpending
      refine ⟨?_, by simp⟩
      simp only [setKernel_events, update_self]
      exact hold.guarded.concat ⟨older, _, _, holder, hparent, rfl, hstored⟩
    · simpa [hy] using hold

/-- A process exits. -/
theorem TreeInv.exit {status : ℤ} (h : TreeInv root s)
    (hrun : (s.kernel.proc p).state = .running) (hk : exit s.kernel p status = some k) :
    TreeInv root (((s.setKernel k).moveTo p .exiting).record p
      (.exit (s.kernel.proc p).pid status)) := by
  have halive : (family s.kernel p).phase = .alive := by simp [family, hrun, phase]
  have hbound : ∀ y, nproc ≤ y → (s.kernel.proc y).parent = none :=
    fun y hy => congrArg Member.parent (h.bound y hy)
  obtain ⟨hroot, hfamily, hunreported, hexit, hinit⟩ := exit_spec hk h.init hbound
  have hkeep : ∀ y, (family s.kernel y).phase ≠ .alive → (family s.kernel y).parent ≠ some p →
      family k y = family s.kernel y := by
    intro y hy hparent
    have hne : y ≠ p := by
      rintro rfl
      exact hy halive
    simp [hfamily, hne, disown, hparent]
  -- Only the place of the caller changes, and it has no child under way.
  have hplace : ∀ q, update s.place p .exiting q ≠ .exiting →
      q ≠ p ∧ update s.place p .exiting q = s.place q := by
    intro q hq
    have hqp : q ≠ p := by
      rintro rfl
      simp at hq
    exact ⟨hqp, by simp [hqp]⟩
  have hchild : ∀ q np, (update s.place p .exiting q).child = some np →
      (s.place q).child = some np := by
    intro q np hq
    obtain ⟨-, hsame⟩ := hplace q (by rintro hexiting; simp [hexiting, TreePlace.child] at hq)
    rwa [hsame] at hq
  refine ⟨hinit.trans h.init, ?_, ?_, ?_, ?_, ?_, ?_, ?_⟩
  · change Sound root (family k)
    rw [hfamily]
    exact h.sound.die hroot halive
  · intro y hy
    have hfree := h.bound y hy
    exact (hkeep y (by simp [hfree]) (by simp [hfree])).trans hfree
  · intro q np hq
    have hq : update s.place p .exiting q = .adopting np := hq
    obtain ⟨-, hsame⟩ := hplace q (by simp [hq])
    have hnp := h.adopting q np (hsame.symm.trans hq)
    exact (hkeep np (by simp [hnp]) (by simp [hnp])).trans hnp
  · intro q np hq
    have hq : update s.place p .exiting q = .starting np := hq
    obtain ⟨hqp, hsame⟩ := hplace q (by simp [hq])
    have hnp := h.starting q np (hsame.symm.trans hq)
    exact (hkeep np (by simp [hnp]) (by simp [hnp, hqp])).trans hnp
  · intro q r np hq hr
    exact h.distinct q r np (hchild q np hq) (hchild r np hr)
  · intro q hout hexiting
    obtain ⟨hqp, hsame⟩ := hplace q hexiting
    have hout : update s.place p .exiting q ≠ .out := hout
    have hexiting : update s.place p .exiting q ≠ .exiting := hexiting
    rw [hsame] at hout hexiting
    change (family k q).phase = .alive
    simpa [hfamily, hqp] using h.alive q hout hexiting
  · intro y
    have hold := h.chronicle y
    change Chronicle (update s.events p (s.events p ++ [_]) y) (unreported k y)
    by_cases hy : y = p
    · subst y
      rw [update_self, hexit]
      refine ⟨hold.guarded.concat trivial, ?_⟩
      intro pid status' heq
      cases heq
      exact ⟨_, rfl⟩
    · rw [update_of_ne hy, hunreported y hy]
      exact hold

theorem family_alive (hrun : (k.proc p).state = .running) : (family k p).phase = .alive := by
  simp [family, hrun, phase]

theorem isOut_running (h : s.isOut p = true) : (s.kernel.proc p).state = .running := by
  simp only [Tree.isOut, decide_eq_true_eq] at h
  exact h.2.1

theorem TreeInv.nextSection {mem : Memory} (h : TreeInv root s)
    (hs : nextSection s p mem = some s') : TreeInv root s' := by
  cases hp : s.place p with
  | out => simp [Mlfq.nextSection, hp] at hs
  | allocating i =>
    have halive := h.alive p (by simp [hp]) (by simp [hp])
    simp only [Mlfq.nextSection, hp] at hs
    split at hs
    · rename_i hi
      split at hs
      · cases hs
      · split at hs
        · rename_i hunused
          cases hs
          exact h.forkAt hi hunused halive
        · cases hs
          exact h.moveClear rfl fun _ _ => halive
    · cases hs
      exact h.moveClear rfl (by simp)
  | adopting np =>
    simp only [Mlfq.nextSection, hp] at hs
    cases hs
    exact h.adopt hp
  | starting np =>
    simp only [Mlfq.nextSection, hp] at hs
    obtain ⟨-, hs⟩ := Option.ite_none_right_eq_some.mp hs
    cases hs
    exact h.start hp
  | killing i pid =>
    have halive := h.alive p (by simp [hp]) (by simp [hp])
    simp only [Mlfq.nextSection, hp] at hs
    split at hs
    · split at hs
      · cases hs
      · split at hs
        · cases hs
          exact (h.quiet (killAt_quiet s.kernel i)).moveClear rfl (by simp)
        · cases hs
          exact h.moveClear rfl fun _ _ => halive
    · cases hs
      exact h.moveClear rfl (by simp)
  | exiting =>
    simp only [Mlfq.nextSection, hp] at hs
    cases hs
    exact h.moveClear rfl (by simp)

/-- A pass of `wait` that finds no zombie. -/
theorem wait_quiet {addr : ℕ} {copyoutOk : Bool} (hrun : (k.proc p).state = .running)
    (hx : foundZombie k p = none) : Quiet k (wait k p addr copyoutOk).1 := by
  unfold foundZombie at hx
  simp only [wait, hx]
  split
  · exact ⟨rfl, fun _ => rfl, rfl⟩
  · exact sleep_quiet _ hrun

theorem TreeInv.wait {addr : ℕ} {copyoutOk : Bool} (h : TreeInv root s)
    (hs : treeStep s (.wait p addr copyoutOk) = some s') : TreeInv root s' := by
  obtain ⟨⟨hout, -⟩, hs⟩ := Option.ite_none_right_eq_some.mp hs
  have hrun := isOut_running hout
  cases hx : foundZombie s.kernel p with
  | none =>
    simp only [hx] at hs
    cases hs
    exact h.quiet (wait_quiet hrun hx)
  | some x =>
    simp only [hx, wait_of_found hx] at hs
    by_cases hfail : addr ≠ 0 ∧ copyoutOk = false
    · rw [if_pos hfail, if_pos hfail] at hs
      cases hs
      exact h
    · rw [if_neg hfail, if_neg hfail] at hs
      cases hs
      exact h.reap hx rfl

theorem TreeInv.step {a : TreeAction} (h : TreeInv root s) (hs : treeStep s a = some s') :
    TreeInv root s' := by
  cases a with
  | fork p | kill p pid =>
    obtain ⟨hout, hs⟩ := Option.ite_none_right_eq_some.mp hs
    cases hs
    exact h.moveClear rfl fun _ _ => family_alive (isOut_running hout)
  | next p mem =>
    obtain ⟨-, hs⟩ := Option.ite_none_right_eq_some.mp hs
    exact h.nextSection hs
  | exit p status =>
    obtain ⟨⟨hout, -⟩, hs⟩ := Option.ite_none_right_eq_some.mp hs
    obtain ⟨k, hk, rfl⟩ := Option.map_eq_some_iff.mp hs
    exact h.exit (isOut_running hout) hk
  | wait p addr copyoutOk => exact h.wait hs
  | sleep p chan =>
    obtain ⟨hout, hs⟩ := Option.ite_none_right_eq_some.mp hs
    cases hs
    exact h.quiet (sleep_quiet chan (isOut_running hout))
  | yield p =>
    obtain ⟨hrun, hs⟩ := Option.ite_none_right_eq_some.mp hs
    cases hs
    exact h.quiet (yield_quiet hrun)
  | wake x =>
    obtain ⟨hsleep, hs⟩ := Option.ite_none_right_eq_some.mp hs
    cases hs
    exact h.quiet (makeRunnable_sameRecords hsleep).quiet
  | dispatch x =>
    obtain ⟨hready, hs⟩ := Option.ite_none_right_eq_some.mp hs
    cases hs
    exact h.quiet (dispatch_quiet hready)

/-- At boot the first process is alone. -/
theorem treeInv_start {mem : Memory} (hk : userinit bootKernel mem = some k) :
    TreeInv 0 (startTree k) := by
  rw [userinit_boot hk]
  have hself : family (makeRunnable initKernel 0) 0 = ⟨.alive, none⟩ := by
    simp [family, phase, initKernel, bootProc]
  have hother : ∀ y, y ≠ 0 → family (makeRunnable initKernel 0) y = ⟨.free, none⟩ := by
    intro y hy
    simp [family, phase, initKernel, hy, bootKernel, bootProc]
  have hparent : ∀ y, (family (makeRunnable initKernel 0) y).parent = none := by
    intro y
    by_cases hy : y = 0
    · rw [hy, hself]
    · rw [hother y hy]
  refine ⟨by simp [startTree, initKernel], ⟨by rw [startTree, hself], ?_, ?_, ?_⟩, ?_,
    by simp [startTree], by simp [startTree], by simp [startTree, TreePlace.child],
    by simp [startTree], ?_⟩
  · intro y q hy
    cases (hparent y).symm.trans hy
  · intro y _
    exact hparent y
  · intro y hy hborn
    rw [startTree, hother y hy] at hborn
    simp at hborn
  · intro y hy
    refine hother y ?_
    rintro rfl
    cases hy
  · intro y
    refine ⟨guarded_nil, ?_⟩
    intro pid status hpending
    have hnone : unreported (makeRunnable initKernel 0) y = none := by
      refine unreported_of_not_dead ?_
      by_cases hy : y = 0
      · rw [hy, hself]
        simp
      · rw [hother y hy]
        simp
    cases hnone.symm.trans hpending

/-! ## Main result -/

/-- In every state that is reached, whatever order the sections of the calls are taken in:
the parent of a process is neither unused nor a zombie; a zombie has a parent; a `wait` that
frees a slot follows the exit of the process in it, which no other `wait` has reported, is
executed by the parent, returns the pid and stores the status; and a `wait` whose `copyout`
fails changes nothing. -/
theorem reach_processTree {mem : Memory} (hk : userinit bootKernel mem = some k)
    (hs : Reach treeStep (startTree k) s) :
    (∀ x q, (s.kernel.proc x).parent = some q →
      (s.kernel.proc q).state ≠ .unused ∧ (s.kernel.proc q).state ≠ .zombie) ∧
    (∀ x, (s.kernel.proc x).state = .zombie → (s.kernel.proc x).parent ≠ none) ∧
    (∀ x, Guarded Reports (s.events x)) ∧
    ∀ p addr x s', treeStep s (.wait p addr false) = some s' → addr ≠ 0 →
      x < nproc → (s.kernel.proc x).parent = some p → (s.kernel.proc x).state = .zombie →
      s' = s := by
  have hinv : TreeInv 0 s := by
    refine hs.invariant (treeInv_start hk) ?_
    intro u a v hu _ hv
    exact hu.step hv
  refine ⟨?_, ?_, fun x => (hinv.chronicle x).guarded, ?_⟩
  · intro x q hq
    have halive : phase (s.kernel.proc q).state = .alive := hinv.sound.parent x q hq
    refine ⟨?_, ?_⟩
    · intro hunused
      simp [hunused, phase] at halive
    · intro hzombie
      simp [hzombie, phase] at halive
  · intro x hzombie
    have hdead : (family s.kernel x).phase = .dead := phase_eq_dead.mpr hzombie
    refine hinv.sound.born x ?_ (.inr hdead)
    rintro rfl
    rw [hinv.sound.root_alive] at hdead
    cases hdead
  · intro p addr x s' hstep haddr hx hparent hzombie
    obtain ⟨-, hstep⟩ := Option.ite_none_right_eq_some.mp hstep
    obtain ⟨y, hy⟩ : ∃ y, foundZombie s.kernel p = some y := by
      rw [← Option.isSome_iff_exists, foundZombie, List.find?_isSome]
      exact ⟨x, List.mem_range.mpr hx, by simp [hparent, hzombie]⟩
    have hkept : (wait s.kernel p addr false).1 = s.kernel := by simp [wait_of_found hy, haddr]
    simp only [hy, hkept, haddr, ne_eq, not_false_eq_true, and_self, if_true] at hstep
    cases hstep
    rfl

/-- The first process forks, its child exits with status 7, and it waits for the child. -/
def forkExitWait : List TreeAction :=
  [.dispatch 0, .fork 0, .next 0 ⟨true, true, true⟩, .next 0 ⟨true, true, true⟩,
    .next 0 ⟨true, true, true⟩, .next 0 ⟨true, true, true⟩, .dispatch 1, .exit 1 7,
    .next 1 ⟨true, true, true⟩, .wait 0 4096 true]

theorem reach_processTree_forkExitWait :
    ∃ k s, userinit bootKernel ⟨true, true, true⟩ = some k ∧ Reach treeStep (startTree k) s ∧
      s.events 1 = [.exit 2 7, .reap 0 (some 0) 4096 (some 2) (some 7)] ∧
      Guarded Reports (s.events 1) := by
  have hrun : ((userinit bootKernel ⟨true, true, true⟩).bind fun k =>
      exec treeStep (startTree k) forkExitWait).map (fun s => s.events 1) =
        some [.exit 2 7, .reap 0 (some 0) 4096 (some 2) (some 7)] := by decide +kernel
  obtain ⟨s, hs, hevents⟩ := Option.map_eq_some_iff.mp hrun
  obtain ⟨k, hk, hs⟩ := Option.bind_eq_some_iff.mp hs
  have hreach := reach_of_exec hs
  exact ⟨k, s, hk, hreach, hevents, (reach_processTree hk hreach).2.2.1 1⟩

end CS352.Mlfq
