import CS352.Verification.Shell.Processes

/-! # Waiting for children

A process waits for the children that it has forked, except for one in the background, and for
no more. So the command after a `;` starts when the process of the one before it has exited, and
the processes of a command never wait for each other without end. -/

namespace CS352.Shell

open Transition

variable {root : Cmd (List Char)} {s s' : State} {q q' x : Process} {l r procs : List Process}
  {i j : ℕ}

/-! ## The children of each process -/

/-- How many children a process has: those that it will still wait for, less those that it will
still fork. -/
def owed : Code → ℕ
  | .close _ next | .dup _ next | .openFile _ _ next => owed next
  | .wait next => owed next + 1
  | .fork _ next => owed next - 1
  | _ => 0

/-- A fork is followed by a wait, or by the end of the process. -/
def Balanced : Code → Prop
  | .close _ next | .dup _ next | .openFile _ _ next | .wait next => Balanced next ∧ next ≠ .gone
  | .fork child next => (Balanced child ∧ child.live = true ∧ owed child = 0) ∧
      (Balanced next ∧ next ≠ .gone) ∧ (next.live = true → 0 < owed next)
  | _ => True

/-- A child comes after its parent, until its parent has waited for it. -/
structure Lineage (procs : List Process) : Prop where
  balanced : ∀ x ∈ procs, Balanced x.code
  older : ∀ (j : ℕ) (x : Process) (i : ℕ), procs[j]? = some x → x.parent = some i → i < j
  gone : ∀ x ∈ procs, x.code = .gone → x.parent = none

/-- How many processes have the parent `i`. -/
def children (procs : List Process) (i : ℕ) : ℕ :=
  procs.countP fun x : Process => x.parent = some i

/-- Every process has the children that its code needs. -/
def Counted (procs : List Process) : Prop :=
  ∀ i q, procs[i]? = some q → q.code.live = true → children procs i = owed q.code

theorem set_split (hs : procs = l ++ q :: r) :
    procs[l.length]? = some q ∧ ∀ q', l ++ q' :: r = procs.set l.length q' := by
  subst hs
  simp

theorem Lineage.set (h : Lineage procs) (hq : procs[i]? = some q)
    (hparent : q'.parent = none ∨ q'.parent = q.parent) (hbalanced : Balanced q'.code)
    (hgone : q'.code = .gone → q'.parent = none) : Lineage (procs.set i q') := by
  refine ⟨?_, ?_, ?_⟩
  · intro x hx
    rcases List.mem_or_eq_of_mem_set hx with hx | rfl
    · exact h.balanced x hx
    · exact hbalanced
  · intro j x k hx hk
    rw [List.getElem?_set] at hx
    split_ifs at hx with hij hlt
    · cases hx
      subst hij
      rcases hparent with hnone | hsame
      · rw [hnone] at hk
        cases hk
      · exact h.older i q k hq (hsame ▸ hk)
    · exact h.older j x k hx hk
  · intro x hx
    rcases List.mem_or_eq_of_mem_set hx with hx | rfl
    · exact h.gone x hx
    · exact hgone

theorem children_eq_zero : children procs i = 0 ↔ ∀ x ∈ procs, x.parent ≠ some i := by
  simp [children, List.countP_eq_zero]

theorem children_append (l r : List Process) (i : ℕ) :
    children (l ++ r) i = children l i + children r i :=
  List.countP_append

theorem children_set (q' : Process) (hq : procs[i]? = some q) (k : ℕ) :
    children (procs.set i q') k + (if q.parent = some k then 1 else 0) =
      children procs k + if q'.parent = some k then 1 else 0 := by
  obtain ⟨l, r, rfl, -, hset⟩ := exists_split hq
  rw [hset]
  simp only [children, List.countP_append, List.countP_cons, decide_eq_true_eq]
  omega

theorem children_set_of_parent (q' : Process) (hq : procs[i]? = some q)
    (hparent : q'.parent = q.parent) (k : ℕ) :
    children (procs.set i q') k = children procs k := by
  have hset := children_set q' hq k
  rw [hparent] at hset
  exact Nat.add_right_cancel hset

/-- A process changes, and not its parent. -/
theorem Counted.set (h : Counted procs) (hq : procs[i]? = some q)
    (hparent : q'.parent = q.parent)
    (hcount : q'.code.live = true → children procs i = owed q'.code) :
    Counted (procs.set i q') := by
  intro k x hx hlive
  rw [children_set_of_parent q' hq hparent]
  rw [List.getElem?_set] at hx
  split_ifs at hx with hik hlt
  · cases hx
    exact hik ▸ hcount hlive
  · exact h k x hx hlive

theorem Lineage.fork (h : Lineage procs) (hbalanced : Balanced x.code)
    (hparent : x.parent = some i) (hi : i < procs.length) (hgone : x.code ≠ .gone) :
    Lineage (procs ++ [x]) := by
  refine ⟨?_, ?_, ?_⟩
  · intro y hy
    rcases List.mem_append.mp hy with hy | hy
    · exact h.balanced y hy
    · rwa [List.mem_singleton.mp hy]
  · intro j y k hy hk
    rcases lt_or_ge j procs.length with hlt | hge
    · rw [List.getElem?_append_left hlt] at hy
      exact h.older j y k hy hk
    · rw [List.getElem?_append_right hge] at hy
      rw [List.getElem?_singleton, Option.ite_none_right_eq_some] at hy
      obtain ⟨-, hy⟩ := hy
      cases hy
      rw [hparent] at hk
      cases hk
      omega
  · intro y hy hcode
    rcases List.mem_append.mp hy with hy | hy
    · exact h.gone y hy hcode
    · rw [List.mem_singleton.mp hy] at hcode
      exact absurd hcode hgone

/-- The new process is a child of the process `i`, and has no children itself. -/
theorem Counted.fork (h : Lineage procs) (hcount : ∀ k y, procs[k]? = some y →
      y.code.live = true → children procs k + (if k = i then 1 else 0) = owed y.code)
    (hparent : x.parent = some i) (hi : i < procs.length) (howed : owed x.code = 0) :
    Counted (procs ++ [x]) := by
  intro k y hy hlive
  have hnew : children [x] k = if k = i then 1 else 0 := by
    simp [children, hparent, eq_comm]
  rw [children_append, hnew]
  rcases lt_or_ge k procs.length with hlt | hge
  · rw [List.getElem?_append_left hlt] at hy
    exact hcount k y hy hlive
  · rw [List.getElem?_append_right hge, List.getElem?_singleton,
      Option.ite_none_right_eq_some] at hy
    obtain ⟨-, hy⟩ := hy
    cases hy
    have hnone : children procs k = 0 := children_eq_zero.mpr fun z hz hzk => by
      obtain ⟨j, hj, rfl⟩ := List.mem_iff_getElem.mp hz
      have := h.older j _ k (List.getElem?_eq_getElem hj) hzk
      omega
    rw [hnone, if_neg (by omega), howed]

theorem reparent_code (pid : ℕ) (q : Process) : (q.reparent pid).code = q.code := by
  unfold Process.reparent
  split_ifs <;> rfl

theorem reparent_parent (pid : ℕ) (q : Process) :
    (q.reparent pid).parent = some i ↔ q.parent = some i ∧ i ≠ pid := by
  unfold Process.reparent
  split_ifs with hpid
  · simp [hpid, eq_comm]
  · refine ⟨fun hi => ⟨hi, ?_⟩, And.left⟩
    rintro rfl
    exact hpid hi

/-- A process that has exited leaves its children to `init`. -/
theorem Lineage.reparent (h : Lineage procs) (pid : ℕ) : Lineage (procs.map (·.reparent pid)) := by
  refine ⟨?_, ?_, ?_⟩
  · intro y hy
    obtain ⟨x, hx, rfl⟩ := List.mem_map.mp hy
    rw [reparent_code]
    exact h.balanced x hx
  · intro j y i hy hi
    rw [List.getElem?_map] at hy
    obtain ⟨x, hx, rfl⟩ := Option.map_eq_some_iff.mp hy
    exact h.older j x i hx ((reparent_parent pid x).mp hi).1
  · intro y hy hcode
    obtain ⟨x, hx, rfl⟩ := List.mem_map.mp hy
    rw [reparent_code] at hcode
    simp [Process.reparent, h.gone x hx hcode]

theorem Counted.reparent (h : Counted procs) (hpid : procs[i]? = some q)
    (hexited : q.code.live = false) : Counted (procs.map (·.reparent i)) := by
  intro k y hy hlive
  rw [List.getElem?_map] at hy
  obtain ⟨x, hx, rfl⟩ := Option.map_eq_some_iff.mp hy
  rw [reparent_code] at hlive ⊢
  have hne : k ≠ i := by
    rintro rfl
    rw [hpid] at hx
    cases hx
    rw [hexited] at hlive
    cases hlive
  rw [← h k x hx hlive, children, List.countP_map]
  refine List.countP_congr fun z _ => ?_
  simp [reparent_parent, hne]

theorem enter_balanced (q : Process) (cmd : Cmd (List Char)) (ok : Bool) (k : ℕ) :
    (q.enter cmd ok k).1.parent = q.parent ∧ Balanced (q.enter cmd ok k).1.code ∧
      (q.enter cmd ok k).1.code ≠ .gone ∧
      ((q.enter cmd ok k).1.code.live = true → owed (q.enter cmd ok k).1.code = 0) := by
  cases cmd with
  | exec argv => cases argv <;> simp [Process.enter, Process.stop, Balanced, owed]
  | redir cmd file mode fd => simp [Process.enter, Balanced, owed]
  | list left right => simp [Process.enter, Balanced, owed, Code.live]
  | back cmd => simp [Process.enter, Balanced, owed, Code.live]
  | pipe left right =>
    simp only [Process.enter]
    split <;> simp [Process.stop, pipeCode, Balanced, owed, Code.live]

theorem Moves.balanced (h : Moves q q') (hbalanced : Balanced q.code) :
    q'.parent = q.parent ∧ Balanced q'.code ∧ q'.code ≠ .gone ∧ q.code.live = true ∧
      (q'.code.live = true → owed q'.code = owed q.code) := by
  cases h with
  | close h | dup h | openFile h =>
    rw [h] at hbalanced ⊢
    exact ⟨rfl, hbalanced.1, hbalanced.2, rfl, fun _ => rfl⟩
  | exec h =>
    rw [h]
    exact ⟨rfl, trivial, by simp, rfl, fun _ => rfl⟩
  | stop status h => exact ⟨rfl, trivial, by simp [Process.stop], h, nofun⟩

/-- What every step keeps. -/
def Family (s : State) : Prop := Lineage s.procs ∧ Counted s.procs

/-- A process changes, and neither its parent nor its children. -/
theorem Family.set (h : Family s) (q' : Process) (hq : s.procs[i]? = some q)
    (hparent : q'.parent = q.parent)
    (hbalanced : Balanced q'.code) (hgone : q'.code ≠ .gone)
    (hcount : q'.code.live = true → children s.procs i = owed q'.code) (n : ℕ) :
    Family ⟨s.procs.set i q', n⟩ :=
  ⟨h.1.set hq (.inr hparent) hbalanced (absurd · hgone), h.2.set hq hparent hcount⟩

theorem Family.fork {child next : Code} (h : Family s) (hq : s.procs[i]? = some q)
    (hcode : q.code = .fork child next) (n : ℕ) :
    Family ⟨s.procs.set i { q with code := next } ++ [⟨some i, q.node, child, q.fds⟩], n⟩ := by
  have hlt : i < s.procs.length := (List.getElem?_eq_some_iff.mp hq).1
  have hbalanced := h.1.balanced q (List.mem_of_getElem? hq)
  rw [hcode] at hbalanced
  obtain ⟨⟨hchild, hlive, howed⟩, ⟨hnext, hgone⟩, hpos⟩ := hbalanced
  have hlineage : Lineage (s.procs.set i { q with code := next }) :=
    h.1.set hq (.inr rfl) hnext (absurd · hgone)
  refine ⟨hlineage.fork hchild rfl (by simpa) ?_, Counted.fork hlineage ?_ rfl (by simpa) howed⟩
  · rintro rfl
    cases hlive
  · intro k y hy hy'
    rw [children_set_of_parent { q with code := next } hq rfl]
    rw [List.getElem?_set] at hy
    split_ifs at hy with hik
    · cases hy
      subst hik
      have hcount := h.2 i q hq (by rw [hcode]; rfl)
      have := hpos hy'
      rw [hcode, owed] at hcount
      rw [if_pos rfl, hcount]
      exact Nat.sub_add_cancel this
    · rw [if_neg (Ne.symm hik), h.2 k y hy hy', Nat.add_zero]

theorem Family.reap {child : ℕ} {next : Code} (h : Family s) (hq : s.procs[i]? = some q)
    (hcode : q.code = .wait next) (hx : s.procs[child]? = some x) (hparent : x.parent = some i)
    (n : ℕ) : Family ⟨(s.procs.set child { x with parent := none, code := .gone }).set i
      { q with code := next }, n⟩ := by
  have hlt : i < child := h.1.older child x i hx hparent
  have hbalanced := h.1.balanced q (List.mem_of_getElem? hq)
  rw [hcode] at hbalanced
  have hq' : (s.procs.set child { x with parent := none, code := .gone })[i]? = some q := by
    rwa [List.getElem?_set_ne (by omega)]
  have hgone : Lineage (s.procs.set child { x with parent := none, code := .gone }) :=
    h.1.set hx (.inl rfl) trivial fun _ => rfl
  refine ⟨hgone.set hq' (.inr rfl) hbalanced.1 (absurd · hbalanced.2), ?_⟩
  intro k y hy hlive
  have hset := children_set { x with parent := none, code := .gone } hx k
  rw [hparent, if_neg (Option.some_ne_none k).symm, Nat.add_zero] at hset
  change children (List.set _ _ _) k = _
  rw [children_set_of_parent { q with code := next } hq' rfl]
  rw [List.getElem?_set] at hy
  split_ifs at hy with hik
  · cases hy
    subst hik
    have hcount := h.2 i q hq (by rw [hcode]; rfl)
    rw [if_pos rfl, hcount, hcode, owed] at hset
    exact Nat.add_right_cancel hset
  · rw [List.getElem?_set] at hy
    split_ifs at hy with hchild
    · cases hy
      cases hlive
    · rw [if_neg (by simpa using hik), h.2 k y hy hlive] at hset
      exact hset

theorem family_step {a : Action} (h : Family s) (hstep : step s a = some s') : Family s' := by
  cases effect_of_step hstep with
  | move hs hmove =>
    obtain ⟨hq, hset⟩ := set_split hs
    obtain ⟨hparent, hbalanced, hgone, hlive, howed⟩ :=
      hmove.balanced (h.1.balanced _ (List.mem_of_getElem? hq))
    rw [hset]
    exact h.set _ hq hparent hbalanced hgone
      (fun hl => (h.2 _ _ hq hlive).trans (howed hl).symm) _
  | @runcmd l q r side cmd ok hs hcode =>
    obtain ⟨hq, hset⟩ := set_split hs
    obtain ⟨hparent, hbalanced, hgone, howed⟩ :=
      enter_balanced { q with node := side :: q.node } cmd ok s.nextPipe
    rw [hset]
    refine h.set _ hq hparent hbalanced hgone (fun hl => ?_) _
    rw [howed hl, h.2 _ _ hq (by rw [hcode]; rfl), hcode]
    rfl
  | fork hs hcode =>
    obtain ⟨hq, hset⟩ := set_split hs
    rw [← List.cons_append, ← List.append_assoc, hset]
    exact h.fork hq hcode _
  | wait hs hcode hnone =>
    obtain ⟨hq, hset⟩ := set_split hs
    have hcount := h.2 _ _ hq (by rw [hcode]; rfl)
    rw [children_eq_zero.mpr hnone, hcode, owed] at hcount
    omega
  | @exit l q r status hs hcode =>
    obtain ⟨hq, hset⟩ := set_split hs
    rw [hset]
    have hfamily := h.set { q with code := .zombie, fds := fun _ => none } hq rfl trivial nofun
      nofun s.nextPipe
    exact ⟨hfamily.1.reparent _, hfamily.2.reparent (List.getElem?_set_self
      (List.getElem?_eq_some_iff.mp hq).1) rfl⟩
  | reap hs hcode hx hparent hzombie => exact h.reap (set_split hs).1 hcode hx hparent _

theorem family_start (root : Cmd (List Char)) : Family (start root) := by
  refine ⟨⟨by simp [start, Balanced], ?_, by simp [start]⟩, ?_⟩
  · intro j x i hx hi
    rw [start, List.getElem?_singleton, Option.ite_none_right_eq_some] at hx
    cases hx.2
    cases hi
  · intro i q hq _
    rw [start, List.getElem?_singleton, Option.ite_none_right_eq_some] at hq
    cases hq.2
    simp [start, children, owed]

theorem family_of_reach (h : Reach step (start root) s) : Family s :=
  h.invariant (family_start root) fun _ _ _ hf _ hs => family_step hf hs

/-! ## Every run ends -/

/-- A bound on the steps that a command takes. -/
def cmdWork : Cmd (List Char) → ℕ
  | .exec _ => 4
  | .redir cmd _ _ _ => cmdWork cmd + 9
  | .pipe left right => cmdWork left + cmdWork right + 50
  | .list left right => cmdWork left + cmdWork right + 12
  | .back cmd => cmdWork cmd + 8

/-- A bound on the steps that are left for a process and for those that it will fork. -/
def work : Code → ℕ
  | .runcmd _ cmd => cmdWork cmd + 3
  | .close _ next | .dup _ next | .openFile _ _ next | .wait next => work next + 3
  | .fork child next => work child + work next + 3
  | .exec _ => 4
  | .program _ => 3
  | .exit _ => 2
  | .zombie => 1
  | .gone => 0

def allWork : List Process → ℕ
  | [] => 0
  | x :: procs => work x.code + allWork procs

theorem allWork_append (l r : List Process) : allWork (l ++ r) = allWork l + allWork r := by
  induction l with
  | nil => simp [allWork]
  | cons x l ih =>
    rw [List.cons_append, allWork, allWork, ih, Nat.add_assoc]

theorem allWork_reparent (pid : ℕ) (procs : List Process) :
    allWork (procs.map (·.reparent pid)) = allWork procs := by
  induction procs with
  | nil => rfl
  | cons x procs ih => rw [List.map_cons, allWork, allWork, ih, reparent_code]

theorem allWork_set (q' : Process) (hq : procs[i]? = some q) :
    allWork (procs.set i q') + work q.code = allWork procs + work q'.code := by
  obtain ⟨l, r, rfl, -, hset⟩ := exists_split hq
  rw [hset]
  rw [allWork_append, allWork_append, allWork, allWork]
  omega

theorem Moves.work_lt (h : Moves q q') : work q'.code < work q.code := by
  cases h with
  | close h | dup h | openFile h | exec h => simp [h, work]
  | stop status h =>
    cases hcode : q.code with
    | exit | zombie | gone => simp [hcode, Code.live] at h
    | _ => simp [Process.stop, work]

theorem enter_work (q : Process) (cmd : Cmd (List Char)) (ok : Bool) (k : ℕ) :
    work (q.enter cmd ok k).1.code ≤ cmdWork cmd := by
  cases cmd with
  | exec argv => cases argv <;> simp [Process.enter, Process.stop, work, cmdWork]
  | redir cmd file mode fd => simp [Process.enter, work, cmdWork]
  | list left right =>
    simp only [Process.enter, work, cmdWork]
    omega
  | back cmd => simp [Process.enter, work, cmdWork]
  | pipe left right =>
    simp only [Process.enter]
    split <;> simp only [Process.stop, pipeCode, work, cmdWork] <;> omega

theorem allWork_lt (hq : procs[i]? = some q) (hlt : work q'.code < work q.code) :
    allWork (procs.set i q') < allWork procs := by
  have := allWork_set q' hq
  omega

/-- Every step takes something from the work that is left. -/
theorem step_work {a : Action} (hstep : step s a = some s') :
    allWork s'.procs < allWork s.procs := by
  cases effect_of_step hstep with
  | move hs hmove =>
    obtain ⟨hq, hset⟩ := set_split hs
    rw [hset]
    exact allWork_lt hq hmove.work_lt
  | @runcmd l q r side cmd ok hs hcode =>
    obtain ⟨hq, hset⟩ := set_split hs
    rw [hset]
    refine allWork_lt hq ((enter_work _ cmd ok s.nextPipe).trans_lt ?_)
    rw [hcode, work]
    omega
  | @fork l q r child next hs hcode =>
    obtain ⟨hq, hset⟩ := set_split hs
    rw [← List.cons_append, ← List.append_assoc, hset]
    have hwork := allWork_set { q with code := next } hq
    rw [hcode, work] at hwork
    rw [allWork_append, allWork, allWork]
    change _ = allWork s.procs + work next at hwork
    dsimp only
    omega
  | @wait l q r next hs hcode hnone =>
    obtain ⟨hq, hset⟩ := set_split hs
    rw [hset]
    refine allWork_lt hq ?_
    rw [hcode, work]
    exact Nat.lt_add_of_pos_right (by decide)
  | exit hs hcode =>
    obtain ⟨hq, hset⟩ := set_split hs
    rw [hset, allWork_reparent]
    refine allWork_lt hq ?_
    rw [hcode]
    exact Nat.lt_succ_self 1
  | @reap l q r next child x hs hcode hx hparent hzombie =>
    obtain ⟨hq, -⟩ := set_split hs
    have hne : child ≠ l.length := by
      rintro rfl
      rw [hq] at hx
      cases hx
      rw [hcode] at hzombie
      cases hzombie
    have hchild : allWork (s.procs.set child { x with parent := none, code := .gone }) <
        allWork s.procs := allWork_lt hx (by rw [hzombie]; exact Nat.one_pos)
    refine lt_trans (allWork_lt (by rwa [List.getElem?_set_ne hne]) ?_) hchild
    rw [hcode, work]
    exact Nat.lt_add_of_pos_right (by decide)

theorem exec_work {actions : List Action} (h : exec step s actions = some s') :
    actions.length + allWork s'.procs ≤ allWork s.procs := by
  induction actions generalizing s with
  | nil =>
    cases h
    simp
  | cons a actions ih =>
    obtain ⟨t, ht, h⟩ := Option.bind_eq_some_iff.mp h
    have hstep := step_work ht
    have hrest := ih h
    rw [List.length_cons]
    omega

/-! ## Nothing waits without end -/

/-- The process is about to run a command, or runs a program. -/
def Code.running : Code → Bool
  | .runcmd _ _ | .exec _ | .program _ => true
  | _ => false

theorem Family.running (h : Family s) (hq : s.procs[i]? = some q)
    (hrunning : q.code.running = true) : ∀ x ∈ s.procs, x.parent ≠ some i := by
  rw [← children_eq_zero, h.2 i q hq]
  all_goals
    cases hcode : q.code with
    | runcmd | exec | program => rfl
    | _ => simp [hcode, Code.running] at hrunning

theorem Family.waiting {next : Code} (h : Family s) (hq : s.procs[i]? = some q)
    (hcode : q.code = .wait next) :
    ∃ (j : ℕ) (x : Process), i < j ∧ s.procs[j]? = some x ∧ x.parent = some i ∧ x.code ≠ .gone := by
  have hcount := h.2 i q hq (by rw [hcode]; rfl)
  rw [hcode, owed] at hcount
  have hpos : 0 < children s.procs i := hcount ▸ Nat.succ_pos _
  obtain ⟨x, hx, hparent⟩ := List.countP_pos_iff.mp hpos
  rw [decide_eq_true_iff] at hparent
  obtain ⟨j, hj, rfl⟩ := List.mem_iff_getElem.mp hx
  have hj := List.getElem?_eq_getElem hj
  refine ⟨j, _, h.1.older j _ i hj hparent, hj, hparent, fun hgone => ?_⟩
  rw [h.1.gone _ hx hgone] at hparent
  cases hparent

theorem call_isSome (hq : s.procs[i]? = some q) (hzombie : q.code ≠ .zombie)
    (hgone : q.code ≠ .gone) (hwait : ∀ next, q.code ≠ .wait next) :
    (step s (.call i true)).isSome := by
  rw [step, hq, Option.bind_some, call]
  cases hcode : q.code with
  | wait next => exact absurd hcode (hwait next)
  | zombie => exact absurd hcode hzombie
  | gone => exact absurd hcode hgone
  | openFile file mode next =>
    dsimp only
    split <;> rfl
  | _ => rfl

/-- A process that has not exited can go on, or one of its descendants can. -/
theorem Family.progress (h : Family s) (hq : s.procs[i]? = some q) (hzombie : q.code ≠ .zombie)
    (hgone : q.code ≠ .gone) : ∃ a, (step s a).isSome := by
  -- a child comes after its parent, so the induction is on the processes that come after `i`
  induction hn : s.procs.length - i using Nat.strong_induction_on generalizing i q with
  | _ n ih =>
  by_cases hwait : ∃ next, q.code = .wait next
  · obtain ⟨next, hcode⟩ := hwait
    obtain ⟨j, x, hlt, hx, hparent, hxgone⟩ := h.waiting hq hcode
    by_cases hxzombie : x.code = .zombie
    · refine ⟨.reap i j, ?_⟩
      simp [step, Shell.reap, hq, hx, hcode, hparent, hxzombie]
    · have hj : j < s.procs.length := (List.getElem?_eq_some_iff.mp hx).1
      exact ih _ (by omega) hx hxzombie hxgone rfl
  · exact ⟨.call i true, call_isSome hq hzombie hgone fun next hcode => hwait ⟨next, hcode⟩⟩

/-- A program counts as one step that exits. Then every run of a command ends, after a number of
steps that its length bounds, and until all of its processes have exited one of them can go on.
A process that runs a command has no children, so the right side of a `;` starts when the process
of the left side has exited, and a process waits only when it has a child. -/
theorem exec_ends {actions : List Action} (h : exec step (start root) actions = some s) :
    actions.length ≤ cmdWork root + 3 ∧
      ((∀ q ∈ s.procs, q.code = .zombie ∨ q.code = .gone) ∨ ∃ a, (step s a).isSome) ∧
      (∀ i q, s.procs[i]? = some q → q.code.running = true →
        ∀ x ∈ s.procs, x.parent ≠ some i) ∧
      ∀ i q next, s.procs[i]? = some q → q.code = .wait next →
        ∃ x ∈ s.procs, x.parent = some i := by
  have hfamily := family_of_reach (reach_of_exec h)
  refine ⟨?_, ?_, fun i q hq => hfamily.running hq, ?_⟩
  · have hwork := exec_work h
    simp only [start, allWork, work] at hwork
    omega
  · by_cases hall : ∀ q ∈ s.procs, q.code = .zombie ∨ q.code = .gone
    · exact .inl hall
    · push Not at hall
      obtain ⟨q, hq, hzombie, hgone⟩ := hall
      obtain ⟨i, hi, rfl⟩ := List.mem_iff_getElem.mp hq
      exact .inr (hfamily.progress (List.getElem?_eq_getElem hi) hzombie hgone)
  · intro i q next hq hcode
    obtain ⟨j, x, -, hx, hparent, -⟩ := hfamily.waiting hq hcode
    exact ⟨x, List.mem_of_getElem? hx, hparent⟩

theorem exec_ends_list : ∃ s, exec step (start (.list (.exec [['a']]) (.exec [['b']])))
      [.call 0 true, .call 0 true, .call 1 true, .call 1 true, .call 1 true, .call 1 true,
        .reap 0 1, .call 0 true, .call 0 true] = some s ∧
    s.procs.map (·.code) = [.program [['b']], .gone] ∧
    ((∀ q ∈ s.procs, q.code = .zombie ∨ q.code = .gone) ∨ ∃ a, (step s a).isSome) := by
  have hrun : (exec step (start (.list (.exec [['a']]) (.exec [['b']])))
      [.call 0 true, .call 0 true, .call 1 true, .call 1 true, .call 1 true, .call 1 true,
        .reap 0 1, .call 0 true, .call 0 true]).map (fun s => s.procs.map (·.code)) =
      some [.program [['b']], .gone] := by decide +kernel
  obtain ⟨s, hs, hcodes⟩ := Option.map_eq_some_iff.mp hrun
  exact ⟨s, hs, hcodes, (exec_ends hs).2.1⟩

end CS352.Shell
