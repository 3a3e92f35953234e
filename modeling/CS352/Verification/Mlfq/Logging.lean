import CS352.Verification.Mlfq.SwitchLog

/-! # Races on the log

The lines that use the log are not atomic. They record what they should as long as no two harts
are in them at a time and no two processes are in `sys_startlog`. -/

namespace CS352.Mlfq

open Transition Function

variable {k k' : Kernel} {p x : ℕ}

/-! ## Operations that leave the log alone -/

theorem callsSched_switchLog {a : Action} (h : callsSched k p a = some k') :
    k'.switchLog = k.switchLog := by
  cases a with
  | yield =>
    cases h
    exact yield_switchLog
  | sleep chan =>
    cases h
    exact sleep_switchLog chan
  | exit status => exact exit_switchLog h
  | wait addr copyoutOk =>
    have hwait := wait_switchLog (k := k) (p := p) addr copyoutOk
    rw [callsSched] at h
    split at h
    next heq =>
      cases h
      rwa [heq] at hwait
    next => cases h
  | _ => cases h

/-- An operation that is not about the log and does not end in `sched` leaves the log alone. -/
theorem step_quiet {me : Option ℕ} {a : Action} {m : Machine} (h : step ⟨k, me⟩ a = some m)
    (hboot : ∀ mem, a ≠ .userinit mem) (ha : a ≠ .schedule ∧ a ≠ .startlog ∧ a ≠ .tick)
    (hsched : ∀ p, me = some p → callsSched k p a = none) :
    m.kernel.switchLog = k.switchLog ∧ m.cpu = me := by
  cases a with
  | userinit mem => exact absurd rfl (hboot mem)
  | fork mem =>
    obtain ⟨p, rfl, rfl⟩ := Option.map_eq_some_iff.mp h
    exact ⟨fork_switchLog mem, rfl⟩
  | yield | sleep chan =>
    obtain ⟨p, rfl, -⟩ := Option.map_eq_some_iff.mp h
    cases hsched p rfl
  | wakeup chan =>
    cases h
    refine ⟨?_, rfl⟩
    dsimp only
    exact wakeup_switchLog me chan
  | kill pid =>
    obtain ⟨p, rfl, rfl⟩ := Option.map_eq_some_iff.mp h
    exact ⟨kill_switchLog pid, rfl⟩
  | exit status =>
    obtain ⟨p, rfl, hexit⟩ := Option.bind_eq_some_iff.mp h
    obtain ⟨k', hk, -⟩ := Option.map_eq_some_iff.mp hexit
    cases (hsched p rfl).symm.trans hk
  | wait addr copyoutOk =>
    obtain ⟨p, rfl, rfl⟩ := Option.map_eq_some_iff.mp h
    have hwait := wait_switchLog (k := k) (p := p) addr copyoutOk
    have hsome := hsched p rfl
    rw [callsSched] at hsome
    dsimp only
    generalize wait k p addr copyoutOk = r at hwait hsome
    obtain ⟨k', result⟩ := r
    cases result with
    | some v => exact ⟨hwait, rfl⟩
    | none => cases hsome
  | setNice v =>
    obtain ⟨p, rfl, rfl⟩ := Option.map_eq_some_iff.mp h
    exact ⟨assignNice_switchLog v, rfl⟩
  | startlog => exact absurd rfl ha.2.1
  | tick => exact absurd rfl ha.2.2
  | schedule => exact absurd rfl ha.1

/-! ## What is left to do -/

/-- The kernel when the hart at `pc` is through, if no other hart is in these lines. -/
def finish (k : Kernel) : Option LogPc → Kernel
  | some (.loadCount _ pid) => offer k pid
  | some (.testPid _ pid n) =>
    if (k.schedlog (n - 1)).pid ≠ pid ∧ n < logSize then storeEntry k n ⟨pid, k.time⟩ else k
  | some (.storePid _ pid n) => storeEntry k n ⟨pid, k.time⟩
  | some (.loadTime _ n) => storeEntry k n ⟨(k.schedlog n).pid, k.time⟩
  | some (.storeTime _ n t) => storeEntry k n ⟨(k.schedlog n).pid, t⟩
  | some (.storeCount _ n) => { k with numLogged := int (n + 1) }
  | _ => k

theorem storeEntry_setEntry (k : Kernel) (n : ℤ) (e e' : LogEntry) :
    storeEntry (k.setEntry n e) n e' = storeEntry k n e' := by
  simp [storeEntry, Kernel.setEntry]

/-- What is left to do depends on the log only. -/
theorem finish_congr {pc : Option LogPc} (hk : k'.switchLog = k.switchLog) :
    (finish k' pc).switchLog = (finish k pc).switchLog := by
  have hfields := hk
  simp only [Kernel.switchLog, Prod.mk.injEq] at hfields
  obtain ⟨hlog, hnum, his, htime⟩ := hfields
  have hstore : ∀ n e, (storeEntry k' n e).switchLog = (storeEntry k n e).switchLog := by
    intro n e
    simp only [Kernel.switchLog, storeEntry, Kernel.setEntry, hlog, his, htime]
  cases pc with
  | none => exact hk
  | some c =>
    cases c with
    | testLogging p pid | release p | storeTick t => exact hk
    | loadCount p pid =>
      simp only [finish, offer, hlog, hnum, htime]
      split
      · exact hstore _ _
      · exact hk
    | testPid p pid n =>
      simp only [finish, hlog, htime]
      split
      · exact hstore _ _
      · exact hk
    | storePid p pid n | loadTime p n | storeTime p n t =>
      simp only [finish, hlog, htime]
      exact hstore _ _
    | storeCount p n => simp only [finish, Kernel.switchLog, hlog, his, htime]

theorem finish_fields (k : Kernel) (pc : Option LogPc) :
    (finish k pc).isLogging = k.isLogging ∧ (finish k pc).time = k.time := by
  unfold finish offer
  split
  · split <;> exact ⟨rfl, rfl⟩
  · split <;> exact ⟨rfl, rfl⟩
  all_goals exact ⟨rfl, rfl⟩

/-- The store of `sys_startlog` does not change what is left to do. -/
theorem sysStartlog_finish (hlog : k.isLogging = false) (pc : Option LogPc) :
    sysStartlog (finish k pc) = (finish { k with isLogging := true } pc, 0) := by
  have hoff : (finish k pc).isLogging ≠ true := by simp [(finish_fields k pc).1, hlog]
  rw [sysStartlog, if_neg hoff, Prod.mk.injEq]
  refine ⟨?_, rfl⟩
  cases pc with
  | none => rfl
  | some c =>
    cases c with
    | loadCount p pid | testPid p pid n =>
      simp only [finish, offer]
      split <;> rfl
    | _ => rfl

/-- The values in the registers. -/
def Registers (k : Kernel) : Option LogPc → Prop
  | some (.testPid _ _ n) => n = k.numLogged ∧ n ≠ 0
  | some (.storePid _ _ n) | some (.loadTime _ n) | some (.storeTime _ n _)
  | some (.storeCount _ n) => n = k.numLogged ∧ n < logSize
  | some (.storeTick t) => t = k.time
  | _ => True

/-! ## Runs without overlap -/

section

variable {ι : Type*} [DecidableEq ι] {s t : LogHarts ι} {h : ι} {pc : Option LogPc}

/-- A hart enters these lines only if no hart is in them, and a process enters `sys_startlog`
only if no process is between the load and the store there. -/
def NoOverlap (s : LogHarts ι) : ι × LogAction → Prop
  | (_, .leave _) | (_, .tick) => ∀ h, s.pc h = none
  | (_, .startlog) => s.starting = []
  | _ => True

/-- At most one hart is in these lines, at `pc`. -/
def Current (s : LogHarts ι) : Option LogPc → Prop
  | none => ∀ h, s.pc h = none
  | some c => ∃ h, s.pc h = some c ∧ ∀ h', h' ≠ h → s.pc h' = none

theorem current_goTo (hother : ∀ h', h' ≠ h → s.pc h' = none)
    (hpc : t.pc = update s.pc h pc) : Current t pc := by
  have hother' : ∀ h', h' ≠ h → t.pc h' = none := by
    intro h' hh
    rw [hpc, update_of_ne hh, hother h' hh]
  have hself : t.pc h = pc := by rw [hpc, update_self]
  cases pc with
  | some c => exact ⟨h, hself, hother'⟩
  | none =>
    intro h'
    by_cases hh : h' = h
    · rw [hh, hself]
    · exact hother' h' hh

omit [DecidableEq ι] in
theorem Current.eq_none (hc : Current s pc) (hall : ∀ h, s.pc h = none) : pc = none := by
  cases pc with
  | none => rfl
  | some c =>
    obtain ⟨h, hpc, -⟩ := hc
    simp [hall h] at hpc

theorem Current.others {c : LogPc} (hc : Current s pc) (hpc : s.pc h = some c) :
    pc = some c ∧ ∀ h', h' ≠ h → s.pc h' = none := by
  cases pc with
  | none => simp [hc h] at hpc
  | some d =>
    obtain ⟨h₀, hd, hother⟩ := hc
    have hh : h = h₀ := by
      by_contra hne
      simp [hother h hne] at hpc
    subst hh
    exact ⟨hd.symm.trans hpc, hother⟩

structure LogInv (s : LogHarts ι) (pc : Option LogPc) : Prop where
  good : LogGood (finish s.harts.kernel pc) s.returned s.ticks s.startlogs
  count : 0 ≤ s.harts.kernel.numLogged ∧ s.harts.kernel.numLogged ≤ logSize
  registers : Registers s.harts.kernel pc
  starting : s.starting.length ≤ 1
  off : s.starting ≠ [] → s.harts.kernel.isLogging = false

omit [DecidableEq ι] in
theorem logInv_boot {mem : Memory} (hk : userinit bootKernel mem = some k) :
    LogInv (startLogHarts k : LogHarts ι) none := by
  have hgood := logGood_boot hk
  exact ⟨hgood, ⟨hgood.nonneg, hgood.le⟩, trivial, Nat.zero_le _, fun h => absurd rfl h⟩

/-- One access goes on with what is left to do. -/
theorem LogInv.next {c : LogPc} (hi : LogInv s pc) (hc : Current s pc) (hpc : s.pc h = some c) :
    ∃ pc', Current (nextAccess s h c) pc' ∧ LogInv (nextAccess s h c) pc' := by
  obtain ⟨rfl, hother⟩ := hc.others hpc
  obtain ⟨hgood, hcount, hregs, hone, hoff⟩ := hi
  -- an access after which the same is left to do
  have hmove : ∀ {t : LogHarts ι} {pc'}, t.pc = update s.pc h pc' →
      (t.returned, t.ticks, t.startlogs, t.starting) =
        (s.returned, s.ticks, s.startlogs, s.starting) →
      t.harts.kernel.isLogging = s.harts.kernel.isLogging →
      finish t.harts.kernel pc' = finish s.harts.kernel (some c) →
      0 ≤ t.harts.kernel.numLogged ∧ t.harts.kernel.numLogged ≤ logSize →
      Registers t.harts.kernel pc' → ∃ pc', Current t pc' ∧ LogInv t pc' := by
    intro t pc' hpc' hsame his hfinish hcount' hregs'
    simp only [Prod.mk.injEq] at hsame
    obtain ⟨hret, hticks, hcalls, hstart⟩ := hsame
    refine ⟨pc', current_goTo hother hpc', ?_, hcount', hregs', ?_, ?_⟩
    · rw [hfinish, hret, hticks, hcalls]
      exact hgood
    · rw [hstart]
      exact hone
    · rw [hstart, his]
      exact hoff
  cases c with
  | testLogging p pid =>
    rw [nextAccess]
    split
    · exact ⟨some (.loadCount p pid), current_goTo hother rfl, hgood.offer pid, hcount, trivial,
        hone, hoff⟩
    · exact hmove rfl rfl rfl rfl hcount trivial
  | loadCount p pid =>
    by_cases hn : s.harts.kernel.numLogged = 0
    · have hlt : s.harts.kernel.numLogged < logSize := by rw [hn]; decide
      refine hmove rfl rfl rfl ?_ hcount ?_
      · rw [if_pos hn]
        exact (if_pos ⟨.inl hn, hlt⟩).symm
      · rw [if_pos hn]
        exact ⟨rfl, hlt⟩
    · refine hmove rfl rfl rfl ?_ hcount ?_
      · rw [if_neg hn]
        simp only [finish, offer, hn, false_or]
        rfl
      · rw [if_neg hn]
        exact ⟨rfl, hn⟩
  | testPid p pid n =>
    by_cases htest : (s.harts.kernel.schedlog (n - 1)).pid ≠ pid ∧ n < logSize
    · refine hmove rfl rfl rfl ?_ hcount ?_
      · rw [if_pos htest]
        exact (if_pos htest).symm
      · rw [if_pos htest]
        exact ⟨hregs.1, htest.2⟩
    · refine hmove rfl rfl rfl ?_ hcount ?_
      · rw [if_neg htest]
        exact (if_neg htest).symm
      · rw [if_neg htest]
        trivial
  | storePid p pid n =>
    refine hmove rfl rfl rfl ?_ hcount hregs
    refine (storeEntry_setEntry ..).trans ?_
    simp [finish, nextAccess, Kernel.setEntry, LogHarts.goTo, LogHarts.setKernel]
  | loadTime p n => exact hmove rfl rfl rfl rfl hcount hregs
  | storeTime p n t => exact hmove rfl rfl rfl rfl hcount hregs
  | storeCount p n =>
    have hint : int (n + 1) = n + 1 := by
      obtain ⟨rfl, hlt⟩ := hregs
      unfold logSize at hlt
      exact int_of_small (by omega) (by omega)
    refine hmove rfl rfl rfl rfl ?_ trivial
    obtain ⟨rfl, hlt⟩ := hregs
    dsimp only [nextAccess, LogHarts.goTo, LogHarts.setKernel]
    rw [hint]
    omega
  | release p => exact hmove rfl rfl rfl rfl hcount trivial
  | storeTick t =>
    obtain rfl : t = s.harts.kernel.time := hregs
    exact ⟨none, current_goTo hother rfl, hgood.tick, hcount, trivial, hone, hoff⟩

omit [DecidableEq ι] in
/-- A step that does not touch the log. -/
theorem LogInv.quiet (hi : LogInv s pc)
    (hk : t.harts.kernel.switchLog = s.harts.kernel.switchLog)
    (hsame : (t.returned, t.ticks, t.startlogs, t.starting) =
      (s.returned, s.ticks, s.startlogs, s.starting)) : LogInv t pc := by
  obtain ⟨hgood, hcount, hregs, hone, hoff⟩ := hi
  simp only [Prod.mk.injEq] at hsame
  obtain ⟨hret, hticks, hcalls, hstart⟩ := hsame
  have hfields := hk
  simp only [Kernel.switchLog, Prod.mk.injEq] at hfields
  obtain ⟨-, hnum, his, htime⟩ := hfields
  refine ⟨?_, ?_, ?_, ?_, ?_⟩
  · rw [hret, hticks, hcalls]
    exact hgood.congr (finish_congr hk)
  · rw [hnum]
    exact hcount
  · unfold Registers at hregs ⊢
    rwa [hnum, htime]
  · rw [hstart]
    exact hone
  · rw [hstart, his]
    exact hoff

omit [DecidableEq ι] in
theorem LogHarts.isOther_operation {a : Action} (ha : s.isOther h (.operation a) = true) :
    a ≠ .startlog ∧ a ≠ .tick ∧
      ∀ p, s.harts.place h = .running p → callsSched s.harts.kernel p a = none := by
  refine ⟨?_, ?_, fun p hp => ?_⟩
  · rintro rfl
    cases ha
  · rintro rfl
    cases ha
  · cases a with
    | wakeup chan => rfl
    | startlog | tick => cases ha
    | _ =>
      simp only [LogHarts.isOther, hp, Bool.and_eq_true, Option.isNone_iff_eq_none] at ha
      exact ha.1

theorem LogInv.other {a : HartsAction} {u : Harts ι} (hi : LogInv s pc)
    (hother : s.isOther h a = true) (hu : hartsStep s.harts (h, a) = some u) :
    LogInv { s with harts := u } pc := by
  cases a with
  | boostCheck =>
    simp only [hartsStep] at hu
    split at hu
    next =>
      cases hu
      exact hi.quiet boostCheck_switchLog rfl
    next => cases hu
  | pick =>
    simp only [hartsStep] at hu
    split at hu
    next =>
      split at hu <;> cases hu
      · exact hi.quiet rfl rfl
      · exact hi.quiet rfl rfl
    next => cases hu
  | dispatch =>
    simp only [hartsStep] at hu
    split at hu
    next p hplace =>
      split at hu <;> cases hu
      exact hi.quiet rfl rfl
    next => cases hu
  | resume =>
    simp only [hartsStep] at hu
    split at hu
    next p hplace =>
      cases hu
      exact hi.quiet rfl rfl
    next => cases hu
  | operation a =>
    simp only [hartsStep] at hu
    split at hu
    next hguard =>
      obtain ⟨m, hm, rfl⟩ := Option.map_eq_some_iff.mp hu
      obtain ⟨hallows, -⟩ := hguard
      have hquiet : m.kernel.switchLog = s.harts.kernel.switchLog ∧
          m.cpu = (s.harts.place h).proc := by
        obtain ⟨hstart, htick, hsched⟩ := LogHarts.isOther_operation hother
        refine step_quiet hm ?_ ⟨?_, hstart, htick⟩ fun p hp => hsched p ?_
        · rintro mem rfl
          simp [HartPlace.allows] at hallows
        · rintro rfl
          simp [HartPlace.allows] at hallows
        · cases hplace : s.harts.place h with
          | running q => simpa [hplace, HartPlace.proc] using hp
          | switched q => cases a <;> simp [hplace, HartPlace.allows] at hallows
          | _ => simp [hplace, HartPlace.proc] at hp
      rw [if_pos hquiet.2]
      exact hi.quiet hquiet.1 rfl
    next => cases hu

theorem LogInv.step {a : LogAction} (hi : LogInv s pc) (hc : Current s pc)
    (hover : NoOverlap s (h, a)) (hs : logHartsStep s (h, a) = some t) :
    ∃ pc', Current t pc' ∧ LogInv t pc' := by
  cases a with
  | next =>
    obtain ⟨c, hpc, rfl⟩ := Option.map_eq_some_iff.mp hs
    exact hi.next hc hpc
  | leave a =>
    simp only [logHartsStep] at hs
    split at hs
    next p hpc hplace =>
      obtain ⟨-, hs⟩ := Option.ite_none_right_eq_some.mp hs
      obtain ⟨k, hk, rfl⟩ := Option.map_eq_some_iff.mp hs
      obtain rfl := hc.eq_none hover
      refine ⟨some (.testLogging p _), current_goTo (fun h' _ => hover h') rfl, ?_⟩
      obtain ⟨hgood, hcount, -, hone, hoff⟩ := hi.quiet
        (t := { s with harts := { s.harts with kernel := k } }) (callsSched_switchLog hk) rfl
      exact ⟨hgood, hcount, trivial, hone, hoff⟩
    next => cases hs
  | tick =>
    obtain ⟨⟨hpc, hallows⟩, hs⟩ := Option.ite_none_right_eq_some.mp hs
    cases hs
    obtain rfl := hc.eq_none hover
    obtain ⟨hgood, hcount, -, hone, hoff⟩ := hi
    exact ⟨some (.storeTick s.harts.kernel.time), current_goTo (fun h' _ => hover h') rfl, hgood,
      hcount, rfl, hone, hoff⟩
  | startlog =>
    simp only [logHartsStep] at hs
    split at hs
    next p hpc hplace =>
      split at hs
      next => cases hs
      next =>
        obtain ⟨hgood, hcount, hregs, hone, hoff⟩ := hi
        split at hs
        next hlog =>
          cases hs
          have hcall : sysStartlog (finish s.harts.kernel pc) = (finish s.harts.kernel pc, -1) :=
            if_pos ((finish_fields _ pc).1.trans hlog)
          have hgood := hgood.startlog
          rw [hcall] at hgood
          exact ⟨pc, hc, hgood, hcount, hregs, hone, hoff⟩
        next hlog =>
          cases hs
          have hnil : s.starting = [] := hover
          refine ⟨pc, hc, hgood, hcount, hregs, ?_, fun _ => Bool.not_eq_true _ ▸ hlog⟩
          simp [hnil]
    next => cases hs
  | setLogging =>
    simp only [logHartsStep] at hs
    split at hs
    next p hpc hplace =>
      obtain ⟨hp, hs⟩ := Option.ite_none_right_eq_some.mp hs
      cases hs
      obtain ⟨hgood, hcount, hregs, hone, hoff⟩ := hi
      have hlog := hoff (List.ne_nil_of_mem hp)
      have hlast : s.starting.erase p = [] := by
        rw [← List.length_eq_zero_iff, List.length_erase_of_mem hp]
        omega
      have hgood := hgood.startlog
      rw [sysStartlog_finish hlog] at hgood
      refine ⟨pc, hc, hgood, hcount, hregs, ?_, fun hne => absurd hlast hne⟩
      exact (congrArg List.length hlast).trans_le (Nat.zero_le 1)
    next => cases hs
  | other a =>
    obtain ⟨⟨hpc, hother⟩, hs⟩ := Option.ite_none_right_eq_some.mp hs
    obtain ⟨u, hu, rfl⟩ := Option.map_eq_some_iff.mp hs
    exact ⟨pc, hc, hi.other hother hu⟩

/-! ## Main result -/

/-- The index at which `schedlog` is read or written. -/
def LogPc.index : LogPc → Option ℤ
  | .testPid _ _ n => some (n - 1)
  | .storePid _ _ n | .storeTime _ n _ => some n
  | _ => none

omit [DecidableEq ι] in
theorem LogInv.index {c : LogPc} {j : ℤ} (hi : LogInv s (some c)) (hj : c.index = some j) :
    0 ≤ j ∧ j < logSize := by
  obtain ⟨h0, hle⟩ := hi.count
  have hregs := hi.registers
  cases c with
  | testPid p pid n =>
    obtain rfl : n - 1 = j := Option.some.inj hj
    obtain ⟨rfl, hne⟩ := hregs
    omega
  | storePid p pid n | storeTime p n t =>
    obtain rfl : n = j := Option.some.inj hj
    obtain ⟨rfl, hlt⟩ := hregs
    exact ⟨h0, hlt⟩
  | _ => cases hj

omit [DecidableEq ι] in
/-- The entries that are counted stay as they are. -/
theorem LogInv.logged_prefix (hi : LogInv s pc) :
    s.harts.kernel.logged <+: (finish s.harts.kernel pc).logged := by
  have hstore : s.harts.kernel.numLogged < logSize → ∀ e, s.harts.kernel.logged <+:
      (storeEntry s.harts.kernel s.harts.kernel.numLogged e).logged := by
    intro hlt e
    rw [(storeEntry_logged hi.count.1 hlt e).2]
    exact List.prefix_append ..
  have hregs := hi.registers
  cases pc with
  | none => exact List.prefix_rfl
  | some c =>
    cases c with
    | testLogging p pid | release p | storeTick t => exact List.prefix_rfl
    | loadCount p pid =>
      rw [finish, offer]
      split
      next htest => exact hstore htest.2 _
      next => exact List.prefix_rfl
    | testPid p pid n =>
      obtain ⟨rfl, -⟩ := hregs
      rw [finish]
      split
      next htest => exact hstore htest.2 _
      next => exact List.prefix_rfl
    | storePid p pid n | loadTime p n | storeTime p n t =>
      obtain ⟨rfl, hlt⟩ := hregs
      exact hstore hlt _
    | storeCount p n =>
      obtain ⟨rfl, hlt⟩ := hregs
      have hlast := hstore hlt (s.harts.kernel.schedlog s.harts.kernel.numLogged)
      rwa [storeEntry, Kernel.setEntry, update_eq_self] at hlast

/-- In every run, on any number of harts, in which no two harts are in these lines at a time and
no two processes in `sys_startlog`: `schedlog[0..num_logged)` is the first `LOG_SIZE` entries of
the switches back while logging was on, each block of equal pids reduced to its first entry, where
the last may be missing while a hart is in these lines; `num_logged` stays within `LOG_SIZE` and
no index of `schedlog` is out of range; the recorded times do not decrease as long as `time` has
not wrapped; `sys_getlog` returns the number of entries and copies them; and of the calls of
`sys_startlog` exactly the first returns 0. -/
theorem reachWhere_switchLog {mem : Memory} (hk : userinit bootKernel mem = some k)
    (hr : ReachWhere logHartsStep NoOverlap (startLogHarts k) s) :
    ((∀ h, s.pc h = none) →
      s.harts.kernel.logged = (s.returned.destutter OtherPid).take 100) ∧
    s.harts.kernel.logged <+: (s.returned.destutter OtherPid).take 100 ∧
    (s.ticks < 2 ^ 31 → s.harts.kernel.logged.Pairwise fun a b => a.time ≤ b.time) ∧
    (0 ≤ s.harts.kernel.numLogged ∧ s.harts.kernel.numLogged ≤ logSize) ∧
    (∀ h c j, s.pc h = some c → c.index = some j → 0 ≤ j ∧ j < logSize) ∧
    (sysGetlog s.harts.kernel true).1 = s.harts.kernel.logged.length ∧
    (sysGetlog s.harts.kernel true).2.take s.harts.kernel.logged.length =
      s.harts.kernel.logged ∧
    (s.startlogs ≠ [] → ∃ n, s.startlogs = 0 :: List.replicate n (-1)) := by
  obtain ⟨pc, hc, hi⟩ : ∃ pc, Current s pc ∧ LogInv s pc := by
    refine hr.invariant (I := fun s => ∃ pc, Current s pc ∧ LogInv s pc)
      ⟨none, fun _ => rfl, logInv_boot hk⟩ ?_
    rintro u ⟨hart, a⟩ v ⟨pc, hc, hi⟩ hover hs
    exact hi.step hc hover hs
  have hle : s.harts.kernel.numLogged.toNat ≤ logSize.toNat := Int.toNat_le_toNat hi.count.2
  have hnum : (s.harts.kernel.logged.length : ℤ) = s.harts.kernel.numLogged := by
    rw [Kernel.logged, Recorder.length_entries, Int.toNat_of_nonneg hi.count.1]
  have hprefix : s.harts.kernel.logged <+: (s.returned.destutter OtherPid).take 100 := by
    rw [← hi.good.logged]
    exact hi.logged_prefix
  refine ⟨?_, hprefix, ?_, hi.count, ?_, hnum.symm, ?_, ?_⟩
  · intro hall
    obtain rfl := hc.eq_none hall
    exact hi.good.logged
  · intro hticks
    exact (((hi.good.sorted hticks).1.sublist (List.destutter_sublist _ _)).sublist
      (List.take_sublist _ _)).sublist hprefix.sublist
  · intro h c j hpc hj
    obtain ⟨rfl, -⟩ := hc.others hpc
    exact hi.index hj
  · rw [Kernel.logged, Recorder.length_entries, Recorder.entries, sysGetlog,
      if_neg (by decide), ← List.map_take, List.take_range, Nat.min_eq_left hle]
  · intro hcalls
    rcases hi.good.calls with ⟨-, hnil⟩ | ⟨-, hsome⟩
    · exact absurd hnil hcalls
    · exact hsome

end

/-! ## Two harts -/

instance {ι : Type*} [Fintype ι] (s : LogHarts ι) : ∀ a, Decidable (NoOverlap s a)
  | (_, .leave _) | (_, .tick) => inferInstanceAs (Decidable (∀ h, s.pc h = none))
  | (_, .startlog) => inferInstanceAs (Decidable (s.starting = []))
  | (_, .next) | (_, .setLogging) | (_, .other _) => inferInstanceAs (Decidable True)

/-- Hart `h` runs the next process. -/
def dispatchOn (h : Bool) : List (Bool × LogAction) :=
  [(h, .other .boostCheck), (h, .other .pick), (h, .other .dispatch), (h, .other .resume)]

/-- The first process runs on one hart, and its child on the other. -/
def twoRunning : List (Bool × LogAction) :=
  dispatchOn true ++ [(true, .other (.operation (.fork ⟨true, true, true⟩)))] ++ dispatchOn false

/-- One after the other, the processes start the log and yield. -/
def apart : List (Bool × LogAction) :=
  twoRunning ++ [(true, .startlog), (true, .setLogging), (false, .startlog),
    (true, .leave .yield), (true, .next), (false, .other (.operation (.setNice 3)))] ++
  List.replicate 6 (true, .next) ++ [(false, .tick), (false, .next), (false, .leave .yield)] ++
  List.replicate 8 (false, .next)

theorem reachWhere_switchLog_apart : ∃ s : LogHarts Bool,
    ReachWhere logHartsStep NoOverlap (startLogHarts (makeRunnable initKernel 0)) s ∧
    s.returned = [⟨1, 0⟩, ⟨2, 1⟩] ∧ s.startlogs = [0, -1] ∧
    s.harts.kernel.logged = (s.returned.destutter OtherPid).take 100 := by
  have hrun : (exec (fun s a => if NoOverlap s a then logHartsStep s a else none)
      (startLogHarts (makeRunnable initKernel 0) : LogHarts Bool) apart).map
      (fun s : LogHarts Bool => (s.returned, s.startlogs, s.pc true, s.pc false)) =
      some ([⟨1, 0⟩, ⟨2, 1⟩], [0, -1], none, none) := by
    decide +kernel
  obtain ⟨s, hs, hview⟩ := Option.map_eq_some_iff.mp hrun
  simp only [Prod.mk.injEq] at hview
  obtain ⟨hreturned, hstartlogs, htrue, hfalse⟩ := hview
  have hboot : userinit bootKernel ⟨true, true, true⟩ = some (makeRunnable initKernel 0) := rfl
  have hreach := reachWhere_of_exec hs
  have hout : ∀ h, s.pc h = none := by
    intro h
    cases h
    · exact hfalse
    · exact htrue
  exact ⟨s, hreach, hreturned, hstartlogs, (reachWhere_switchLog hboot hreach).1 hout⟩

/-- At the same time, the processes start the log and yield. -/
def race : List (Bool × LogAction) :=
  twoRunning ++ [(true, .startlog), (false, .startlog), (true, .setLogging), (false, .setLogging),
    (true, .leave .yield), (false, .leave .yield)] ++
  (List.replicate 7 [(true, .next), (false, .next)]).flatten

/-- Both calls of `sys_startlog` return 0, and the entry of one process is lost. -/
theorem reach_switchLog_race : ∃ s : LogHarts Bool,
    userinit bootKernel ⟨true, true, true⟩ = some (makeRunnable initKernel 0) ∧
    Reach logHartsStep (startLogHarts (makeRunnable initKernel 0)) s ∧
    (∀ h, s.pc h = none) ∧ s.startlogs = [0, 0] ∧
    s.returned = [⟨1, 0⟩, ⟨2, 0⟩] ∧ s.harts.kernel.logged = [⟨2, 0⟩] ∧
    s.harts.kernel.logged ≠ (s.returned.destutter OtherPid).take 100 := by
  have hrun : (exec logHartsStep (startLogHarts (makeRunnable initKernel 0) : LogHarts Bool)
      race).map (fun s : LogHarts Bool =>
        (s.returned, s.startlogs, s.harts.kernel.logged, s.pc true, s.pc false)) =
      some ([⟨1, 0⟩, ⟨2, 0⟩], [0, 0], [⟨2, 0⟩], none, none) := by
    decide +kernel
  obtain ⟨s, hs, hview⟩ := Option.map_eq_some_iff.mp hrun
  simp only [Prod.mk.injEq] at hview
  obtain ⟨hreturned, hstartlogs, hlogged, htrue, hfalse⟩ := hview
  refine ⟨s, rfl, reach_of_exec hs, ?_, hstartlogs, hreturned, hlogged, ?_⟩
  · intro h
    cases h
    · exact hfalse
    · exact htrue
  · rw [hlogged, hreturned]
    decide +kernel

end CS352.Mlfq
