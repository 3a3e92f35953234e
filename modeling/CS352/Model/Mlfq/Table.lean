import CS352.Model.Mlfq.Kernel

/-! # The process table under any number of harts

The operations of `kernel/proc.c` on `proc[]`, by any running processes and interrupt
handlers in any order. Nothing is assumed about `qtable`: it may change in any way between
two operations, and a hart may switch to any process, so that runs with corrupted links
are among the runs of this machine. -/

namespace CS352.Mlfq

inductive TableAction where
  | fork (p : ℕ) (mem : Memory)
  | yield (p : ℕ)
  | sleep (p : ℕ) (chan : Chan)
  | wakeup (me : Option ℕ) (chan : Chan)
  | kill (pid : ℤ)
  /-- `usertrap` marks a process that has faulted. -/
  | fault (p : ℕ)
  | exit (p : ℕ) (status : ℤ)
  | wait (p : ℕ) (addr : ℕ) (copyoutOk : Bool)
  | nice (p : ℕ) (inc : ℤ)
  /-- The rest of `dequeue`, after the process has switched back. -/
  | switched (p : ℕ)
  | startlog
  | tick
  /-- The boost branch of some hart's `scheduler`. -/
  | boost
  /-- Some hart switches to the process. -/
  | dispatch (p : ℕ)
  /-- The queue table changes. -/
  | relink (q : QTable)

/-- The effect of an operation of process `p`, which has to be running. -/
def byRunning (k : Kernel) (p : ℕ) (k' : Kernel) : Option Kernel :=
  if p < nproc ∧ (k.proc p).state = .running then some k' else none

def tableStep (k : Kernel) : TableAction → Option Kernel
  | .fork p mem => byRunning k p (fork k p mem).1
  | .yield p => byRunning k p (yield k p)
  | .sleep p chan => byRunning k p (sleep k p chan)
  | .wakeup me chan => some (wakeup k me chan)
  | .kill pid => some (kill k pid).1
  | .fault p => byRunning k p (setkilled k p)
  | .exit p status => (exit k p status).bind (byRunning k p)
  | .wait p addr copyoutOk => byRunning k p (wait k p addr copyoutOk).1
  | .nice p inc => byRunning k p (sysNice k p inc).1
  | .switched p => some (afterSwitch k p)
  | .startlog => some (sysStartlog k).1
  | .tick => some { k with time := int (k.time + 1) }
  | .boost => some (priorityBoost k)
  | .dispatch p => if p < nproc then some (resume (markRunning (unlinkProc k p) p) p) else none
  | .relink q => some { k with qtable := q }

end CS352.Mlfq
