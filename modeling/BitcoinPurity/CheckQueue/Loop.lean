import Mathlib.Algebra.Group.Nat.Defs
import BitcoinPurity.Lib.Runs

/-!
# The check queue

`CCheckQueue` of `checkqueue.h`: worker threads and a master run checks taken from a shared queue.
Everything that `m_mutex` guards happens in critical sections, each one step here; a check is run
outside of them, in a step of its own.

A round of `Loop` is `cleanUp` and then, at the condition of the inner `while`, `proceed`; a thread
that waited comes back to `proceed` through `unwait`.  A waiting thread may wake at any time, as
condition variables allow, so that it does not matter to whom `m_worker_cv` is notified;
`m_master_cv` is followed, since nobody else can return the result.

`nTodo` is an `unsigned int` and wraps at `2^32`.  The counters of threads are natural numbers.
-/

namespace BitcoinPurity

/-! ## Algorithm -/

namespace CheckQueue

/-- Where a thread is. -/
inductive Pc
  /-- Not in `Loop`. -/
  | out
  /-- About to lock `m_mutex` at the top of a round. -/
  | top
  /-- At the condition of the inner `while`, with the lock. -/
  | locked
  /-- In `cond.wait`. -/
  | waiting
  /-- Running the checks it took. -/
  | working
  deriving DecidableEq, Repr

/-- A thread with the local variables of `Loop`; `vChecks` are those not run yet. -/
structure Thread (T R : Type) where
  pc : Pc
  nNow : Nat := 0
  vChecks : List T := []
  localResult : Option R := none
  doWork : Bool := false

/-- A call of `Complete` that returned: what was added in the session, which thread took what,
and the result. -/
structure Session (W T R : Type) where
  added : List T
  taken : List (Option W × T)
  result : Option R

end CheckQueue

open CheckQueue Function

/-- The queue with its threads, workers `some w` and the master `none`.  The last three fields are
a record of the sessions: what was added and taken in this one, and those that are over. -/
structure CCheckQueue (W T R : Type) where
  queue : List T := []
  nIdle : Nat := 0
  nTotal : Nat := 0
  mResult : Option R := none
  nTodo : Nat := 0
  mRequestStop : Bool := false
  /-- `m_master_cv` was notified while the master waited. -/
  masterNotified : Bool := false
  threads : Option W → Thread T R
  added : List T := []
  taken : List (Option W × T) := []
  finished : List (Session W T R) := []

namespace CCheckQueue

variable {W T R : Type}

/-- A new queue: the workers are about to enter `Loop`. -/
def start : CCheckQueue W T R where
  threads
    | none => { pc := .out }
    | some _ => { pc := .top }

variable [DecidableEq W]

def setThread (s : CCheckQueue W T R) (t : Option W) (th : Thread T R) : CCheckQueue W T R :=
  { s with threads := update s.threads t th }

section

variable (t : Option W) (s : CCheckQueue W T R)

/-- Publish a failure of the batch, unless there is a result already. -/
def publish : CCheckQueue W T R :=
  let th := s.threads t
  if th.localResult.isSome && s.mResult.isNone then
    -- `std::swap(local_result, m_result)`
    { s with mResult := th.localResult }.setThread t { th with localResult := s.mResult }
  else s

/-- Account for the batch.  A worker that processed the last element notifies `m_master_cv`, which
does nothing unless the master waits. -/
def account : CCheckQueue W T R :=
  let nTodo := (s.nTodo + (2 ^ 32 - (s.threads t).nNow)) % 2 ^ 32
  let notify := decide (nTodo = 0) && t.isSome && decide ((s.threads none).pc = .waiting)
  { s with nTodo, masterNotified := s.masterNotified || notify }.setThread t
    { s.threads t with pc := .locked }

def cleanUp : CCheckQueue W T R :=
  if (s.threads t).nNow = 0 then
    { s with nTotal := s.nTotal + 1 }.setThread t { s.threads t with pc := .locked }
  else (s.publish t).account t

def unwait : CCheckQueue W T R :=
  { s with
    nIdle := s.nIdle - 1
    masterNotified := s.masterNotified && t.isSome }.setThread t
      { s.threads t with pc := .locked }

end

def batch (nBatchSize : Nat) (s : CCheckQueue W T R) : Nat :=
  max 1 (min nBatchSize (s.queue.length % 2 ^ 32 / (s.nTotal + s.nIdle + 1)))

def take (nBatchSize : Nat) (t : Option W) (s : CCheckQueue W T R) : CCheckQueue W T R :=
  let nNow := s.batch nBatchSize
  let start := s.queue.length - nNow
  let vChecks := s.queue.drop start
  { s with
    queue := s.queue.take start
    taken := s.taken ++ vChecks.map (t, ·) }.setThread t
      { s.threads t with pc := .working, nNow, vChecks, doWork := s.mResult.isNone }

/-- `cond.wait`, until the thread wakes. -/
def wait (t : Option W) (s : CCheckQueue W T R) : CCheckQueue W T R :=
  { s with nIdle := s.nIdle + 1 }.setThread t { s.threads t with pc := .waiting }

/-- Return from `Loop` as the master, with the result; the session is over. -/
def finish (s : CCheckQueue W T R) : CCheckQueue W T R :=
  { s with
    nTotal := s.nTotal - 1
    mResult := none
    added := []
    taken := []
    finished := ⟨s.added, s.taken, s.mResult⟩ :: s.finished }.setThread none
      { s.threads none with pc := .out }

/-- The inner `while` and what follows it, up to the end of the critical section. -/
def proceed (nBatchSize : Nat) (t : Option W) (s : CCheckQueue W T R) : CCheckQueue W T R :=
  if s.queue.isEmpty && !s.mRequestStop then
    if t.isNone && decide (s.nTodo = 0) then s.finish else s.wait t
  else if s.mRequestStop then s.setThread t { s.threads t with pc := .out }
  else s.take nBatchSize t

/-- Run the next check; the batch ends with the last one, with one that fails, or at once if
there is no work to do. -/
def work (check : T → Option R) (th : Thread T R) : Thread T R :=
  match th.doWork, th.vChecks with
  | true, c :: cs =>
    if (check c).isSome || cs.isEmpty then
      { th with pc := .top, vChecks := [], localResult := check c }
    else { th with vChecks := cs, localResult := check c }
  | _, _ => { th with pc := .top, vChecks := [] }

def add (vChecks : List T) (s : CCheckQueue W T R) : CCheckQueue W T R :=
  { s with
    queue := s.queue ++ vChecks
    nTodo := (s.nTodo + vChecks.length) % 2 ^ 32
    added := s.added ++ vChecks }

inductive Action (W T : Type)
  /-- The master calls `Add`. -/
  | add (vChecks : List T)
  /-- The master calls `Complete`. -/
  | complete
  /-- A thread starts a round. -/
  | enter (t : Option W)
  /-- A waiting thread wakes. -/
  | wake (t : Option W)
  /-- A thread runs a check. -/
  | work (t : Option W)
  /-- The destructor, which no session is open for. -/
  | stop

/-- A step of some thread.  The master is a thread that holds `m_control_mutex`: it calls `Add`
until it calls `Complete`. -/
def step (check : T → Option R) (nBatchSize : Nat) :
    Action W T → CCheckQueue W T R → Option (CCheckQueue W T R)
  | .add vChecks, s =>
    if (s.threads none).pc = .out ∧ s.mRequestStop = false then some (s.add vChecks) else none
  | .complete, s =>
    if (s.threads none).pc = .out ∧ s.mRequestStop = false then
      some (s.setThread none { pc := .top })
    else none
  | .enter t, s =>
    if (s.threads t).pc = .top then some ((s.cleanUp t).proceed nBatchSize t) else none
  | .wake t, s =>
    if (s.threads t).pc = .waiting then some ((s.unwait t).proceed nBatchSize t) else none
  | .work t, s =>
    if (s.threads t).pc = .working then some (s.setThread t (work check (s.threads t))) else none
  | .stop, s =>
    if (s.threads none).pc = .out ∧ s.added = [] then some { s with mRequestStop := true } else none

/-- The steps of callers that add fewer than `2^32` checks in a session. -/
def boundedStep (check : T → Option R) (nBatchSize : Nat) (a : Action W T)
    (s : CCheckQueue W T R) : Option (CCheckQueue W T R) :=
  (step check nBatchSize a s).filter fun s' => s'.added.length < 2 ^ 32

/-! ## Lemmas -/

@[simp] theorem setThread_threads (s : CCheckQueue W T R) (t : Option W) (th : Thread T R) :
    (s.setThread t th).threads = update s.threads t th := rfl

/-! A critical section changes the thread that is in it, and no other one. -/

section

variable (s : CCheckQueue W T R) (t : Option W)

theorem publish_frame :
    ∃ th, (s.publish t).threads = update s.threads t th ∧ (s.publish t).queue = s.queue := by
  unfold publish
  simp only
  split
  · exact ⟨{ s.threads t with localResult := s.mResult }, rfl, rfl⟩
  · exact ⟨s.threads t, (update_eq_self t s.threads).symm, rfl⟩

theorem cleanUp_frame : ∃ th, th.pc = .locked ∧ (s.cleanUp t).threads = update s.threads t th ∧
      (s.cleanUp t).queue = s.queue := by
  unfold cleanUp
  split
  · exact ⟨{ s.threads t with pc := .locked }, rfl, rfl, rfl⟩
  obtain ⟨th, hthreads, hqueue⟩ := publish_frame s t
  refine ⟨{ (s.publish t).threads t with pc := .locked }, rfl, ?_, hqueue⟩
  show update (s.publish t).threads t _ = _
  rw [hthreads, update_idem]

theorem cleanUp_pc : ((s.cleanUp t).threads t).pc = .locked := by
  obtain ⟨th, hpc, hthreads, -⟩ := cleanUp_frame s t
  rw [hthreads, update_self, hpc]

theorem cleanUp_mRequestStop : (s.cleanUp t).mRequestStop = s.mRequestStop := by
  unfold cleanUp
  split
  · rfl
  unfold publish
  simp only
  split
  · rfl
  · rfl

end

theorem proceed_frame (nBatchSize : Nat) (s : CCheckQueue W T R) (t : Option W) :
    ∃ th, th.pc ≠ .locked ∧ (s.proceed nBatchSize t).threads = update s.threads t th := by
  unfold proceed
  split
  · split
    next h =>
      rw [Bool.and_eq_true, Option.isNone_iff_eq_none] at h
      rw [h.1]
      exact ⟨{ s.threads none with pc := .out }, by simp, rfl⟩
    · exact ⟨{ s.threads t with pc := .waiting }, by simp, rfl⟩
  · split
    · exact ⟨{ s.threads t with pc := .out }, by simp, rfl⟩
    · exact ⟨_, by simp, rfl⟩

omit [DecidableEq W] in
theorem batch_pos (nBatchSize : Nat) (s : CCheckQueue W T R) : 1 ≤ s.batch nBatchSize :=
  Nat.le_max_left ..

omit [DecidableEq W] in
theorem batch_le (nBatchSize : Nat) {s : CCheckQueue W T R} (h : s.queue ≠ []) :
    s.batch nBatchSize ≤ s.queue.length := by
  have hpos := List.length_pos_iff.2 h
  have hmod := Nat.mod_le s.queue.length (2 ^ 32)
  have hdiv := Nat.div_le_self (s.queue.length % 2 ^ 32) (s.nTotal + s.nIdle + 1)
  unfold batch
  omega

end CCheckQueue

end BitcoinPurity
