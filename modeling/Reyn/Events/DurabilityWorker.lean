import Mathlib

/-! # The durability worker on its event loop

A write is named by its place in the order of enqueueing. One action runs the current
task to its next await, or a part of the way there: while `current` names a consumer no
other task runs. A thread ends whenever it likes.
-/
namespace Reyn

/-- The two consumers: the background task, and a task inside `flush` or `aclose`. -/
inductive Role where
  | drainer
  | inlineDrain
  deriving DecidableEq

/-- Where `_drain` stands. The `attempt` is that of `_run_with_retry`. -/
inductive Pc where
  | fresh
  | hook
  | hookWait
  | top
  | write (id attempt : ℕ)
  | await (id attempt : ℕ) (onThread : Bool)
  | backoff (id attempt : ℕ)
  deriving DecidableEq

/-- `cancelling` is set by `Task.cancel`, and the task unwinds when it is scheduled next. -/
structure Drain where
  pc : Pc
  cancelling : Bool
  drainEndEnqueued : Bool
  deriving DecidableEq

/-- Who waits for the queue. -/
inductive Barrier where
  | flush
  | aclose
  deriving DecidableEq

inductive WriteEvent where
  | start (id : ℕ)
  | done (id : ℕ)
  deriving DecidableEq

/-- How the coroutine of a write, or a hook, goes on: to a thread, to another await, to its end or to an
exception. -/
inductive Outcome where
  | thread
  | suspend
  | ok
  | osError
  | error
  deriving DecidableEq

structure WorkerConfig where
  maxWriteAttempts : ℕ
  onDrainStart : Bool
  onDrainEnd : Bool

/-- The worker of the log and the snapshots: the default bound, no hooks. -/
def plainConfig : WorkerConfig := ⟨5,false,false⟩

/-- `waiting` are the writes whose submitter waits for the future, `joining` those inside `queue.join()`,
`released` those woken there and not yet scheduled. `threads` and `log` are what happens on the threads. -/
structure DurabilityWorker where
  queue : List ℕ
  unfinished : ℕ
  nextId : ℕ
  drainer : Option Drain
  inlineDrain : Option Drain
  current : Option Role
  waiting : List ℕ
  joining : List Barrier
  released : List Barrier
  threads : List ℕ
  log : List WriteEvent

inductive WorkerAction where
  | submit
  | submitNowait
  | cancelSubmit (id : ℕ)
  | drainToEmpty (b : Barrier)
  | leave (b : Barrier)
  | cancelJoin (b : Barrier) (woken : Bool)
  | cancel (r : Role)
  | unwind (r : Role)
  | resume (r : Role)
  | take
  | advance (o : Outcome)
  | threadDone (id : ℕ)
  deriving DecidableEq

/-- The write a consumer has in hand. -/
def Drain.held (d : Drain) : Option ℕ :=
  match d.pc with
  | .write id _ | .await id _ _ | .backoff id _ => some id
  | _ => none

/-- On the loop, between two awaits. -/
def Pc.running : Pc → Bool
  | .hook | .top | .write .. => true
  | _ => false

namespace DurabilityWorker

def init : DurabilityWorker := ⟨[],0,0,none,none,none,[],[],[],[],[]⟩

def drain (w : DurabilityWorker) : Role → Option Drain
  | .drainer => w.drainer
  | .inlineDrain => w.inlineDrain

def setDrain (w : DurabilityWorker) (r : Role) (d : Option Drain) : DurabilityWorker :=
  { w with
    drainer := if r = .drainer then d else w.drainer
    inlineDrain := if r = .inlineDrain then d else w.inlineDrain }

def withCurrent (w : DurabilityWorker) (r : Option Role) : DurabilityWorker := { w with current := r }

/-- The consumer goes on running, or waits. -/
def goto (w : DurabilityWorker) (r : Role) (d : Drain) (pc : Pc) : DurabilityWorker :=
  (w.setDrain r (some { d with pc := pc })).withCurrent (if pc.running then some r else none)

/-- The task or the inline drain is over. -/
def finish (w : DurabilityWorker) (r : Role) : DurabilityWorker := (w.setDrain r none).withCurrent none

def enqueue (w : DurabilityWorker) : DurabilityWorker :=
  { w with queue := w.queue ++ [w.nextId], unfinished := w.unfinished + 1, nextId := w.nextId + 1 }

/-- The submitter waits for the future of its write. -/
def wait (w : DurabilityWorker) (id : ℕ) : DurabilityWorker := { w with waiting := w.waiting ++ [id] }

/-- `_kick` -/
def kick (w : DurabilityWorker) : DurabilityWorker :=
  if w.inlineDrain.isSome || w.drainer.isSome then w else { w with drainer := some ⟨.fresh,false,false⟩ }

/-- The future of a write is settled, and `task_done` wakes the barriers at zero. -/
def taskDone (w : DurabilityWorker) (id : ℕ) : DurabilityWorker :=
  { w with
    waiting := w.waiting.filter (· ≠ id)
    unfinished := w.unfinished - 1
    joining := if w.unfinished - 1 = 0 then [] else w.joining
    released := if w.unfinished - 1 = 0 then w.released ++ w.joining else w.released }

def started (w : DurabilityWorker) (id : ℕ) : DurabilityWorker := { w with log := w.log ++ [.start id] }

/-- `queue.join()` -/
def join (w : DurabilityWorker) (b : Barrier) : DurabilityWorker :=
  if w.unfinished = 0 then { w with released := w.released ++ [b] } else { w with joining := w.joining ++ [b] }

/-- Where a consumer begins once it is scheduled. -/
def firstPc (cfg : WorkerConfig) : Pc := if cfg.onDrainStart then .hook else .top

/-- `_drain_to_empty`; before the first submit there is no queue. -/
def drainToEmpty (cfg : WorkerConfig) (w : DurabilityWorker) (b : Barrier) : DurabilityWorker :=
  if w.nextId = 0 then w
  else if w.drainer.any (!·.cancelling) then w.join b
  else if w.inlineDrain.isSome then w.join b
  else w.goto .inlineDrain ⟨firstPc cfg,false,false⟩ (firstPc cfg)

def cancel (w : DurabilityWorker) (r : Role) : DurabilityWorker :=
  w.setDrain r ((w.drain r).map fun d => { d with cancelling := true })

/-- The rest of `flush` or `aclose` after the barrier; `aclose` cancels a drainer it finds. -/
def leave (w : DurabilityWorker) (b : Barrier) : DurabilityWorker :=
  let left := { w with released := w.released.erase b }
  match b with
  | .flush => left
  | .aclose => left.cancel .drainer

/-- `CancelledError` is thrown where the consumer waits. -/
def unwind (w : DurabilityWorker) (r : Role) (d : Drain) : DurabilityWorker :=
  match d.held with
  | none => w.finish r
  | some id => (w.taskDone id).finish r

/-- The head of the loop: the next write, the end-of-burst job, or the end. -/
def take (cfg : WorkerConfig) (w : DurabilityWorker) (r : Role) (d : Drain) : DurabilityWorker :=
  match w.queue with
  | [] =>
    if cfg.onDrainEnd && !d.drainEndEnqueued then w.enqueue.goto r { d with drainEndEnqueued := true } .top
    else w.finish r
  | id :: rest =>
    if cfg.onDrainEnd && !d.drainEndEnqueued && rest.isEmpty then
      (({ w with queue := rest }.enqueue).started id).goto r { d with drainEndEnqueued := true } (.write id 0)
    else ({ w with queue := rest }.started id).goto r d (.write id 0)

/-- The consumer on the loop goes on with its write or its start hook. -/
def advance (cfg : WorkerConfig) (w : DurabilityWorker) (r : Role) (d : Drain) (o : Outcome) : Option DurabilityWorker :=
  match d.pc, o with
  | .hook, .ok => some (w.goto r d .top)
  | .hook, .thread | .hook, .suspend => some (w.goto r d .hookWait)
  | .hook, .osError | .hook, .error => some (w.finish r)
  | .write id attempt, .thread => some ({ w with threads := w.threads ++ [id] }.goto r d (.await id attempt true))
  | .write id attempt, .suspend => some (w.goto r d (.await id attempt false))
  | .write id _, .ok => some ((({ w with log := w.log ++ [.done id] } : DurabilityWorker).taskDone id).goto r d .top)
  | .write id attempt, .osError =>
    if cfg.maxWriteAttempts - 1 ≤ attempt then some ((w.taskDone id).goto r d .top)
    else some (w.goto r d (.backoff id attempt))
  | .write id _, .error => some ((w.taskDone id).goto r d .top)
  | _, _ => none

/-- The loop schedules a consumer whose await is over. -/
def resume (cfg : WorkerConfig) (w : DurabilityWorker) (r : Role) (d : Drain) : Option DurabilityWorker :=
  match d.pc with
  | .fresh => some (w.goto r d (firstPc cfg))
  | .hookWait => some (w.goto r d .hook)
  | .await id attempt onThread => if onThread && id ∈ w.threads then none else some (w.goto r d (.write id attempt))
  | .backoff id attempt => some ((w.started id).goto r d (.write id (attempt + 1)))
  | _ => none

/-- Actions other than those of the running consumer need the loop to be free. -/
def step (cfg : WorkerConfig) (w : DurabilityWorker) : WorkerAction → Option DurabilityWorker
  | .take =>
    match w.current with
    | none => none
    | some r => match w.drain r with
      | some d => if d.pc = .top then some (w.take cfg r d) else none
      | none => none
  | .advance o =>
    match w.current with
    | none => none
    | some r => (w.drain r).bind fun d => w.advance cfg r d o
  | .threadDone id => if id ∈ w.threads then some { w with threads := w.threads.filter (· ≠ id) } else none
  | .submit => if w.current = none then some ((w.enqueue.wait w.nextId).kick) else none
  | .submitNowait => if w.current = none then some w.enqueue.kick else none
  | .cancelSubmit id => if w.current = none then some { w with waiting := w.waiting.filter (· ≠ id) } else none
  | .drainToEmpty b => if w.current = none then some (w.drainToEmpty cfg b) else none
  | .leave b => if w.current = none ∧ b ∈ w.released then some (w.leave b) else none
  | .cancelJoin b false => if w.current = none ∧ b ∈ w.joining then some { w with joining := w.joining.erase b } else none
  | .cancelJoin b true => if w.current = none ∧ b ∈ w.released then some { w with released := w.released.erase b } else none
  | .cancel r => if w.current = none ∧ (w.drain r).isSome then some (w.cancel r) else none
  | .unwind r =>
    if w.current = none then
      match w.drain r with
      | some d => if d.cancelling then some (w.unwind r d) else none
      | none => none
    else none
  | .resume r =>
    if w.current = none then
      match w.drain r with
      | some d => if d.cancelling then none else w.resume cfg r d
      | none => none
    else none

end DurabilityWorker
end Reyn
