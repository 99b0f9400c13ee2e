import Reyn.Lib.Dict
import Reyn.Lib.Runs
import Reyn.Pipeline.Steps

/-! # The fan-out coordinator

A fan-out runs one task for each item or branch whose key is absent. The tasks finish in any
order, the coordinator takes one finished task after the other and records its result, and
at the first failure that is not dropped it cancels what still runs. A task that finished
before and waits to be taken is neither running nor recorded.
-/
namespace Reyn.FanOut
open Py Transition

/-- A recorded value, with its writer: a snapshot from before, the coordinator for an item, or the
recorder of an item's own sub-steps. -/
inductive Cell (V : Type) where
  | before (value : V)
  | result (item : ℕ) (value : V)
  | dropped (item : ℕ) (error : String)
  | subStep (item : ℕ) (value : V)
  deriving DecidableEq

abbrev Results (V : Type) := Dict String (Cell V)

/-- One pass of `_run_item`'s loop: `do` returned, or it raised or returned a canonical error. -/
inductive Attempt (V : Type) where
  | returned (value : V)
  | failed (error : String)

/-- What a task hands to the coordinator. Anything that is no `Exception` is raised by awaiting it. -/
inductive Outcome (V : Type) where
  | success (value : V)
  | failure (error : String)
  | interrupted
  deriving DecidableEq

/-- A task: before the semaphore, inside `do` with the attempts after this one and the keys its
recorder has forwarded, finished, or cancelled. -/
inductive ItemTask (V : Type) where
  | waiting
  | running (left : ℕ) (forwarded : List String)
  | finished (outcome : Outcome V)
  | cancelled
  deriving DecidableEq

/-- The task is done, with a result or cancelled. -/
def ItemTask.isOver {V : Type} : ItemTask V → Bool
  | .finished _ | .cancelled => true
  | _ => false

inductive Phase where
  | consuming
  | locking (item : ℕ)
  | recording (item : ℕ)
  | cancelling
  | collecting
  deriving DecidableEq

inductive Holder where
  | coordinator
  | task (item : ℕ)
  deriving DecidableEq

/-- A fan-out: the keys of its pending items and the policy. -/
structure Config where
  keys : List String
  onError : OnError

/-- `permits` is the semaphore, when there is one. `done` are the finished tasks that the
coordinator has not taken, `taken` counts the others. `box` is what the writers share under
the lock, `generations` are the snapshots handed to the log. -/
structure State (V : Type) where
  tasks : List (ItemTask V)
  permits : Option ℕ
  done : List ℕ
  taken : ℕ
  phase : Phase
  lock : Option Holder
  box : Results V
  generations : List (Results V)

/-- `landed` says whether the snapshot of a cancelled writer reaches the log all the same. -/
inductive Action (V : Type) where
  | enter (item : ℕ)
  | attempt (item : ℕ) (result : Attempt V)
  | interrupt (item : ℕ) (landed : Bool)
  | forward (item : ℕ) (snapshot : List (String × V))
  | forwarded (item : ℕ)
  | forwardFails (item : ℕ)
  | take
  | acquire
  | recorded
  | recordFails
  | cancel (landed : Bool)
  | settle (item : ℕ) (landed : Bool)

/-- The item whose task begins, begins anew or leaves `do`. -/
def Action.item? {V : Type} : Action V → Option ℕ
  | .enter item | .attempt item _ | .interrupt item _ | .settle item _ => some item
  | _ => none

section Step
variable {V : Type} (c : Config) (s : State V)

/-- The state a fan-out starts in when some keys are absent. -/
def start (permits : Option ℕ) (before : Dict String V) : State V where
  tasks := List.replicate c.keys.length .waiting
  permits := permits
  done := []
  taken := 0
  phase := if c.keys = [] then .collecting else .consuming
  lock := none
  box := before.mapVal fun _ value => .before value
  generations := []

/-- The key of an item. -/
def Config.key (item : ℕ) : String := c.keys.getD item ""

/-- Leave the semaphore with an outcome; the completion is queued. -/
def State.finish (item : ℕ) (outcome : Outcome V) : State V :=
  { s with
    tasks := s.tasks.set item (.finished outcome)
    permits := s.permits.map (· + 1)
    done := s.done ++ [item] }

/-- The writer gives the lock back; the log has its snapshot, or the write was lost. -/
def State.release (landed : Bool) : State V :=
  { s with
    lock := none
    generations := if landed then s.generations ++ [s.box] else s.generations }

/-- A task that stops gives the lock back if its recorder holds it. -/
def State.abandon (item : ℕ) (landed : Bool) : State V :=
  if s.lock = some (.task item) then s.release landed else s

/-- The keys of the item's sub-scope that its recorder has not forwarded. -/
def newKeys (prefix_ : String) (forwarded : List String) (snapshot : List (String × V)) : List (String × V) :=
  snapshot.filter fun p => (prefix_ ++ ".").toList.isPrefixOf p.1.toList && p.1 ∉ forwarded

/-- The value the coordinator writes for a finished task, if it does not raise. -/
def cellOf (item : ℕ) : Outcome V → Option (Cell V)
  | .success value => some (.result item value)
  | .failure error => if c.onError = .continue then some (.dropped item error) else none
  | .interrupted => none

/-- One step of a task or of the coordinator, between two awaits. A cancelled task may finish all
the same, when what it awaits takes the cancellation for itself. -/
def step : Action V → Option (State V)
  | .enter item =>
    match s.tasks[item]?, s.permits with
    | some .waiting, none =>
      if s.phase = .cancelling then none else some { s with tasks := s.tasks.set item (.running (c.onError.attempts - 1) []) }
    | some .waiting, some (permits + 1) =>
      if s.phase = .cancelling then none
      else some { s with tasks := s.tasks.set item (.running (c.onError.attempts - 1) []), permits := some permits }
    | _, _ => none
  | .attempt item result =>
    match s.tasks[item]? with
    | some (.running left _) =>
      if s.lock = some (.task item) then none
      else match result with
        | .returned value => some (s.finish item (.success value))
        | .failed error =>
          match left with
          | 0 => some (s.finish item (.failure error))
          | left + 1 => some { s with tasks := s.tasks.set item (.running left []) }
    | _ => none
  | .interrupt item landed =>
    match s.tasks[item]? with
    | some (.running _ _) => some ((s.abandon item landed).finish item .interrupted)
    | _ => none
  | .forward item snapshot =>
    match s.tasks[item]? with
    | some (.running left forwarded) =>
      let fresh := newKeys (c.key item) forwarded snapshot
      if s.lock = none ∧ fresh ≠ [] then
        some { s with
          tasks := s.tasks.set item (.running left (forwarded ++ fresh.map Prod.fst))
          lock := some (.task item)
          box := s.box.update (fresh.map fun p => (p.1,.subStep item p.2)) }
      else none
    | _ => none
  | .forwarded item => if s.lock = some (.task item) then some (s.release true) else none
  | .forwardFails item => if s.lock = some (.task item) then some (s.release false) else none
  | .take =>
    match s.phase, s.done with
    | .consuming, item :: rest =>
      match s.tasks[item]? with
      | some (.finished outcome) =>
        some { s with done := rest, taken := s.taken + 1, phase := if (cellOf c item outcome).isSome then .locking item else .cancelling }
      | _ => none
    | _, _ => none
  | .acquire =>
    match s.phase with
    | .locking item =>
      match s.tasks[item]? with
      | some (.finished outcome) =>
        if s.lock = none then
          (cellOf c item outcome).map fun cell =>
            { s with phase := .recording item, lock := some .coordinator, box := s.box.set (c.key item) cell }
        else none
      | _ => none
    | _ => none
  | .recorded =>
    match s.phase with
    | .recording _ =>
      some { s.release true with phase := if s.taken = c.keys.length then .collecting else .consuming }
    | _ => none
  | .recordFails =>
    match s.phase with
    | .recording _ => some { s.release false with phase := .cancelling }
    | _ => none
  | .cancel landed =>
    match s.phase with
    | .consuming | .locking _ => some { s with phase := .cancelling }
    | .recording _ => some { s.release landed with phase := .cancelling }
    | _ => none
  | .settle item landed =>
    if s.phase = .cancelling then
      match s.tasks[item]? with
      | some .waiting => some { s with tasks := s.tasks.set item .cancelled }
      | some (.running _ _) =>
        some { s.abandon item landed with
          tasks := s.tasks.set item .cancelled
          permits := s.permits.map (· + 1) }
      | _ => none
    else none

end Step

/-- The permits of `for_each`: `max_parallel`, or eight when it is missing or zero, but no more than
the pending items. -/
def maxParallelOf (maxParallel : Option ℕ) (pending : ℕ) : ℕ :=
  match maxParallel with
  | some (n + 1) => n + 1
  | _ => min pending 8

section Members
variable {V : Type} (label : String) (onError : OnError) (before : Dict String V)

/-- The keys the results so far do not have. -/
def absentKeys (keys : List String) : List String := keys.filter fun k => (before.get? k).isNone

/-- The fan-out of `_run_for_each_step` over `n` items. -/
def forEachConfig (n : ℕ) : Config :=
  ⟨absentKeys before ((List.range n).map fun i => label ++ ".for_each." ++ toString i),onError⟩

def forEachStart (n : ℕ) (maxParallel : Option ℕ) : State V :=
  start (forEachConfig label onError before n)
    (some (maxParallelOf maxParallel (forEachConfig label onError before n).keys.length)) before

/-- The fan-out of `_run_parallel_step` over named branches; it has no semaphore. -/
def parallelConfig (names : List String) : Config :=
  ⟨absentKeys before (names.map fun name => label ++ ".parallel." ++ name),onError⟩

def parallelStart (names : List String) : State V := start (parallelConfig label onError before names) none before

end Members

section Steps
variable {V : Type} {c : Config} {s s' : State V} {item : ℕ}

/-- The tasks after a change of one. -/
theorem getElem?_set_task {tasks : List (ItemTask V)} {t t' : ItemTask V} (h : tasks[item]? = some t) (i : ℕ) :
    (tasks.set item t')[i]? = if i = item then some t' else tasks[i]? := by
  rw [List.getElem?_set]
  obtain ⟨hi,-⟩ := List.getElem?_eq_some_iff.mp h
  by_cases he : i = item
  · subst he
    simp [hi]
  · simp [he,Ne.symm he]

/-- What a task can do to what it shares with the coordinator: it writes no result, and nothing at
all while the coordinator holds the lock. -/
structure Aside (s s' : State V) : Prop where
  phase : s'.phase = s.phase
  lock : s.lock = some .coordinator → s'.lock = s.lock ∧ s'.box = s.box ∧ s'.generations = s.generations
  box : ∀ k i value, s'.box.get? k = some (.result i value) → s.box.get? k = some (.result i value)
  keys : ∀ k, (s.box.get? k).isSome → (s'.box.get? k).isSome
  handed : s'.generations = s.generations ∨ s'.generations = s.generations ++ [s.box]

theorem Aside.kept (a : Aside s s') : s.generations ⊆ s'.generations := by
  rcases a.handed with hg | hg
  · exact hg ▸ List.Subset.refl _
  · exact hg ▸ List.subset_append_left _ _

theorem Aside.cases_generations (a : Aside s s') {g : Results V} (h : g ∈ s'.generations) :
    g ∈ s.generations ∨ g = s.box := by
  rcases a.handed with hg | hg
  · exact .inl (hg ▸ h)
  · rw [hg] at h
    exact (List.mem_append.mp h).imp id List.mem_singleton.mp

theorem Aside.of_eq (hp : s'.phase = s.phase) (hl : s'.lock = s.lock) (hb : s'.box = s.box)
    (hg : s'.generations = s.generations) : Aside s s' := by
  refine ⟨hp,fun _ => ⟨hl,hb,hg⟩,?_,?_,.inl hg⟩
  · intro k i value h
    rwa [hb] at h
  · intro k h
    rwa [hb]

/-- A recorder that holds the lock gives it back. -/
theorem Aside.release (landed : Bool) (h : s.lock = some (.task item)) : Aside s (s.release landed) := by
  refine ⟨rfl,fun hl => ?_,fun k i value hv => hv,fun k hk => hk,?_⟩
  · rw [h] at hl
    cases hl
  · cases landed with
    | false => exact .inl rfl
    | true => exact .inr rfl

theorem Aside.abandon (landed : Bool) : Aside s (s.abandon item landed) := by
  unfold State.abandon
  split
  · rename_i h
    exact .release landed h
  · exact .of_eq rfl rfl rfl rfl

@[simp] theorem abandon_tasks (landed : Bool) : (s.abandon item landed).tasks = s.tasks := by
  unfold State.abandon
  split <;> rfl

@[simp] theorem abandon_done (landed : Bool) : (s.abandon item landed).done = s.done := by
  unfold State.abandon
  split <;> rfl

/-- A recorder takes the free lock and adds the values of sub-steps. -/
theorem Aside.forward {fresh : List (String × V)} (hl : s.lock = none) (hp : s'.phase = s.phase)
    (hb : s'.box = s.box.update (fresh.map fun p => (p.1,.subStep item p.2))) (hg : s'.generations = s.generations) :
    Aside s s' := by
  refine ⟨hp,fun h => ?_,fun k i value h => ?_,fun k h => ?_,.inl hg⟩
  · rw [hl] at h
    cases h
  · rw [hb] at h
    rcases Dict.update_cases h with h | h
    · exact h
    · obtain ⟨p,-,he⟩ := List.mem_map.mp h
      cases he
  · rw [hb]
    exact Dict.isSome_update _ h

theorem Aside.finish (outcome : Outcome V) (a : Aside s s') : Aside s (s'.finish item outcome) :=
  ⟨a.phase,a.lock,a.box,a.keys,a.handed⟩

@[simp] theorem abandon_permits (landed : Bool) : (s.abandon item landed).permits = s.permits := by
  unfold State.abandon
  split <;> rfl

/-- The steps of the tasks, the others are the coordinator's. -/
def Action.ofTask : Action V → Bool
  | .take | .acquire | .recorded | .recordFails | .cancel _ => false
  | _ => true

/-- How a task moves, with the permits before and after. -/
inductive Move : ItemTask V → ItemTask V → Option ℕ → Option ℕ → Prop
  | enter (left : ℕ) : Move .waiting (.running left []) none none
  | enterGated (left permits : ℕ) : Move .waiting (.running left []) (some (permits + 1)) (some permits)
  | again {left left' : ℕ} {forwarded forwarded' : List String} (permits : Option ℕ) :
    Move (.running left forwarded) (.running left' forwarded') permits permits
  | finish {left : ℕ} {forwarded : List String} (outcome : Outcome V) (permits : Option ℕ) :
    Move (.running left forwarded) (.finished outcome) permits (permits.map (· + 1))
  | dismiss (permits : Option ℕ) : Move .waiting .cancelled permits permits
  | stop {left : ℕ} {forwarded : List String} (permits : Option ℕ) :
    Move (.running left forwarded) .cancelled permits (permits.map (· + 1))

/-- What a finished task adds to the queue. -/
def queuedBy (item : ℕ) : ItemTask V → List ℕ
  | .finished _ => [item]
  | _ => []

/-- What a step of a task does: it leaves the coordinator alone, and it moves one task, or none. -/
structure TaskStep (a : Action V) (s s' : State V) : Prop where
  aside : Aside s s'
  moves : s'.tasks = s.tasks ∧ s'.permits = s.permits ∧ s'.done = s.done ∨
    ∃ item t t', s.tasks[item]? = some t ∧ s'.tasks = s.tasks.set item t' ∧ Move t t' s.permits s'.permits ∧
      s'.done = s.done ++ queuedBy item t' ∧ (a.item? = some item ∨ ∃ left forwarded, t' = .running left forwarded)

theorem TaskStep.of_move {a : Action V} {t t' : ItemTask V} (ha : Aside s s') (ht : s.tasks[item]? = some t)
    (htasks : s'.tasks = s.tasks.set item t') (hm : Move t t' s.permits s'.permits)
    (hdone : s'.done = s.done ++ queuedBy item t')
    (hi : a.item? = some item ∨ ∃ left forwarded, t' = .running left forwarded) : TaskStep a s s' :=
  ⟨ha,.inr ⟨item,t,t',ht,htasks,hm,hdone,hi⟩⟩

theorem step_ofTask {a : Action V} (ha : a.ofTask = true) (hs : step c s a = some s') : TaskStep a s s' := by
  cases a with
  | enter item =>
    simp only [step] at hs
    split at hs
    · rename_i ht hpermits
      obtain ⟨-,hs⟩ := Option.ite_none_left_eq_some.mp hs
      obtain rfl := (Option.some.inj hs).symm
      refine .of_move (.of_eq rfl rfl rfl rfl) ht rfl ?_ (List.append_nil _).symm (.inl rfl)
      dsimp only
      rw [hpermits]
      exact .enter _
    · rename_i permits ht hpermits
      obtain ⟨-,hs⟩ := Option.ite_none_left_eq_some.mp hs
      obtain rfl := (Option.some.inj hs).symm
      refine .of_move (.of_eq rfl rfl rfl rfl) ht rfl ?_ (List.append_nil _).symm (.inl rfl)
      rw [hpermits]
      exact .enterGated _ _
    · cases hs
  | attempt item result =>
    simp only [step] at hs
    split at hs
    case h_2 => cases hs
    rename_i left forwarded ht
    obtain ⟨-,hs⟩ := Option.ite_none_left_eq_some.mp hs
    have hsame : Aside s s := .of_eq rfl rfl rfl rfl
    cases result with
    | returned value =>
      obtain rfl := (Option.some.inj hs).symm
      exact .of_move (hsame.finish _) ht rfl (.finish _ _) rfl (.inl rfl)
    | failed error =>
      cases left with
      | zero =>
        obtain rfl := (Option.some.inj hs).symm
        exact .of_move (hsame.finish _) ht rfl (.finish _ _) rfl (.inl rfl)
      | succ left =>
        obtain rfl := (Option.some.inj hs).symm
        exact .of_move (.of_eq rfl rfl rfl rfl) ht rfl (.again _) (List.append_nil _).symm (.inl rfl)
  | interrupt item landed =>
    simp only [step] at hs
    split at hs
    case h_2 => cases hs
    rename_i left forwarded ht
    obtain rfl := (Option.some.inj hs).symm
    have hmove : Move (ItemTask.running left forwarded) (ItemTask.finished (Outcome.interrupted : Outcome V)) s.permits
        ((s.abandon item landed).finish item .interrupted).permits := by
      simp only [State.finish,abandon_permits]
      exact .finish _ _
    refine .of_move ((Aside.abandon landed).finish _) ht ?_ hmove ?_ (.inl rfl)
    · simp [State.finish]
    · simp [State.finish,queuedBy]
  | forward item snapshot =>
    simp only [step] at hs
    split at hs
    case h_2 => cases hs
    rename_i left forwarded ht
    obtain ⟨⟨hlock,-⟩,hs⟩ := Option.ite_none_right_eq_some.mp hs
    obtain rfl := (Option.some.inj hs).symm
    exact .of_move (.forward hlock rfl rfl rfl) ht rfl (.again _) (List.append_nil _).symm (.inr ⟨left,_,rfl⟩)
  | forwarded item =>
    obtain ⟨hlock,hs⟩ := Option.ite_none_right_eq_some.mp hs
    obtain rfl := (Option.some.inj hs).symm
    exact ⟨.release true hlock,.inl ⟨rfl,rfl,rfl⟩⟩
  | forwardFails item =>
    obtain ⟨hlock,hs⟩ := Option.ite_none_right_eq_some.mp hs
    obtain rfl := (Option.some.inj hs).symm
    exact ⟨.release false hlock,.inl ⟨rfl,rfl,rfl⟩⟩
  | settle item landed =>
    obtain ⟨-,hs⟩ := Option.ite_none_right_eq_some.mp hs
    split at hs
    · rename_i ht
      obtain rfl := (Option.some.inj hs).symm
      exact .of_move (.of_eq rfl rfl rfl rfl) ht rfl (.dismiss _) (List.append_nil _).symm (.inl rfl)
    · rename_i ht
      obtain rfl := (Option.some.inj hs).symm
      have haside : Aside s (s.abandon item landed) := .abandon landed
      refine .of_move ⟨haside.phase,haside.lock,haside.box,haside.keys,haside.handed⟩ ht rfl (.stop _) ?_ (.inl rfl)
      simp [queuedBy]
    · cases hs
  | _ => cases ha

/-- What the coordinator does to what is not its own: nothing to the tasks, and what it hands to the
log is the shared map, to which it may have added a key. It takes no step after it raised. -/
structure CoordinatorStep (s s' : State V) : Prop where
  phase : s.phase ≠ .cancelling
  tasks : s'.tasks = s.tasks
  permits : s'.permits = s.permits
  keys : ∀ k, (s.box.get? k).isSome → (s'.box.get? k).isSome
  handed : s'.generations = s.generations ∨ s'.generations = s.generations ++ [s.box]

theorem step_coordinator {a : Action V} (ha : a.ofTask = false) (hs : step c s a = some s') : CoordinatorStep s s' := by
  cases a with
  | take =>
    simp only [step] at hs
    split at hs
    case h_2 => cases hs
    rename_i hphase _
    split at hs
    case h_2 => cases hs
    obtain rfl := (Option.some.inj hs).symm
    exact ⟨hphase ▸ Phase.noConfusion,rfl,rfl,fun _ hk => hk,.inl rfl⟩
  | acquire =>
    simp only [step] at hs
    split at hs
    case h_2 => cases hs
    rename_i hphase
    split at hs
    case h_2 => cases hs
    obtain ⟨-,hs⟩ := Option.ite_none_right_eq_some.mp hs
    obtain ⟨cell,-,rfl⟩ := Option.map_eq_some_iff.mp hs
    refine ⟨hphase ▸ Phase.noConfusion,rfl,rfl,fun k hk => ?_,.inl rfl⟩
    dsimp only
    rw [Dict.get?_set]
    split
    · rfl
    · exact hk
  | recorded =>
    simp only [step] at hs
    split at hs
    case h_2 => cases hs
    rename_i hphase
    obtain rfl := (Option.some.inj hs).symm
    exact ⟨hphase ▸ Phase.noConfusion,rfl,rfl,fun _ hk => hk,.inr rfl⟩
  | recordFails =>
    simp only [step] at hs
    split at hs
    case h_2 => cases hs
    rename_i hphase
    obtain rfl := (Option.some.inj hs).symm
    exact ⟨hphase ▸ Phase.noConfusion,rfl,rfl,fun _ hk => hk,.inl rfl⟩
  | cancel landed =>
    simp only [step] at hs
    split at hs
    · rename_i hphase
      obtain rfl := (Option.some.inj hs).symm
      exact ⟨hphase ▸ Phase.noConfusion,rfl,rfl,fun _ hk => hk,.inl rfl⟩
    · rename_i hphase
      obtain rfl := (Option.some.inj hs).symm
      exact ⟨hphase ▸ Phase.noConfusion,rfl,rfl,fun _ hk => hk,.inl rfl⟩
    · rename_i hphase
      obtain rfl := (Option.some.inj hs).symm
      cases landed with
      | false => exact ⟨hphase ▸ Phase.noConfusion,rfl,rfl,fun _ hk => hk,.inl rfl⟩
      | true => exact ⟨hphase ▸ Phase.noConfusion,rfl,rfl,fun _ hk => hk,.inr rfl⟩
    · cases hs
  | _ => cases ha

/-- After the coordinator raised only the tasks take steps. -/
theorem step_aside {a : Action V} (hp : s.phase = .cancelling) (hs : step c s a = some s') : Aside s s' := by
  cases ha : a.ofTask with
  | true => exact (step_ofTask ha hs).aside
  | false => exact absurd hp (step_coordinator ha hs).phase

/-- No step takes a key from the shared map, and what it hands to the log is that map. -/
theorem step_generations {a : Action V} (hs : step c s a = some s') :
    (∀ k, (s.box.get? k).isSome → (s'.box.get? k).isSome) ∧
      (s'.generations = s.generations ∨ s'.generations = s.generations ++ [s.box]) := by
  cases ha : a.ofTask with
  | true => exact ⟨(step_ofTask ha hs).aside.keys,(step_ofTask ha hs).aside.handed⟩
  | false => exact ⟨(step_coordinator ha hs).keys,(step_coordinator ha hs).handed⟩

/-! ## The semaphore -/

def ItemTask.isRunning : ItemTask V → Bool
  | .running _ _ => true
  | _ => false

/-- The items inside `do`. -/
def State.live (s : State V) : ℕ := s.tasks.countP ItemTask.isRunning

/-- A step about no task of its own, or about another's, leaves a task inside `do`. -/
theorem running_of_other {a : Action V} {i : ℕ} (hs : step c s a = some s') (hi : a.item? ≠ some i)
    (hr : ∃ left forwarded, s.tasks[i]? = some (.running left forwarded)) :
    ∃ left forwarded, s'.tasks[i]? = some (.running left forwarded) := by
  cases ha : a.ofTask with
  | false => exact (step_coordinator ha hs).tasks ▸ hr
  | true =>
    obtain ⟨-,⟨htasks,-,-⟩ | ⟨item,t,t',ht,htasks,-,-,hitem⟩⟩ := step_ofTask ha hs
    · exact htasks ▸ hr
    · rw [htasks,getElem?_set_task ht]
      split
      · rename_i he
        subst he
        obtain ⟨left,forwarded,rfl⟩ := hitem.resolve_left hi
        exact ⟨left,forwarded,rfl⟩
      · exact hr

/-- A task enters `do`. -/
theorem live_enter {t t' : ItemTask V} (htasks : s'.tasks = s.tasks.set item t') (ht : s.tasks[item]? = some t)
    (hn : t.isRunning = false) (hr : t'.isRunning = true) : s'.live = s.live + 1 := by
  obtain ⟨hi,rfl⟩ := List.getElem?_eq_some_iff.mp ht
  rw [State.live,htasks,List.countP_set hi,if_neg (by simp [hn]),if_pos hr]
  simp [State.live]

/-- A task leaves `do`. -/
theorem live_leave {t t' : ItemTask V} (htasks : s'.tasks = s.tasks.set item t') (ht : s.tasks[item]? = some t)
    (hr : t.isRunning = true) (hn : t'.isRunning = false) : s'.live + 1 = s.live := by
  obtain ⟨hi,rfl⟩ := List.getElem?_eq_some_iff.mp ht
  have hpos : 0 < s.tasks.countP ItemTask.isRunning := List.countP_pos_iff.mpr ⟨_,List.getElem_mem hi,hr⟩
  rw [State.live,htasks,List.countP_set hi,if_pos hr,if_neg (by simp [hn]),State.live]
  omega

/-- A task stays on its side of the semaphore. -/
theorem live_stay {t t' : ItemTask V} (htasks : s'.tasks = s.tasks.set item t') (ht : s.tasks[item]? = some t)
    (he : t.isRunning = t'.isRunning) : s'.live = s.live := by
  obtain ⟨hi,rfl⟩ := List.getElem?_eq_some_iff.mp ht
  have hpos : s.tasks[item].isRunning = true → 0 < s.tasks.countP ItemTask.isRunning :=
    fun hr => List.countP_pos_iff.mpr ⟨_,List.getElem_mem hi,hr⟩
  rw [State.live,htasks,List.countP_set hi,← he,State.live]
  split
  · rename_i hr
    have := hpos hr
    omega
  · omega

/-- The permits that are free and those that are held. -/
def State.slots (s : State V) : Option ℕ := s.permits.map (· + s.live)

theorem slots_stay (hp : s'.permits = s.permits) (hl : s'.live = s.live) : s'.slots = s.slots := by
  rw [State.slots,State.slots,hp,hl]

theorem slots_leave (hp : s'.permits = s.permits.map (· + 1)) (hl : s'.live + 1 = s.live) : s'.slots = s.slots := by
  rw [State.slots,State.slots,hp,Option.map_map,← hl]
  congr 1
  funext p
  simp only [Function.comp_apply]
  omega

theorem slots_enter {permits : ℕ} (hp : s.permits = some (permits + 1)) (hp' : s'.permits = some permits)
    (hl : s'.live = s.live + 1) : s'.slots = s.slots := by
  rw [State.slots,State.slots,hp,hp',hl,Option.map_some,Option.map_some]
  congr 1
  omega

theorem step_slots {a : Action V} (hs : step c s a = some s') : s'.slots = s.slots := by
  cases ha : a.ofTask with
  | false =>
    have hcoordinator := step_coordinator ha hs
    exact slots_stay hcoordinator.permits (congrArg (List.countP ItemTask.isRunning) hcoordinator.tasks)
  | true =>
    obtain ⟨-,⟨htasks,hpermits,-⟩ | ⟨item,t,t',ht,htasks,hmove,-,-⟩⟩ := step_ofTask ha hs
    · exact slots_stay hpermits (congrArg (List.countP ItemTask.isRunning) htasks)
    · generalize hp : s.permits = p, hp' : s'.permits = p' at hmove
      cases hmove with
      | enter => simp [State.slots,hp,hp']
      | enterGated => exact slots_enter hp hp' (live_enter htasks ht rfl rfl)
      | again => exact slots_stay (hp'.trans hp.symm) (live_stay htasks ht rfl)
      | finish => exact slots_leave (hp ▸ hp') (live_leave htasks ht rfl rfl)
      | dismiss => exact slots_stay (hp'.trans hp.symm) (live_stay htasks ht rfl)
      | stop => exact slots_leave (hp ▸ hp') (live_leave htasks ht rfl rfl)

/-- No more items are inside `do` than the semaphore has permits. -/
theorem live_le {permits : ℕ} {before : Dict String V}
    (run : Runs (step c) (fun _ _ => True) (start c (some permits) before) s) : s.live ≤ permits := by
  have hslots : s.slots = some permits := by
    apply run.invariant (I := fun t => t.slots = some permits)
    · have hlive : (start c (some permits) before).live = 0 := by
        apply List.countP_eq_zero.mpr
        intro t ht
        rw [List.eq_of_mem_replicate ht]
        exact Bool.false_ne_true
      rw [State.slots,hlive]
      rfl
    · exact fun u _ v hu _ hv => (step_slots hv).trans hu
  obtain ⟨p,-,hp⟩ := Option.map_eq_some_iff.mp hslots
  omega

end Steps
end Reyn.FanOut
