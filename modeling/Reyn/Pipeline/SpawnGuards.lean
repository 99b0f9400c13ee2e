import Reyn.Pipeline.FanOut

/-! # Spawn guards

A run is a tree of activations: what a runner has started and waits for. Every step of the
tree happens at one place of it, between two awaits. What an expression evaluates to, what
the recovery map holds, which tool or session fails and when, all that is read from outside.
The spawn budget is one for the run; the fan-out depth is copied from runner to runner.
-/
namespace Reyn.SpawnGuards
open Py Transition

/-- `SpawnBudget`: the sessions charged so far and the cap, zero when there is none. -/
structure SpawnBudget where
  cap : ℕ
  spent : ℕ

def SpawnBudget.consume (b : SpawnBudget) (label : String) : Except String SpawnBudget :=
  if b.cap ≠ 0 ∧ b.cap ≤ b.spent then
    .error ("step " ++ label ++ " (agent) would exceed the per-run pipeline spawn cap (" ++ toString b.cap ++ "): " ++
      toString b.spent ++ " ephemeral session(s) already spawned this run — a for_each fanned out more agent-steps " ++
      "than the operator bound allows (S5 spawn guard)")
  else .ok { b with spent := b.spent + 1 }

/-- `_RunDeps` without what is a counter: the fan-out depth is carried by the activations, the
budget by the run. `str` is the text of a branch's name. -/
structure RunDeps where
  registry : Bool
  defaultIdentity : Option String
  pipelines : Option (String → Option Pipeline)
  maxFanOutDepth : ℕ
  str : Value → String

inductive FanKind where
  | forEach (maxParallel : Option ℕ)
  | parallel

/-- A fan-out that was let in: `runs` are the steps of its pending items, `depth` is that of
`child_deps`. -/
structure FanOutJob where
  kind : FanKind
  config : FanOut.Config
  runs : List Step
  collectKey : String
  collect : Step
  depth : ℕ
  before : Dict String Value

/-- A step about to run, a tool or session that is awaited, the steps of a scope one after the other,
a fan-out, or what came out. A callee's steps, the iterations of a `fold` and the top level are
scopes. Items that are not inside `do`, and a `collect` that has not begun, are idle. -/
inductive Activation where
  | idle
  | start (step : Step) (label : String) (depth : ℕ)
  | tool
  | session
  | scope (scopePrefix : Option String) (index : ℕ) (rest : List Step) (depth : ℕ) (pipe : Value) (current : Activation)
  | fanOut (job : FanOutJob) (coordinator : FanOut.State Value) (items : List Activation) (collect : Activation)
  | returned (value : Value)
  | raised (error : String)

/-- What a runner reads from outside at one of its steps: the recovery map, whether something it
evaluates or looks up fails and with what text, the values it gets, and whether the session of
an agent step is started once it is charged. -/
structure Reads where
  results : Dict String Value
  fails : Bool
  text : String
  selector : String
  source : List Value
  value : Value
  spawns : Bool

inductive Happening where
  | begin (reads : Reads)
  | finish (result : Except String Value)
  | next (failure : Option String)
  | coordinate (action : FanOut.Action Value)

/-- A place below an activation. -/
inductive Place where
  | current
  | item (i : ℕ)
  | collect

section Runners
variable (deps : RunDeps) (r : Reads) (label : String) (depth : ℕ)

def runTransformStep : Activation := if r.fails then .raised r.text else .returned r.value

/-- `step.identity or deps.default_identity` -/
def identityOf (step : AgentStep) : Option String :=
  match step.identity with
  | none => deps.defaultIdentity
  | some identity => if identity = "" then deps.defaultIdentity else some identity

/-- The budget is charged before the session is started. The second component counts the sessions
started. -/
def runAgentStep (b : SpawnBudget) (step : AgentStep) : SpawnBudget × ℕ × Activation :=
  match identityOf deps step, deps.registry with
  | some _, true =>
    match b.consume label with
    | .ok b' => if r.spawns then (b',1,.session) else (b',0,.raised r.text)
    | .error error => (b,0,.raised error)
  | _, _ => (b,0,.raised r.text)

/-- The steps of the pipeline of that name, under a prefix. -/
def runCallee (name scopePrefix : String) : Activation :=
  match deps.pipelines.bind (· name) with
  | some callee => if r.fails then .raised r.text else .scope (some scopePrefix) 0 callee.steps depth r.value .idle
  | none => .raised r.text

def runCallStep (step : CallStep) : Activation := runCallee deps r depth step.pipeline (label ++ ".call")

def runMatchStep (step : MatchStep) : Activation :=
  if r.fails then .raised r.text
  else
    match (step.cases.lookup (.str r.selector)).or step.default with
    | some case => runCallee deps r depth case.pipeline (label ++ ".match")
    | none => .raised r.text

/-- One iteration of `do` for each item, in order. -/
def runFoldStep (run : Step) (maxItems : Option ℕ) : Activation :=
  if r.fails then .raised r.text
  else
    let source := match maxItems with
      | some n => r.source.take n
      | none => r.source
    .scope (some (label ++ ".fold")) 0 (List.replicate source.length run) depth r.value .idle

def FanKind.name : FanKind → String
  | .forEach _ => "for_each"
  | .parallel => "parallel"

def FanKind.permits (pending : ℕ) : FanKind → Option ℕ
  | .forEach maxParallel => some (FanOut.maxParallelOf maxParallel pending)
  | .parallel => none

def depthRefusal (name : String) (next : ℕ) : String :=
  "step " ++ label ++ " (" ++ name ++ ") fan-out depth " ++ toString next ++ " exceeds the operator cap " ++
    toString deps.maxFanOutDepth ++ " (S5 depth guard) — a " ++ name ++
    " nested deeper than allowed fails the step rather than spawning"

def FanOutJob.start (job : FanOutJob) : FanOut.State Value :=
  FanOut.start job.config (job.kind.permits job.config.keys.length) job.before

/-- The depth guard, and the tasks behind it. -/
def enterFanOut (job : FanOutJob) : Activation :=
  if deps.maxFanOutDepth ≠ 0 ∧ deps.maxFanOutDepth < job.depth then
    .raised (depthRefusal deps label job.kind.name job.depth)
  else .fanOut job job.start (List.replicate job.config.keys.length .idle) .idle

def runForEachStep (run collect : Step) (onError : String) (maxParallel : Option ℕ) : Activation :=
  match r.results.get? (label ++ ".for_each.collect") with
  | some value => .returned value
  | none =>
    if r.fails then .raised r.text
    else
      match parseOnError onError with
      | .error _ => .raised r.text
      | .ok policy =>
        let config := FanOut.forEachConfig label policy r.results r.source.length
        enterFanOut deps label
          { kind := .forEach maxParallel
            config := config
            runs := List.replicate config.keys.length run
            collectKey := label ++ ".for_each.collect"
            collect := collect
            depth := depth + 1
            before := r.results }

def runParallelStep (branches : List (Value × Step)) (collect : Step) (onError : String) : Activation :=
  match r.results.get? (label ++ ".parallel.collect") with
  | some value => .returned value
  | none =>
    match parseOnError onError with
    | .error _ => .raised r.text
    | .ok policy =>
      enterFanOut deps label
        { kind := .parallel
          config := FanOut.parallelConfig label policy r.results (branches.map fun b => deps.str b.1)
          runs := (branches.filter fun b => (r.results.get? (label ++ ".parallel." ++ deps.str b.1)).isNone).map Prod.snd
          collectKey := label ++ ".parallel.collect"
          collect := collect
          depth := depth + 1
          before := r.results }

/-- `STEP_DISPATCH`, up to the first await of the runner. -/
def dispatch (b : SpawnBudget) : Step → SpawnBudget × ℕ × Activation
  | .transform _ => (b,0,runTransformStep r)
  | .tool _ => (b,0,.tool)
  | .agent step => runAgentStep deps r label b step
  | .call step => (b,0,runCallStep deps r label depth step)
  | .match step => (b,0,runMatchStep deps r label depth step)
  | .fold _ run _ _ maxItems => (b,0,runFoldStep r label depth run maxItems)
  | .forEach run collect onError _ maxParallel _ => (b,0,runForEachStep deps r label depth run collect onError maxParallel)
  | .parallel branches collect onError _ => (b,0,runParallelStep deps r label depth branches collect onError)

end Runners

/-- The key of a step of a scope; the top level has no prefix. -/
def scopeKey : Option String → ℕ → String
  | none, index => toString index
  | some scopePrefix, index => scopePrefix ++ "." ++ toString index

/-- The next step of a scope: a key that is there is replayed, but not at the top level, where the
run may be cancelled instead. -/
def advance (r : Reads) (scopePrefix : Option String) (index : ℕ) (rest : List Step) (depth : ℕ) (pipe : Value) : Activation :=
  match rest with
  | [] => .returned pipe
  | step :: rest =>
    match scopePrefix with
    | none =>
      if r.fails then .raised r.text
      else .scope none index rest depth pipe (.start step (scopeKey none index) depth)
    | some p =>
      match r.results.get? (scopeKey (some p) index) with
      | some value => .scope (some p) (index + 1) rest depth value .idle
      | none => .scope (some p) index rest depth pipe (.start step (scopeKey (some p) index) depth)

def Activation.ofResult : Except String Value → Activation
  | .ok value => .returned value
  | .error error => .raised error

/-- Whether a task's attempt can end so: a value that is no canonical error of a tool is a result. -/
def offered (run : Option Step) : Option Activation → FanOut.Attempt Value → Bool
  | some (.returned value), .returned value' => value == value'
  | some (.returned _), .failed _ => match run with
    | some (.tool _) => true
    | _ => false
  | some (.raised error), .failed error' => error == error'
  | _, _ => false

/-- What the items must have come to for a step of their fan-out. -/
def FanOutJob.allows (job : FanOutJob) (items : List Activation) : FanOut.Action Value → Bool
  | .attempt i result => offered job.runs[i]? items[i]? result
  | .interrupt i _ => match items[i]? with
    | some (.raised _) => true
    | _ => false
  | _ => true

/-- The items after a step of their fan-out: `do` begins, begins anew, or is left. -/
def FanOutJob.follow (job : FanOutJob) (coordinator : FanOut.State Value) (items : List Activation)
    (a : FanOut.Action Value) : List Activation :=
  match a.item? with
  | none => items
  | some i =>
    items.set i (match coordinator.tasks[i]?, job.runs[i]? with
      | some (.running _ _), some run => .start run (job.config.key i) job.depth
      | _, _ => .idle)

/-- What comes out of a fan-out whose `collect` has ended, or whose tasks have after it raised. -/
def FanOutJob.leave (coordinator : FanOut.State Value) (collect : Activation) (failure : Option String) : Option Activation :=
  match coordinator.phase, collect, failure with
  | .collecting, .returned value, none => some (.returned value)
  | .collecting, .returned _, some error => some (.raised error)
  | .collecting, .raised error, _ => some (.raised error)
  | .cancelling, _, some error => if coordinator.tasks.all FanOut.ItemTask.isOver then some (.raised error) else none
  | _, _, _ => none

section Step
variable (deps : RunDeps) (b : SpawnBudget)

/-- A step of an activation itself. -/
def stepHere : Activation → Happening → Option (SpawnBudget × ℕ × Activation)
  | .start step label depth, .begin r => some (dispatch deps r label depth b step)
  | .tool, .finish result => some (b,0,.ofResult result)
  | .session, .finish result => some (b,0,.ofResult result)
  | .scope scopePrefix index rest depth pipe .idle, .begin r => some (b,0,advance r scopePrefix index rest depth pipe)
  | .scope scopePrefix index rest depth _ (.returned value), .next none =>
    some (b,0,.scope scopePrefix (index + 1) rest depth value .idle)
  | .scope _ _ _ _ _ (.returned _), .next (some error) => some (b,0,.raised error)
  | .scope _ _ _ _ _ (.raised error), .next _ => some (b,0,.raised error)
  | .fanOut job coordinator items collect, .coordinate a =>
    if job.allows items a then
      (FanOut.step job.config coordinator a).map fun coordinator =>
        (b,0,.fanOut job coordinator (job.follow coordinator items a) collect)
    else none
  | .fanOut job coordinator items .idle, .begin _ =>
    if coordinator.phase = .collecting then
      some (b,0,.fanOut job coordinator items (.start job.collect job.collectKey job.depth))
    else none
  | .fanOut _ coordinator _ collect, .next failure =>
    (FanOutJob.leave coordinator collect failure).map fun e => (b,0,e)
  | _, _ => none

/-- A step somewhere below an activation. -/
def step : Activation → List Place → Happening → Option (SpawnBudget × ℕ × Activation)
  | e, [], h => stepHere deps b e h
  | .scope scopePrefix index rest depth pipe current, .current :: path, h =>
    (step current path h).map fun t => (t.1,t.2.1,.scope scopePrefix index rest depth pipe t.2.2)
  | .fanOut job coordinator items collect, .item i :: path, h =>
    match items[i]? with
    | some e => (step e path h).map fun t => (t.1,t.2.1,.fanOut job coordinator (items.set i t.2.2) collect)
    | none => none
  | .fanOut job coordinator items collect, .collect :: path, h =>
    (step collect path h).map fun t => (t.1,t.2.1,.fanOut job coordinator items t.2.2)
  | _, _ :: _, _ => none

end Step

/-! ## The run -/

structure RunState where
  budget : SpawnBudget
  started : ℕ
  root : Activation

/-- What `run` and `resume` are called with: the caps may be left to their defaults. -/
structure RunArgs where
  deps : RunDeps
  pipeline : Pipeline
  startIndex : ℕ
  pipe : Value
  maxFanOutDepth : Option ℕ
  maxPipelineSpawns : Option ℕ

/-- The caps in force: five and a hundred when they are omitted. -/
def RunArgs.effMaxDepth (args : RunArgs) : ℕ := args.maxFanOutDepth.getD 5
def RunArgs.effMaxSpawns (args : RunArgs) : ℕ := args.maxPipelineSpawns.getD 100

def RunArgs.effDeps (args : RunArgs) : RunDeps := { args.deps with maxFanOutDepth := args.effMaxDepth }

/-- `_run_from`: a run starts at step zero, a resumed one where its snapshot stands. -/
def RunArgs.start (args : RunArgs) : RunState where
  budget := ⟨args.effMaxSpawns,0⟩
  started := 0
  root := .scope none args.startIndex (args.pipeline.steps.drop args.startIndex) 0 args.pipe .idle

def RunArgs.step (args : RunArgs) (s : RunState) (a : List Place × Happening) : Option RunState :=
  (SpawnGuards.step args.effDeps s.budget s.root a.1 a.2).map fun t => ⟨t.1,s.started + t.2.1,t.2.2⟩

section Proofs
variable {deps : RunDeps} {b b' : SpawnBudget} {n : ℕ} {e e' : Activation} {path : List Place} {h : Happening}

/-- What a step at an activation itself does to it, when it dispatches no step. -/
inductive Quiet : Activation → Activation → Prop
  | returned (e : Activation) (value : Value) : Quiet e (.returned value)
  | raised (e : Activation) (error : String) : Quiet e (.raised error)
  | advance (r : Reads) (scopePrefix : Option String) (index : ℕ) (rest : List Step) (depth : ℕ) (pipe : Value) :
    Quiet (.scope scopePrefix index rest depth pipe .idle) (SpawnGuards.advance r scopePrefix index rest depth pipe)
  | next (scopePrefix : Option String) (index : ℕ) (rest : List Step) (depth : ℕ) (pipe value : Value) :
    Quiet (.scope scopePrefix index rest depth pipe (.returned value)) (.scope scopePrefix (index + 1) rest depth value .idle)
  | coordinate {job : FanOutJob} {coordinator coordinator' : FanOut.State Value} {items : List Activation}
    {a : FanOut.Action Value} (collect : Activation) : job.allows items a = true →
    FanOut.step job.config coordinator a = some coordinator' →
    Quiet (.fanOut job coordinator items collect) (.fanOut job coordinator' (job.follow coordinator' items a) collect)
  | collect {job : FanOutJob} {coordinator : FanOut.State Value} (items : List Activation) :
    coordinator.phase = .collecting →
    Quiet (.fanOut job coordinator items .idle) (.fanOut job coordinator items (.start job.collect job.collectKey job.depth))

theorem Quiet.ofResult (e : Activation) (result : Except String Value) : Quiet e (.ofResult result) := by
  cases result with
  | ok value => exact .returned e value
  | error error => exact .raised e error

theorem Quiet.leave {coordinator : FanOut.State Value} {collect : Activation} {failure : Option String} (e : Activation)
    (h : FanOutJob.leave coordinator collect failure = some e') : Quiet e e' := by
  unfold FanOutJob.leave at h
  split at h
  · obtain rfl := Option.some.inj h
    exact .returned e _
  · obtain rfl := Option.some.inj h
    exact .raised e _
  · obtain rfl := Option.some.inj h
    exact .raised e _
  · obtain ⟨-,h⟩ := Option.ite_none_right_eq_some.mp h
    obtain rfl := Option.some.inj h
    exact .raised e _
  · cases h

/-- A step at an activation itself dispatches a step, or it is a quiet one. -/
theorem stepHere_cases (hs : stepHere deps b e h = some (b',n,e')) :
    (∃ step label depth r, e = .start step label depth ∧ dispatch deps r label depth b step = (b',n,e')) ∨
      (b' = b ∧ n = 0) ∧ Quiet e e' := by
  unfold stepHere at hs
  split at hs
  · exact .inl ⟨_,_,_,_,rfl,Option.some.inj hs⟩
  · cases hs
    exact .inr ⟨⟨rfl,rfl⟩,.ofResult _ _⟩
  · cases hs
    exact .inr ⟨⟨rfl,rfl⟩,.ofResult _ _⟩
  · cases hs
    exact .inr ⟨⟨rfl,rfl⟩,.advance _ _ _ _ _ _⟩
  · cases hs
    exact .inr ⟨⟨rfl,rfl⟩,.next _ _ _ _ _ _⟩
  · cases hs
    exact .inr ⟨⟨rfl,rfl⟩,.raised _ _⟩
  · cases hs
    exact .inr ⟨⟨rfl,rfl⟩,.raised _ _⟩
  · obtain ⟨hallows,hs⟩ := Option.ite_none_right_eq_some.mp hs
    obtain ⟨coordinator',hstep,hs⟩ := Option.map_eq_some_iff.mp hs
    cases hs
    exact .inr ⟨⟨rfl,rfl⟩,.coordinate _ hallows hstep⟩
  · obtain ⟨hphase,hs⟩ := Option.ite_none_right_eq_some.mp hs
    cases hs
    exact .inr ⟨⟨rfl,rfl⟩,.collect _ hphase⟩
  · obtain ⟨e'',hleave,hs⟩ := Option.map_eq_some_iff.mp hs
    cases hs
    exact .inr ⟨⟨rfl,rfl⟩,.leave _ hleave⟩
  · cases hs

/-! ## The budget -/

/-- What a step can do to the budget: nothing, or one charge that was granted, for at most one
session. -/
def Charged (b b' : SpawnBudget) (n : ℕ) : Prop := b' = b ∧ n = 0 ∨ (∃ label, b.consume label = .ok b') ∧ n ≤ 1

theorem consume_ok {label : String} (h : b.consume label = .ok b') :
    (b.cap = 0 ∨ b.spent < b.cap) ∧ b' = { b with spent := b.spent + 1 } := by
  unfold SpawnBudget.consume at h
  split at h
  · cases h
  · rename_i hcap
    exact ⟨by omega,(Except.ok.inj h).symm⟩

theorem charged_runAgentStep (r : Reads) (label : String) (step : AgentStep) :
    Charged b (runAgentStep deps r label b step).1 (runAgentStep deps r label b step).2.1 := by
  unfold runAgentStep
  split
  · split
    · rename_i hconsume
      split
      · exact .inr ⟨⟨label,hconsume⟩,Nat.le_refl 1⟩
      · exact .inr ⟨⟨label,hconsume⟩,Nat.zero_le 1⟩
    · exact .inl ⟨rfl,rfl⟩
  · exact .inl ⟨rfl,rfl⟩

theorem charged_dispatch (r : Reads) (label : String) (depth : ℕ) (step : Step) :
    Charged b (dispatch deps r label depth b step).1 (dispatch deps r label depth b step).2.1 := by
  cases step with
  | agent step => exact charged_runAgentStep r label step
  | _ => exact .inl ⟨rfl,rfl⟩

/-- The child of an activation that is replaced by another. -/
inductive Within : Activation → Activation → Activation → Activation → Prop
  | scope {child child' : Activation} (p : Option String) (index : ℕ) (rest : List Step) (depth : ℕ) (pipe : Value) :
    Within child child' (.scope p index rest depth pipe child) (.scope p index rest depth pipe child')
  | item {child child' : Activation} (job : FanOutJob) (coordinator : FanOut.State Value) {items : List Activation}
    (collect : Activation) {i : ℕ} : items[i]? = some child →
    Within child child' (.fanOut job coordinator items collect) (.fanOut job coordinator (items.set i child') collect)
  | collect {child child' : Activation} (job : FanOutJob) (coordinator : FanOut.State Value) (items : List Activation) :
    Within child child' (.fanOut job coordinator items child) (.fanOut job coordinator items child')

/-- A step below an activation is a step of one of its children. -/
theorem step_within {place : Place} (hs : step deps b e (place :: path) h = some (b',n,e')) :
    ∃ child child', step deps b child path h = some (b',n,child') ∧ Within child child' e e' := by
  unfold step at hs
  split at hs
  case h_1 hpath => cases hpath
  case h_5 => cases hs
  case h_2 hpath =>
    cases hpath
    obtain ⟨t,hstep,he⟩ := Option.map_eq_some_iff.mp hs
    cases he
    exact ⟨_,t.2.2,hstep,.scope _ _ _ _ _⟩
  case h_3 hpath =>
    cases hpath
    split at hs
    · rename_i hchild
      obtain ⟨t,hstep,he⟩ := Option.map_eq_some_iff.mp hs
      cases he
      exact ⟨_,t.2.2,hstep,.item _ _ _ hchild⟩
    · cases hs
  case h_4 hpath =>
    cases hpath
    obtain ⟨t,hstep,he⟩ := Option.map_eq_some_iff.mp hs
    cases he
    exact ⟨_,t.2.2,hstep,.collect _ _ _⟩

theorem step_nil : step deps b e [] h = stepHere deps b e h := by
  unfold step
  rfl

/-- What holds of a step at an activation itself and passes from children to parents holds of every
step of the tree. -/
theorem step_induction {P : Activation → SpawnBudget → ℕ → Activation → Prop}
    (here : ∀ {e b' n e'}, stepHere deps b e h = some (b',n,e') → P e b' n e')
    (within : ∀ {child child' e e' b' n}, P child b' n child' → Within child child' e e' → P e b' n e')
    (hs : step deps b e path h = some (b',n,e')) : P e b' n e' := by
  induction path generalizing e e' with
  | nil => exact here (step_nil.symm.trans hs)
  | cons place path ih =>
    obtain ⟨child,child',hchild,hwithin⟩ := step_within hs
    exact within (ih hchild) hwithin

theorem charged_step (hs : step deps b e path h = some (b',n,e')) : Charged b b' n := by
  apply step_induction (P := fun _ b' n _ => Charged b b' n) (fun hs => ?_) (fun hc _ => hc) hs
  rcases stepHere_cases hs with ⟨step,label,depth,r,-,hdispatch⟩ | ⟨hquiet,-⟩
  · have hcharged : Charged b (dispatch deps r label depth b step).1 (dispatch deps r label depth b step).2.1 :=
      charged_dispatch r label depth step
    rwa [hdispatch] at hcharged
  · exact .inl hquiet

/-- An idle or ended activation takes no step. -/
def Activation.isIdle : Activation → Bool
  | .idle => true
  | _ => false

theorem step_not_idle (hs : step deps b e path h = some (b',n,e')) : e.isIdle = false := by
  apply step_induction (P := fun e _ _ _ => e.isIdle = false) (fun {e _ _ _} hs => ?_) (fun _ hw => ?_) hs
  · cases e with
    | idle => simp [stepHere] at hs
    | _ => rfl
  · cases hw <;> rfl

/-! ## The depth guard and the semaphore -/

/-- Every fan-out below fan-outs in number `depth` was let in by the depth guard, its coordinator is
one of its own runs, and its items are idle unless their tasks hold a place inside `do`. -/
inductive Guarded (deps : RunDeps) : ℕ → Activation → Prop
  | idle (depth : ℕ) : Guarded deps depth .idle
  | start (step : Step) (label : String) (depth : ℕ) : Guarded deps depth (.start step label depth)
  | tool (depth : ℕ) : Guarded deps depth .tool
  | session (depth : ℕ) : Guarded deps depth .session
  | scope (p : Option String) (index : ℕ) (rest : List Step) {depth : ℕ} (pipe : Value) {current : Activation} :
    Guarded deps depth current → Guarded deps depth (.scope p index rest depth pipe current)
  | fanOut {depth : ℕ} {job : FanOutJob} {coordinator : FanOut.State Value} {items : List Activation} {collect : Activation} :
    job.depth = depth + 1 → (deps.maxFanOutDepth = 0 ∨ job.depth ≤ deps.maxFanOutDepth) →
    Runs (FanOut.step job.config) (fun _ _ => True) job.start coordinator →
    (∀ (i : ℕ) (e : Activation), items[i]? = some e → e.isIdle = false →
      ∃ left forwarded, coordinator.tasks[i]? = some (.running left forwarded)) →
    (∀ e ∈ items, Guarded deps (depth + 1) e) → Guarded deps (depth + 1) collect →
    Guarded deps depth (.fanOut job coordinator items collect)
  | returned (depth : ℕ) (value : Value) : Guarded deps depth (.returned value)
  | raised (depth : ℕ) (error : String) : Guarded deps depth (.raised error)

theorem guarded_enterFanOut {job : FanOutJob} {label : String} {depth : ℕ} (hd : job.depth = depth + 1) :
    Guarded deps depth (enterFanOut deps label job) := by
  unfold enterFanOut
  split
  · exact .raised depth _
  · rename_i hcap
    refine .fanOut hd (by omega) (.refl _) ?_ ?_ (.idle _)
    · intro i e he hidle
      rw [List.eq_of_mem_replicate (List.mem_of_getElem? he)] at hidle
      cases hidle
    · intro e he
      rw [List.eq_of_mem_replicate he]
      exact .idle _

theorem guarded_runCallee {r : Reads} {depth : ℕ} {name scopePrefix : String} :
    Guarded deps depth (runCallee deps r depth name scopePrefix) := by
  unfold runCallee
  split
  · split
    · exact .raised depth _
    · exact .scope _ _ _ _ (.idle depth)
  · exact .raised depth _

/-- A runner gives its sub-scopes its own depth, and a fan-out one more. -/
theorem guarded_dispatch (r : Reads) (label : String) (depth : ℕ) (step : Step) :
    Guarded deps depth (dispatch deps r label depth b step).2.2 := by
  cases step with
  | transform step =>
    unfold dispatch runTransformStep
    dsimp only
    split
    · exact .raised depth _
    · exact .returned depth _
  | tool step => exact .tool depth
  | agent step =>
    unfold dispatch runAgentStep
    dsimp only
    split
    · split
      · split
        · exact .session depth
        · exact .raised depth _
      · exact .raised depth _
    · exact .raised depth _
  | call step => exact guarded_runCallee
  | «match» step =>
    unfold dispatch runMatchStep
    dsimp only
    split
    · exact .raised depth _
    · split
      · exact guarded_runCallee
      · exact .raised depth _
  | fold init run output source maxItems =>
    unfold dispatch runFoldStep
    dsimp only
    split
    · exact .raised depth _
    · exact .scope _ _ _ _ (.idle depth)
  | forEach run collect onError source maxParallel output =>
    unfold dispatch runForEachStep
    dsimp only
    split
    · exact .returned depth _
    · split
      · exact .raised depth _
      · split
        · exact .raised depth _
        · exact guarded_enterFanOut rfl
  | parallel branches collect onError output =>
    unfold dispatch runParallelStep
    dsimp only
    split
    · exact .returned depth _
    · split
      · exact .raised depth _
      · exact guarded_enterFanOut rfl

theorem guarded_advance (r : Reads) (p : Option String) (index : ℕ) (rest : List Step) (depth : ℕ) (pipe : Value) :
    Guarded deps depth (advance r p index rest depth pipe) := by
  unfold advance
  split
  · exact .returned depth _
  · split
    · split
      · exact .raised depth _
      · exact .scope _ _ _ _ (.start _ _ _)
    · split
      · exact .scope _ _ _ _ (.idle depth)
      · exact .scope _ _ _ _ (.start _ _ _)

/-- A step of a fan-out's coordinator or tasks, followed by its items. -/
theorem Guarded.coordinate {depth : ℕ} {job : FanOutJob} {coordinator coordinator' : FanOut.State Value}
    {items : List Activation} {collect : Activation} {a : FanOut.Action Value}
    (hg : Guarded deps depth (.fanOut job coordinator items collect))
    (hs : FanOut.step job.config coordinator a = some coordinator') :
    Guarded deps depth (.fanOut job coordinator' (job.follow coordinator' items a) collect) := by
  cases hg with
  | fanOut hd hcap hrun hactive hitems hcollect =>
    have hother : ∀ i e, a.item? ≠ some i → items[i]? = some e → e.isIdle = false →
        ∃ left forwarded, coordinator'.tasks[i]? = some (.running left forwarded) :=
      fun i e hi he hidle => FanOut.running_of_other hs hi (hactive i e he hidle)
    refine .fanOut hd hcap (hrun.step trivial hs) ?_ ?_ hcollect
    · intro i e he hidle
      unfold FanOutJob.follow at he
      split at he
      · rename_i hnone
        exact hother i e (hnone ▸ nofun) he hidle
      · rename_i k hk
        by_cases hik : k = i
        · subst hik
          obtain ⟨hlt,he⟩ := List.getElem?_eq_some_iff.mp he
          rw [List.getElem_set_self] at he
          split at he
          · rename_i left forwarded run ht hrun
            exact ⟨left,forwarded,ht⟩
          · subst he
            cases hidle
        · rw [List.getElem?_set_ne hik] at he
          exact hother i e (fun h => hik (Option.some.inj (hk.symm.trans h))) he hidle
    · intro e he
      unfold FanOutJob.follow at he
      split at he
      · exact hitems e he
      · rcases List.mem_or_eq_of_mem_set he with he | rfl
        · exact hitems e he
        · split
          · exact hd ▸ .start _ _ _
          · exact .idle _

theorem Quiet.guarded {depth : ℕ} (hq : Quiet e e') (hg : Guarded deps depth e) : Guarded deps depth e' := by
  cases hq with
  | returned => exact .returned depth _
  | raised => exact .raised depth _
  | advance r p index rest d pipe =>
    cases hg with
    | scope => exact guarded_advance r p index rest _ pipe
  | next p index rest d pipe value =>
    cases hg with
    | scope => exact .scope _ _ _ _ (.idle _)
  | coordinate collect hallows hs => exact hg.coordinate hs
  | collect items hphase =>
    cases hg with
    | fanOut hd hcap hrun hactive hitems hcollect =>
      exact .fanOut hd hcap hrun hactive hitems (hd ▸ .start _ _ _)

theorem Within.guarded {child child' : Activation} (hw : Within child child' e e') (hn : child.isIdle = false)
    (hchild : ∀ d, Guarded deps d child → Guarded deps d child') {depth : ℕ} (hg : Guarded deps depth e) :
    Guarded deps depth e' := by
  cases hw with
  | scope p index rest d pipe =>
    cases hg with
    | scope _ _ _ _ hcurrent => exact .scope _ _ _ _ (hchild _ hcurrent)
  | collect job coordinator items =>
    cases hg with
    | fanOut hd hcap hrun hactive hitems hcollect => exact .fanOut hd hcap hrun hactive hitems (hchild _ hcollect)
  | item job coordinator collect hi =>
    rename_i items k
    cases hg with
    | fanOut hd hcap hrun hactive hitems hcollect =>
      refine .fanOut hd hcap hrun ?_ ?_ hcollect
      · intro i e he hidle
        by_cases hik : k = i
        · subst hik
          exact hactive k child hi hn
        · rw [List.getElem?_set_ne hik] at he
          exact hactive i e he hidle
      · intro e he
        rcases List.mem_or_eq_of_mem_set he with he | rfl
        · exact hitems e he
        · exact hchild _ (hitems child (List.mem_of_getElem? hi))

/-- No step leaves the guards behind. -/
theorem Guarded.step {depth : ℕ} (hg : Guarded deps depth e) (hs : SpawnGuards.step deps b e path h = some (b',n,e')) :
    Guarded deps depth e' := by
  have hall : e.isIdle = false ∧ ∀ d, Guarded deps d e → Guarded deps d e' := by
    refine step_induction (P := fun e _ _ e' => e.isIdle = false ∧ ∀ d, Guarded deps d e → Guarded deps d e')
      (fun hs => ?_) (fun hc hw => ?_) hs
    · refine ⟨step_not_idle (step_nil.trans hs),fun d hg => ?_⟩
      rcases stepHere_cases hs with ⟨step,label,k,r,rfl,hdispatch⟩ | ⟨-,hquiet⟩
      · cases hg with
        | start =>
          have hguarded : Guarded deps d _ := guarded_dispatch (b := b) r label d step
          rwa [hdispatch] at hguarded
      · exact hquiet.guarded hg
    · refine ⟨?_,fun d hg => hw.guarded hc.1 hc.2 hg⟩
      cases hw <;> rfl
  exact hall.2 depth hg

/-! ## Places of the tree -/

def Activation.child : Activation → Place → Option Activation
  | .scope _ _ _ _ _ current, .current => some current
  | .fanOut _ _ items _, .item i => items[i]?
  | .fanOut _ _ _ collect, .collect => some collect
  | _, _ => none

def Activation.under : Activation → List Place → Option Activation
  | e, [] => some e
  | e, place :: path => (e.child place).bind fun child => child.under path

def Activation.isFanOut : Activation → Bool
  | .fanOut _ _ _ _ => true
  | _ => false

/-- The fan-outs passed on the way to a place, whether through calls, items or collects. -/
def Activation.enclosing : Activation → List Place → ℕ
  | _, [] => 0
  | e, place :: path =>
    (if e.isFanOut then 1 else 0) + match e.child place with
      | some child => child.enclosing path
      | none => 0

theorem Guarded.child {depth : ℕ} {place : Place} {child : Activation} (hg : Guarded deps depth e)
    (hc : e.child place = some child) : Guarded deps (depth + if e.isFanOut then 1 else 0) child := by
  cases hg with
  | scope p index rest pipe hcurrent =>
    cases place with
    | current =>
      obtain rfl := Option.some.inj hc
      exact hcurrent
    | _ => cases hc
  | fanOut hd hcap hrun hactive hitems hcollect =>
    cases place with
    | current => cases hc
    | item i => exact hitems child (List.mem_of_getElem? hc)
    | collect =>
      obtain rfl := Option.some.inj hc
      exact hcollect
  | _ => cases place <;> cases hc

/-- The depth that the runners carry along is the number of fan-outs around them. -/
theorem Guarded.under {depth : ℕ} {f : Activation} (hg : Guarded deps depth e) (hu : e.under path = some f) :
    Guarded deps (depth + e.enclosing path) f := by
  induction path generalizing e depth with
  | nil =>
    obtain rfl := Option.some.inj hu
    exact hg
  | cons place path ih =>
    obtain ⟨child,hc,hu⟩ := Option.bind_eq_some_iff.mp hu
    have hchild := ih (hg.child hc) hu
    rw [Activation.enclosing,hc,← Nat.add_assoc]
    exact hchild

/-- A list with a mark only where another has one has no more of them. -/
theorem countP_le_of_getElem? {α β : Type} {p : α → Bool} {q : β → Bool} {l : List α} {m : List β}
    (h : ∀ (i : ℕ) (a : α), l[i]? = some a → p a = true → ∃ b, m[i]? = some b ∧ q b = true) : l.countP p ≤ m.countP q := by
  induction l generalizing m with
  | nil => exact Nat.zero_le _
  | cons a l ih =>
    cases m with
    | nil =>
      rw [List.countP_eq_zero.mpr]
      · exact Nat.zero_le _
      · intro a' ha' hp
        obtain ⟨i,hi⟩ := List.getElem?_of_mem ha'
        obtain ⟨b,hb,-⟩ := h i a' hi hp
        cases hb
    | cons b m =>
      have hrest : l.countP p ≤ m.countP q := ih fun i a' hi hp => h (i + 1) a' hi hp
      rw [List.countP_cons,List.countP_cons]
      by_cases hp : p a = true
      · obtain ⟨b',hb,hq⟩ := h 0 a rfl hp
        obtain rfl := Option.some.inj hb
        rw [if_pos hp,if_pos hq]
        omega
      · rw [if_neg hp]
        omega

/-- The items of a fan-out that are inside its `do`. -/
def insideDo (items : List Activation) : ℕ := items.countP fun e => !e.isIdle

theorem Guarded.insideDo_le {depth : ℕ} {job : FanOutJob} {coordinator : FanOut.State Value} {items : List Activation}
    {collect : Activation} {maxParallel : Option ℕ} (hg : Guarded deps depth (.fanOut job coordinator items collect))
    (hk : job.kind = .forEach maxParallel) :
    insideDo items ≤ FanOut.maxParallelOf maxParallel job.config.keys.length := by
  cases hg with
  | fanOut hd hcap hrun hactive hitems hcollect =>
    rw [FanOutJob.start,hk] at hrun
    apply le_trans (countP_le_of_getElem? fun i e he hidle => ?_) (FanOut.live_le hrun)
    obtain ⟨left,forwarded,ht⟩ := hactive i e he (Bool.not_eq_true' _ ▸ hidle)
    exact ⟨_,ht,rfl⟩

/-! ## Every run -/

/-- What is charged covers what is started and stays within the cap. -/
structure Sound (args : RunArgs) (s : RunState) : Prop where
  cap : s.budget.cap = args.effMaxSpawns
  covered : s.started ≤ s.budget.spent
  bounded : s.budget.cap = 0 ∨ s.budget.spent ≤ s.budget.cap
  guarded : Guarded args.effDeps 0 s.root

theorem Sound.start (args : RunArgs) : Sound args args.start :=
  ⟨rfl,Nat.le_refl 0,.inr (Nat.zero_le _),.scope _ _ _ _ (.idle 0)⟩

/-- A session is started only under a charge that the budget granted. -/
theorem started_charged {args : RunArgs} {s s' : RunState} {a : List Place × Happening} (hs : args.step s a = some s') :
    s'.budget = s.budget ∧ s'.started = s.started ∨
      (s.budget.cap = 0 ∨ s.budget.spent < s.budget.cap) ∧
        s'.budget = { s.budget with spent := s.budget.spent + 1 } ∧ s'.started ≤ s.started + 1 := by
  obtain ⟨t,ht,rfl⟩ := Option.map_eq_some_iff.mp hs
  rcases charged_step ht with ⟨hbudget,hzero⟩ | ⟨⟨label,hconsume⟩,hone⟩
  · exact .inl ⟨hbudget,by simp [hzero]⟩
  · obtain ⟨hcap,hbudget⟩ := consume_ok hconsume
    exact .inr ⟨hcap,hbudget,Nat.add_le_add_left hone _⟩

theorem Sound.step {args : RunArgs} {s s' : RunState} {a : List Place × Happening} (h : Sound args s)
    (hs : args.step s a = some s') : Sound args s' := by
  have hguarded : Guarded args.effDeps 0 s'.root := by
    obtain ⟨t,ht,rfl⟩ := Option.map_eq_some_iff.mp hs
    exact h.guarded.step ht
  rcases started_charged hs with ⟨hbudget,hstarted⟩ | ⟨hcap,hbudget,hstarted⟩
  · exact ⟨hbudget ▸ h.cap,by rw [hbudget,hstarted]; exact h.covered,hbudget ▸ h.bounded,hguarded⟩
  · have hcovered := h.covered
    refine ⟨hbudget ▸ h.cap,?_,?_,hguarded⟩
    · rw [hbudget]
      dsimp only
      omega
    · rw [hbudget]
      dsimp only
      omega

end Proofs

/-- In every run or resumed run, whatever the pipelines call, whatever fails and in whatever order the
tasks take their steps: no more sessions are started than the cap, no fan-out is entered deeper
than the cap, each `for_each` has no more items inside `do` than its semaphore has permits, and a
charge that the cap refuses starts no session. -/
theorem spawn_guards {args : RunArgs} (hspawns : 0 < args.effMaxSpawns) (hdepth : 0 < args.effMaxDepth) {s : RunState}
    (run : Runs args.step (fun _ _ => True) args.start s) :
    s.started ≤ args.effMaxSpawns ∧
      (∀ path job coordinator items collect, s.root.under path = some (.fanOut job coordinator items collect) →
        s.root.enclosing path + 1 ≤ args.effMaxDepth ∧
          ∀ maxParallel, job.kind = .forEach maxParallel →
            insideDo items ≤ FanOut.maxParallelOf maxParallel job.config.keys.length) ∧
      ∀ a s', args.step s a = some s' → args.effMaxSpawns ≤ s.budget.spent → s'.started = s.started := by
  have hsound : Sound args s := run.invariant (I := Sound args) (.start args) fun _ _ _ h _ hs => h.step hs
  have hcap := hsound.cap
  refine ⟨?_,?_,?_⟩
  · have hcovered := hsound.covered
    have hbounded := hsound.bounded
    omega
  · intro path job coordinator items collect hu
    have hg := hsound.guarded.under hu
    refine ⟨?_,fun maxParallel hk => hg.insideDo_le hk⟩
    cases hg with
    | fanOut hd hlimit hrun hactive hitems hcollect =>
      have hmax : args.effDeps.maxFanOutDepth = args.effMaxDepth := rfl
      omega
  · intro a s' hs hfull
    rcases started_charged hs with ⟨-,hstarted⟩ | ⟨hgranted,-,-⟩
    · exact hstarted
    · omega

def refusedArgs : RunArgs where
  deps := ⟨true,some "main",none,0,fun _ => ""⟩
  pipeline :=
    { steps := [.forEach (.agent ⟨"{item}",none,none,none,none,.none⟩) (.transform ⟨"pipe",.none⟩) "continue" ⟨none,none⟩ (some 1) none]
      description := ""
      name := "each" }
  startIndex := 0
  pipe := .none
  maxFanOutDepth := some 1
  maxPipelineSpawns := some 1

def refusedReads : Reads where
  results := .empty
  fails := false
  text := ""
  selector := ""
  source := [.bool true,.bool false]
  value := .none
  spawns := true

/-- Two items of one agent step each, with one session allowed: the second item's is refused. -/
def refusedActions : List (List Place × Happening) :=
  [([],.begin refusedReads),([.current],.begin refusedReads),([.current],.coordinate (.enter 0)),
    ([.current,.item 0],.begin refusedReads),([.current,.item 0],.finish (.ok .none)),
    ([.current],.coordinate (.attempt 0 (.returned .none))),([.current],.coordinate (.enter 1)),
    ([.current,.item 1],.begin refusedReads)]

def refusedRun : Computed (runAll refusedArgs.step refusedArgs.start refusedActions) (fun s =>
    decide (s.started = 1) && decide (s.budget.spent = 1) && match s.root.under [.current,.item 1] with
      | some (.raised _) => true
      | _ => false) :=
  .of _ _ (by decide +kernel)

theorem spawn_guards_refused : ∃ s : RunState, s.started = 1 ∧ s.started ≤ 1 ∧
    ∀ a s', refusedArgs.step s a = some s' → s'.started = s.started := by
  obtain ⟨s,hs,hseen⟩ := refusedRun
  simp only [Bool.and_eq_true,decide_eq_true_eq] at hseen
  obtain ⟨⟨hstarted,hspent⟩,-⟩ := hseen
  have hrun : Runs _ (fun _ _ => True) _ s := Runs.of_runAll (.refl _) (fun _ _ _ => trivial) hs
  obtain ⟨hle,-,hrefused⟩ := @spawn_guards refusedArgs (by decide) (by decide) s hrun
  exact ⟨s,hstarted,hle,fun a s' h => hrefused a s' h (Nat.le_of_eq hspent.symm)⟩

end Reyn.SpawnGuards
