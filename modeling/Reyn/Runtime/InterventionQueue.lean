import Reyn.Lib.Dict
import Reyn.Lib.Runs
import Reyn.Lib.TextFile

/-! # The intervention queue

Questions wait in one queue for the user. A dispatch puts its question into the queue, shows it when nothing is
in front, and waits on the question's future; when it wakes it takes the question out and shows the next one.
The other operations edit the queue and the futures in between. Any of them may run wherever a dispatch is
suspended, in an announcement too.
-/
namespace Reyn
open Py Transition

structure InterventionChoice where
  id : String
  label : String
  hotkey : Option String

structure InterventionAnswer where
  text : String
  choiceId : Option String
  refused : Bool
  reason : String
  deriving DecidableEq

def InterventionAnswer.empty : InterventionAnswer := ⟨"",none,false,""⟩

/-- What the registry reads of an intervention and never writes. -/
structure UserIntervention where
  id : String
  runId : Option String
  choices : List InterventionChoice

inductive AnswerFuture where
  | pending
  | result (a : InterventionAnswer)
  | cancelled
  deriving DecidableEq

/-- Where a call of `dispatch` is; an outcome is `none` when the future was cancelled. -/
inductive DispatchPhase where
  /-- A task of `restore` that has not run yet. -/
  | created
  | announcing
  | waiting
  /-- In the announcement of its clean-up. -/
  | leaving (outcome : Option InterventionAnswer)
  | returned (outcome : Option InterventionAnswer)
  /-- No listener: the empty answer, without the queue. -/
  | turnedAway
  deriving DecidableEq

structure DispatchTask where
  iv : ℕ
  phase : DispatchPhase
  deriving DecidableEq

/-- The call is in the body of `dispatch`, its intervention in the queue. -/
def DispatchTask.inQueue (t : DispatchTask) : Bool := t.phase == .announcing || t.phase == .waiting

/-- The registry, the interventions' futures and channels, the calls of `dispatch`, and what was shown. Interventions
are objects, numbered; two of them may have one id. -/
structure InterventionRegistry where
  active : Dict String ℕ
  order : List String
  stalled : Dict String ℕ
  listeners : List String
  futures : ℕ → AnswerFuture
  origins : ℕ → Option String
  tasks : List DispatchTask
  announcements : List ℕ
  /-- How many announcements there were when the front of the queue last changed. -/
  headSince : ℕ

/-- `match_choice` -/
def matchChoice (text : String) (choices : List InterventionChoice) : Option InterventionChoice :=
  let stripped := String.ofList (strip text.toList)
  if stripped = "" then none else choices.find? fun choice => choice.hotkey = some stripped

/-- The answer that `deliver_answer` sets, if the text is one. -/
def UserIntervention.answerOf (iv : UserIntervention) (text : String) (choiceIdOverride : Option String) : Option InterventionAnswer :=
  if iv.choices = [] then some ⟨text,none,false,""⟩
  else match choiceIdOverride with
    | some id => if id ∈ iv.choices.map (·.id) then some ⟨text,some id,false,""⟩ else none
    | none => (matchChoice text iv.choices).map fun choice => ⟨text,some choice.id,false,""⟩

namespace InterventionRegistry
variable (ivs : ℕ → UserIntervention) (enforceListenerPresence : Bool)

def new (origins : ℕ → Option String) : InterventionRegistry :=
  ⟨.empty,[],.empty,[],fun _ => .pending,origins,[],[],0⟩

section Primitives
variable (s : InterventionRegistry)

def done (o : ℕ) : Bool := s.futures o != .pending

def setFuture (o : ℕ) (f : AnswerFuture) : InterventionRegistry := { s with futures := Function.update s.futures o f }

/-- `iv.future.cancel()` -/
def cancelFuture (o : ℕ) : InterventionRegistry := if s.done o then s else s.setFuture o .cancelled

def setPhase (k o : ℕ) (phase : DispatchPhase) : InterventionRegistry := { s with tasks := s.tasks.set k ⟨o,phase⟩ }

def announce (o : ℕ) : InterventionRegistry := { s with announcements := s.announcements ++ [o] }

def requeue (order : List String) : InterventionRegistry :=
  { s with order := order, headSince := if order.head? = s.order.head? then s.headSince else s.announcements.length }

/-- `_active.pop` and `_order.remove` -/
def leave (id : String) : InterventionRegistry := { s.requeue (s.order.erase id) with active := s.active.pop id }

def enter (o : ℕ) : InterventionRegistry :=
  { s.requeue (s.order ++ [(ivs o).id]) with active := s.active.set (ivs o).id o }

/-- The one that `_maybe_announce_next` announces. -/
def nextHead : Option ℕ := (s.order.head?.bind s.active.get?).filter fun o => !s.done o

end Primitives

/-! ## The calls of dispatch -/

/-- The clean-up of a dispatch that woke. -/
def finish (s : InterventionRegistry) (k o : ℕ) (outcome : Option InterventionAnswer) : InterventionRegistry :=
  let left := s.leave (ivs o).id
  match left.nextHead with
  | none => left.setPhase k o (.returned outcome)
  | some next => (left.announce next).setPhase k o (.leaving outcome)

/-- `return await iv.future` -/
def awaitFuture (s : InterventionRegistry) (k o : ℕ) : InterventionRegistry :=
  match s.futures o with
  | .pending => s.setPhase k o .waiting
  | .result a => s.finish ivs k o (some a)
  | .cancelled => s.finish ivs k o none

def refuses (s : InterventionRegistry) : Bool := enforceListenerPresence && s.listeners.isEmpty

def start (s : InterventionRegistry) (k o : ℕ) : InterventionRegistry :=
  if s.refuses enforceListenerPresence then s.setPhase k o .turnedAway
  else
    let entered := s.enter ivs o
    if entered.order.length = 1 then (entered.announce o).setPhase k o .announcing else entered.awaitFuture ivs k o

/-- A call of `dispatch` runs on to its next suspension; waiting, it wakes when the future is done. -/
def resume (s : InterventionRegistry) (k : ℕ) : Option InterventionRegistry :=
  match s.tasks[k]? with
  | some ⟨o,.created⟩ => some (s.start ivs enforceListenerPresence k o)
  | some ⟨o,.announcing⟩ => some (s.awaitFuture ivs k o)
  | some ⟨o,.waiting⟩ => if s.done o then some (s.awaitFuture ivs k o) else none
  | some ⟨o,.leaving outcome⟩ => some (s.setPhase k o (.returned outcome))
  | _ => none

def spawn (s : InterventionRegistry) (o : ℕ) : InterventionRegistry := { s with tasks := s.tasks ++ [⟨o,.created⟩] }

def dispatch (s : InterventionRegistry) (o : ℕ) : InterventionRegistry :=
  (s.spawn o).start ivs enforceListenerPresence s.tasks.length o

/-- The tasks of `restore` run later. -/
def restore (s : InterventionRegistry) (interventions : List ℕ) : InterventionRegistry := interventions.foldl spawn s

/-! ## Answers -/

def deliverAnswer (s : InterventionRegistry) (o : ℕ) (text : String) (choiceIdOverride : Option String) : InterventionRegistry :=
  if s.done o then s
  else match (ivs o).answerOf text choiceIdOverride with
    | none => s
    | some a => (s.setFuture o (.result a)).leave (ivs o).id

/-- The loop of `head`: what is over is taken from the front. -/
def evict : List String → InterventionRegistry → InterventionRegistry
  | [], s => s
  | id :: rest, s => if (s.active.get? id).all s.done then evict rest (s.leave id) else s

def head (s : InterventionRegistry) : InterventionRegistry × Option ℕ :=
  let evicted := evict s.order s
  (evicted,evicted.order.head?.bind evicted.active.get?)

def maybeAnswerHead (s : InterventionRegistry) (text : String) : InterventionRegistry :=
  match s.head with
  | (evicted,none) => evicted
  | (evicted,some o) => evicted.deliverAnswer ivs o text none

/-- Whether some listener can still answer. -/
def answerable (s : InterventionRegistry) (o : ℕ) : Bool :=
  match s.origins o with
  | none => !s.listeners.isEmpty
  | some channel => s.listeners.contains channel

def deny (reason : String) (s : InterventionRegistry) (id : String) : InterventionRegistry :=
  match s.active.get? id with
  | none => s
  | some o => if s.done o || s.answerable o then s else s.setFuture o (.result ⟨"",none,true,reason⟩)

def denyUnanswerableActive (s : InterventionRegistry) (reason : String) : InterventionRegistry :=
  s.order.foldl (deny reason) s

/-! ## Cancellation -/

def cancel (s : InterventionRegistry) (id : String) : InterventionRegistry :=
  match s.active.get? id with
  | none => s
  | some o => (s.leave id).cancelFuture o

def dropForRun (s : InterventionRegistry) (runId : Option String) : InterventionRegistry :=
  if runId.getD "" = "" then s
  else ((s.active.items.filter fun entry => (ivs entry.2).runId = runId).map (·.1)).foldl cancel s

def clear (s : InterventionRegistry) : InterventionRegistry :=
  { ((s.active.items ++ s.stalled.items).map (·.2)).foldl cancelFuture s |>.requeue [] with active := .empty, stalled := .empty }

/-! ## The stalled -/

def markStalled (s : InterventionRegistry) (id : String) : InterventionRegistry :=
  match s.active.get? id with
  | none => s
  | some o => { s.leave id with stalled := s.stalled.set id o }

def parkStalled (s : InterventionRegistry) (o : ℕ) : InterventionRegistry := { s with stalled := s.stalled.set (ivs o).id o }

def discardStalled (s : InterventionRegistry) (id : String) : InterventionRegistry :=
  match s.stalled.get? id with
  | none => s
  | some o =>
    let popped := { s with stalled := s.stalled.pop id }
    if s.done o then popped else popped.setFuture o (.result .empty)

/-- The dispatch again is the caller's. -/
def claimStalled (s : InterventionRegistry) (id newOriginChannelId : String) : InterventionRegistry :=
  match s.stalled.get? id with
  | none => s
  | some o => { s with stalled := s.stalled.pop id, origins := Function.update s.origins o (some newOriginChannelId) }

end InterventionRegistry

inductive RegistryAction where
  | dispatch (o : ℕ)
  | resume (k : ℕ)
  | deliverAnswer (o : ℕ) (text : String) (choiceIdOverride : Option String)
  | maybeAnswerHead (text : String)
  | cancel (id : String)
  | dropForRun (runId : Option String)
  | markStalled (id : String)
  | parkStalled (o : ℕ)
  | claimStalled (id newOriginChannelId : String)
  | discardStalled (id : String)
  | denyUnanswerableActive (reason : String)
  | clear
  | restore (interventions : List ℕ)
  | registerListener (listenerId : String)
  | unregisterListener (listenerId : String)

namespace InterventionRegistry
variable (ivs : ℕ → UserIntervention) (enforceListenerPresence : Bool)

def step (s : InterventionRegistry) : RegistryAction → Option InterventionRegistry
  | .dispatch o => some (s.dispatch ivs enforceListenerPresence o)
  | .resume k => s.resume ivs enforceListenerPresence k
  | .deliverAnswer o text choiceIdOverride => some (s.deliverAnswer ivs o text choiceIdOverride)
  | .maybeAnswerHead text => some (s.maybeAnswerHead ivs text)
  | .cancel id => some (s.cancel id)
  | .dropForRun runId => some (s.dropForRun ivs runId)
  | .markStalled id => some (s.markStalled id)
  | .parkStalled o => some (s.parkStalled ivs o)
  | .claimStalled id channel => some (s.claimStalled id channel)
  | .discardStalled id => some (s.discardStalled id)
  | .denyUnanswerableActive reason => some (s.denyUnanswerableActive reason)
  | .clear => some s.clear
  | .restore interventions => some (s.restore interventions)
  | .registerListener id => some { s with listeners := if id ∈ s.listeners then s.listeners else s.listeners ++ [id] }
  | .unregisterListener id => some { s with listeners := s.listeners.filter (· ≠ id) }

/-! ## What is asked of the queue -/

/-- The call runs on by itself: it has not run, or wakes on a future that is done. -/
def Runnable (s : InterventionRegistry) (t : DispatchTask) : Prop :=
  t.phase = .created ∨ (t.phase = .announcing ∨ t.phase = .waiting) ∧ s.done t.iv = true

structure QueueSound (s : InterventionRegistry) : Prop where
  nodup : s.order.Nodup
  keys : ∀ id, id ∈ s.order ↔ id ∈ s.active.keys
  apart : ∀ id ∈ s.active.keys, id ∉ s.stalled.keys
  /-- Nothing runs, so the front was shown once since it came there. -/
  asked : (∀ t ∈ s.tasks, ¬Runnable s t) → ∀ id rest, s.order = id :: rest →
    ∃ o, s.active.get? id = some o ∧ (s.announcements.drop s.headSince).count o = 1
  /-- An answer that a dispatch waited for is the one of its own intervention. -/
  answers : ∀ t ∈ s.tasks, ∀ a, t.phase = .returned (some a) → s.futures t.iv = .result a

/-! ## Runs in good order -/

/-- The call is about to clean up. -/
def cleansUp (s : InterventionRegistry) (t : DispatchTask) : Bool := t.inQueue && s.done t.iv

/-- Others wait behind this one. -/
def leads (s : InterventionRegistry) (id : String) : Bool := s.order.head? == some id && 1 < s.order.length

/-- The clean-up does not show again what stays in front and was shown. -/
def mayFinish (s : InterventionRegistry) (o : ℕ) : Bool :=
  match s.order.erase (ivs o).id with
  | [] => true
  | front :: _ => s.order.head? != some front || (s.active.get? front).all s.done || s.headSince == s.announcements.length

/-- Nothing of this id waits or is stalled; and what is over already finds its clean-up in order. -/
def mayStart (s : InterventionRegistry) (o : ℕ) : Bool :=
  s.refuses enforceListenerPresence || (!s.active.keys.contains (ivs o).id && !s.stalled.keys.contains (ivs o).id &&
    (s.order.isEmpty || !s.done o || mayFinish ivs (s.enter ivs o) o))

/-- The state before the step does not lead it into one of the defects. -/
def orderly (s : InterventionRegistry) : RegistryAction → Bool
  | .dispatch o => mayStart ivs enforceListenerPresence s o
  | .resume k => match s.tasks[k]? with
    | some ⟨o,.created⟩ => mayStart ivs enforceListenerPresence s o
    | some ⟨o,.announcing⟩ => !s.done o || mayFinish ivs s o
    | some ⟨o,.waiting⟩ => mayFinish ivs s o
    | _ => true
  -- an intervention that is not the one waiting under its id takes that one away
  | .deliverAnswer o text choiceIdOverride => s.done o || ((ivs o).answerOf text choiceIdOverride).isNone ||
    s.active.get? (ivs o).id == some o || !s.leads (ivs o).id || s.tasks.any fun t => t.inQueue && (t.iv == o || s.done t.iv)
  | .markStalled id => !s.leads id || s.tasks.any s.cleansUp
  | .parkStalled o => !s.active.keys.contains (ivs o).id
  | _ => true

/-- The invariant of these runs. -/
structure Ordered (s : InterventionRegistry) : Prop where
  nodup : s.order.Nodup
  keys : ∀ id, id ∈ s.order ↔ id ∈ s.active.keys
  apart : ∀ id ∈ s.active.keys, id ∉ s.stalled.keys
  /-- Each entry has a call that waits for it. -/
  owned : ∀ id o, s.active.get? id = some o → (ivs o).id = id ∧ ∃ t ∈ s.tasks, t.iv = o ∧ t.inQueue = true
  bound : s.headSince ≤ s.announcements.length
  asked : ∀ id rest o, s.order = id :: rest → s.active.get? id = some o → s.announcements.drop s.headSince = [o] ∨
    s.headSince = s.announcements.length ∧ ∃ t ∈ s.tasks, s.cleansUp t = true
  answers : ∀ t ∈ s.tasks, ∀ a, t.phase = .leaving (some a) ∨ t.phase = .returned (some a) → s.futures t.iv = .result a

variable {ivs} {enforceListenerPresence} {s : InterventionRegistry} {o k : ℕ} {id : String}

theorem Ordered.sound (h : Ordered ivs s) : QueueSound s := by
  refine ⟨h.nodup,h.keys,h.apart,?_,fun t ht a ha => h.answers t ht a (.inr ha)⟩
  intro hrest id rest horder
  have hkey : id ∈ s.active.keys := (h.keys id).mp (by rw [horder]; exact List.mem_cons_self)
  obtain ⟨o,ho⟩ := Dict.mem_keys_iff.mp hkey
  refine ⟨o,ho,?_⟩
  rcases h.asked id rest o horder ho with hshown | ⟨-,t,ht,hclean⟩
  · rw [hshown,List.count_singleton_self]
  · refine absurd (.inr ?_) (hrest t ht)
    simpa [cleansUp,DispatchTask.inQueue] using hclean

theorem Ordered.new (origins : ℕ → Option String) : Ordered ivs (.new origins) where
  nodup := List.nodup_nil
  keys _ := Iff.rfl
  apart _ h := by cases h
  owned _ _ h := by cases h
  bound := le_rfl
  asked _ _ _ h := by cases h
  answers _ h := by cases h

/-! ## One lemma for each kind of edit -/

/-- What leaves the front of others must leave a call behind that cleans up. -/
theorem Ordered.leave (h : Ordered ivs s) (id : String)
    (hnext : ∀ next rest, s.order = id :: next :: rest → ∃ t ∈ s.tasks, s.cleansUp t = true) : Ordered ivs (s.leave id) where
  nodup := h.nodup.erase id
  keys j := by
    change j ∈ s.order.erase id ↔ j ∈ (s.active.pop id).keys
    rw [h.nodup.mem_erase_iff,Dict.keys_pop,List.mem_filter,decide_eq_true_iff,h.keys j,and_comm]
  apart j hj := by
    have hj' : j ∈ (s.active.pop id).keys := hj
    rw [Dict.keys_pop] at hj'
    exact h.apart j (List.mem_of_mem_filter hj')
  owned j o ho := by
    have ho' : (s.active.pop id).get? j = some o := ho
    rw [Dict.get?_pop] at ho'
    split at ho'
    · cases ho'
    · exact h.owned j o ho'
  bound := by
    change (if _ then s.headSince else s.announcements.length) ≤ _
    split
    · exact h.bound
    · exact le_rfl
  asked j rest o horder ho := by
    have horder' : s.order.erase id = j :: rest := horder
    have ho' : (s.active.pop id).get? j = some o := ho
    rw [Dict.get?_pop] at ho'
    split at ho'
    · cases ho'
    · rename_i hpop
      change s.announcements.drop (if (s.order.erase id).head? = _ then s.headSince else _) = _ ∨
        (if (s.order.erase id).head? = _ then s.headSince else _) = _ ∧ _
      rw [horder',List.head?_cons]
      cases hs : s.order with
      | nil =>
        rw [hs] at horder'
        cases horder'
      | cons front back =>
        rw [hs,List.erase_cons] at horder'
        split at horder'
        · rename_i hfront
          obtain rfl := beq_iff_eq.mp hfront
          have hne : ¬(some j = (front :: back).head?) := by
            intro heq
            obtain rfl := Option.some.inj heq
            exact hpop rfl
          rw [if_neg hne]
          exact .inr ⟨rfl,hnext j rest (by rw [hs,horder'])⟩
        · obtain ⟨rfl,-⟩ := List.cons.inj horder'
          rw [if_pos List.head?_cons.symm]
          exact h.asked _ _ _ hs ho'
  answers := h.answers

/-- What waits is over, so its own call cleans up. -/
theorem Ordered.cleaner (h : Ordered ivs s) (ho : s.active.get? id = some o) (hdone : s.done o = true) :
    ∃ t ∈ s.tasks, s.cleansUp t = true := by
  obtain ⟨-,t,ht,rfl,hqueue⟩ := h.owned id o ho
  exact ⟨t,ht,by rw [cleansUp,hqueue,hdone]; rfl⟩

theorem done_setFuture_self {f : AnswerFuture} (hf : f ≠ .pending) : (s.setFuture o f).done o = true := by
  change (Function.update s.futures o f o != .pending) = true
  rw [Function.update_self]
  exact bne_iff_ne.mpr hf

theorem done_setFuture {p : ℕ} {f : AnswerFuture} (hf : f ≠ .pending) (h : s.done p = true) : (s.setFuture o f).done p = true := by
  change (Function.update s.futures o f p != .pending) = true
  rw [Function.update_apply]
  split
  · exact bne_iff_ne.mpr hf
  · exact h

theorem cleansUp_setFuture {t : DispatchTask} {f : AnswerFuture} (hf : f ≠ .pending) (h : s.cleansUp t = true) :
    (s.setFuture o f).cleansUp t = true := by
  obtain ⟨hqueue,hdone⟩ := (Bool.and_eq_true_iff).mp h
  exact Bool.and_eq_true_iff.mpr ⟨hqueue,done_setFuture hf hdone⟩

theorem Ordered.setFuture (h : Ordered ivs s) (ho : s.done o = false) {f : AnswerFuture} (hf : f ≠ .pending) :
    Ordered ivs (s.setFuture o f) where
  nodup := h.nodup
  keys := h.keys
  apart := h.apart
  owned := h.owned
  bound := h.bound
  asked j rest p horder hp := by
    refine (h.asked j rest p horder hp).imp_right ?_
    rintro ⟨hsince,t,ht,hclean⟩
    exact ⟨hsince,t,ht,cleansUp_setFuture hf hclean⟩
  answers t ht a ha := by
    have hresult := h.answers t ht a ha
    change Function.update s.futures o f t.iv = _
    rw [Function.update_of_ne,hresult]
    rintro rfl
    rw [done,hresult] at ho
    cases ho

theorem Ordered.cancelFuture (h : Ordered ivs s) : Ordered ivs (s.cancelFuture o) := by
  rw [InterventionRegistry.cancelFuture]
  split
  · exact h
  · rename_i hdone
    exact h.setFuture (Bool.eq_false_iff.mpr hdone) AnswerFuture.noConfusion

/-- The stalled change, apart from the active. -/
theorem Ordered.restall (h : Ordered ivs s) {stalled : Dict String ℕ} (hapart : ∀ id ∈ s.active.keys, id ∉ stalled.keys) :
    Ordered ivs { s with stalled := stalled } :=
  ⟨h.nodup,h.keys,hapart,h.owned,h.bound,h.asked,h.answers⟩

theorem Ordered.spawn (h : Ordered ivs s) (o : ℕ) : Ordered ivs (s.spawn o) where
  nodup := h.nodup
  keys := h.keys
  apart := h.apart
  owned j p hp := by
    obtain ⟨hid,t,ht,hiv,hqueue⟩ := h.owned j p hp
    exact ⟨hid,t,List.mem_append_left _ ht,hiv,hqueue⟩
  bound := h.bound
  asked j rest p horder hp := by
    refine (h.asked j rest p horder hp).imp_right ?_
    rintro ⟨hsince,t,ht,hclean⟩
    exact ⟨hsince,t,List.mem_append_left _ ht,hclean⟩
  answers t ht a ha := by
    rcases List.mem_append.mp ht with ht | ht
    · exact h.answers t ht a ha
    · obtain rfl := List.mem_singleton.mp ht
      rcases ha with ha | ha <;> cases ha

/-- Replacing one call leaves the others. -/
theorem mem_set_of_ne {A : Type} {xs : List A} {x y z : A} (hx : xs[k]? = some x) (hy : y ∈ xs) (hne : y ≠ x) : y ∈ xs.set k z := by
  obtain ⟨i,hi,rfl⟩ := List.mem_iff_getElem.mp hy
  refine List.mem_iff_getElem.mpr ⟨i,by rwa [List.length_set],?_⟩
  rw [List.getElem_set_of_ne]
  rintro rfl
  rw [List.getElem?_eq_getElem hi] at hx
  exact hne (Option.some.inj hx)

/-- A call that waits for nothing goes on. -/
theorem Ordered.setPhase (h : Ordered ivs s) {t : DispatchTask} {phase : DispatchPhase} (ht : s.tasks[k]? = some t)
    (hqueue : t.inQueue = false)
    (hanswer : ∀ a, phase = .leaving (some a) ∨ phase = .returned (some a) → s.futures o = .result a) :
    Ordered ivs (s.setPhase k o phase) where
  nodup := h.nodup
  keys := h.keys
  apart := h.apart
  owned j p hp := by
    obtain ⟨hid,u,hu,hiv,hin⟩ := h.owned j p hp
    refine ⟨hid,u,mem_set_of_ne ht hu ?_,hiv,hin⟩
    rintro rfl
    rw [hqueue] at hin
    cases hin
  bound := h.bound
  asked j rest p horder hp := by
    refine (h.asked j rest p horder hp).imp_right ?_
    rintro ⟨hsince,u,hu,hclean⟩
    refine ⟨hsince,u,mem_set_of_ne ht hu ?_,hclean⟩
    rintro rfl
    rw [cleansUp,hqueue] at hclean
    cases hclean
  answers u hu a ha := by
    rcases List.mem_or_eq_of_mem_set hu with hu | rfl
    · exact h.answers u hu a ha
    · exact hanswer a ha

/-- A call that waits waits on. -/
theorem Ordered.setPhase_waiting (h : Ordered ivs s) {t : DispatchTask} (ht : s.tasks[k]? = some t)
    (hpending : s.done t.iv = false) : Ordered ivs (s.setPhase k t.iv .waiting) where
  nodup := h.nodup
  keys := h.keys
  apart := h.apart
  owned j p hp := by
    obtain ⟨hid,u,hu,hiv,hin⟩ := h.owned j p hp
    by_cases hne : u = t
    · subst hne
      refine ⟨hid,⟨u.iv,.waiting⟩,?_,hiv,rfl⟩
      exact List.mem_iff_getElem?.mpr ⟨k,by rw [InterventionRegistry.setPhase,List.getElem?_set_self']; simp [ht]⟩
    · exact ⟨hid,u,mem_set_of_ne ht hu hne,hiv,hin⟩
  bound := h.bound
  asked j rest p horder hp := by
    refine (h.asked j rest p horder hp).imp_right ?_
    rintro ⟨hsince,u,hu,hclean⟩
    refine ⟨hsince,u,mem_set_of_ne ht hu ?_,hclean⟩
    rintro rfl
    rw [cleansUp,hpending,Bool.and_false] at hclean
    cases hclean
  answers u hu a ha := by
    rcases List.mem_or_eq_of_mem_set hu with hu | rfl
    · exact h.answers u hu a ha
    · rcases ha with ha | ha <;> cases ha

theorem mayFinish_fresh {front : String} {rest : List String} (hmay : mayFinish ivs s o = true)
    (horder : s.order.erase (ivs o).id = front :: rest) {p : ℕ} (hp : s.active.get? front = some p) (hpending : s.done p = false) :
    (s.leave (ivs o).id).headSince = s.announcements.length := by
  rw [mayFinish,horder] at hmay
  change (if (s.order.erase (ivs o).id).head? = s.order.head? then s.headSince else s.announcements.length) = _
  rw [horder,List.head?_cons]
  split
  · rename_i hsame
    simpa [← hsame,hp,hpending] using hmay
  · rfl

/-- The entries beside that of a call have calls of their own. -/
theorem Ordered.others (h : Ordered ivs s) {t : DispatchTask} (ht : s.tasks[k]? = some t) {j : String} {p : ℕ}
    (hp : (s.active.pop (ivs t.iv).id).get? j = some p) (phase : DispatchPhase) :
    (ivs p).id = j ∧ ∃ u ∈ s.tasks.set k ⟨t.iv,phase⟩, u.iv = p ∧ u.inQueue = true := by
  rw [Dict.get?_pop] at hp
  split at hp
  · cases hp
  · rename_i hother
    obtain ⟨hid,u,hu,hiv,hin⟩ := h.owned j p hp
    refine ⟨hid,u,mem_set_of_ne ht hu ?_,hiv,hin⟩
    rintro rfl
    rw [← hiv] at hid
    exact hother hid.symm

theorem nextHead_none {front : String} {rest : List String} {p : ℕ} (hnone : s.nextHead = none) (horder : s.order = front :: rest)
    (hp : s.active.get? front = some p) : s.done p = true := by
  simpa [nextHead,horder,hp] using hnone

theorem nextHead_some {front : String} {rest : List String} {p next : ℕ} (hsome : s.nextHead = some next)
    (horder : s.order = front :: rest) (hp : s.active.get? front = some p) : next = p ∧ s.done p = false := by
  obtain ⟨hnext,hpending⟩ := Option.filter_eq_some_iff.mp hsome
  rw [horder] at hnext
  obtain rfl := Option.some.inj (hp.symm.trans hnext)
  exact ⟨rfl,by simpa using hpending⟩

/-- The clean-up of a call that woke. -/
theorem Ordered.finish (h : Ordered ivs s) {t : DispatchTask} {outcome : Option InterventionAnswer} (ht : s.tasks[k]? = some t)
    (hqueue : t.inQueue = true) (hdone : s.done t.iv = true) (hmay : mayFinish ivs s t.iv = true)
    (houtcome : ∀ a, outcome = some a → s.futures t.iv = .result a) : Ordered ivs (s.finish ivs k t.iv outcome) := by
  have hleft : Ordered ivs (s.leave (ivs t.iv).id) :=
    h.leave _ fun _ _ _ => ⟨t,List.mem_of_getElem? ht,by rw [cleansUp,hqueue,hdone]; rfl⟩
  have hanswers : ∀ phase : DispatchPhase, (∀ a, phase = .leaving (some a) ∨ phase = .returned (some a) → outcome = some a) →
      ∀ u ∈ s.tasks.set k ⟨t.iv,phase⟩, ∀ a, u.phase = .leaving (some a) ∨ u.phase = .returned (some a) →
        s.futures u.iv = .result a := by
    intro phase hphase u hu a ha
    rcases List.mem_or_eq_of_mem_set hu with hu | rfl
    · exact h.answers u hu a ha
    · exact houtcome a (hphase a ha)
  rw [InterventionRegistry.finish]
  cases hnext : (s.leave (ivs t.iv).id).nextHead with
  | none =>
    refine ⟨hleft.nodup,hleft.keys,hleft.apart,fun j p hp => h.others ht hp _,hleft.bound,?_,?_⟩
    · intro j rest p horder hp
      refine (hleft.asked j rest p horder hp).imp_right ?_
      rintro ⟨hsince,-⟩
      obtain ⟨-,u,hu,hiv,hin⟩ := h.others ht hp (.returned outcome)
      have hover : (s.leave (ivs t.iv).id).done p = true := nextHead_none hnext horder hp
      refine ⟨hsince,u,hu,?_⟩
      rw [cleansUp,hin,hiv]
      exact hover
    · apply hanswers
      rintro a (ha | ha) <;> cases ha
      rfl
  | some next =>
    refine ⟨hleft.nodup,hleft.keys,hleft.apart,fun j p hp => h.others ht hp _,?_,?_,?_⟩
    · have hbound := hleft.bound
      change _ ≤ (s.announcements ++ [next]).length
      rw [List.length_append]
      exact hbound.trans (Nat.le_add_right _ _)
    · intro j rest p horder hp
      obtain ⟨rfl,hpending⟩ := nextHead_some hnext horder hp
      have hp' : s.active.get? j = some next := by
        have hpop : (s.active.pop (ivs t.iv).id).get? j = some next := hp
        rw [Dict.get?_pop] at hpop
        split at hpop
        · cases hpop
        · exact hpop
      have hfresh := mayFinish_fresh hmay horder hp' hpending
      refine .inl ?_
      change (s.announcements ++ [next]).drop (s.leave (ivs t.iv).id).headSince = _
      rw [hfresh,List.drop_left]
    · apply hanswers
      rintro a (ha | ha) <;> cases ha
      rfl

theorem finish_setPhase {phase : DispatchPhase} {outcome : Option InterventionAnswer} :
    (s.setPhase k o phase).finish ivs k o outcome = s.finish ivs k o outcome := by
  rw [finish,finish]
  change (match (s.leave (ivs o).id).nextHead with | none => _ | some next => _) = _
  cases (s.leave (ivs o).id).nextHead with
  | none => exact congrArg (fun tasks => { s.leave (ivs o).id with tasks := tasks }) (List.set_set ..)
  | some next => exact congrArg (fun tasks => { (s.leave (ivs o).id).announce next with tasks := tasks }) (List.set_set ..)

/-- A call in the queue that runs on: it waits, or cleans up. -/
theorem Ordered.awaitFuture (h : Ordered ivs s) {t : DispatchTask} (ht : s.tasks[k]? = some t) (hqueue : t.inQueue = true)
    (hmay : s.done t.iv = true → mayFinish ivs s t.iv = true) : Ordered ivs (s.awaitFuture ivs k t.iv) := by
  rw [InterventionRegistry.awaitFuture]
  cases hf : s.futures t.iv with
  | pending => exact h.setPhase_waiting ht (by rw [done,hf]; rfl)
  | result a =>
    have hdone : s.done t.iv = true := by rw [done,hf]; rfl
    refine h.finish ht hqueue hdone (hmay hdone) ?_
    intro b hb
    rw [hf,Option.some.inj hb]
  | cancelled =>
    have hdone : s.done t.iv = true := by rw [done,hf]; rfl
    refine h.finish ht hqueue hdone (hmay hdone) ?_
    intro b hb
    cases hb

theorem awaitFuture_setPhase {phase : DispatchPhase} :
    (s.setPhase k o phase).awaitFuture ivs k o = s.awaitFuture ivs k o := by
  rw [awaitFuture,awaitFuture]
  change (match s.futures o with | .pending => _ | .result a => _ | .cancelled => _) = _
  cases s.futures o with
  | pending => exact congrArg (fun tasks => { s with tasks := tasks }) (List.set_set ..)
  | result a => exact finish_setPhase
  | cancelled => exact finish_setPhase

/-- A call enters the queue; the front is as it was, or is this one and shown. -/
theorem Ordered.entered (h : Ordered ivs s) {t : DispatchTask} (ht : s.tasks[k]? = some t) (hqueue : t.inQueue = false)
    (hactive : (ivs o).id ∉ s.active.keys) (hstalled : (ivs o).id ∉ s.stalled.keys) {phase : DispatchPhase}
    (hphase : phase = .announcing ∨ phase = .waiting) {announcements : List ℕ}
    (hshown : announcements = if s.order = [] then s.announcements ++ [o] else s.announcements) :
    Ordered ivs { (s.enter ivs o).setPhase k o phase with announcements := announcements } := by
  have hin : (⟨o,phase⟩ : DispatchTask).inQueue = true := by rcases hphase with rfl | rfl <;> rfl
  have hself : ⟨o,phase⟩ ∈ s.tasks.set k ⟨o,phase⟩ :=
    List.mem_iff_getElem?.mpr ⟨k,by rw [List.getElem?_set_self']; simp [ht]⟩
  have hstays : ∀ u ∈ s.tasks, u.inQueue = true → u ∈ s.tasks.set k ⟨o,phase⟩ := by
    intro u hu huin
    refine mem_set_of_ne ht hu ?_
    rintro rfl
    rw [hqueue] at huin
    cases huin
  have hnew : (ivs o).id ∉ s.order := fun hmem => hactive ((h.keys _).mp hmem)
  refine ⟨?_,?_,?_,?_,?_,?_,?_⟩
  · change (s.order ++ [(ivs o).id]).Nodup
    exact h.nodup.append (List.nodup_singleton _) (by simpa using hnew)
  · intro j
    change j ∈ s.order ++ [(ivs o).id] ↔ j ∈ (s.active.set (ivs o).id o).keys
    rw [Dict.mem_keys_iff,List.mem_append,List.mem_singleton,h.keys j,Dict.mem_keys_iff]
    simp only [Dict.get?_set]
    by_cases hj : j = (ivs o).id <;> simp [hj]
  · intro j hj
    obtain ⟨p,hp⟩ := Dict.mem_keys_iff.mp hj
    have hp' : (s.active.set (ivs o).id o).get? j = some p := hp
    rw [Dict.get?_set] at hp'
    split at hp'
    · rename_i hj
      rw [hj]
      exact hstalled
    · exact h.apart j (Dict.mem_keys_iff.mpr ⟨p,hp'⟩)
  · intro j p hp
    have hp' : (s.active.set (ivs o).id o).get? j = some p := hp
    rw [Dict.get?_set] at hp'
    split at hp'
    · rename_i hj
      obtain rfl := Option.some.inj hp'
      exact ⟨hj.symm,_,hself,rfl,hin⟩
    · obtain ⟨hid,u,hu,hiv,huin⟩ := h.owned j p hp'
      exact ⟨hid,u,hstays u hu huin,hiv,huin⟩
  · change (if (s.order ++ [(ivs o).id]).head? = s.order.head? then s.headSince else s.announcements.length) ≤ announcements.length
    have hlonger : s.announcements.length ≤ announcements.length := by
      rw [hshown]
      split <;> simp
    split
    · exact h.bound.trans hlonger
    · exact hlonger
  · intro j rest p horder hp
    have horder' : s.order ++ [(ivs o).id] = j :: rest := horder
    have hp' : (s.active.set (ivs o).id o).get? j = some p := hp
    change announcements.drop (if (s.order ++ [(ivs o).id]).head? = s.order.head? then s.headSince else s.announcements.length) = _ ∨
      (if (s.order ++ [(ivs o).id]).head? = s.order.head? then s.headSince else s.announcements.length) = announcements.length ∧ _
    cases hs : s.order with
    | nil =>
      rw [hs,List.nil_append] at horder'
      obtain ⟨rfl,-⟩ := List.cons.inj horder'
      rw [Dict.get?_set_self] at hp'
      obtain rfl := Option.some.inj hp'
      rw [if_pos hs] at hshown
      rw [List.nil_append,List.head?_cons,List.head?_nil,if_neg (Option.some_ne_none _),hshown,List.drop_left]
      exact .inl rfl
    | cons front back =>
      rw [hs,List.cons_append] at horder'
      obtain ⟨rfl,-⟩ := List.cons.inj horder'
      rw [if_neg (by rw [hs]; exact List.cons_ne_nil _ _)] at hshown
      rw [List.cons_append,List.head?_cons,List.head?_cons,if_pos rfl,hshown]
      have hne : front ≠ (ivs o).id := by
        rintro rfl
        exact hnew (by rw [hs]; exact List.mem_cons_self)
      rw [Dict.get?_set_ne _ hne] at hp'
      refine (h.asked _ _ _ hs hp').imp_right ?_
      rintro ⟨hsince,u,hu,hclean⟩
      exact ⟨hsince,u,hstays u hu (Bool.and_eq_true_iff.mp hclean).1,hclean⟩
  · intro u hu a ha
    rcases List.mem_or_eq_of_mem_set hu with hu | rfl
    · exact h.answers u hu a ha
    · rcases hphase with rfl | rfl <;> rcases ha with ha | ha <;> cases ha

/-! ## The operations -/

theorem Ordered.start (h : Ordered ivs s) {t : DispatchTask} (ht : s.tasks[k]? = some t) (hqueue : t.inQueue = false)
    (hmay : mayStart ivs enforceListenerPresence s o = true) : Ordered ivs (s.start ivs enforceListenerPresence k o) := by
  rw [InterventionRegistry.start]
  split
  · refine h.setPhase ht hqueue ?_
    rintro a (ha | ha) <;> cases ha
  · rename_i hrefuses
    rw [mayStart,Bool.eq_false_iff.mpr hrefuses,Bool.false_or,Bool.and_eq_true_iff,Bool.and_eq_true_iff] at hmay
    obtain ⟨⟨hactive,hstalled⟩,hfinish⟩ := hmay
    have hactive' : (ivs o).id ∉ s.active.keys := by simpa using hactive
    have hstalled' : (ivs o).id ∉ s.stalled.keys := by simpa using hstalled
    have hlength : (s.enter ivs o).order.length = 1 ↔ s.order = [] := by
      change (s.order ++ [(ivs o).id]).length = 1 ↔ _
      simp
    have hself : ((s.enter ivs o).setPhase k o .waiting).tasks[k]? = some ⟨o,.waiting⟩ := by
      change (s.tasks.set k _)[k]? = _
      rw [List.getElem?_set_self']
      simp [ht]
    dsimp only
    split
    · rename_i hone
      exact h.entered ht hqueue hactive' hstalled' (.inl rfl) (by rw [if_pos (hlength.mp hone)]; rfl)
    · rename_i hmore
      have hentered := h.entered ht hqueue hactive' hstalled' (.inr rfl) (if_neg fun hnil => hmore (hlength.mpr hnil)).symm
      have hnonempty : s.order.isEmpty = false := by simpa using fun hnil => hmore (hlength.mpr hnil)
      rw [← awaitFuture_setPhase]
      refine hentered.awaitFuture hself rfl ?_
      intro hdone
      have hover : s.done o = true := hdone
      rw [hnonempty,hover] at hfinish
      exact hfinish

theorem Ordered.resume {t : InterventionRegistry} (h : Ordered ivs s)
    (hgood : orderly ivs enforceListenerPresence s (.resume k) = true) (hstep : s.resume ivs enforceListenerPresence k = some t) :
    Ordered ivs t := by
  rw [InterventionRegistry.resume] at hstep
  cases hk : s.tasks[k]? with
  | none =>
    rw [hk] at hstep
    cases hstep
  | some task =>
    obtain ⟨o,phase⟩ := task
    rw [hk] at hstep
    rw [orderly,hk] at hgood
    cases phase with
    | created =>
      obtain rfl := Option.some.inj hstep
      exact h.start hk rfl hgood
    | announcing =>
      obtain rfl := Option.some.inj hstep
      exact h.awaitFuture hk rfl fun hdone => by simpa [hdone] using hgood
    | waiting =>
      obtain ⟨-,hstep⟩ := Option.ite_none_right_eq_some.mp hstep
      obtain rfl := Option.some.inj hstep
      exact h.awaitFuture hk rfl fun _ => hgood
    | leaving outcome =>
      obtain rfl := Option.some.inj hstep
      refine h.setPhase hk rfl ?_
      rintro a (ha | ha) <;> cases ha
      exact h.answers _ (List.mem_of_getElem? hk) a (.inl rfl)
    | returned outcome => cases hstep
    | turnedAway => cases hstep

theorem Ordered.dispatch (h : Ordered ivs s) (hmay : mayStart ivs enforceListenerPresence s o = true) :
    Ordered ivs (s.dispatch ivs enforceListenerPresence o) := by
  have hnew : (s.spawn o).tasks[s.tasks.length]? = some ⟨o,.created⟩ := List.getElem?_concat_length
  exact (h.spawn o).start hnew rfl hmay

theorem Ordered.restore (h : Ordered ivs s) (interventions : List ℕ) : Ordered ivs (s.restore interventions) := by
  rw [InterventionRegistry.restore]
  induction interventions generalizing s with
  | nil => exact h
  | cons o rest ih => exact ih (h.spawn o)

theorem Ordered.deliverAnswer {text : String} {choiceIdOverride : Option String} (h : Ordered ivs s)
    (hgood : orderly ivs enforceListenerPresence s (.deliverAnswer o text choiceIdOverride) = true) :
    Ordered ivs (s.deliverAnswer ivs o text choiceIdOverride) := by
  rw [InterventionRegistry.deliverAnswer]
  split
  · exact h
  · rename_i hdone
    rw [orderly,Bool.eq_false_iff.mpr hdone] at hgood
    cases ha : (ivs o).answerOf text choiceIdOverride with
    | none => exact h
    | some a =>
      rw [ha] at hgood
      have hset := h.setFuture (f := .result a) (Bool.eq_false_iff.mpr hdone) AnswerFuture.noConfusion
      apply hset.leave
      intro next rest horder
      have hover : (s.setFuture o (.result a)).done o = true := done_setFuture_self AnswerFuture.noConfusion
      by_cases howner : s.active.get? (ivs o).id = some o
      · exact hset.cleaner howner hover
      · have hleads : s.leads (ivs o).id = true := by
          have horder' : s.order = (ivs o).id :: next :: rest := horder
          simp [leads,horder']
        obtain ⟨u,hu,huclean⟩ : ∃ u ∈ s.tasks, (u.inQueue && (u.iv == o || s.done u.iv)) = true := by
          simpa [howner,hleads] using hgood
        obtain ⟨hqueue,hwho⟩ := Bool.and_eq_true_iff.mp huclean
        refine ⟨u,hu,Bool.and_eq_true_iff.mpr ⟨hqueue,?_⟩⟩
        rcases Bool.or_eq_true_iff.mp hwho with hself | hdone'
        · rw [beq_iff_eq.mp hself]
          exact hover
        · exact done_setFuture AnswerFuture.noConfusion hdone'

/-- An entry whose intervention is over can be taken out. -/
theorem Ordered.leave_done (h : Ordered ivs s) (ho : s.active.get? id = some o) (hdone : s.done o = true) : Ordered ivs (s.leave id) :=
  h.leave id fun _ _ _ => h.cleaner ho hdone

theorem Ordered.evict (order : List String) (h : Ordered ivs s) (horder : s.order = order) : Ordered ivs (evict order s) := by
  induction order generalizing s with
  | nil => exact h
  | cons id rest ih =>
    rw [InterventionRegistry.evict]
    split
    · rename_i hover
      have hkey : id ∈ s.active.keys := (h.keys id).mp (by rw [horder]; exact List.mem_cons_self)
      obtain ⟨o,ho⟩ := Dict.mem_keys_iff.mp hkey
      rw [ho] at hover
      refine ih (h.leave_done ho hover) ?_
      change s.order.erase id = rest
      rw [horder,List.erase_cons_head]
    · exact h

theorem Ordered.maybeAnswerHead (h : Ordered ivs s) (text : String) : Ordered ivs (s.maybeAnswerHead ivs text) := by
  have hevicted : Ordered ivs s.head.1 := h.evict s.order rfl
  rw [InterventionRegistry.maybeAnswerHead]
  split
  · rename_i evicted hhead
    rw [hhead] at hevicted
    exact hevicted
  · rename_i evicted o hhead
    rw [hhead] at hevicted
    have hfront : evicted.order.head?.bind evicted.active.get? = some o := by
      have heq : s.head.1.order.head?.bind s.head.1.active.get? = s.head.2 := rfl
      rw [hhead] at heq
      exact heq
    obtain ⟨id,-,ho⟩ := Option.bind_eq_some_iff.mp hfront
    obtain ⟨hid,-⟩ := hevicted.owned id o ho
    have hgood : orderly ivs false evicted (.deliverAnswer o text none) = true := by simp [orderly,hid,ho]
    exact hevicted.deliverAnswer hgood

theorem Ordered.deny (h : Ordered ivs s) (reason id : String) : Ordered ivs (deny reason s id) := by
  rw [InterventionRegistry.deny]
  split
  · exact h
  · split
    · exact h
    · rename_i hdone
      exact h.setFuture (by simpa using fun hd : s.done _ = true => hdone (by rw [hd]; rfl)) AnswerFuture.noConfusion

theorem Ordered.denyUnanswerableActive (h : Ordered ivs s) (reason : String) : Ordered ivs (s.denyUnanswerableActive reason) := by
  rw [InterventionRegistry.denyUnanswerableActive]
  generalize s.order = order
  induction order generalizing s with
  | nil => exact h
  | cons id rest ih => exact ih (h.deny reason id)

theorem Ordered.cancel (h : Ordered ivs s) (id : String) : Ordered ivs (s.cancel id) := by
  rw [InterventionRegistry.cancel]
  split
  · exact h
  · rename_i o ho
    rw [InterventionRegistry.cancelFuture]
    split
    · rename_i hdone
      exact h.leave_done ho hdone
    · rename_i hdone
      have hset := h.setFuture (f := .cancelled) (Bool.eq_false_iff.mpr hdone) AnswerFuture.noConfusion
      exact hset.leave_done ho (done_setFuture_self AnswerFuture.noConfusion)

theorem Ordered.dropForRun (h : Ordered ivs s) (runId : Option String) : Ordered ivs (s.dropForRun ivs runId) := by
  rw [InterventionRegistry.dropForRun]
  split
  · exact h
  · generalize (s.active.items.filter _).map _ = victims
    induction victims generalizing s with
    | nil => exact h
    | cons id rest ih => exact ih (h.cancel id)

theorem Ordered.clear (h : Ordered ivs s) : Ordered ivs s.clear := by
  rw [InterventionRegistry.clear]
  generalize (s.active.items ++ s.stalled.items).map _ = all
  have hcancelled : Ordered ivs (all.foldl InterventionRegistry.cancelFuture s) := by
    induction all generalizing s with
    | nil => exact h
    | cons o rest ih => exact ih h.cancelFuture
  generalize all.foldl InterventionRegistry.cancelFuture s = c at hcancelled
  refine ⟨List.nodup_nil,fun _ => Iff.rfl,?_,?_,?_,?_,hcancelled.answers⟩
  · intro id hid
    cases hid
  · intro id o ho
    cases ho
  · change (if _ then c.headSince else c.announcements.length) ≤ _
    split
    · exact hcancelled.bound
    · exact le_rfl
  · intro id rest o horder
    cases horder

theorem Ordered.markStalled (h : Ordered ivs s)
    (hgood : orderly ivs enforceListenerPresence s (.markStalled id) = true) : Ordered ivs (s.markStalled id) := by
  rw [InterventionRegistry.markStalled]
  split
  · exact h
  · rename_i o ho
    have hleft : Ordered ivs (s.leave id) := by
      apply h.leave
      intro next rest horder
      have hleads : s.leads id = true := by simp [leads,horder]
      rw [orderly,hleads] at hgood
      simpa using hgood
    apply hleft.restall
    intro j hj
    have hj' : j ∈ (s.active.pop id).keys := hj
    rw [Dict.keys_pop,List.mem_filter,decide_eq_true_iff] at hj'
    rw [← Dict.get?_eq_none_iff,Dict.get?_set_ne _ hj'.2,Dict.get?_eq_none_iff]
    exact h.apart j hj'.1

theorem Ordered.popStalled (h : Ordered ivs s) (id : String) : Ordered ivs { s with stalled := s.stalled.pop id } := by
  apply h.restall
  intro j hj hpopped
  rw [Dict.keys_pop] at hpopped
  exact h.apart j hj (List.mem_of_mem_filter hpopped)

theorem Ordered.discardStalled (h : Ordered ivs s) (id : String) : Ordered ivs (s.discardStalled id) := by
  rw [InterventionRegistry.discardStalled]
  split
  · exact h
  · dsimp only
    split
    · exact h.popStalled id
    · rename_i o _ hdone
      exact (h.popStalled id).setFuture (Bool.eq_false_iff.mpr hdone) AnswerFuture.noConfusion

theorem Ordered.step {t : InterventionRegistry} {a : RegistryAction} (h : Ordered ivs s)
    (hgood : orderly ivs enforceListenerPresence s a = true) (hstep : s.step ivs enforceListenerPresence a = some t) : Ordered ivs t := by
  cases a with
  | resume k => exact h.resume hgood hstep
  | dispatch o =>
    obtain rfl := Option.some.inj hstep
    exact h.dispatch hgood
  | deliverAnswer o text choiceIdOverride =>
    obtain rfl := Option.some.inj hstep
    exact h.deliverAnswer hgood
  | maybeAnswerHead text =>
    obtain rfl := Option.some.inj hstep
    exact h.maybeAnswerHead text
  | cancel id =>
    obtain rfl := Option.some.inj hstep
    exact h.cancel id
  | dropForRun runId =>
    obtain rfl := Option.some.inj hstep
    exact h.dropForRun runId
  | markStalled id =>
    obtain rfl := Option.some.inj hstep
    exact h.markStalled hgood
  | parkStalled o =>
    obtain rfl := Option.some.inj hstep
    apply h.restall
    intro id hid hstalled
    obtain ⟨p,hp⟩ := Dict.mem_keys_iff.mp hstalled
    rw [Dict.get?_set] at hp
    split at hp
    · rename_i hself
      rw [hself] at hid
      simp [orderly,hid] at hgood
    · exact h.apart id hid (Dict.mem_keys_iff.mpr ⟨p,hp⟩)
  | claimStalled id channel =>
    obtain rfl := Option.some.inj hstep
    rw [InterventionRegistry.claimStalled]
    split
    · exact h
    · have hpopped := h.popStalled id
      exact ⟨hpopped.nodup,hpopped.keys,hpopped.apart,hpopped.owned,hpopped.bound,hpopped.asked,hpopped.answers⟩
  | discardStalled id =>
    obtain rfl := Option.some.inj hstep
    exact h.discardStalled id
  | denyUnanswerableActive reason =>
    obtain rfl := Option.some.inj hstep
    exact h.denyUnanswerableActive reason
  | clear =>
    obtain rfl := Option.some.inj hstep
    exact h.clear
  | restore interventions =>
    obtain rfl := Option.some.inj hstep
    exact h.restore interventions
  | registerListener id =>
    obtain rfl := Option.some.inj hstep
    exact ⟨h.nodup,h.keys,h.apart,h.owned,h.bound,h.asked,h.answers⟩
  | unregisterListener id =>
    obtain rfl := Option.some.inj hstep
    exact ⟨h.nodup,h.keys,h.apart,h.owned,h.bound,h.asked,h.answers⟩

/-- In every run in good order the queue is sound. -/
theorem queue_sound {origins : ℕ → Option String}
    (hr : Runs (step ivs enforceListenerPresence) (fun s a => orderly ivs enforceListenerPresence s a = true) (.new origins) s) :
    QueueSound s := by
  have hordered : Ordered ivs s := hr.invariant (.new origins) fun _ _ _ h hgood hstep => h.step hgood hstep
  exact hordered.sound

/-! ## Two questions -/

def twoQuestions (n : ℕ) : UserIntervention := ⟨if n = 0 then "a" else "b",none,[]⟩

def answeredInTurn : Computed (runChecked (step twoQuestions false) (orderly twoQuestions false) (.new fun _ => none)
    [.dispatch 0,.resume 0,.dispatch 1,.maybeAnswerHead "yes",.resume 0,.resume 0])
    (fun s => s.announcements = [0,1] && s.order = ["b"]) := .of _ _ (by decide +kernel)

theorem answeredInTurn_sound : QueueSound answeredInTurn.1 :=
  queue_sound (.of_runChecked (.refl _) (fun _ _ h => h) answeredInTurn.2.1)

/-- The second question is answered first; its clean-up shows the first one again. -/
def answeredOutOfTurn : Computed (runAll (step twoQuestions false) (.new fun _ => none)
    [.dispatch 0,.resume 0,.dispatch 1,.deliverAnswer 1 "yes" none,.resume 1,.resume 1])
    (fun s => s.announcements = [0,0] && s.order = ["a"] && s.headSince = 0 && s.active.items = [("a",0)] &&
      s.tasks = [⟨0,.waiting⟩,⟨1,.returned (some ⟨"yes",none,false,""⟩)⟩] && !s.done 0) := .of _ _ (by decide +kernel)

theorem queue_not_sound : ¬∀ s, Runs (step twoQuestions false) (fun _ _ => True) (.new fun _ => none) s → QueueSound s := by
  intro h
  have hsound := h answeredOutOfTurn.1 (.of_runAll (.refl _) (fun _ _ _ => trivial) answeredOutOfTurn.2.1)
  have hseen := answeredOutOfTurn.2.2
  simp only [Bool.and_eq_true_iff,decide_eq_true_iff] at hseen
  obtain ⟨⟨⟨⟨⟨hshown,horder⟩,hsince⟩,hactive⟩,htasks⟩,hpending⟩ := hseen
  have hrest : ∀ t ∈ (answeredOutOfTurn.1).tasks, ¬Runnable answeredOutOfTurn.1 t := by
    intro t ht
    rw [htasks] at ht
    rintro (hcreated | ⟨hwaits,hdone⟩)
    · rcases List.mem_pair.mp ht with rfl | rfl <;> cases hcreated
    · rcases List.mem_pair.mp ht with rfl | rfl
      · rw [hdone] at hpending
        cases hpending
      · rcases hwaits with hw | hw <;> cases hw
  obtain ⟨o,ho,hcount⟩ := hsound.asked hrest "a" [] horder
  have hget : (answeredOutOfTurn.1).active.get? "a" = some 0 := by rw [Dict.get?,hactive]; rfl
  obtain rfl := Option.some.inj (hget.symm.trans ho)
  rw [hshown,hsince] at hcount
  cases hcount

/-- The front is stalled, and nobody is shown the next question. -/
example : (runAll (step twoQuestions false) (.new fun _ => none) [.dispatch 0,.resume 0,.dispatch 1,.markStalled "a"]).any
    (fun s => s.order = ["b"] && s.announcements = [0] && s.tasks = [⟨0,.waiting⟩,⟨1,.waiting⟩]) = true := by decide +kernel

end InterventionRegistry
end Reyn
