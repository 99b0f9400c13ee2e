import Reyn.Events.WorkerInvariant

/-! # No stuck state of the durability worker

Whether there is a consumer is looked at once, when a write is enqueued or a barrier
begins to wait. A consumer that ends by itself leaves an empty queue, so what strands a
caller is a consumer that was cancelled, or whose start hook failed, and one that is
cancelled and not yet gone when the caller arrives.
-/
namespace Reyn
open Transition
namespace DurabilityWorker

/-- There is a consumer that is not cancelled. -/
def live (w : DurabilityWorker) : Bool := w.drainer.any (!·.cancelling) || w.inlineDrain.any (!·.cancelling)

/-- Some caller waits, for a future or inside `queue.join()`, and the queue is not empty. -/
def Waits (w : DurabilityWorker) : Prop := (w.waiting ≠ [] ∨ w.joining ≠ []) ∧ w.queue ≠ []

/-- Every consumer there is has been cancelled and is not gone. -/
def dying (w : DurabilityWorker) : Bool := (w.drainer.isSome || w.inlineDrain.isSome) && !w.live

/-- A step that strands nobody: a consumer is cancelled, and a start hook fails, only while nobody waits; and
while a cancelled consumer is not gone nobody comes to wait. -/
def Relieved (w : DurabilityWorker) : WorkerAction → Prop
  | .cancel r => (w.drain r).any (!·.cancelling) = true → ¬ w.Waits
  | .leave .aclose => w.drainer.any (!·.cancelling) = true → ¬ w.Waits
  | .advance o => o = .osError ∨ o = .error →
      (∃ r d, w.current = some r ∧ w.drain r = some d ∧ d.pc = .hook) → ¬ w.Waits
  | .submit => w.dying = false
  | .submitNowait => w.dying = true → w.waiting = [] ∧ w.joining = []
  | .drainToEmpty _ => w.dying = true → w.inlineDrain.isSome → w.queue = []
  | _ => True

/-- The steps of a consumer whose writes and hook succeed. -/
def WorkerAction.ofConsumer : WorkerAction → Bool
  | .resume _ | .take | .advance .ok | .threadDone _ => true
  | _ => false

/-- The consumers alone process everything that is in the queue. -/
def Processes (cfg : WorkerConfig) (w : DurabilityWorker) : Prop :=
  ∃ w', Runs (step cfg) (fun _ a => WorkerAction.ofConsumer a = true) w w' ∧ w'.queue = [] ∧
    ∀ id ∈ w.queue, .done id ∈ w'.log

section Live
variable {w w' : DurabilityWorker} {cfg : WorkerConfig} {a : WorkerAction} {r : Role} {d : Drain} {pc : Pc}

theorem live_iff : w.live = true ↔ ∃ r d, w.drain r = some d ∧ d.cancelling = false := by
  simp only [live,Bool.or_eq_true,Option.any_eq_true,Bool.not_eq_true']
  constructor
  · rintro (⟨d,hd,hc⟩ | ⟨d,hd,hc⟩)
    · exact ⟨.drainer,d,hd,hc⟩
    · exact ⟨.inlineDrain,d,hd,hc⟩
  · rintro ⟨r,d,hd,hc⟩
    cases r with
    | drainer => exact .inl ⟨d,hd,hc⟩
    | inlineDrain => exact .inr ⟨d,hd,hc⟩

theorem live_goto (hc : d.cancelling = false) : (w.goto r d pc).live = true :=
  live_iff.mpr ⟨r,{ d with pc := pc },by simp,hc⟩

theorem live_congr (h : w'.drain = w.drain) : w'.live = w.live := by
  rw [Bool.eq_iff_iff,live_iff,live_iff,h]

/-- A cancelled consumer that goes takes no other with it. -/
theorem live_finish (h : w.live = true) (hd : w.drain r = some d) (hc : d.cancelling = true) :
    (w.finish r).live = true := by
  obtain ⟨r',d',hd',hc'⟩ := live_iff.mp h
  refine live_iff.mpr ⟨r',d',?_,hc'⟩
  have hne : r' ≠ r := by
    rintro rfl
    rw [hd] at hd'
    cases hd'
    rw [hc] at hc'
    cases hc'
  simp [hne,hd']

theorem live_cancel (h : w.live = true) (hdead : (w.drain r).any (!·.cancelling) ≠ true) : (w.cancel r).live = true := by
  obtain ⟨r',d',hd',hc'⟩ := live_iff.mp h
  refine live_iff.mpr ⟨r',d',?_,hc'⟩
  have hne : r' ≠ r := by
    rintro rfl
    simp [hd',hc'] at hdead
  simp [hne,hd']

/-- After a kick there is a consumer, unless all there were are cancelled. -/
theorem live_kick (h : w.dying = false) : w.kick.live = true := by
  unfold kick
  split
  · rename_i hsome
    have hor : (w.drainer.isSome || w.inlineDrain.isSome) = true := by simpa [Bool.or_comm] using hsome
    simpa [dying,hor] using h
  · rfl

theorem Waits.of_taskDone {id : ℕ} (h : (w.taskDone id).Waits) : w.Waits := by
  refine ⟨?_,h.2⟩
  rcases h.1 with hw | hj
  · left
    intro hnil
    exact hw (by simp [taskDone,hnil])
  · right
    intro hnil
    exact hj (by simp [taskDone,hnil])

/-- Every caller that waits has a consumer. -/
theorem live_step (h : w.Waits → w.live = true) (hi : w.Inv) (hg : w.Relieved a) (hw : w.step cfg a = some w') :
    w'.Waits → w'.live = true := by
  intro hwaits
  cases stepped hw with
  | submit =>
    have hdying : (w.enqueue.wait w.nextId).dying = false := hg
    exact live_kick hdying
  | submitNowait =>
    by_cases hdying : w.dying = true
    · obtain ⟨hwait,hjoin⟩ := hg hdying
      have hkept : w.enqueue.kick.waiting = w.waiting ∧ w.enqueue.kick.joining = w.joining := by
        unfold kick
        split
        · exact ⟨rfl,rfl⟩
        · exact ⟨rfl,rfl⟩
      rcases hwaits.1 with hn | hn
      · exact absurd (hkept.1.trans hwait) hn
      · exact absurd (hkept.2.trans hjoin) hn
    · have hdying : w.enqueue.dying = false := Bool.not_eq_true _ ▸ hdying
      exact live_kick hdying
  | cancelSubmit id =>
    refine h ⟨?_,hwaits.2⟩
    rcases hwaits.1 with hn | hn
    · left
      intro hnil
      exact hn (by simp [hnil])
    · exact .inr hn
  | drainToEmpty b =>
    have hjoin : (w.join b).drain = w.drain ∧ (w.join b).queue = w.queue := by
      unfold join
      split
      · exact ⟨rfl,rfl⟩
      · exact ⟨rfl,rfl⟩
    revert hwaits
    unfold drainToEmpty
    split
    · exact h
    split
    · rename_i hdrainer
      intro _
      rw [live_congr hjoin.1,live,hdrainer]
      rfl
    split
    · rename_i hinline
      intro hwaits
      rw [live_congr hjoin.1]
      by_contra hdead
      have hno : w.live = false := Bool.not_eq_true _ ▸ hdead
      have hdying : w.dying = true := by simp [dying,hinline,hno]
      exact hwaits.2 (hjoin.2.trans (hg hdying hinline))
    · exact fun _ => live_goto rfl
  | leave b =>
    cases b with
    | flush => exact h hwaits
    | aclose =>
      have hleft := h hwaits
      by_cases hlive : w.drainer.any (!·.cancelling) = true
      · exact absurd hwaits (hg hlive)
      · exact live_cancel (w := { w with released := w.released.erase .aclose }) (r := .drainer) hleft hlive
  | leaveJoin b =>
    refine h ⟨?_,hwaits.2⟩
    rcases hwaits.1 with hn | hn
    · exact .inl hn
    · right
      intro hnil
      exact hn (by simp [hnil])
  | leaveReleased => exact h hwaits
  | cancel r =>
    by_cases hlive : (w.drain r).any (!·.cancelling) = true
    · exact absurd hwaits (hg hlive)
    · exact live_cancel (h hwaits) hlive
  | @unwind r d hcur hd hc =>
    revert hwaits
    unfold unwind
    split
    · exact fun hwaits => live_finish (h hwaits) hd hc
    · rename_i id _
      intro hwaits
      have hbefore : w.Waits := Waits.of_taskDone hwaits
      have hlive : (w.taskDone id).live = true := h hbefore
      exact live_finish hlive hd hc
  | resume hcur hd hc hres =>
    obtain ⟨v,pc,rfl,-⟩ := resume_cases hres
    exact live_goto hc
  | @take r d hcur hd =>
    have hc := current_cancelling hi hcur hd
    rcases take_cases (w := w) (r := r) (d := d) with ⟨v,d',pc,he,-,hd'⟩ | ⟨hq,he⟩
    · rw [he]
      exact live_goto (hd'.trans hc)
    · rw [he] at hwaits
      exact absurd hq hwaits.2
  | @advance r d _ o hcur hd hadv =>
    obtain ⟨v,pc,rfl,-⟩ | ⟨hpc,ho,rfl⟩ := advance_cases hadv
    · exact live_goto (current_cancelling hi hcur hd)
    · exact absurd hwaits (hg ho ⟨r,d,hcur,hd,hpc⟩)
  | threadDone => exact h hwaits

end Live

section Process
variable (cfg : WorkerConfig) {w w' : DurabilityWorker} {r : Role} {d : Drain}

/-- A consumer at the head of its loop, and what it has left behind. -/
structure AtTop (w w' : DurabilityWorker) (r : Role) : Prop where
  current : w'.current = some r
  drain : ∃ d, w'.drain r = some d ∧ d.pc = .top
  queue : w'.queue = w.queue
  log : ∀ e ∈ w.log, e ∈ w'.log

/-- The state after a write that succeeds. -/
def written (w : DurabilityWorker) (r : Role) (d : Drain) (id : ℕ) : DurabilityWorker :=
  (({ w with log := w.log ++ [.done id] } : DurabilityWorker).taskDone id).goto r d .top

theorem step_advance_ok (hcur : w.current = some r) (hd : w.drain r = some d) {attempt id : ℕ}
    (hpc : d.pc = .write id attempt) : step cfg w (.advance .ok) = some (w.written r d id) := by
  simp [step,hcur,hd,advance,hpc,written]

theorem current_of_live (hi : w.Inv) (hd : w.drain r = some d) (hc : d.cancelling = false) (hrun : d.pc.running = false) :
    w.current = none := by
  by_contra hno
  obtain ⟨r',hr'⟩ := Option.ne_none_iff_exists'.mp hno
  obtain ⟨d',hd',hc',hrun'⟩ := hi.current r' hr'
  obtain rfl := hi.unique hd hc hd' hc'
  rw [hd] at hd'
  cases hd'
  rw [hrun] at hrun'
  cases hrun'

/-- The steps of the consumers alone. -/
abbrev Own : DurabilityWorker → DurabilityWorker → Prop :=
  Runs (step cfg) fun _ a => WorkerAction.ofConsumer a = true

/-- A consumer that goes on from where it waits is on the loop. -/
theorem own_resume (hcur : w.current = none) (hd : w.drain r = some d) (hc : d.cancelling = false)
    (h : w.resume cfg r d = some w') : Own cfg w w' := by
  refine Runs.single (a := .resume r) rfl ?_
  simp [step,hcur,hd,hc,h]

/-- A consumer with a write on the loop finishes it. -/
theorem own_write (hcur : w.current = some r) (hd : w.drain r = some d) {attempt id : ℕ}
    (hpc : d.pc = .write id attempt) : ∃ w', Own cfg w w' ∧ AtTop w w' r := by
  refine ⟨w.written r d id,Runs.single (a := .advance .ok) rfl (step_advance_ok cfg hcur hd hpc),
    ⟨rfl,⟨{ d with pc := .top },?_,rfl⟩,rfl,fun e he => List.mem_append_left _ he⟩⟩
  rw [written,drain_goto,if_pos rfl]

/-- A consumer in its start hook leaves it. -/
theorem own_hook (hcur : w.current = some r) (hd : w.drain r = some d) (hpc : d.pc = .hook) :
    ∃ w', Own cfg w w' ∧ AtTop w w' r := by
  refine ⟨w.goto r d .top,Runs.single (a := .advance .ok) rfl ?_,
    ⟨rfl,⟨{ d with pc := .top },by simp,rfl⟩,rfl,fun _ he => he⟩⟩
  simp [step,hcur,hd,advance,hpc]

theorem AtTop.before {v : DurabilityWorker} (h : AtTop v w' r) (hq : v.queue = w.queue) (hl : ∀ e ∈ w.log, e ∈ v.log) :
    AtTop w w' r := ⟨h.current,h.drain,h.queue.trans hq,fun e he => h.log e (hl e he)⟩

/-- A consumer that is not cancelled reaches the head of its loop by its own steps. -/
theorem own_top (hi : w.Inv) (hd : w.drain r = some d) (hc : d.cancelling = false) :
    ∃ w', Own cfg w w' ∧ AtTop w w' r := by
  obtain ⟨pc,cancelling,flag⟩ := d
  obtain rfl : cancelling = false := hc
  cases pc with
  | fresh =>
    have hcur := current_of_live hi hd rfl rfl
    have hres : w.resume cfg r ⟨.fresh,false,flag⟩ = some (w.goto r ⟨.fresh,false,flag⟩ (firstPc cfg)) := rfl
    have hown := own_resume cfg hcur hd rfl hres
    by_cases hhook : cfg.onDrainStart = true
    · have hfirst : firstPc cfg = .hook := if_pos hhook
      rw [hfirst] at hown
      obtain ⟨w',hw,htop⟩ := own_hook cfg (w := w.goto r ⟨.fresh,false,flag⟩ .hook) (d := ⟨.hook,false,flag⟩) rfl
        (by simp) rfl
      exact ⟨w',hown.trans hw,htop.before rfl fun _ he => he⟩
    · have hfirst : firstPc cfg = .top := if_neg hhook
      rw [hfirst] at hown
      exact ⟨_,hown,rfl,⟨⟨.top,false,flag⟩,by simp,rfl⟩,rfl,fun _ he => he⟩
  | hook => exact own_hook cfg (hi.running r _ hd rfl) hd rfl
  | hookWait =>
    have hcur := current_of_live hi hd rfl rfl
    have hres : w.resume cfg r ⟨.hookWait,false,flag⟩ = some (w.goto r ⟨.hookWait,false,flag⟩ .hook) := rfl
    obtain ⟨w',hw,htop⟩ := own_hook cfg (w := w.goto r ⟨.hookWait,false,flag⟩ .hook) (d := ⟨.hook,false,flag⟩) rfl
      (by simp) rfl
    exact ⟨w',(own_resume cfg hcur hd rfl hres).trans hw,htop.before rfl fun _ he => he⟩
  | top => exact ⟨w,.refl w,hi.running r _ hd rfl,⟨_,hd,rfl⟩,rfl,fun _ he => he⟩
  | write id attempt => exact own_write cfg (hi.running r _ hd rfl) hd rfl
  | await id attempt onThread =>
    have hcur := current_of_live hi hd rfl rfl
    -- the thread has to end first
    obtain ⟨v,hv,hvd,hvc,hvq,hvl,hended⟩ : ∃ v, Own cfg w v ∧ v.drain = w.drain ∧ v.current = none ∧ v.queue = w.queue ∧
        v.log = w.log ∧ id ∉ v.threads := by
      by_cases hin : id ∈ w.threads
      · refine ⟨{ w with threads := w.threads.filter (· ≠ id) },Runs.single (a := .threadDone id) rfl ?_,rfl,hcur,rfl,rfl,?_⟩
        · simp [step,hin]
        · simp
      · exact ⟨w,.refl w,rfl,hcur,rfl,rfl,hin⟩
    have hres : v.resume cfg r ⟨.await id attempt onThread,false,flag⟩ =
        some (v.goto r ⟨.await id attempt onThread,false,flag⟩ (.write id attempt)) := by
      simp [resume,hended]
    obtain ⟨w',hw,htop⟩ := own_write cfg
      (w := v.goto r ⟨.await id attempt onThread,false,flag⟩ (.write id attempt)) (d := ⟨.write id attempt,false,flag⟩) rfl (by simp) rfl
    exact ⟨w',hv.trans ((own_resume cfg hvc (hvd ▸ hd) rfl hres).trans hw),htop.before hvq fun e he => hvl ▸ he⟩
  | backoff id attempt =>
    have hcur := current_of_live hi hd rfl rfl
    have hres : w.resume cfg r ⟨.backoff id attempt,false,flag⟩ =
        some ((w.started id).goto r ⟨.backoff id attempt,false,flag⟩ (.write id (attempt + 1))) := rfl
    obtain ⟨w',hw,htop⟩ := own_write cfg
      (w := (w.started id).goto r ⟨.backoff id attempt,false,flag⟩ (.write id (attempt + 1)))
      (d := ⟨.write id (attempt + 1),false,flag⟩) rfl (by simp) rfl
    exact ⟨w',(own_resume cfg hcur hd rfl hres).trans hw,htop.before rfl fun e he => List.mem_append_left _ he⟩

/-- What is left of a burst: the queue, and the end-of-burst job while it is not enqueued. -/
def left (w : DurabilityWorker) (d : Drain) : ℕ := w.queue.length + if d.drainEndEnqueued then 0 else 1

/-- The next write is taken. -/
theorem step_take {id : ℕ} {rest : List ℕ} (hcur : w.current = some r) (hd : w.drain r = some d) (hpc : d.pc = .top)
    (hq : w.queue = id :: rest) : ∃ w' d', step cfg w .take = some w' ∧ w'.current = some r ∧ w'.drain r = some d' ∧
      d'.pc = .write id 0 ∧ w'.left d' < w.left d ∧ (∀ i ∈ rest, i ∈ w'.queue) ∧ ∀ e ∈ w.log, e ∈ w'.log := by
  have hstep : step cfg w .take = some (w.take cfg r d) := by simp [step,hcur,hd,hpc]
  by_cases hend : (cfg.onDrainEnd && !d.drainEndEnqueued && rest.isEmpty) = true
  · have htake : w.take cfg r d = ((({ w with queue := rest } : DurabilityWorker).enqueue).started id).goto r
        { d with drainEndEnqueued := true } (.write id 0) := by simp only [take,hq,hend,if_true]
    simp only [Bool.and_eq_true,Bool.not_eq_true',List.isEmpty_iff] at hend
    obtain ⟨⟨-,hflag⟩,rfl⟩ := hend
    refine ⟨_,⟨.write id 0,d.cancelling,true⟩,hstep.trans (congrArg some htake),rfl,by simp,rfl,?_,nofun,
      fun e he => List.mem_append_left _ he⟩
    show 1 + 0 < w.queue.length + if d.drainEndEnqueued then 0 else 1
    rw [hq,hflag]
    exact Nat.lt_succ_self 1
  · have htake : w.take cfg r d = (({ w with queue := rest } : DurabilityWorker).started id).goto r d (.write id 0) := by
      simp only [take,hq,if_neg hend]
    refine ⟨_,{ d with pc := .write id 0 },hstep.trans (congrArg some htake),rfl,by simp,rfl,?_,fun _ hi => hi,
      fun e he => List.mem_append_left _ he⟩
    show rest.length + (if d.drainEndEnqueued then 0 else 1) < w.queue.length + if d.drainEndEnqueued then 0 else 1
    rw [hq,List.length_cons]
    omega

/-- From the head of its loop a consumer empties the queue. -/
theorem own_drain {n : ℕ} (hi : w.Inv) (hcur : w.current = some r) (hd : w.drain r = some d) (hpc : d.pc = .top)
    (hn : w.left d ≤ n) :
    ∃ w', Own cfg w w' ∧ w'.queue = [] ∧ (∀ id ∈ w.queue, .done id ∈ w'.log) ∧ ∀ e ∈ w.log, e ∈ w'.log := by
  induction n generalizing w d with
  | zero =>
    have hq : w.queue = [] := List.length_eq_zero_iff.mp (by unfold left at hn; omega)
    exact ⟨w,.refl w,hq,by simp [hq],fun _ he => he⟩
  | succ n ih =>
    cases hq : w.queue with
    | nil => exact ⟨w,.refl w,hq,by simp,fun _ he => he⟩
    | cons id rest =>
      obtain ⟨t,d',ht,htcur,htd,htpc,hleft,hrest,htlog⟩ := step_take cfg hcur hd hpc hq
      have hu := step_advance_ok cfg htcur htd htpc
      have hud : (t.written r d' id).drain r = some { d' with pc := .top } := by rw [written,drain_goto,if_pos rfl]
      have hulog : ∀ e ∈ t.log, e ∈ (t.written r d' id).log := fun e he => List.mem_append_left _ he
      have hdone : .done id ∈ (t.written r d' id).log := List.mem_append_right _ (List.mem_singleton_self _)
      have hleft' : (t.written r d' id).left { d' with pc := .top } ≤ n := by
        have : (t.written r d' id).left { d' with pc := .top } = t.left d' := rfl
        omega
      obtain ⟨w',hown,hempty,hall,hlog⟩ := ih ((hi.step ht).step hu) rfl hud rfl hleft'
      have htake : Own cfg w t := Runs.single (a := WorkerAction.take) rfl ht
      have hwrite : Own cfg t (t.written r d' id) := Runs.single (a := WorkerAction.advance .ok) rfl hu
      refine ⟨w',htake.trans (hwrite.trans hown),hempty,
        fun i hin => ?_,fun e he => hlog e (hulog e (htlog e he))⟩
      rcases List.mem_cons.mp hin with rfl | hin
      · exact hlog _ hdone
      · exact hall i (hrest i hin)

theorem processes_of_live (hi : w.Inv) (hl : w.live = true) : w.Processes cfg := by
  obtain ⟨r,d,hd,hc⟩ := live_iff.mp hl
  obtain ⟨v,hv,htop⟩ := own_top cfg hi hd hc
  have hiv : v.Inv := hv.invariant hi fun _ _ _ h _ hw => h.step hw
  obtain ⟨d',hd',hpc⟩ := htop.drain
  obtain ⟨w',hw',hempty,hdone,-⟩ := own_drain cfg hiv htop.current hd' hpc (Nat.le_refl _)
  exact ⟨w',hv.trans hw',hempty,htop.queue ▸ hdone⟩

end Process

section Run
variable {w : DurabilityWorker} {cfg : WorkerConfig}

/-- In a run that strands nobody, whenever a caller waits there is a consumer that is not cancelled, and it
processes the queue. -/
theorem noStuckState_run (hr : Runs (step cfg) Relieved init w) (hw : w.Waits) : w.live = true ∧ w.Processes cfg := by
  have hboth : w.Inv ∧ (w.Waits → w.live = true) :=
    hr.invariant (I := fun w => w.Inv ∧ (w.Waits → w.live = true)) ⟨Inv.init,fun h => absurd rfl h.2⟩
      fun _ _ _ ⟨hi,h⟩ hg hw => ⟨hi.step hw,live_step h hi hg hw⟩
  have hlive := hboth.2 hw
  exact ⟨hlive,processes_of_live cfg hboth.1 hlive⟩

/-- A test that is enough for the steps below. -/
def relievedSteps (w : DurabilityWorker) : WorkerAction → Bool
  | .cancel _ => w.queue = []
  | .submit => !w.dying
  | .advance o => o = .thread
  | .resume _ | .take | .unwind _ => true
  | _ => false

theorem relieved_of_steps {a : WorkerAction} (h : relievedSteps w a = true) : Relieved w a := by
  cases a with
  | cancel r => exact fun _ hw => hw.2 (by simpa [relievedSteps] using h)
  | submit => simpa [relievedSteps,Relieved] using h
  | advance o =>
    have ho : o = .thread := by simpa [relievedSteps] using h
    subst ho
    rintro (he | he)
    · cases he
    · cases he
  | resume | take | unwind => trivial
  | submitNowait | cancelSubmit | drainToEmpty | leave | cancelJoin | threadDone => cases h

/-- The drainer is cancelled at the only write there is, and the next submit comes when it is gone. -/
theorem noStuckState_run_submit : ∃ w, Runs (step plainConfig) Relieved init w ∧ w.queue = [1] ∧ w.live = true ∧
    w.Processes plainConfig := by
  have hview : (runChecked (step plainConfig) relievedSteps init [.submit,.resume .drainer,.take,.advance .thread,
      .cancel .drainer,.unwind .drainer,.submit]).map (fun w => (w.waiting,w.queue)) = some ([1],[1]) := by decide_cbv
  obtain ⟨w,hw,hview⟩ := Option.map_eq_some_iff.mp hview
  obtain ⟨hwait,hqueue⟩ := Prod.mk.inj hview
  have hrun : Runs (step plainConfig) Relieved init w := .of_runChecked (.refl _) (fun _ _ => relieved_of_steps) hw
  have hwaits : w.Waits := ⟨.inl (by simp [hwait]),by simp [hqueue]⟩
  exact ⟨w,hrun,hqueue,noStuckState_run hrun hwaits⟩

/-- A submit that comes between the cancellation of the drainer and its end is never processed. -/
theorem cancelled_drainer_strands : ¬ ∀ cfg w, Runs (step cfg) (fun _ _ => True) init w → w.Waits →
    w.live = true ∧ w.Processes cfg := by
  intro h
  have hrun : (runAll (step plainConfig) init [.submitNowait,.cancel .drainer,.submit,.unwind .drainer]).map
      (fun w => (w.waiting,w.queue,w.live)) = some ([1],[0,1],false) := by decide_cbv
  obtain ⟨w,hw,hview⟩ := Option.map_eq_some_iff.mp hrun
  obtain ⟨hwait,hrest⟩ := Prod.mk.inj hview
  obtain ⟨hqueue,hlive⟩ := Prod.mk.inj hrest
  have hwaits : w.Waits := ⟨.inl (by simp [hwait]),by simp [hqueue]⟩
  have := (h plainConfig w (.of_runAll (.refl _) (fun _ _ _ => trivial) hw) hwaits).1
  rw [hlive] at this
  cases this

end Run
end DurabilityWorker
end Reyn
