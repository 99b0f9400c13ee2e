import Reyn.Events.WorkerInvariant

/-! # One durable write at a time

At most one consumer is alive and not cancelled, since an inline drain starts only when
the background task is not, and no task is started beside it. What such a consumer takes
is the head of the queue. A thread outlives the consumer that waited for it, so two
writes overlap exactly when the next one is taken before the thread of a cancelled one
has ended.
-/
namespace Reyn
open Transition
namespace DurabilityWorker

def InOrder (log : List WriteEvent) : Prop :=
  log.Pairwise fun e f => ∀ i j, e = .start i → f = .start j → i ≤ j

def NoRestart (log : List WriteEvent) : Prop :=
  log.Pairwise fun e f => ∀ i, e = .done i → f ≠ .start i

/-- Everything before `next` was taken in turn, and what a consumer has in hand was taken last. -/
structure Logged (w : DurabilityWorker) (next : ℕ) : Prop where
  queue : w.queue = List.range' next (w.nextId - next)
  le : next ≤ w.nextId
  starts : ∀ i, .start i ∈ w.log ↔ i < next
  dones : ∀ i, .done i ∈ w.log → i < next
  held : ∀ r d id, w.drain r = some d → d.cancelling = false → d.held = some id → id + 1 = next ∧ .done id ∉ w.log
  order : InOrder w.log
  noRestart : NoRestart w.log

/-- The running threads are all of one write, the one a consumer that is not cancelled waits for if it waits
for a write. -/
structure Solo (w : DurabilityWorker) : Prop where
  same : ∀ a ∈ w.threads, ∀ b ∈ w.threads, a = b
  awaited : ∀ r d, w.drain r = some d → d.cancelling = false → ∀ id, d.held = some id → ∀ a ∈ w.threads,
    a = id ∧ ∃ attempt, d.pc = .await id attempt true

section Logged
variable {w w' : DurabilityWorker} {cfg : WorkerConfig} {a : WorkerAction} {r : Role} {d d' : Drain} {pc : Pc} {n id : ℕ}

/-- Nothing is enqueued, taken or written, and no consumer gets another write in hand. -/
theorem Logged.mono (h : w.Logged n) (hq : w'.queue = w.queue) (hn : w'.nextId = w.nextId) (hl : w'.log = w.log)
    (hheld : ∀ r d id, w'.drain r = some d → d.cancelling = false → d.held = some id →
      ∃ r₀ d₀, w.drain r₀ = some d₀ ∧ d₀.cancelling = false ∧ d₀.held = some id) : w'.Logged n := by
  refine ⟨?_,?_,?_,?_,fun r d id hd hc hid => ?_,?_,?_⟩
  · rw [hq,hn]
    exact h.queue
  · rw [hn]
    exact h.le
  · rw [hl]
    exact h.starts
  · rw [hl]
    exact h.dones
  · obtain ⟨r₀,d₀,hd₀,hc₀,hid₀⟩ := hheld r d id hd hc hid
    rw [hl]
    exact h.held r₀ d₀ id hd₀ hc₀ hid₀
  · rw [hl]
    exact h.order
  · rw [hl]
    exact h.noRestart

theorem Logged.same (h : w.Logged n) (hq : w'.queue = w.queue) (hn : w'.nextId = w.nextId) (hl : w'.log = w.log)
    (hd : w'.drain = w.drain) : w'.Logged n :=
  h.mono hq hn hl fun r d _ hr hc hid => ⟨r,d,hd ▸ hr,hc,hid⟩

theorem Logged.enqueue (h : w.Logged n) : w.enqueue.Logged n := by
  refine ⟨?_,Nat.le_succ_of_le h.le,h.starts,h.dones,h.held,h.order,h.noRestart⟩
  show w.queue ++ [w.nextId] = List.range' n (w.nextId + 1 - n)
  have hle := h.le
  rw [h.queue,Nat.succ_sub hle,List.range'_concat]
  congr 2
  omega

theorem Logged.kick (h : w.Logged n) : w.kick.Logged n := by
  unfold DurabilityWorker.kick
  split
  · exact h
  · refine h.mono rfl rfl rfl fun r d id hd hc hid => ?_
    cases r with
    | drainer =>
      cases hd
      cases hid
    | inlineDrain => exact ⟨.inlineDrain,d,hd,hc,hid⟩

theorem Logged.goto (h : w.Logged n)
    (hheld : ∀ id, ({ d with pc := pc } : Drain).held = some id →
      ∃ d₀, w.drain r = some d₀ ∧ d₀.cancelling = false ∧ d₀.held = some id) : (w.goto r d pc).Logged n := by
  refine h.mono rfl rfl rfl fun r' d' id hd' hc' hid => ?_
  rw [drain_goto] at hd'
  split at hd'
  · cases hd'
    obtain ⟨d₀,hd₀⟩ := hheld id hid
    exact ⟨r,d₀,hd₀⟩
  · exact ⟨r',d',hd',hc',hid⟩

theorem Logged.finish (h : w.Logged n) : (w.finish r).Logged n := by
  refine h.mono rfl rfl rfl fun r' d' id hd' hc' hid => ?_
  rw [drain_finish] at hd'
  split at hd'
  · cases hd'
  · exact ⟨r',d',hd',hc',hid⟩

theorem Logged.cancel (h : w.Logged n) : (w.cancel r).Logged n := by
  refine h.mono rfl rfl rfl fun r' d' id hd' hc' hid => ?_
  rw [drain_cancel] at hd'
  split at hd'
  · obtain ⟨d₀,-,rfl⟩ := Option.map_eq_some_iff.mp hd'
    cases hc'
  · exact ⟨r',d',hd',hc',hid⟩

/-- A write in hand is tried again. -/
theorem Logged.started (h : w.Logged n) (hi : w.Inv) (hd : w.drain r = some d) (hc : d.cancelling = false)
    (hid : d.held = some id) : (w.started id).Logged n := by
  obtain ⟨hlast,hfresh⟩ := h.held r d id hd hc hid
  refine ⟨h.queue,h.le,fun i => ?_,fun i hm => ?_,fun r' d' id' hd' hc' hid' => ?_,?_,?_⟩
  · show WriteEvent.start i ∈ w.log ++ [.start id] ↔ i < n
    rw [List.mem_append,h.starts,List.mem_singleton,WriteEvent.start.injEq]
    omega
  · rcases List.mem_append.mp hm with hm | hm
    · exact h.dones i hm
    · cases List.mem_singleton.mp hm
  · obtain rfl := hi.unique hd hc hd' hc'
    rw [show w.drain r' = some d' from hd'] at hd
    cases hd
    rw [hid] at hid'
    cases hid'
    refine ⟨hlast,fun hm => ?_⟩
    rcases List.mem_append.mp hm with hm | hm
    · exact hfresh hm
    · cases List.mem_singleton.mp hm
  · refine List.pairwise_append.mpr ⟨h.order,List.pairwise_singleton _ _,fun e he f hf i j hei hfj => ?_⟩
    rw [List.mem_singleton.mp hf] at hfj
    cases hfj
    have := (h.starts i).mp (hei ▸ he)
    omega
  · refine List.pairwise_append.mpr ⟨h.noRestart,List.pairwise_singleton _ _,fun e he f hf i hei hfi => ?_⟩
    rw [List.mem_singleton.mp hf] at hfi
    cases hfi
    exact hfresh (hei ▸ he)

/-- A write in hand is done, and the consumer goes to the head of the loop. -/
theorem Logged.done (h : w.Logged n) (hi : w.Inv) (hd : w.drain r = some d) (hc : d.cancelling = false)
    (hid : d.held = some id) :
    ((({ w with log := w.log ++ [.done id] } : DurabilityWorker).taskDone id).goto r d .top).Logged n := by
  obtain ⟨hlast,-⟩ := h.held r d id hd hc hid
  refine ⟨h.queue,h.le,fun i => ?_,fun i hm => ?_,fun r' d' id' hd' hc' hid' => ?_,?_,?_⟩
  · show WriteEvent.start i ∈ w.log ++ [.done id] ↔ i < n
    rw [List.mem_append,h.starts,List.mem_singleton]
    simp
  · rcases List.mem_append.mp hm with hm | hm
    · exact h.dones i hm
    · cases List.mem_singleton.mp hm
      omega
  · rw [drain_goto] at hd'
    split at hd'
    · cases hd'
      cases hid'
    · rename_i hne
      exact absurd (hi.unique hd hc hd' hc') hne
  · refine List.pairwise_append.mpr ⟨h.order,List.pairwise_singleton _ _,fun e _ f hf i j _ hfj => ?_⟩
    rw [List.mem_singleton.mp hf] at hfj
    cases hfj
  · refine List.pairwise_append.mpr ⟨h.noRestart,List.pairwise_singleton _ _,fun e _ f hf i _ hfi => ?_⟩
    rw [List.mem_singleton.mp hf] at hfi
    cases hfi

/-- The head of the queue is taken. -/
theorem Logged.taken {rest : List ℕ} (h : w.Logged n) (hi : w.Inv) (hq : w.queue = id :: rest) (hd : w.drain r = some d)
    (hc : d.cancelling = false) :
    ((({ w with queue := rest } : DurabilityWorker).started id).goto r d' (.write id 0)).Logged (n + 1) := by
  have hrange := h.queue.symm.trans hq
  have hlt : n < w.nextId := by
    by_contra hno
    rw [Nat.sub_eq_zero_of_le (by omega)] at hrange
    cases hrange
  obtain ⟨k,hk⟩ : ∃ k, w.nextId - n = k + 1 := ⟨w.nextId - n - 1,by omega⟩
  rw [hk,List.range'_succ] at hrange
  obtain ⟨rfl,hrest⟩ := List.cons.inj hrange
  refine ⟨?_,hlt,fun i => ?_,fun i hm => ?_,fun r' e id' he hce hid' => ?_,?_,?_⟩
  · show rest = List.range' (n + 1) (w.nextId - (n + 1))
    rw [← hrest]
    congr 1
    omega
  · show WriteEvent.start i ∈ w.log ++ [.start n] ↔ i < n + 1
    rw [List.mem_append,h.starts,List.mem_singleton,WriteEvent.start.injEq]
    omega
  · rcases List.mem_append.mp hm with hm | hm
    · exact Nat.lt_succ_of_lt (h.dones i hm)
    · cases List.mem_singleton.mp hm
  · rw [drain_goto] at he
    split at he
    · cases he
      cases hid'
      refine ⟨rfl,fun hm => ?_⟩
      rcases List.mem_append.mp hm with hm | hm
      · exact absurd (h.dones n hm) (Nat.lt_irrefl n)
      · cases List.mem_singleton.mp hm
    · rename_i hne
      exact absurd (hi.unique hd hc he hce) hne
  · refine List.pairwise_append.mpr ⟨h.order,List.pairwise_singleton _ _,fun e he f hf i j hei hfj => ?_⟩
    rw [List.mem_singleton.mp hf] at hfj
    cases hfj
    exact Nat.le_of_lt ((h.starts i).mp (hei ▸ he))
  · refine List.pairwise_append.mpr ⟨h.noRestart,List.pairwise_singleton _ _,fun e he f hf i hei hfi => ?_⟩
    rw [List.mem_singleton.mp hf] at hfi
    cases hfi
    exact absurd (h.dones n (hei ▸ he)) (Nat.lt_irrefl n)

theorem Logged.take (h : w.Logged n) (hi : w.Inv) (hd : w.drain r = some d) (hc : d.cancelling = false) :
    ∃ m, (w.take cfg r d).Logged m := by
  have htop : ∀ {d' : Drain} {v : DurabilityWorker} (id : ℕ), ({ d' with pc := .top } : Drain).held = some id →
      ∃ d₀, v.drain r = some d₀ ∧ d₀.cancelling = false ∧ d₀.held = some id := nofun
  unfold DurabilityWorker.take
  split
  · split
    · exact ⟨n,h.enqueue.goto htop⟩
    · exact ⟨n,h.finish⟩
  · rename_i id rest hq
    split
    · have hq' : w.enqueue.queue = id :: (rest ++ [w.nextId]) := by
        show w.queue ++ [w.nextId] = _
        rw [hq]
        rfl
      have hi' : w.enqueue.Inv := hi.congr rfl rfl rfl
      exact ⟨n + 1,h.enqueue.taken hi' hq' hd hc⟩
    · exact ⟨n + 1,h.taken hi hq hd hc⟩

theorem Logged.step (h : w.Logged n) (hi : w.Inv) (hw : w.step cfg a = some w') : ∃ m, w'.Logged m := by
  cases stepped hw with
  | submit =>
    have hwait : (w.enqueue.wait w.nextId).Logged n := h.enqueue.same rfl rfl rfl rfl
    exact ⟨n,hwait.kick⟩
  | submitNowait => exact ⟨n,h.enqueue.kick⟩
  | cancelSubmit => exact ⟨n,h.same rfl rfl rfl rfl⟩
  | drainToEmpty b =>
    refine ⟨n,?_⟩
    have hjoin : (w.join b).Logged n := by
      unfold DurabilityWorker.join
      split
      · exact h.same rfl rfl rfl rfl
      · exact h.same rfl rfl rfl rfl
    unfold DurabilityWorker.drainToEmpty
    split
    · exact h
    split
    · exact hjoin
    split
    · exact hjoin
    · refine h.goto fun id hid => ?_
      unfold firstPc at hid
      split at hid
      · cases hid
      · cases hid
  | leave b =>
    have hleft : ({ w with released := w.released.erase b } : DurabilityWorker).Logged n := h.same rfl rfl rfl rfl
    cases b with
    | flush => exact ⟨n,hleft⟩
    | aclose => exact ⟨n,hleft.cancel⟩
  | leaveJoin => exact ⟨n,h.same rfl rfl rfl rfl⟩
  | leaveReleased => exact ⟨n,h.same rfl rfl rfl rfl⟩
  | cancel r => exact ⟨n,h.cancel⟩
  | @unwind r d =>
    refine ⟨n,?_⟩
    unfold DurabilityWorker.unwind
    split
    · exact h.finish
    · rename_i id _
      have hdone : (w.taskDone id).Logged n := h.same rfl rfl rfl rfl
      exact hdone.finish
  | @resume r d _ hcur hd hc hres =>
    refine ⟨n,?_⟩
    have hpc : ∀ {pc : Pc}, d.pc = pc → ∀ id, ({ d with pc := pc } : Drain).held = some id → d.held = some id := by
      rintro _ rfl id hid
      exact hid
    unfold DurabilityWorker.resume at hres
    split at hres
    · obtain rfl := Option.some.inj hres
      refine h.goto fun id hid => ?_
      unfold firstPc at hid
      split at hid
      · cases hid
      · cases hid
    · obtain rfl := Option.some.inj hres
      exact h.goto nofun
    · rename_i hp
      split at hres
      · cases hres
      · obtain rfl := Option.some.inj hres
        exact h.goto fun id hid => ⟨d,hd,hc,hpc hp id hid⟩
    · rename_i hp
      obtain rfl := Option.some.inj hres
      refine (h.started hi hd hc (hpc hp _ rfl)).goto fun id hid => ⟨d,hd,hc,hpc hp id hid⟩
    · cases hres
  | take hcur hd => exact h.take hi hd (current_cancelling hi hcur hd)
  | @advance r d _ o hcur hd hadv =>
    refine ⟨n,?_⟩
    have hc := current_cancelling hi hcur hd
    have hpc : ∀ {pc : Pc}, d.pc = pc → ∀ id, ({ d with pc := pc } : Drain).held = some id → d.held = some id := by
      rintro _ rfl id hid
      exact hid
    have hdone : ∀ id, (w.taskDone id).Logged n := fun _ => h.same rfl rfl rfl rfl
    unfold DurabilityWorker.advance at hadv
    split at hadv
    · exact Option.some.inj hadv ▸ h.goto nofun
    · exact Option.some.inj hadv ▸ h.goto nofun
    · exact Option.some.inj hadv ▸ h.goto nofun
    · exact Option.some.inj hadv ▸ h.finish
    · exact Option.some.inj hadv ▸ h.finish
    · rename_i id attempt hp
      have hthread : ({ w with threads := w.threads ++ [id] } : DurabilityWorker).Logged n := h.same rfl rfl rfl rfl
      exact Option.some.inj hadv ▸ hthread.goto fun id hid => ⟨d,hd,hc,hpc hp id hid⟩
    · rename_i hp
      exact Option.some.inj hadv ▸ h.goto fun id hid => ⟨d,hd,hc,hpc hp id hid⟩
    · rename_i hp
      exact Option.some.inj hadv ▸ h.done hi hd hc (hpc hp _ rfl)
    · rename_i hp
      split at hadv
      · exact Option.some.inj hadv ▸ (hdone _).goto nofun
      · exact Option.some.inj hadv ▸ h.goto fun id hid => ⟨d,hd,hc,hpc hp id hid⟩
    · exact Option.some.inj hadv ▸ (hdone _).goto nofun
    · cases hadv
  | threadDone => exact ⟨n,h.same rfl rfl rfl rfl⟩

end Logged

/-- The writes that execute: on a thread, or in the hands of a consumer that is not cancelled. A cancelled
consumer only unwinds. -/
def executing (w : DurabilityWorker) : List ℕ :=
  w.threads ++ [Role.drainer,Role.inlineDrain].filterMap fun r =>
    (w.drain r).bind fun d => if d.cancelling then none else d.held

/-- One write at a time, each started after all that were enqueued before it, and never again once it is done. -/
structure Serial (w : DurabilityWorker) : Prop where
  one : ∀ a ∈ w.executing, ∀ b ∈ w.executing, a = b
  order : InOrder w.log
  earlier : ∀ i j, .start j ∈ w.log → i ≤ j → .start i ∈ w.log
  noRestart : NoRestart w.log

/-- The next write is taken when no thread still runs, in particular none whose consumer was cancelled. -/
def ThreadsEnded (w : DurabilityWorker) : WorkerAction → Prop
  | .take => w.queue ≠ [] → w.threads = []
  | _ => True

section Solo
variable {w w' : DurabilityWorker} {cfg : WorkerConfig} {a : WorkerAction} {r : Role} {d : Drain} {pc : Pc} {id : ℕ}

theorem Solo.mono (h : w.Solo) (ht : ∀ a ∈ w'.threads, a ∈ w.threads)
    (hheld : ∀ r d id, w'.drain r = some d → d.cancelling = false → d.held = some id → w.drain r = some d) : w'.Solo :=
  ⟨fun a ha b hb => h.same a (ht a ha) b (ht b hb),
    fun r d hd hc id hid a ha => h.awaited r d (hheld r d id hd hc hid) hc id hid a (ht a ha)⟩

theorem Solo.same_drains (h : w.Solo) (ht : ∀ a ∈ w'.threads, a ∈ w.threads) (hd : w'.drain = w.drain) : w'.Solo :=
  h.mono ht fun _ _ _ hr _ _ => hd ▸ hr

theorem Solo.goto (h : w.Solo) (hpc : ∀ id, ({ d with pc := pc } : Drain).held = some id →
    ∀ a ∈ w.threads, a = id ∧ ∃ attempt, pc = .await id attempt true) : (w.goto r d pc).Solo := by
  refine ⟨h.same,fun r' d' hd' hc' id hid a ha => ?_⟩
  rw [drain_goto] at hd'
  split at hd'
  · cases hd'
    exact hpc id hid a ha
  · exact h.awaited r' d' hd' hc' id hid a ha

theorem Solo.finish (h : w.Solo) : (w.finish r).Solo := by
  refine h.mono (fun _ ha => ha) fun r' d' id hd' _ _ => ?_
  rw [drain_finish] at hd'
  split at hd'
  · cases hd'
  · exact hd'

theorem Solo.cancel (h : w.Solo) : (w.cancel r).Solo := by
  refine h.mono (fun _ ha => ha) fun r' d' id hd' hc' _ => ?_
  rw [drain_cancel] at hd'
  split at hd'
  · obtain ⟨d₀,-,rfl⟩ := Option.map_eq_some_iff.mp hd'
    cases hc'
  · exact hd'

theorem Solo.kick (h : w.Solo) : w.kick.Solo := by
  unfold DurabilityWorker.kick
  split
  · exact h
  · refine h.mono (fun _ ha => ha) fun r' d' id hd' _ hid => ?_
    cases r' with
    | drainer =>
      cases hd'
      cases hid
    | inlineDrain => exact hd'

/-- A write that is not awaited on a thread is in hand only when no thread runs. -/
theorem Solo.no_threads (h : w.Solo) (hd : w.drain r = some d) (hc : d.cancelling = false) (hid : d.held = some id)
    (hpc : ∀ attempt, d.pc ≠ .await id attempt true) : w.threads = [] := by
  refine List.eq_nil_iff_forall_not_mem.mpr fun a ha => ?_
  obtain ⟨-,attempt,hp⟩ := h.awaited r d hd hc id hid a ha
  exact hpc attempt hp

theorem Solo.drainToEmpty {b : Barrier} (h : w.Solo) : (w.drainToEmpty cfg b).Solo := by
  have hjoin : (w.join b).Solo := by
    unfold DurabilityWorker.join
    split
    · exact h.same_drains (fun _ ha => ha) rfl
    · exact h.same_drains (fun _ ha => ha) rfl
  unfold DurabilityWorker.drainToEmpty
  split
  · exact h
  split
  · exact hjoin
  split
  · exact hjoin
  · refine h.goto fun id hid => ?_
    unfold firstPc at hid
    split at hid
    · cases hid
    · cases hid

theorem Solo.take (h : w.Solo) (hg : w.queue ≠ [] → w.threads = []) : (w.take cfg r d).Solo := by
  unfold DurabilityWorker.take
  split
  · split
    · have henqueue : w.enqueue.Solo := h.same_drains (fun _ ha => ha) rfl
      exact henqueue.goto nofun
    · exact h.finish
  · rename_i id rest hq
    have hnone : w.threads = [] := hg (by simp [hq])
    have hbusy : ∀ (v : DurabilityWorker) (d' : Drain), v.threads = w.threads → v.drain = w.drain →
        (v.goto r d' (.write id 0)).Solo := by
      intro v d' hv hdv
      have hsolo : v.Solo := h.same_drains (fun _ ha => hv ▸ ha) hdv
      refine hsolo.goto fun _ _ a ha => ?_
      rw [hv,hnone] at ha
      cases ha
    split
    · exact hbusy _ _ rfl rfl
    · exact hbusy _ _ rfl rfl

theorem Solo.resume (h : w.Solo) (hd : w.drain r = some d) (hc : d.cancelling = false)
    (hres : w.resume cfg r d = some w') : w'.Solo := by
  unfold DurabilityWorker.resume at hres
  split at hres
  · obtain rfl := Option.some.inj hres
    refine h.goto fun id hid => ?_
    unfold firstPc at hid
    split at hid
    · cases hid
    · cases hid
  · exact Option.some.inj hres ▸ h.goto nofun
  · rename_i id attempt onThread hp
    split at hres
    · cases hres
    · rename_i hended
      have hid : d.held = some id := by rw [Drain.held,hp]
      refine Option.some.inj hres ▸ h.goto fun _ _ a ha => ?_
      obtain ⟨rfl,k,hk⟩ := h.awaited r d hd hc id hid a ha
      rw [hp] at hk
      cases hk
      simp [ha] at hended
  · rename_i id attempt hp
    have hid : d.held = some id := by rw [Drain.held,hp]
    have hnone := h.no_threads hd hc hid (fun k hk => by rw [hp] at hk; cases hk)
    have hstarted : (w.started id).Solo := h.same_drains (fun _ ha => ha) rfl
    refine Option.some.inj hres ▸ hstarted.goto fun _ _ a ha => ?_
    rw [show (w.started id).threads = [] from hnone] at ha
    cases ha
  · cases hres

theorem Solo.advance {o : Outcome} (h : w.Solo) (hi : w.Inv) (hd : w.drain r = some d) (hc : d.cancelling = false)
    (hadv : w.advance cfg r d o = some w') : w'.Solo := by
  have hdone : ∀ id, (w.taskDone id).Solo := fun _ => h.same_drains (fun _ ha => ha) rfl
  have hnone : ∀ {id attempt : ℕ}, d.pc = .write id attempt → w.threads = [] := by
    intro id attempt hp
    have hid : d.held = some id := by rw [Drain.held,hp]
    exact h.no_threads hd hc hid fun k hk => by rw [hp] at hk; cases hk
  unfold DurabilityWorker.advance at hadv
  split at hadv
  · exact Option.some.inj hadv ▸ h.goto nofun
  · exact Option.some.inj hadv ▸ h.goto nofun
  · exact Option.some.inj hadv ▸ h.goto nofun
  · exact Option.some.inj hadv ▸ h.finish
  · exact Option.some.inj hadv ▸ h.finish
  · rename_i id attempt hp
    have hw := hnone hp
    refine Option.some.inj hadv ▸ ⟨fun a ha b hb => ?_,fun r' d' hd' hc' id' hid' a ha => ?_⟩
    · have ha : a ∈ w.threads ++ [id] := ha
      have hb : b ∈ w.threads ++ [id] := hb
      simp only [hw,List.nil_append,List.mem_singleton] at ha hb
      rw [ha,hb]
    · have ha : a ∈ w.threads ++ [id] := ha
      simp only [hw,List.nil_append,List.mem_singleton] at ha
      rw [drain_goto] at hd'
      split at hd'
      · cases hd'
        cases hid'
        exact ⟨ha,attempt,rfl⟩
      · rename_i hne
        exact absurd (hi.unique hd hc hd' hc') hne
  · rename_i hp
    refine Option.some.inj hadv ▸ h.goto fun _ _ a ha => ?_
    rw [hnone hp] at ha
    cases ha
  · rename_i id _ _
    have hlogged : (({ w with log := w.log ++ [.done id] } : DurabilityWorker).taskDone id).Solo :=
      h.same_drains (fun _ ha => ha) rfl
    exact Option.some.inj hadv ▸ hlogged.goto nofun
  · rename_i hp
    split at hadv
    · exact Option.some.inj hadv ▸ (hdone _).goto nofun
    · refine Option.some.inj hadv ▸ h.goto fun _ _ a ha => ?_
      rw [hnone hp] at ha
      cases ha
  · exact Option.some.inj hadv ▸ (hdone _).goto nofun
  · cases hadv

theorem Solo.step (h : w.Solo) (hi : w.Inv) (hg : w.ThreadsEnded a) (hw : w.step cfg a = some w') : w'.Solo := by
  cases stepped hw with
  | submit =>
    have hwait : (w.enqueue.wait w.nextId).Solo := h.same_drains (fun _ ha => ha) rfl
    exact hwait.kick
  | submitNowait =>
    have henqueue : w.enqueue.Solo := h.same_drains (fun _ ha => ha) rfl
    exact henqueue.kick
  | cancelSubmit => exact h.same_drains (fun _ ha => ha) rfl
  | drainToEmpty b => exact h.drainToEmpty
  | leave b =>
    have hleft : ({ w with released := w.released.erase b } : DurabilityWorker).Solo := h.same_drains (fun _ ha => ha) rfl
    cases b with
    | flush => exact hleft
    | aclose => exact hleft.cancel
  | leaveJoin => exact h.same_drains (fun _ ha => ha) rfl
  | leaveReleased => exact h.same_drains (fun _ ha => ha) rfl
  | cancel r => exact h.cancel
  | @unwind r d =>
    unfold DurabilityWorker.unwind
    split
    · exact h.finish
    · rename_i id _
      have hdone : (w.taskDone id).Solo := h.same_drains (fun _ ha => ha) rfl
      exact hdone.finish
  | resume hcur hd hc hres => exact h.resume hd hc hres
  | take => exact h.take hg
  | advance o hcur hd hadv => exact h.advance hi hd (current_cancelling hi hcur hd) hadv
  | threadDone => exact h.same_drains (fun _ ha => List.mem_of_mem_filter ha) rfl

/-- What the consumers have in hand is one write, and so is what runs on a thread. -/
theorem Solo.one (h : w.Solo) (hi : w.Inv) : ∀ a ∈ w.executing, ∀ b ∈ w.executing, a = b := by
  have hheld : ∀ {a : ℕ}, (a ∈ [Role.drainer,Role.inlineDrain].filterMap fun r =>
      (w.drain r).bind fun d => if d.cancelling then none else d.held) →
        ∃ r d, w.drain r = some d ∧ d.cancelling = false ∧ d.held = some a := by
    intro a ha
    obtain ⟨r,-,hr⟩ := List.mem_filterMap.mp ha
    obtain ⟨d,hd,hr⟩ := Option.bind_eq_some_iff.mp hr
    obtain ⟨hc,hid⟩ := Option.ite_none_left_eq_some.mp hr
    exact ⟨r,d,hd,Bool.not_eq_true _ ▸ hc,hid⟩
  intro a ha b hb
  rcases List.mem_append.mp ha with ha | ha
  · rcases List.mem_append.mp hb with hb | hb
    · exact h.same a ha b hb
    · obtain ⟨r,d,hd,hc,hid⟩ := hheld hb
      exact (h.awaited r d hd hc b hid a ha).1
  · obtain ⟨r,d,hd,hc,hid⟩ := hheld ha
    rcases List.mem_append.mp hb with hb | hb
    · exact (h.awaited r d hd hc a hid b hb).1.symm
    · obtain ⟨r',d',hd',hc',hid'⟩ := hheld hb
      obtain rfl := hi.unique hd hc hd' hc'
      rw [hd] at hd'
      cases hd'
      rw [hid] at hid'
      exact Option.some.inj hid'

end Solo

section Run
variable {w : DurabilityWorker} {cfg : WorkerConfig} {guard : DurabilityWorker → WorkerAction → Prop}

theorem logged_run (hr : Runs (step cfg) guard init w) : ∃ n, w.Logged n := by
  have hinit : init.Logged 0 := by
    refine ⟨rfl,Nat.le_refl _,fun i => ?_,nofun,fun r d id hd => ?_,List.Pairwise.nil,List.Pairwise.nil⟩
    · simp [init]
    · cases r <;> cases hd
  have hboth : w.Inv ∧ ∃ n, w.Logged n :=
    hr.invariant (I := fun w => w.Inv ∧ ∃ n, w.Logged n) ⟨Inv.init,0,hinit⟩
      fun _ _ _ ⟨hi,_,h⟩ _ hw => ⟨hi.step hw,h.step hi hw⟩
  exact hboth.2

/-- The order of the writes holds in every run; that they do not overlap, in every run where a thread has ended
before the next write is taken. -/
theorem serial_run (hr : Runs (step cfg) ThreadsEnded init w) : w.Serial := by
  have hinit : init.Solo := ⟨nofun,fun r d hd => by cases r <;> cases hd⟩
  have hboth : w.Inv ∧ w.Solo :=
    hr.invariant (I := fun w => w.Inv ∧ w.Solo) ⟨Inv.init,hinit⟩
      fun _ _ _ ⟨hi,h⟩ hg hw => ⟨hi.step hw,h.step hi hg hw⟩
  obtain ⟨n,hlog⟩ := logged_run hr
  refine ⟨hboth.2.one hboth.1,hlog.order,fun i j hj hle => ?_,hlog.noRestart⟩
  have hlt := (hlog.starts j).mp hj
  exact (hlog.starts i).mpr (by omega)

end Run

/-- Two writes; the consumer of the first is cancelled while its thread runs. -/
def cancelledWrite : List WorkerAction :=
  [.submitNowait,.submitNowait,.resume .drainer,.take,.advance .thread,.cancel .drainer,.unwind .drainer]

/-- The next write waits for the thread. -/
theorem serial_run_ended : ∃ w, Runs (step plainConfig) ThreadsEnded init w ∧ w.Serial ∧ w.log = [.start 0,.start 1] := by
  have hok : ∀ w a, (a ≠ .take || w.threads = []) = true → ThreadsEnded w a := by
    intro w a h
    cases a with
    | take => simpa [ThreadsEnded] using fun _ => h
    | _ => trivial
  have hlog : (runChecked (step plainConfig) (fun w a => a ≠ .take || w.threads = []) init
      (cancelledWrite ++ [.threadDone 0,.drainToEmpty .flush,.take])).map (·.log) = some [.start 0,.start 1] := by
    decide_cbv
  obtain ⟨w,hw,hl⟩ := Option.map_eq_some_iff.mp hlog
  have hrun : Runs (step plainConfig) ThreadsEnded init w := .of_runChecked (.refl _) hok hw
  exact ⟨w,hrun,serial_run hrun,hl⟩

/-- A flush right after the cancellation takes the next write while the thread of the first still runs. -/
theorem cancelled_write_overlaps : ¬ ∀ cfg w, Runs (step cfg) (fun _ _ => True) init w → w.Serial := by
  intro h
  have hrun : (runAll (step plainConfig) init (cancelledWrite ++ [.drainToEmpty .flush,.take,.advance .thread])).map
      (·.threads) = some [0,1] := by decide_cbv
  obtain ⟨w,hw,ht⟩ := Option.map_eq_some_iff.mp hrun
  have hserial := h plainConfig w (.of_runAll (.refl _) (fun _ _ _ => trivial) hw)
  have h0 : 0 ∈ w.executing := List.mem_append_left _ (by simp [ht])
  have h1 : 1 ∈ w.executing := List.mem_append_left _ (by simp [ht])
  exact absurd (hserial.one 0 h0 1 h1) (by decide)

end DurabilityWorker
end Reyn
