import Reyn.Events.DurabilityWorker
import Reyn.Lib.Runs

/-! # The consumers of the durability worker

At most one consumer is alive and not cancelled: an inline drain starts only when the
background task is not, and no task is started beside it.
-/
namespace Reyn
open Transition
namespace DurabilityWorker

/-- The consumers: one that is not cancelled is alone, and the one that runs is not cancelled. -/
structure Inv (w : DurabilityWorker) : Prop where
  exclusive : ∀ d, w.drainer = some d → d.cancelling = false → w.inlineDrain = none
  current : ∀ r, w.current = some r → ∃ d, w.drain r = some d ∧ d.cancelling = false ∧ d.pc.running = true
  running : ∀ r d, w.drain r = some d → d.pc.running = true → w.current = some r

section Ops
variable {w : DurabilityWorker} {r r' : Role} {d : Drain} {pc : Pc} {id : ℕ}

@[simp] theorem drain_setDrain (od : Option Drain) : (w.setDrain r od).drain r' = if r' = r then od else w.drain r' := by
  cases r <;> cases r' <;> rfl

@[simp] theorem drain_goto : (w.goto r d pc).drain r' = if r' = r then some { d with pc := pc } else w.drain r' :=
  drain_setDrain _

@[simp] theorem drain_finish : (w.finish r).drain r' = if r' = r then none else w.drain r' := drain_setDrain _

@[simp] theorem drain_cancel :
    (w.cancel r).drain r' = if r' = r then (w.drain r).map fun d => { d with cancelling := true } else w.drain r' :=
  drain_setDrain _

/-- Another state of the same consumers. -/
theorem drain_congr {w' : DurabilityWorker} (h : w'.drainer = w.drainer) (hi : w'.inlineDrain = w.inlineDrain) :
    w'.drain = w.drain := by
  funext r
  cases r
  · exact h
  · exact hi

/-- A consumer that is not cancelled is the only one. -/
theorem Inv.unique (h : w.Inv) {d' : Drain} (hd : w.drain r = some d) (hc : d.cancelling = false)
    (hd' : w.drain r' = some d') (hc' : d'.cancelling = false) : r' = r := by
  cases r with
  | drainer =>
    cases r' with
    | drainer => rfl
    | inlineDrain =>
      have hnone := h.exclusive d hd hc
      rw [show w.inlineDrain = some d' from hd'] at hnone
      cases hnone
  | inlineDrain =>
    cases r' with
    | inlineDrain => rfl
    | drainer =>
      have hnone := h.exclusive d' hd' hc'
      rw [show w.inlineDrain = some d from hd] at hnone
      cases hnone

/-- Only the consumers and the current task count. -/
theorem Inv.congr {w' : DurabilityWorker} (h : w.Inv) (hd : w'.drainer = w.drainer) (hi : w'.inlineDrain = w.inlineDrain)
    (hc : w'.current = w.current) : w'.Inv := by
  have hdrain := drain_congr hd hi
  refine ⟨?_,?_,?_⟩
  · rw [hd,hi]
    exact h.exclusive
  · rw [hc,hdrain]
    exact h.current
  · rw [hc,hdrain]
    exact h.running

/-- A consumer moves while every other is cancelled. -/
theorem inv_goto (hother : ∀ r' d', r' ≠ r → w.drain r' = some d' → d'.cancelling = true ∧ d'.pc.running = false)
    (hd : d.cancelling = false) (hnew : r = .drainer → w.inlineDrain = none) : (w.goto r d pc).Inv := by
  refine ⟨fun d' hd' hc' => ?_,fun r' hr' => ?_,fun r' d' hd' hrun => ?_⟩
  · have hdrainer : (w.goto r d pc).drain .drainer = some d' := hd'
    show (w.goto r d pc).drain .inlineDrain = none
    rw [drain_goto] at hdrainer ⊢
    cases r with
    | drainer => exact hnew rfl
    | inlineDrain =>
      have := (hother .drainer d' (by decide) hdrainer).1
      rw [hc'] at this
      cases this
  · have hcur : (if pc.running then some r else none) = some r' := hr'
    split at hcur
    · rename_i hrun
      cases hcur
      exact ⟨{ d with pc := pc },by simp,hd,hrun⟩
    · cases hcur
  · rw [drain_goto] at hd'
    show (if pc.running then some r else none) = some r'
    split at hd'
    · rename_i he
      cases hd'
      rw [if_pos hrun,he]
    · rename_i hne
      rw [(hother r' d' hne hd').2] at hrun
      cases hrun

/-- Beside a consumer that is not cancelled every other is cancelled and waits. -/
theorem Inv.others (h : w.Inv) (hd : w.drain r = some d) (hc : d.cancelling = false) :
    ∀ r' d', r' ≠ r → w.drain r' = some d' → d'.cancelling = true ∧ d'.pc.running = false := by
  intro r' d' hne hd'
  have hcancel : d'.cancelling = true := by
    by_contra hno
    exact hne (h.unique hd hc hd' (Bool.not_eq_true _ ▸ hno))
  refine ⟨hcancel,?_⟩
  by_contra hrun
  obtain ⟨d₀,hd₀,hc₀,-⟩ := h.current r' (h.running r' d' hd' (Bool.not_eq_false _ ▸ hrun))
  rw [hd'] at hd₀
  cases hd₀
  rw [hcancel] at hc₀
  cases hc₀

theorem Inv.goto_self {d' : Drain} (h : w.Inv) (hd : w.drain r = some d) (hc : d.cancelling = false)
    (hc' : d'.cancelling = false) : (w.goto r d' pc).Inv := by
  refine inv_goto (h.others hd hc) hc' ?_
  rintro rfl
  exact h.exclusive d hd hc

theorem Inv.finish (h : w.Inv) (hcur : ∀ r', w.current = some r' → r' = r) : (w.finish r).Inv := by
  refine ⟨fun d' hd' hc' => ?_,nofun,fun r' d' hd' hrun => ?_⟩
  · have hdrainer : (w.finish r).drain .drainer = some d' := hd'
    show (w.finish r).drain .inlineDrain = none
    rw [drain_finish] at hdrainer ⊢
    split at hdrainer
    · cases hdrainer
    · split
      · rfl
      · exact h.exclusive d' hdrainer hc'
  · rw [drain_finish] at hd'
    split at hd'
    · cases hd'
    · rename_i hne
      exact absurd (hcur r' (h.running r' d' hd' hrun)) hne

theorem Inv.cancel (h : w.Inv) (hcur : w.current = none) : (w.cancel r).Inv := by
  have hwait : ∀ r' d', w.drain r' = some d' → d'.pc.running = false := by
    intro r' d' hd'
    by_contra hrun
    have := h.running r' d' hd' (Bool.not_eq_false _ ▸ hrun)
    rw [hcur] at this
    cases this
  refine ⟨fun d' hd' hc' => ?_,fun r' hr' => ?_,fun r' d' hd' hrun => ?_⟩
  · have hdrainer : (w.cancel r).drain .drainer = some d' := hd'
    show (w.cancel r).drain .inlineDrain = none
    rw [drain_cancel] at hdrainer ⊢
    split at hdrainer
    · obtain ⟨d₀,-,rfl⟩ := Option.map_eq_some_iff.mp hdrainer
      cases hc'
    · have := h.exclusive d' hdrainer hc'
      split
      · rename_i he
        rw [← he]
        show w.inlineDrain.map _ = none
        rw [this]
        rfl
      · exact this
  · rw [show w.current = some r' from hr'] at hcur
    cases hcur
  · rw [drain_cancel] at hd'
    split at hd'
    · obtain ⟨d₀,hd₀,rfl⟩ := Option.map_eq_some_iff.mp hd'
      rename_i he
      rw [← he] at hd₀
      rw [hwait r' d₀ hd₀] at hrun
      cases hrun
    · rw [hwait r' d' hd'] at hrun
      cases hrun

theorem Inv.kick (h : w.Inv) (hcur : w.current = none) : w.kick.Inv := by
  unfold DurabilityWorker.kick
  split
  · exact h
  · rename_i hno
    simp only [Bool.or_eq_true,not_or,Option.not_isSome_iff_eq_none] at hno
    refine ⟨fun _ _ _ => hno.1,fun r' hr' => ?_,fun r' d' hd' hrun => ?_⟩
    · rw [show w.current = some r' from hr'] at hcur
      cases hcur
    · cases r' with
      | drainer =>
        cases hd'
        cases hrun
      | inlineDrain =>
        rw [show w.inlineDrain = some d' from hd'] at hno
        cases hno.1

theorem Inv.drainToEmpty {cfg : WorkerConfig} {b : Barrier} (h : w.Inv) (hcur : w.current = none) :
    (w.drainToEmpty cfg b).Inv := by
  have hjoin : (w.join b).Inv := by
    unfold DurabilityWorker.join
    split
    · exact h.congr rfl rfl rfl
    · exact h.congr rfl rfl rfl
  unfold DurabilityWorker.drainToEmpty
  split
  · exact h
  split
  · exact hjoin
  split
  · exact hjoin
  · rename_i hlive hinline
    refine inv_goto (fun r' d' hne hd' => ?_) rfl nofun
    cases r' with
    | inlineDrain => exact absurd rfl hne
    | drainer =>
      have hdrainer : w.drainer = some d' := hd'
      rw [hdrainer] at hlive
      refine ⟨by simpa using hlive,?_⟩
      by_contra hrun
      have := h.running .drainer d' hd' (Bool.not_eq_false _ ▸ hrun)
      rw [hcur] at this
      cases this

end Ops

section Step
variable {w w' : DurabilityWorker} {cfg : WorkerConfig} {a : WorkerAction} {r : Role} {d : Drain}

/-- Another state of the same consumers. -/
structure SameConsumers (v w : DurabilityWorker) : Prop where
  drainer : v.drainer = w.drainer
  inlineDrain : v.inlineDrain = w.inlineDrain
  current : v.current = w.current

theorem SameConsumers.drain {v : DurabilityWorker} (h : SameConsumers v w) : v.drain = w.drain :=
  drain_congr h.drainer h.inlineDrain

theorem SameConsumers.goto_inv {v : DurabilityWorker} {d' : Drain} {pc : Pc} (hv : SameConsumers v w) (h : w.Inv)
    (hd : w.drain r = some d) (hc : d.cancelling = false) (hc' : d'.cancelling = false) : (v.goto r d' pc).Inv := by
  have hinv : v.Inv := h.congr hv.drainer hv.inlineDrain hv.current
  exact hinv.goto_self (hv.drain ▸ hd) hc hc'

/-- At the head of the loop a consumer goes on, unless there is nothing left. -/
theorem take_cases : (∃ v d' pc, w.take cfg r d = v.goto r d' pc ∧ SameConsumers v w ∧ d'.cancelling = d.cancelling) ∨
    w.queue = [] ∧ w.take cfg r d = w.finish r := by
  unfold DurabilityWorker.take
  split
  · rename_i hq
    split
    · exact .inl ⟨_,_,_,rfl,⟨rfl,rfl,rfl⟩,rfl⟩
    · exact .inr ⟨hq,rfl⟩
  · split
    · exact .inl ⟨_,_,_,rfl,⟨rfl,rfl,rfl⟩,rfl⟩
    · exact .inl ⟨_,_,_,rfl,⟨rfl,rfl,rfl⟩,rfl⟩

/-- A consumer goes on, unless its start hook has failed. -/
theorem advance_cases {o : Outcome} (h : w.advance cfg r d o = some w') :
    (∃ v pc, w' = v.goto r d pc ∧ SameConsumers v w) ∨ d.pc = .hook ∧ (o = .osError ∨ o = .error) ∧ w' = w.finish r := by
  unfold DurabilityWorker.advance at h
  split at h
  case h_4 hpc => exact .inr ⟨hpc,.inl rfl,(Option.some.inj h).symm⟩
  case h_5 hpc => exact .inr ⟨hpc,.inr rfl,(Option.some.inj h).symm⟩
  case h_9 =>
    split at h
    · exact .inl ⟨_,_,(Option.some.inj h).symm,⟨rfl,rfl,rfl⟩⟩
    · exact .inl ⟨_,_,(Option.some.inj h).symm,⟨rfl,rfl,rfl⟩⟩
  case h_11 => cases h
  all_goals exact .inl ⟨_,_,(Option.some.inj h).symm,⟨rfl,rfl,rfl⟩⟩

theorem resume_cases (h : w.resume cfg r d = some w') : ∃ v pc, w' = v.goto r d pc ∧ SameConsumers v w := by
  unfold DurabilityWorker.resume at h
  split at h
  case h_3 =>
    split at h
    · cases h
    · exact ⟨_,_,(Option.some.inj h).symm,⟨rfl,rfl,rfl⟩⟩
  case h_5 => cases h
  all_goals exact ⟨_,_,(Option.some.inj h).symm,⟨rfl,rfl,rfl⟩⟩

theorem unwind_eq : ∃ v, w.unwind r d = v.finish r ∧ SameConsumers v w := by
  unfold DurabilityWorker.unwind
  split
  · exact ⟨_,rfl,⟨rfl,rfl,rfl⟩⟩
  · exact ⟨_,rfl,⟨rfl,rfl,rfl⟩⟩

theorem current_cancelling (h : w.Inv) (hcur : w.current = some r) (hd : w.drain r = some d) : d.cancelling = false := by
  obtain ⟨d₀,hd₀,hc₀,-⟩ := h.current r hcur
  rw [hd] at hd₀
  cases hd₀
  exact hc₀

/-- What one action does, with what it needs. -/
inductive Stepped (cfg : WorkerConfig) (w : DurabilityWorker) : WorkerAction → DurabilityWorker → Prop
  | submit : w.current = none → Stepped cfg w .submit (w.enqueue.wait w.nextId).kick
  | submitNowait : w.current = none → Stepped cfg w .submitNowait w.enqueue.kick
  | cancelSubmit (id : ℕ) : Stepped cfg w (.cancelSubmit id) { w with waiting := w.waiting.filter (· ≠ id) }
  | drainToEmpty (b : Barrier) : w.current = none → Stepped cfg w (.drainToEmpty b) (w.drainToEmpty cfg b)
  | leave (b : Barrier) : w.current = none → Stepped cfg w (.leave b) (w.leave b)
  | leaveJoin (b : Barrier) : Stepped cfg w (.cancelJoin b false) { w with joining := w.joining.erase b }
  | leaveReleased (b : Barrier) : Stepped cfg w (.cancelJoin b true) { w with released := w.released.erase b }
  | cancel (r : Role) : w.current = none → Stepped cfg w (.cancel r) (w.cancel r)
  | unwind {r : Role} {d : Drain} : w.current = none → w.drain r = some d → d.cancelling = true →
      Stepped cfg w (.unwind r) (w.unwind r d)
  | resume {r : Role} {d : Drain} {w' : DurabilityWorker} : w.current = none → w.drain r = some d →
      d.cancelling = false → w.resume cfg r d = some w' → Stepped cfg w (.resume r) w'
  | take {r : Role} {d : Drain} : w.current = some r → w.drain r = some d → d.pc = .top →
      Stepped cfg w .take (w.take cfg r d)
  | advance {r : Role} {d : Drain} {w' : DurabilityWorker} (o : Outcome) : w.current = some r → w.drain r = some d →
      w.advance cfg r d o = some w' → Stepped cfg w (.advance o) w'
  | threadDone (id : ℕ) : Stepped cfg w (.threadDone id) { w with threads := w.threads.filter (· ≠ id) }

theorem stepped (h : w.step cfg a = some w') : Stepped cfg w a w' := by
  unfold DurabilityWorker.step at h
  split at h
  case h_1 =>
    split at h
    · cases h
    · rename_i r hcur
      split at h
      · rename_i d hd
        split at h
        · rename_i htop
          exact Option.some.inj h ▸ .take hcur hd htop
        · cases h
      · cases h
  case h_2 o =>
    split at h
    · cases h
    · rename_i r hcur
      obtain ⟨d,hd,h⟩ := Option.bind_eq_some_iff.mp h
      exact .advance o hcur hd h
  case h_3 id =>
    split at h
    · exact Option.some.inj h ▸ .threadDone id
    · cases h
  case h_13 r =>
    split at h
    · rename_i hcur
      split at h
      · rename_i d hd
        split at h
        · cases h
        · rename_i hc
          exact .resume hcur hd (Bool.not_eq_true _ ▸ hc) h
      · cases h
    · cases h
  case h_12 r =>
    split at h
    · rename_i hcur
      split at h
      · rename_i d hd
        split at h
        · rename_i hc
          exact Option.some.inj h ▸ .unwind hcur hd hc
        · cases h
      · cases h
    · cases h
  all_goals
    split at h
    · rename_i hcur
      obtain rfl := Option.some.inj h
      first
        | exact .submit hcur
        | exact .submitNowait hcur
        | exact .cancelSubmit _
        | exact .drainToEmpty _ hcur
        | exact .leave _ hcur.1
        | exact .leaveJoin _
        | exact .leaveReleased _
        | exact .cancel _ hcur.1
    · cases h

theorem Inv.finish_self (h : w.Inv) {v : DurabilityWorker} (hv : SameConsumers v w)
    (hcur : ∀ r', w.current = some r' → r' = r) : (v.finish r).Inv := by
  refine (h.congr hv.drainer hv.inlineDrain hv.current).finish ?_
  rw [hv.current]
  exact hcur

theorem Inv.step (h : w.Inv) (hw : w.step cfg a = some w') : w'.Inv := by
  cases stepped hw with
  | submit hcur =>
    have hwait : (w.enqueue.wait w.nextId).Inv := h.congr rfl rfl rfl
    exact hwait.kick hcur
  | submitNowait hcur =>
    have henqueue : w.enqueue.Inv := h.congr rfl rfl rfl
    exact henqueue.kick hcur
  | cancelSubmit => exact h.congr rfl rfl rfl
  | drainToEmpty b hcur => exact h.drainToEmpty hcur
  | leave b hcur =>
    cases b with
    | flush => exact h.congr rfl rfl rfl
    | aclose =>
      have hleft : ({ w with released := w.released.erase .aclose } : DurabilityWorker).Inv := h.congr rfl rfl rfl
      exact hleft.cancel hcur
  | leaveJoin => exact h.congr rfl rfl rfl
  | leaveReleased => exact h.congr rfl rfl rfl
  | cancel r hcur => exact h.cancel hcur
  | @unwind r d hcur hd hc =>
    obtain ⟨v,he,hv⟩ := unwind_eq (w := w) (r := r) (d := d)
    rw [he]
    refine h.finish_self hv fun r' hr' => ?_
    rw [hcur] at hr'
    cases hr'
  | resume hcur hd hc hres =>
    obtain ⟨v,pc,rfl,hv⟩ := resume_cases hres
    exact hv.goto_inv h hd hc hc
  | @take r d hcur hd htop =>
    have hc := current_cancelling h hcur hd
    rcases take_cases (w := w) (r := r) (d := d) with ⟨v,d',pc,he,hv,hd'⟩ | ⟨-,he⟩
    · rw [he]
      exact hv.goto_inv h hd hc (hd'.trans hc)
    · rw [he]
      refine h.finish fun r' hr' => ?_
      rw [hcur] at hr'
      exact (Option.some.inj hr').symm
  | advance o hcur hd hadv =>
    have hc := current_cancelling h hcur hd
    obtain ⟨v,pc,rfl,hv⟩ | ⟨-,-,rfl⟩ := advance_cases hadv
    · exact hv.goto_inv h hd hc hc
    · refine h.finish fun r' hr' => ?_
      rw [hcur] at hr'
      exact (Option.some.inj hr').symm
  | threadDone => exact h.congr rfl rfl rfl

end Step

section Run
variable {w : DurabilityWorker} {cfg : WorkerConfig} {guard : DurabilityWorker → WorkerAction → Prop}

theorem Inv.init : DurabilityWorker.init.Inv := by
  refine ⟨nofun,nofun,fun r d hd => ?_⟩
  cases r
  · cases hd
  · cases hd

theorem inv_run (hr : Runs (DurabilityWorker.step cfg) guard DurabilityWorker.init w) : w.Inv :=
  hr.invariant Inv.init fun _ _ _ h _ hw => h.step hw

end Run
end DurabilityWorker
end Reyn
