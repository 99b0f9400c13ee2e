import Reyn.Pipeline.FanOut

/-! # What an aborting fan-out keeps

The coordinator has the finished tasks handed to it one after the other. Until it raises,
every success is recorded, in hand or waiting; what waits when it raises is lost.
-/
namespace Reyn.FanOut
open Py Transition

section Invariant
variable {V : Type} {c : Config} {s s' : State V} {item : ℕ}

/-- The item's result is in no snapshot and not in the shared map. -/
structure Unrecorded (s : State V) (item : ℕ) : Prop where
  box : ∀ k value, s.box.get? k ≠ some (.result item value)
  generations : ∀ g ∈ s.generations, ∀ k value, g.get? k ≠ some (.result item value)

/-- The item's result, as its own, in a snapshot handed to the log. -/
def Recorded (c : Config) (s : State V) (item : ℕ) (value : V) : Prop :=
  ∃ g ∈ s.generations, g.get? (c.key item) = some (.result item value)

def Finished (s : State V) (item : ℕ) : Prop := ∃ outcome, s.tasks[item]? = some (.finished outcome)

/-- While the coordinator has not raised, a successful result is recorded, or its item is being
recorded, or it waits to be taken; and in the last two cases it is recorded nowhere. -/
structure Inv (c : Config) (s : State V) : Prop where
  queued : ∀ i ∈ s.done, Finished s i
  nodup : s.done.Nodup
  current : ∀ i, s.phase = .locking i ∨ s.phase = .recording i → i ∉ s.done ∧ Finished s i
  fresh : ∀ i, ¬Finished s i ∨ i ∈ s.done ∨ s.phase = .locking i → Unrecorded s i
  held : ∀ i, s.phase = .recording i → s.lock = some .coordinator ∧
    (∀ g ∈ s.generations, ∀ k value, g.get? k ≠ some (.result i value)) ∧
    ∀ value, s.tasks[i]? = some (.finished (.success value)) → s.box.get? (c.key i) = some (.result i value)
  kept : ∀ (i : ℕ) (value : V), s.tasks[i]? = some (.finished (.success value)) →
    i ∈ s.done ∨ s.phase = .locking i ∨ s.phase = .recording i ∨ Recorded c s i value

theorem Inv.start (permits : Option ℕ) (before : Dict String V) : Inv c (start c permits before) := by
  have hwaiting : ∀ (i : ℕ) (outcome : Outcome V), (FanOut.start c permits before).tasks[i]? ≠ some (.finished outcome) := by
    intro i outcome h
    obtain ⟨hi,he⟩ := List.getElem?_eq_some_iff.mp h
    simp [FanOut.start] at he
  have hphase : ∀ i, (FanOut.start c permits before).phase ≠ .locking i ∧
      (FanOut.start c permits before).phase ≠ .recording i := by
    intro i
    unfold FanOut.start
    dsimp only
    split <;> exact ⟨nofun,nofun⟩
  refine ⟨nofun,List.nodup_nil,?_,?_,?_,?_⟩
  · rintro i (h | h)
    · exact absurd h (hphase i).1
    · exact absurd h (hphase i).2
  · intro i _
    refine ⟨fun k value h => ?_,nofun⟩
    rw [FanOut.start,Dict.get?_mapVal] at h
    obtain ⟨v,-,he⟩ := Option.map_eq_some_iff.mp h
    cases he
  · exact fun i h => absurd h (hphase i).2
  · exact fun i value h => absurd h (hwaiting i _)

/-- A task that has not finished, and still has not, changes the outcome of none. -/
theorem finished_set_task {tasks : List (ItemTask V)} {t t' : ItemTask V} (h : tasks[item]? = some t)
    (hn : ∀ o : Outcome V, t ≠ .finished o) (hn' : ∀ o : Outcome V, t' ≠ .finished o) (i : ℕ) (o : Outcome V) :
    (tasks.set item t')[i]? = some (.finished o) ↔ tasks[i]? = some (.finished o) := by
  rw [getElem?_set_task h]
  split
  · rename_i he
    subst he
    rw [h]
    exact iff_of_false (fun he => hn' o (Option.some.inj he)) (fun he => hn o (Option.some.inj he))
  · rfl

theorem Aside.unrecorded (a : Aside s s') {i : ℕ} (h : Unrecorded s i) : Unrecorded s' i := by
  refine ⟨fun k value hk => h.box k value (a.box k i value hk),fun g hg => ?_⟩
  rcases a.cases_generations hg with hg | rfl
  · exact h.generations g hg
  · exact h.box

theorem Aside.recorded (a : Aside s s') {i : ℕ} {value : V} (h : Recorded c s i value) : Recorded c s' i value := by
  obtain ⟨g,hg,hv⟩ := h
  exact ⟨g,a.kept hg,hv⟩

/-- A task goes on without finishing. -/
theorem Inv.progress (h : Inv c s) (a : Aside s s')
    (hfinished : ∀ (i : ℕ) (o : Outcome V), s'.tasks[i]? = some (.finished o) ↔ s.tasks[i]? = some (.finished o))
    (hdone : s'.done = s.done) : Inv c s' := by
  have hiff : ∀ i, Finished s' i ↔ Finished s i := fun i => exists_congr (hfinished i)
  refine ⟨?_,hdone ▸ h.nodup,?_,?_,?_,?_⟩
  · exact fun i hi => (hiff i).mpr (h.queued i (hdone ▸ hi))
  · intro i hi
    rw [a.phase] at hi
    rw [hdone,hiff]
    exact h.current i hi
  · intro i hi
    rw [hiff,hdone,a.phase] at hi
    exact a.unrecorded (h.fresh i hi)
  · intro i hi
    rw [a.phase] at hi
    obtain ⟨hheld,hgens,hvalue⟩ := h.held i hi
    obtain ⟨hl,hb,hg⟩ := a.lock hheld
    rw [hl,hg,hb]
    exact ⟨hheld,hgens,fun value hv => hvalue value ((hfinished i _).mp hv)⟩
  · intro i value hv
    rw [hdone,a.phase]
    exact (h.kept i value ((hfinished i _).mp hv)).imp_right (Or.imp_right (Or.imp_right a.recorded))

/-- A task finishes and is queued. -/
theorem Inv.finish (h : Inv c s) (a : Aside s s') {left : ℕ} {forwarded : List String} {outcome : Outcome V}
    (ht : s.tasks[item]? = some (.running left forwarded)) (htasks : s'.tasks = s.tasks.set item (.finished outcome))
    (hdone : s'.done = s.done ++ [item]) : Inv c s' := by
  have hnot : ¬Finished s item := by
    rintro ⟨o,ho⟩
    rw [ht] at ho
    cases ho
  have hother : ∀ i, i ≠ item → s'.tasks[i]? = s.tasks[i]? := by
    intro i hi
    rw [htasks,getElem?_set_task ht,if_neg hi]
  have hitem : s'.tasks[item]? = some (.finished outcome) := by
    rw [htasks,getElem?_set_task ht,if_pos rfl]
  have hcurrent : ∀ i, s.phase = .locking i ∨ s.phase = .recording i → i ≠ item := by
    rintro i hi rfl
    exact hnot (h.current i hi).2
  have hfinished : ∀ i, Finished s i → Finished s' i := by
    rintro i ⟨o,ho⟩
    have hi : i ≠ item := by
      rintro rfl
      exact hnot ⟨o,ho⟩
    exact ⟨o,(hother i hi).trans ho⟩
  have hmem : ∀ i, i ∈ s'.done ↔ i ∈ s.done ∨ i = item := by
    intro i
    rw [hdone,List.mem_append,List.mem_singleton]
  refine ⟨?_,?_,?_,?_,?_,?_⟩
  · intro i hi
    rcases (hmem i).mp hi with hi | rfl
    · exact hfinished i (h.queued i hi)
    · exact ⟨outcome,hitem⟩
  · rw [hdone]
    refine h.nodup.append (List.nodup_singleton item) ?_
    intro i hi hi'
    rw [List.mem_singleton.mp hi'] at hi
    exact hnot (h.queued item hi)
  · intro i hi
    rw [a.phase] at hi
    obtain ⟨hqueue,hfin⟩ := h.current i hi
    rw [hmem]
    exact ⟨not_or.mpr ⟨hqueue,hcurrent i hi⟩,hfinished i hfin⟩
  · intro i hi
    apply a.unrecorded
    by_cases he : i = item
    · exact h.fresh i (.inl (he ▸ hnot))
    · rcases hi with hi | hi | hi
      · exact h.fresh i (.inl fun hf => hi (hfinished i hf))
      · exact h.fresh i (.inr (.inl (((hmem i).mp hi).resolve_right he)))
      · exact h.fresh i (.inr (.inr (a.phase ▸ hi)))
  · intro i hi
    rw [a.phase] at hi
    obtain ⟨hheld,hgens,hvalue⟩ := h.held i hi
    obtain ⟨hl,hb,hg⟩ := a.lock hheld
    rw [hl,hg,hb,hother i (hcurrent i (.inr hi))]
    exact ⟨hheld,hgens,hvalue⟩
  · intro i value hv
    rw [hmem,a.phase]
    by_cases he : i = item
    · exact .inl (.inr he)
    · rw [hother i he] at hv
      rcases h.kept i value hv with hk | hk | hk | hk
      · exact .inl (.inl hk)
      · exact .inr (.inl hk)
      · exact .inr (.inr (.inl hk))
      · exact .inr (.inr (.inr (a.recorded hk)))

/-- The coordinator takes the first finished task. -/
theorem Inv.take (h : Inv c s) (hs : step c s .take = some s') (hc : s'.phase ≠ .cancelling) : Inv c s' := by
  simp only [FanOut.step] at hs
  split at hs
  case h_2 => cases hs
  rename_i head rest hphase hdone
  split at hs
  case h_2 => cases hs
  rename_i outcome ht
  obtain rfl := (Option.some.inj hs).symm
  have hlocking : (if (cellOf c head outcome).isSome then Phase.locking head else .cancelling) = .locking head := by
    by_cases hcell : (cellOf c head outcome).isSome
    · rw [if_pos hcell]
    · exact absurd (if_neg hcell) hc
  have hnodup := h.nodup
  rw [hdone] at hnodup
  obtain ⟨hhead,hrest⟩ := List.nodup_cons.mp hnodup
  have hmem : ∀ i, i ∈ rest → i ∈ s.done := fun i hi => hdone ▸ List.mem_cons_of_mem _ hi
  have hmem' : head ∈ s.done := hdone ▸ List.mem_cons_self
  refine ⟨fun i hi => h.queued i (hmem i hi),hrest,?_,?_,?_,?_⟩ <;> dsimp only <;> rw [hlocking]
  · rintro i (hi | hi)
    · cases hi
      exact ⟨hhead,outcome,ht⟩
    · cases hi
  · rintro i (hi | hi | hi)
    · exact ⟨(h.fresh i (.inl hi)).box,(h.fresh i (.inl hi)).generations⟩
    · exact ⟨(h.fresh i (.inr (.inl (hmem i hi)))).box,(h.fresh i (.inr (.inl (hmem i hi)))).generations⟩
    · cases hi
      exact ⟨(h.fresh head (.inr (.inl hmem'))).box,(h.fresh head (.inr (.inl hmem'))).generations⟩
  · intro i hi
    cases hi
  · intro i value hv
    rcases h.kept i value hv with hk | hk | hk | hk
    · rw [hdone] at hk
      rcases List.mem_cons.mp hk with rfl | hk
      · exact .inr (.inl rfl)
      · exact .inl hk
    · rw [hphase] at hk
      cases hk
    · rw [hphase] at hk
      cases hk
    · exact .inr (.inr (.inr hk))

/-- The coordinator takes the lock and writes the item's cell. -/
theorem Inv.acquire (h : Inv c s) (hs : step c s .acquire = some s') : Inv c s' := by
  simp only [FanOut.step] at hs
  split at hs
  case h_2 => cases hs
  rename_i item hphase
  split at hs
  case h_2 => cases hs
  rename_i outcome ht
  obtain ⟨hlock,hs⟩ := Option.ite_none_right_eq_some.mp hs
  obtain ⟨cell,hcell,rfl⟩ := Option.map_eq_some_iff.mp hs
  obtain ⟨hqueue,hfin⟩ := h.current item (.inl hphase)
  have hown : ∀ i value, cell = .result i value → i = item ∧ outcome = .success value := by
    rintro i value rfl
    unfold cellOf at hcell
    split at hcell
    · cases hcell
      exact ⟨rfl,rfl⟩
    · split at hcell <;> cases hcell
    · cases hcell
  refine ⟨h.queued,h.nodup,?_,?_,?_,?_⟩
  · rintro i (hi | hi)
    · cases hi
    · cases hi
      exact ⟨hqueue,hfin⟩
  · intro i hi
    have hne : i ≠ item := by
      rintro rfl
      rcases hi with hi | hi | hi
      · exact hi hfin
      · exact hqueue hi
      · cases hi
    have hu : Unrecorded s i := by
      rcases hi with hi | hi | hi
      · exact h.fresh i (.inl hi)
      · exact h.fresh i (.inr (.inl hi))
      · cases hi
    refine ⟨fun k value hk => ?_,hu.generations⟩
    dsimp only at hk
    rw [Dict.get?_set] at hk
    split at hk
    · exact hne (hown i value (Option.some.inj hk)).1
    · exact hu.box k value hk
  · intro i hi
    cases hi
    refine ⟨rfl,(h.fresh item (.inr (.inr hphase))).generations,fun value hv => ?_⟩
    have hsuccess : outcome = .success value := ItemTask.finished.inj (Option.some.inj (ht.symm.trans hv))
    subst hsuccess
    dsimp only
    rw [Dict.get?_set_self]
    exact hcell.symm
  · intro i value hv
    rcases h.kept i value hv with hk | hk | hk | hk
    · exact .inl hk
    · rw [hphase] at hk
      cases hk
      exact .inr (.inr (.inl rfl))
    · rw [hphase] at hk
      cases hk
    · exact .inr (.inr (.inr hk))

/-- The item's snapshot is handed to the log. -/
theorem Inv.recorded (h : Inv c s) (hs : step c s .recorded = some s') : Inv c s' := by
  simp only [FanOut.step] at hs
  split at hs
  case h_2 => cases hs
  rename_i item hphase
  obtain rfl := (Option.some.inj hs).symm
  obtain ⟨hqueue,hfin⟩ := h.current item (.inr hphase)
  obtain ⟨hlock,hgens,hvalue⟩ := h.held item hphase
  have hnext : ∀ i, ¬((if s.taken = c.keys.length then Phase.collecting else .consuming) = .locking i) ∧
      ¬((if s.taken = c.keys.length then Phase.collecting else .consuming) = .recording i) := by
    intro i
    split <;> exact ⟨Phase.noConfusion,Phase.noConfusion⟩
  refine ⟨h.queued,h.nodup,?_,?_,?_,?_⟩
  · rintro i (hi | hi)
    · exact absurd hi (hnext i).1
    · exact absurd hi (hnext i).2
  · intro i hi
    have hu : Unrecorded s i := by
      rcases hi with hi | hi | hi
      · exact h.fresh i (.inl hi)
      · exact h.fresh i (.inr (.inl hi))
      · exact absurd hi (hnext i).1
    refine ⟨hu.box,fun g hg => ?_⟩
    rcases List.mem_append.mp hg with hg | hg
    · exact hu.generations g hg
    · rw [List.mem_singleton.mp hg]
      exact hu.box
  · exact fun i hi => absurd hi (hnext i).2
  · intro i value hv
    have hkept : ∀ {g : Results V}, g ∈ s.generations → g ∈ s.generations ++ [s.box] := List.mem_append_left _
    rcases h.kept i value hv with hk | hk | hk | hk
    · exact .inl hk
    · rw [hphase] at hk
      cases hk
    · rw [hphase] at hk
      cases hk
      exact .inr (.inr (.inr ⟨s.box,List.mem_append_right _ List.mem_cons_self,hvalue value hv⟩))
    · obtain ⟨g,hg,hk⟩ := hk
      exact .inr (.inr (.inr ⟨g,hkept hg,hk⟩))

/-- One step that does not make the coordinator raise keeps the invariant. -/
theorem Inv.step {a : Action V} (h : Inv c s) (hs : step c s a = some s') (hc : s'.phase ≠ .cancelling) : Inv c s' := by
  cases ha : a.ofTask with
  | true =>
    obtain ⟨haside,⟨htasks,-,hdone⟩ | ⟨item,t,t',ht,htasks,hmove,hdone,-⟩⟩ := step_ofTask ha hs
    · exact h.progress haside (fun i o => htasks ▸ Iff.rfl) hdone
    · generalize s.permits = p, s'.permits = p' at hmove
      cases hmove with
      | finish outcome => exact h.finish haside ht htasks hdone
      | _ => exact h.progress haside (htasks ▸ finished_set_task ht nofun nofun) (hdone.trans (List.append_nil _))
  | false =>
    cases a with
    | take => exact h.take hs hc
    | acquire => exact h.acquire hs
    | recorded => exact h.recorded hs
    | recordFails =>
      simp only [FanOut.step] at hs
      split at hs
      · obtain rfl := (Option.some.inj hs).symm
        exact absurd rfl hc
      · cases hs
    | cancel landed =>
      simp only [FanOut.step] at hs
      split at hs
      · obtain rfl := (Option.some.inj hs).symm
        exact absurd rfl hc
      · obtain rfl := (Option.some.inj hs).symm
        exact absurd rfl hc
      · obtain rfl := (Option.some.inj hs).symm
        exact absurd rfl hc
      · cases hs
    | _ => cases ha

theorem Inv.of_runs {permits : Option ℕ} {before : Dict String V}
    (run : Runs (FanOut.step c) (fun _ _ => True) (FanOut.start c permits before) s) (hp : s.phase ≠ .cancelling) :
    Inv c s := by
  induction run with
  | refl => exact Inv.start permits before
  | step run _ hs ih =>
    refine (ih fun hcancelling => ?_).step hs hp
    exact hp ((step_aside hcancelling hs).phase.trans hcancelling)

/-- Every key of a snapshot is in the latest one, and in the shared map. -/
def Lasting (s : State V) : Prop :=
  ∀ k, (∃ g ∈ s.generations, (g.get? k).isSome) →
    (s.box.get? k).isSome ∧ ∃ g, s.generations.getLast? = some g ∧ (g.get? k).isSome

theorem Lasting.step {a : Action V} (h : Lasting s) (hs : FanOut.step c s a = some s') : Lasting s' := by
  obtain ⟨hkeys,hsame | happend⟩ := step_generations hs
  · intro k hk
    rw [hsame] at hk ⊢
    exact ⟨hkeys k (h k hk).1,(h k hk).2⟩
  · intro k hk
    have hbox : (s.box.get? k).isSome := by
      obtain ⟨g,hg,hk⟩ := hk
      rw [happend] at hg
      rcases List.mem_append.mp hg with hg | hg
      · exact (h k ⟨g,hg,hk⟩).1
      · exact List.mem_singleton.mp hg ▸ hk
    rw [happend,List.getLast?_concat]
    exact ⟨hkeys k hbox,s.box,rfl,hbox⟩

theorem Lasting.of_runs {permits : Option ℕ} {before : Dict String V}
    (run : Runs (FanOut.step c) (fun _ _ => True) (start c permits before) s) : Lasting s := by
  apply run.invariant (I := Lasting)
  · rintro k ⟨g,hg,-⟩
    cases hg
  · exact fun s a t h _ hs => h.step hs

/-- The items whose results are not with the log if this step makes the coordinator raise: what
waits to be taken, and the item it has in hand unless its snapshot lands. -/
def State.lostBy (s : State V) (a : Action V) : List ℕ :=
  match s.phase, a with
  | .recording _, .cancel true => s.done
  | .recording item, _ => item :: s.done
  | .locking item, _ => item :: s.done
  | _, _ => s.done

/-- Where the coordinator raises with the snapshots as they are, a success is recorded exactly if it
neither waits to be taken nor is in hand. -/
theorem Inv.recorded_iff (h : Inv c s) (hg : s'.generations = s.generations) {lost : List ℕ}
    (hlost : ∀ i, i ∈ lost ↔ i ∈ s.done ∨ s.phase = .locking i ∨ s.phase = .recording i) :
    (∀ (i : ℕ) (value : V), s.tasks[i]? = some (.finished (.success value)) → Recorded c s' i value) ↔
      ∀ i ∈ lost, ∀ value : V, s.tasks[i]? ≠ some (.finished (.success value)) := by
  constructor
  · intro hall i hi value hv
    obtain ⟨g,hgen,hk⟩ := hall i value hv
    rw [hg] at hgen
    rcases (hlost i).mp hi with hi | hi | hi
    · exact (h.fresh i (.inr (.inl hi))).generations g hgen _ value hk
    · exact (h.fresh i (.inr (.inr hi))).generations g hgen _ value hk
    · exact (h.held i hi).2.1 g hgen _ value hk
  · intro hnone i value hv
    rcases h.kept i value hv with hk | hk | hk | ⟨g,hgen,hk⟩
    · exact absurd hv (hnone i ((hlost i).mpr (.inl hk)) value)
    · exact absurd hv (hnone i ((hlost i).mpr (.inr (.inl hk))) value)
    · exact absurd hv (hnone i ((hlost i).mpr (.inr (.inr hk))) value)
    · exact ⟨g,hg ▸ hgen,hk⟩

/-- A cancelled coordinator whose snapshot lands all the same loses only what waits to be taken. -/
theorem Inv.recorded_iff_landed (h : Inv c s) (hp : s.phase = .recording item) (hg : s'.generations = s.generations ++ [s.box]) :
    (∀ (i : ℕ) (value : V), s.tasks[i]? = some (.finished (.success value)) → Recorded c s' i value) ↔
      ∀ i ∈ s.done, ∀ value : V, s.tasks[i]? ≠ some (.finished (.success value)) := by
  constructor
  · intro hall i hi value hv
    obtain ⟨g,hgen,hk⟩ := hall i value hv
    have hu : Unrecorded s i := h.fresh i (.inr (.inl hi))
    rw [hg] at hgen
    rcases List.mem_append.mp hgen with hgen | hgen
    · exact hu.generations g hgen _ value hk
    · rw [List.mem_singleton.mp hgen] at hk
      exact hu.box _ value hk
  · intro hnone i value hv
    rcases h.kept i value hv with hk | hk | hk | ⟨g,hgen,hk⟩
    · exact absurd hv (hnone i hk value)
    · rw [hp] at hk
      cases hk
    · exact ⟨s.box,hg ▸ List.mem_append_right _ List.mem_cons_self,(h.held i hk).2.2 value hv⟩
    · exact ⟨g,hg ▸ List.mem_append_left _ hgen,hk⟩

/-- How the coordinator comes to raise: it has written nothing new, and at most the snapshot it was
about to hand over still lands. -/
theorem raised_cases {a : Action V} (hs : step c s a = some s') (hp : s.phase ≠ .cancelling) (hp' : s'.phase = .cancelling) :
    s'.box = s.box ∧
      (s'.generations = s.generations ∧
          (∀ i, i ∈ s.lostBy a ↔ i ∈ s.done ∨ s.phase = .locking i ∨ s.phase = .recording i) ∨
        s'.generations = s.generations ++ [s.box] ∧ (∃ item, s.phase = .recording item) ∧ s.lostBy a = s.done) := by
  have hcoordinator : a.ofTask = false := by
    by_contra ha
    exact hp ((step_ofTask (Bool.not_eq_false _ ▸ ha) hs).aside.phase.symm.trans hp')
  cases a with
  | take =>
    simp only [step] at hs
    split at hs
    case h_2 => cases hs
    rename_i hphase _
    split at hs
    case h_2 => cases hs
    obtain rfl := (Option.some.inj hs).symm
    refine ⟨rfl,.inl ⟨rfl,?_⟩⟩
    simp [State.lostBy,hphase]
  | acquire =>
    simp only [step] at hs
    split at hs
    case h_2 => cases hs
    split at hs
    case h_2 => cases hs
    obtain ⟨-,hs⟩ := Option.ite_none_right_eq_some.mp hs
    obtain ⟨cell,-,rfl⟩ := Option.map_eq_some_iff.mp hs
    cases hp'
  | recorded =>
    simp only [step] at hs
    split at hs
    case h_2 => cases hs
    obtain rfl := (Option.some.inj hs).symm
    dsimp only at hp'
    split at hp' <;> cases hp'
  | recordFails =>
    simp only [step] at hs
    split at hs
    case h_2 => cases hs
    rename_i hphase
    obtain rfl := (Option.some.inj hs).symm
    refine ⟨rfl,.inl ⟨rfl,?_⟩⟩
    simp [State.lostBy,hphase,or_comm,eq_comm]
  | cancel landed =>
    simp only [step] at hs
    split at hs
    · rename_i hphase
      obtain rfl := (Option.some.inj hs).symm
      refine ⟨rfl,.inl ⟨rfl,?_⟩⟩
      simp [State.lostBy,hphase]
    · rename_i hphase
      obtain rfl := (Option.some.inj hs).symm
      refine ⟨rfl,.inl ⟨rfl,?_⟩⟩
      simp [State.lostBy,hphase,or_comm,eq_comm]
    · rename_i item hphase
      obtain rfl := (Option.some.inj hs).symm
      cases landed with
      | false =>
        refine ⟨rfl,.inl ⟨rfl,?_⟩⟩
        simp [State.lostBy,hphase,or_comm,eq_comm]
      | true => exact ⟨rfl,.inr ⟨rfl,⟨item,hphase⟩,by simp [State.lostBy,hphase]⟩⟩
    · cases hs
  | _ => cases hcoordinator

theorem Inv.raised_iff {a : Action V} (h : Inv c s) (hs : FanOut.step c s a = some s') (hp : s.phase ≠ .cancelling)
    (hp' : s'.phase = .cancelling) :
    (∀ (i : ℕ) (value : V), s.tasks[i]? = some (.finished (.success value)) → Recorded c s' i value) ↔
      ∀ i ∈ s.lostBy a, ∀ value : V, s.tasks[i]? ≠ some (.finished (.success value)) := by
  obtain ⟨-,⟨hsame,hlost⟩ | ⟨happend,⟨item,hphase⟩,hlost⟩⟩ := raised_cases hs hp hp'
  · exact h.recorded_iff hsame hlost
  · rw [hlost]
    exact h.recorded_iff_landed hphase happend

/-- What waits to be taken when the coordinator raises is recorded by no later step. -/
theorem Inv.lost_of_raised {a : Action V} {t : State V} (h : Inv c s) (hs : FanOut.step c s a = some s')
    (hp : s.phase ≠ .cancelling) (hp' : s'.phase = .cancelling) (later : Runs (FanOut.step c) (fun _ _ => True) s' t)
    {i : ℕ} (hi : i ∈ s.done) : Unrecorded t i := by
  have hu : Unrecorded s i := h.fresh i (.inr (.inl hi))
  have hu' : Unrecorded s' i := by
    refine ⟨(raised_cases hs hp hp').1 ▸ hu.box,fun g hg => ?_⟩
    rcases (step_generations hs).2 with hsame | happend
    · exact hu.generations g (hsame ▸ hg)
    · rw [happend] at hg
      rcases List.mem_append.mp hg with hg | hg
      · exact hu.generations g hg
      · exact List.mem_singleton.mp hg ▸ hu.box
  have hlater : t.phase = .cancelling ∧ Unrecorded t i := by
    apply later.invariant (I := fun u => u.phase = .cancelling ∧ Unrecorded u i) ⟨hp',hu'⟩
    rintro u _ v ⟨hphase,hu⟩ _ hv
    have haside : Aside u v := step_aside hphase hv
    exact ⟨haside.phase.trans hphase,haside.unrecorded hu⟩
  exact hlater.2

/-- An aborting fan-out keeps the results it has exactly if, where the coordinator raises, no success
waits to be taken and none is in hand without its snapshot. What is kept is in the latest snapshot
ever after; a success that waits is recorded by no later step. -/
theorem abort_keeps_results_iff {permits : Option ℕ} {before : Dict String V} {a : Action V}
    (run : Runs (FanOut.step c) (fun _ _ => True) (start c permits before) s) (hs : FanOut.step c s a = some s')
    (hp : s.phase ≠ .cancelling) (hp' : s'.phase = .cancelling) :
    ((∀ (i : ℕ) (value : V), s.tasks[i]? = some (.finished (.success value)) → Recorded c s' i value) ↔
        ∀ i ∈ s.lostBy a, ∀ value : V, s.tasks[i]? ≠ some (.finished (.success value))) ∧
      ∀ t, Runs (FanOut.step c) (fun _ _ => True) s' t → ∀ (i : ℕ) (value : V),
        (Recorded c s' i value → ∃ g, t.generations.getLast? = some g ∧ (g.get? (c.key i)).isSome) ∧
          (i ∈ s.done → ¬Recorded c t i value) := by
  have hinv : Inv c s := .of_runs run hp
  refine ⟨hinv.raised_iff hs hp hp',fun t later i value => ⟨?_,?_⟩⟩
  · rintro ⟨g,hg,hk⟩
    have hkept : s'.generations ⊆ t.generations := by
      apply later.invariant (I := fun u => s'.generations ⊆ u.generations) (List.Subset.refl _)
      intro u _ v hu _ hv
      rcases (step_generations hv).2 with hsame | happend
      · exact hsame ▸ hu
      · exact happend ▸ List.subset_append_of_subset_left _ hu
    have hlasting : Lasting t := .of_runs ((run.step trivial hs).trans later)
    exact (hlasting _ ⟨g,hkept hg,hk ▸ rfl⟩).2
  · rintro hi ⟨g,hg,hk⟩
    exact (hinv.lost_of_raised hs hp hp' later hi).generations g hg _ value hk

end Invariant

/-- Two items run, one after the other: the first result is recorded before the second item fails. -/
def keptActions : List (Action ℕ) :=
  [.enter 0,.attempt 0 (.returned 7),.take,.acquire,.recorded,.enter 1,.attempt 1 (.failed "boom")]

/-- Two items finish before the coordinator runs, the one that fails first. -/
def lostActions : List (Action ℕ) :=
  [.enter 0,.enter 1,.attempt 0 (.failed "boom"),.attempt 1 (.returned 7)]

def twoItems : Config := @forEachConfig ℕ "0" .abort .empty 2

def keptRun : Computed (runAll (step twoItems) (forEachStart "0" .abort .empty 2 (some 1)) keptActions) (fun s =>
    decide (s.phase = .consuming) && decide (s.tasks = [.finished (.success 7),.finished (.failure "boom")]) &&
      decide (s.done = [1]) && ((step twoItems s .take).map (·.phase) == some .cancelling)) :=
  .of _ _ (by decide +kernel)

theorem abort_keeps_results_kept : ∃ s s' : State ℕ, step twoItems s .take = some s' ∧ s'.phase = .cancelling ∧
    Recorded twoItems s' 0 7 := by
  obtain ⟨s,hs,hseen⟩ := keptRun
  simp only [Bool.and_eq_true,decide_eq_true_eq,beq_iff_eq] at hseen
  obtain ⟨⟨⟨hphase,htasks⟩,hdone⟩,htake⟩ := hseen
  obtain ⟨s',hs',hphase'⟩ := Option.map_eq_some_iff.mp htake
  have hrun : Runs _ (fun _ _ => True) _ s := Runs.of_runAll (.refl _) (fun _ _ _ => trivial) hs
  have hnone : ∀ i ∈ s.lostBy .take, ∀ value : ℕ, s.tasks[i]? ≠ some (.finished (.success value)) := by
    intro i hi value
    simp only [State.lostBy,hphase,hdone,List.mem_singleton] at hi
    simp [hi,htasks]
  have hall := (abort_keeps_results_iff hrun hs' (hphase ▸ nofun) hphase').1.mpr hnone
  exact ⟨s,s',hs',hphase',hall 0 7 (by simp [htasks])⟩

def lostRun : Computed (runAll (step twoItems) (forEachStart "0" .abort .empty 2 none) lostActions) (fun s =>
    decide (s.phase = .consuming) && decide (s.tasks[1]? = some (.finished (.success 7))) &&
      ((step twoItems s .take).map (fun s' => (s'.phase,s'.generations.length)) == some (.cancelling,0))) :=
  .of _ _ (by decide +kernel)

theorem abort_loses_finished_item : ¬∀ (label : String) (onError : OnError) (before : Dict String ℕ) (n : ℕ)
    (maxParallel : Option ℕ) (a : Action ℕ) (s s' : State ℕ), onError ≠ .continue →
    Runs (step (forEachConfig label onError before n)) (fun _ _ => True) (forEachStart label onError before n maxParallel) s →
    step (forEachConfig label onError before n) s a = some s' → s.phase ≠ .cancelling → s'.phase = .cancelling →
    ∀ (i : ℕ) (value : ℕ), s.tasks[i]? = some (.finished (.success value)) →
      Recorded (forEachConfig label onError before n) s' i value := by
  intro hall
  obtain ⟨s,hs,hseen⟩ := lostRun
  simp only [Bool.and_eq_true,decide_eq_true_eq,beq_iff_eq] at hseen
  obtain ⟨⟨hphase,hsuccess⟩,htake⟩ := hseen
  obtain ⟨s',hs',hpair⟩ := Option.map_eq_some_iff.mp htake
  obtain ⟨hphase',hlength⟩ := Prod.mk.inj hpair
  have hrun : Runs _ (fun _ _ => True) _ s := Runs.of_runAll (.refl _) (fun _ _ _ => trivial) hs
  obtain ⟨g,hg,-⟩ := hall "0" .abort .empty 2 none .take s s' nofun hrun hs' (hphase ▸ nofun) hphase' 1 7 hsuccess
  rw [List.eq_nil_of_length_eq_zero hlength] at hg
  cases hg

end Reyn.FanOut
