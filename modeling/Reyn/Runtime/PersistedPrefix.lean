import Reyn.Runtime.WorldInvariant
import Reyn.Runtime.JournalRun

/-! # What the worker writes is a prefix of the session's log

A payload is captured on the event loop and stamped later, with the number of the
last append of any session. No entry of its own session comes between the two, so
the payload is the replay of the session's entries up to the stamp, apart from what
the replay loses of a pending chain.
-/
namespace Reyn
open Py TimeTravel Transition

/-- The watermark of the snapshot file, 0 when there is none. -/
def Session.onDisk (s : Session) : ℕ := (s.file.map (·.appliedSeq)).getD 0

/-- Every written file is where its stamp says, and no watermark in memory is ahead of the disk. -/
structure World.Stamped (w : World) : Prop where
  written : ∀ key p, (key,p) ∈ w.written → p.appliedSeq ≤ w.hist.head ∧
    ∃ t, w.hist.fold key p.appliedSeq = .ok t ∧ Agree p t
  acks : ∀ key seq, Job.acknowledge key seq ∈ w.queue → ∃ s, w.sessions.get? key = some s ∧ seq ≤ s.onDisk
  memory : ∀ key s, w.sessions.get? key = some s → s.applied ≤ s.onDisk ∧ s.onDisk ≤ w.hist.head

namespace World.Stamped
variable {w w' : World}

theorem init : World.init.Stamped := ⟨nofun,nofun,fun key s h => by cases h⟩

/-- A step that leaves the log alone: it may write files of the current state, raise the
watermarks on disk and acknowledge them. -/
theorem of_sessions (h : w.Stamped) (hh : w'.hist = w.hist)
    (hw : ∀ key p, (key,p) ∈ w'.written → (key,p) ∈ w.written ∨ p.appliedSeq = w.hist.head ∧
      ∃ t, w.hist.fold key w.hist.head = .ok t ∧ Agree p t)
    (ha : ∀ key seq, Job.acknowledge key seq ∈ w'.queue → Job.acknowledge key seq ∈ w.queue ∨
      ∃ s', w'.sessions.get? key = some s' ∧ seq ≤ s'.onDisk)
    (hmono : ∀ key s, w.sessions.get? key = some s → ∃ s', w'.sessions.get? key = some s' ∧ s.onDisk ≤ s'.onDisk)
    (hm : ∀ key s', w'.sessions.get? key = some s' → s'.applied ≤ s'.onDisk ∧ s'.onDisk ≤ w.hist.head) :
    w'.Stamped where
  written key p hp := by
    rw [hh]
    rcases hw key p hp with hold | ⟨he,hnew⟩
    · exact h.written key p hold
    · rw [he]
      exact ⟨le_rfl,hnew⟩
  acks key seq hj := by
    rcases ha key seq hj with hold | hnew
    · obtain ⟨s,hs,hle⟩ := h.acks key seq hold
      obtain ⟨s',hs',hle'⟩ := hmono key s hs
      exact ⟨s',hs',hle.trans hle'⟩
    · exact hnew
  memory key s' hs' := hh ▸ hm key s' hs'

/-- An append of the log moves the head and nothing else. -/
theorem append (h : w.Stamped) {l : WalLine} (hl : w.hist.head < l.seq) {job : Job} {rest : List Job}
    (hq : w.queue = job :: rest) : (w.appendLine l hl rest).Stamped where
  written key p hp := by
    obtain ⟨hle,t,ht,ha⟩ := h.written key p hp
    refine ⟨?_,t,(Wal.fold_snoc_of_le hl hle).trans ht,ha⟩
    rw [World.appendLine_head]
    omega
  acks key seq hj := h.acks key seq (hq ▸ List.mem_cons_of_mem _ hj)
  memory key s hs := by
    have := h.memory key s hs
    rw [World.appendLine_head]
    omega

theorem work (h : w.Stamped) (hi : w.Inv) {ts : String} (hw : w.work ts = some w') : w'.Stamped := by
  unfold World.work at hw
  split at hw
  · cases hw
  · rename_i hq
    split at hw
    · cases hw
      exact h.append _ hq
    · cases hw
  · rename_i hq
    cases hw
    exact h.append _ hq
  · rename_i key payload rest hq
    cases hw
    have howner : (w.sessions.get? key).isSome :=
      hi.owned (.snapshot key payload) (hq ▸ List.mem_cons_self) key rfl
    obtain ⟨s,hs⟩ := Option.isSome_iff_exists.mp howner
    obtain ⟨t,hfold,htr⟩ := (hi.tracked key s hs).live
    have hpayload : Agree payload t := (hq ▸ htr).tail_snapshot.1
    refine h.of_sessions rfl ?_ ?_ ?_ ?_
    · intro key' p hp
      rcases List.mem_append.mp hp with hp | hp
      · exact .inl hp
      · obtain ⟨rfl,rfl⟩ := Prod.mk.inj (List.mem_singleton.mp hp)
        exact .inr ⟨rfl,t,hfold,⟨hpayload.1,hpayload.2,hpayload.3,hpayload.4,hpayload.5,hpayload.6,hpayload.7⟩⟩
    · intro key' seq hj
      rcases List.mem_cons.mp hj with he | hj
      · cases he
        refine .inr ⟨{ s with file := some { payload with appliedSeq := w.lastSeq } },?_,le_rfl⟩
        rw [Dict.get?_modify,if_pos rfl,hs]
        rfl
      · exact .inl (hq ▸ List.mem_cons_of_mem _ hj)
    · intro key' s' hs'
      rw [Dict.get?_modify,hs']
      split
      · exact ⟨_,rfl,(h.memory key' s' hs').2⟩
      · exact ⟨s',rfl,le_rfl⟩
    · intro key' s' hs'
      obtain ⟨s₀,hs₀,⟨-,rfl⟩ | ⟨-,rfl⟩⟩ := Dict.modify_cases hs'
      · obtain ⟨hmem,hdisk⟩ := h.memory key' s₀ hs₀
        exact ⟨hmem.trans hdisk,le_rfl⟩
      · exact h.memory key' s' hs₀
  · rename_i key seq rest hq
    cases hw
    have hseq := h.acks key seq (hq ▸ List.mem_cons_self)
    refine h.of_sessions rfl (fun _ _ hp => .inl hp) ?_ ?_ ?_
    · intro key' seq' hj
      exact .inl (hq ▸ List.mem_cons_of_mem _ hj)
    · intro key' s' hs'
      rw [Dict.get?_modify,hs']
      split
      · exact ⟨_,rfl,le_rfl⟩
      · exact ⟨s',rfl,le_rfl⟩
    · intro key' s' hs'
      obtain ⟨s₀,hs₀,⟨rfl,rfl⟩ | ⟨-,rfl⟩⟩ := Dict.modify_cases hs'
      · obtain ⟨s,hs,hle⟩ := hseq
        obtain rfl := Option.some.inj (hs.symm.trans hs₀)
        exact ⟨hle,(h.memory _ s hs).2⟩
      · exact h.memory key' s' hs₀
  · rename_i key payload rest hq
    cases hw
    have howner : (w.sessions.get? key).isSome :=
      hi.owned (.generation key payload) (hq ▸ List.mem_cons_self) key rfl
    obtain ⟨s,hs⟩ := Option.isSome_iff_exists.mp howner
    obtain ⟨t,hfold,htr⟩ := (hi.tracked key s hs).live
    have hpayload : Agree payload t := (hq ▸ htr).tail_generation.1
    refine h.of_sessions rfl ?_ ?_ ?_ ?_
    · intro key' p hp
      rcases List.mem_append.mp hp with hp | hp
      · exact .inl hp
      · obtain ⟨rfl,rfl⟩ := Prod.mk.inj (List.mem_singleton.mp hp)
        exact .inr ⟨rfl,t,hfold,⟨hpayload.1,hpayload.2,hpayload.3,hpayload.4,hpayload.5,hpayload.6,hpayload.7⟩⟩
    · intro key' seq hj
      exact .inl (hq ▸ List.mem_cons_of_mem _ hj)
    · intro key' s' hs'
      rw [Dict.get?_modify,hs']
      split
      · exact ⟨_,rfl,le_rfl⟩
      · exact ⟨s',rfl,le_rfl⟩
    · intro key' s' hs'
      obtain ⟨s₀,hs₀,⟨-,rfl⟩ | ⟨-,rfl⟩⟩ := Dict.modify_cases hs'
      · exact h.memory key' s₀ hs₀
      · exact h.memory key' s' hs₀
  · rename_i minKeepSeq rest hq
    cases hw
    exact h.of_sessions rfl (fun _ _ hp => .inl hp) (fun _ _ hj => .inl (hq ▸ List.mem_cons_of_mem _ hj))
      (fun _ s hs => ⟨s,hs,le_rfl⟩) h.memory

/-- A journal changes nothing but its snapshot's contents, and submits no acknowledgement. -/
theorem submit (h : w.Stamped) {key : SessionKey} {s : Session} (hs : w.sessions.get? key = some s)
    {j : SnapshotJournal} (hj : j.snapshot.appliedSeq = s.applied) (subs : List Submission) :
    ({ w with
      sessions := w.sessions.set key { s with journal := j }
      queue := w.queue ++ subs.map (·.job key) } : World).Stamped := by
  refine h.of_sessions rfl (fun _ _ hp => .inl hp) ?_ ?_ ?_
  · intro key' seq hack
    rcases List.mem_append.mp hack with hack | hack
    · exact .inl hack
    · obtain ⟨sub,-,he⟩ := List.mem_map.mp hack
      cases sub <;> cases he
  · intro key' s' hs'
    rw [Dict.get?_set]
    split
    · rename_i he
      subst he
      obtain rfl := Option.some.inj (hs.symm.trans hs')
      exact ⟨_,rfl,le_rfl⟩
    · exact ⟨s',hs',le_rfl⟩
  · intro key' s' hs'
    rw [Dict.get?_set] at hs'
    split at hs'
    · cases hs'
      obtain ⟨hmem,hdisk⟩ := h.memory key s hs
      exact ⟨hj.le.trans hmem,hdisk⟩
    · exact h.memory key' s' hs'

/-- Jobs that acknowledge nothing, with other fields of the world that no watermark reads. -/
theorem enqueue (h : w.Stamped) (hh : w'.hist = w.hist) (hw : w'.written = w.written)
    (hs : w'.sessions = w.sessions) {jobs : List Job} (hq : w'.queue = w.queue ++ jobs)
    (hj : ∀ key seq, Job.acknowledge key seq ∉ jobs) : w'.Stamped := by
  refine h.of_sessions hh (fun _ _ hp => .inl (hw ▸ hp)) ?_ (fun _ s hg => ⟨s,hs ▸ hg,le_rfl⟩)
    (fun key s hg => h.memory key s (hs ▸ hg))
  intro key seq hack
  rw [hq] at hack
  rcases List.mem_append.mp hack with hack | hack
  · exact .inl hack
  · exact absurd hack (hj key seq)

theorem checkout (h : w.Stamped) {ts : String} (hw : w.checkout ts = some w') : w'.Stamped := by
  have hwritten : w'.written = w.written := by
    unfold World.checkout at hw
    split at hw
    · cases hw
    · split at hw
      · cases hw; rfl
      · cases hw
  obtain ⟨target,scope,ht,hco⟩ := World.checkout_cases hw
  refine ⟨?_,?_,?_⟩
  · intro key p hp
    obtain ⟨hle,t,hfold,ha⟩ := h.written key p (hwritten ▸ hp)
    refine ⟨?_,t,?_,ha⟩
    · rw [hco.head,World.lastSeq]
      omega
    · rw [hco.hist]
      exact (Wal.fold_snoc_of_le (w.lt_resetLine ts target scope ht) hle).trans hfold
  · intro key seq hack
    rw [hco.queue] at hack
    cases hack
  · intro key s' hs'
    obtain ⟨s,hs,⟨-,rfl⟩ | ⟨-,rfl⟩⟩ := hco.session hs'
    · have hold := h.memory key s hs
      rw [hco.head,World.lastSeq]
      unfold Session.rewind
      split
      · exact ⟨hold.1,hold.2.trans (Nat.le_succ _)⟩
      · exact ⟨le_rfl,le_rfl⟩
    · have hold := h.memory key s' hs
      rw [hco.head,World.lastSeq]
      exact ⟨hold.1,hold.2.trans (Nat.le_succ _)⟩

theorem step (h : w.Stamped) (hi : w.Inv) {cfg : Config} {a : Action} (hw : World.step cfg w a = some w') :
    w'.Stamped := by
  cases a with
  | load key =>
    simp only [World.step] at hw
    split at hw
    · cases hw
    · rename_i hnone
      cases hw
      refine h.of_sessions rfl (fun _ _ hp => .inl hp) (fun _ _ hj => .inl hj) ?_ ?_
      · intro key' s hs
        have hne : key' ≠ key := by
          rintro rfl
          rw [hnone] at hs
          cases hs
        exact ⟨s,(Dict.get?_set_ne _ hne _).trans hs,le_rfl⟩
      · intro key' s' hs'
        rw [Dict.get?_set] at hs'
        split at hs'
        · cases hs'
          exact ⟨le_rfl,Nat.zero_le _⟩
        · exact h.memory key' s' hs'
  | mutate key m =>
    obtain ⟨s,hs,rfl⟩ := Option.map_eq_some_iff.mp hw
    exact h.submit hs (s.journal.issue_appliedSeq m) _
  | cutGeneration key =>
    obtain ⟨s,hs,rfl⟩ := Option.map_eq_some_iff.mp hw
    exact h.enqueue rfl rfl rfl rfl (by simp)
  | close key =>
    obtain ⟨s,hs,rfl⟩ := Option.map_eq_some_iff.mp hw
    exact h.submit (j := s.journal.close.1) hs rfl s.journal.close.2
  | record r =>
    cases hw
    exact h.enqueue rfl rfl rfl rfl (by simp)
  | work ts => exact h.work hi hw
  | truncateWal =>
    cases hw
    unfold World.truncateWal
    dsimp only
    split
    · exact h
    · exact h.enqueue rfl rfl rfl rfl (by simp)
  | prune =>
    simp only [World.step] at hw
    split at hw
    · cases hw
    · cases hw
      refine h.of_sessions rfl (fun _ _ hp => .inl hp) (fun _ _ hj => .inl hj) ?_ ?_
      · intro key' s hs
        rw [Dict.get?_modify,hs]
        split
        · exact ⟨_,rfl,le_rfl⟩
        · exact ⟨s,rfl,le_rfl⟩
      · intro key' s' hs'
        obtain ⟨s,hs,⟨-,rfl⟩ | ⟨-,rfl⟩⟩ := Dict.modify_cases hs'
        · exact h.memory key' s hs
        · exact h.memory key' s' hs
  | admission target scope =>
    simp only [World.step,World.admission] at hw
    split at hw
    · cases hw
      exact h.enqueue rfl rfl rfl (List.append_nil _).symm fun _ _ => List.not_mem_nil
    · cases hw
  | checkout ts => exact h.checkout hw

end World.Stamped

/-- Along every run whose rewinds are covered. -/
theorem World.Stamped.run {cfg : Config} {w : World}
    (hr : Runs (World.step cfg) World.CoveredCheckout World.init w) : w.Inv ∧ w.Stamped :=
  hr.invariant (I := fun w => w.Inv ∧ w.Stamped) ⟨.init,.init⟩ fun _ _ _ h hg hs => ⟨h.1.step hg hs,h.2.step h.1 hs⟩

/-- The payload a job carries. -/
def Job.payload? : Job → Option AgentSnapshot
  | .snapshot _ payload | .generation _ payload => some payload
  | _ => none

/-- Without a rewind every live chain was registered live, so it has its date, in memory and
in everything captured from there; and the log has no reset-record. -/
structure World.Unrewound (w : World) : Prop where
  live : ∀ key s, w.sessions.get? key = some s → EveryChain Dated s.journal.snapshot
  queued : ∀ job ∈ w.queue, ∀ p, job.payload? = some p → EveryChain Dated p
  written : ∀ key p, (key,p) ∈ w.written → EveryChain Dated p
  straight : ∀ l ∈ w.hist.lines, isRewind l.event = false

theorem SnapshotJournal.dated_issue {j : SnapshotJournal} (h : EveryChain Dated j.snapshot) (m : Mutation)
    (key : SessionKey) : EveryChain Dated (j.issue m).1.snapshot ∧
      ∀ job ∈ (j.issue m).2.map (·.job key), ∀ p, job.payload? = some p → EveryChain Dated p := by
  unfold SnapshotJournal.issue
  cases hr : m.recording j.snapshot with
  | none => exact ⟨h,nofun⟩
  | some r =>
    obtain ⟨t,-,habs⟩ := m.replays j.snapshot j.snapshot 0 "" hr
    have hd := habs.dated _ h
    refine ⟨by rwa [SnapshotJournal.record_snapshot],?_⟩
    intro job hj p hp
    rcases List.mem_cons.mp hj with rfl | hj
    · cases hp
    · unfold SnapshotJournal.saveNowait at hj
      split at hj
      · cases hj
      · rw [List.mem_singleton.mp hj] at hp
        cases hp
        exact hd

namespace World.Unrewound
variable {w w' : World}

theorem init : World.init.Unrewound := ⟨fun key s h => (by cases h),nofun,nofun,nofun⟩

theorem append (h : w.Unrewound) {l : WalLine} (hl : w.hist.head < l.seq) (hn : isRewind l.event = false)
    {job : Job} {rest : List Job} (hq : w.queue = job :: rest) : (w.appendLine l hl rest).Unrewound where
  live := h.live
  queued j hj := h.queued j (hq ▸ List.mem_cons_of_mem _ hj)
  written := h.written
  straight a ha := by
    rcases List.mem_append.mp ha with ha | ha
    · exact h.straight a ha
    · rw [List.mem_singleton.mp ha]
      exact hn

theorem nextLine_not_rewind (w : World) (ts kind : String) (fields : WalFields) (hk : kind ≠ "rewind") :
    isRewind (w.nextLine ts kind fields hk).event = false := by
  simp [isRewind,World.nextLine,WalLine.ordinary,hk]

theorem modify_live (h : w.Unrewound) {key : SessionKey} {f : Session → Session}
    (hf : ∀ s, (f s).journal.snapshot.pendingChains = s.journal.snapshot.pendingChains) :
    ∀ k s, (w.sessions.modify key f).get? k = some s → EveryChain Dated s.journal.snapshot := by
  intro k s' hs'
  obtain ⟨s,hs,⟨-,rfl⟩ | ⟨-,rfl⟩⟩ := Dict.modify_cases hs'
  · exact (h.live k s hs).congr (hf s)
  · exact h.live k s' hs

theorem work (h : w.Unrewound) {ts : String} (hw : w.work ts = some w') : w'.Unrewound := by
  have hrest : ∀ {job rest}, w.queue = job :: rest → ∀ j ∈ rest, ∀ p, j.payload? = some p → EveryChain Dated p :=
    fun hq j hj => h.queued j (hq ▸ List.mem_cons_of_mem _ hj)
  unfold World.work at hw
  split at hw
  · cases hw
  · rename_i hq
    split at hw
    · cases hw
      exact h.append _ (nextLine_not_rewind ..) hq
    · cases hw
  · rename_i hq
    cases hw
    exact h.append _ (nextLine_not_rewind ..) hq
  · rename_i key payload rest hq
    cases hw
    have hpayload : EveryChain Dated payload := h.queued _ (hq ▸ List.mem_cons_self) payload rfl
    refine ⟨h.modify_live fun _ => rfl,?_,?_,h.straight⟩
    · intro j hj p hp
      rcases List.mem_cons.mp hj with rfl | hj
      · cases hp
      · exact hrest hq j hj p hp
    · intro k p hp
      rcases List.mem_append.mp hp with hp | hp
      · exact h.written k p hp
      · obtain ⟨-,rfl⟩ := Prod.mk.inj (List.mem_singleton.mp hp)
        exact hpayload.congr rfl
  · rename_i key seq rest hq
    cases hw
    exact ⟨h.modify_live fun _ => rfl,hrest hq,h.written,h.straight⟩
  · rename_i key payload rest hq
    cases hw
    have hpayload : EveryChain Dated payload := h.queued _ (hq ▸ List.mem_cons_self) payload rfl
    refine ⟨h.modify_live fun _ => rfl,hrest hq,?_,h.straight⟩
    intro k p hp
    rcases List.mem_append.mp hp with hp | hp
    · exact h.written k p hp
    · obtain ⟨-,rfl⟩ := Prod.mk.inj (List.mem_singleton.mp hp)
      exact hpayload.congr rfl
  · rename_i minKeepSeq rest hq
    cases hw
    exact ⟨h.live,hrest hq,h.written,h.straight⟩

/-- A journal changes and hands over jobs whose payloads are dated. -/
theorem submit (h : w.Unrewound) {key : SessionKey} {s : Session} {jobs : List Job}
    (hs : EveryChain Dated s.journal.snapshot)
    (hj : ∀ job ∈ jobs, ∀ p, job.payload? = some p → EveryChain Dated p) :
    ({ w with sessions := w.sessions.set key s, queue := w.queue ++ jobs } : World).Unrewound := by
  refine ⟨?_,?_,h.written,h.straight⟩
  · intro k s' hs'
    rw [Dict.get?_set] at hs'
    split at hs'
    · cases hs'
      exact hs
    · exact h.live k s' hs'
  · intro job hjob
    rcases List.mem_append.mp hjob with hjob | hjob
    · exact h.queued job hjob
    · exact hj job hjob

theorem enqueue (h : w.Unrewound) {jobs : List Job} {due : List (SessionKey × ℕ)}
    (hj : ∀ job ∈ jobs, ∀ p, job.payload? = some p → EveryChain Dated p) :
    ({ w with queue := w.queue ++ jobs, pruneDue := due } : World).Unrewound := by
  refine ⟨h.live,fun job hjob => ?_,h.written,h.straight⟩
  rcases List.mem_append.mp hjob with hjob | hjob
  · exact h.queued job hjob
  · exact hj job hjob

theorem step (h : w.Unrewound) {cfg : Config} {a : Action} (ha : a.isCheckout = false)
    (hw : World.step cfg w a = some w') : w'.Unrewound := by
  cases a with
  | load key =>
    simp only [World.step] at hw
    split at hw
    · cases hw
    · cases hw
      have hload : World.Unrewound { w with sessions := w.sessions.set key (.new key cfg.snapshotInterval), queue := w.queue ++ [] } :=
        h.submit (by intro _ _ hc; cases hc) (List.forall_mem_nil _)
      simpa using hload
  | mutate key m =>
    obtain ⟨s,hs,rfl⟩ := Option.map_eq_some_iff.mp hw
    obtain ⟨hlive,hjobs⟩ := SnapshotJournal.dated_issue (h.live key s hs) m key
    exact h.submit hlive hjobs
  | cutGeneration key =>
    obtain ⟨s,hs,rfl⟩ := Option.map_eq_some_iff.mp hw
    refine h.enqueue fun job hjob p hp => ?_
    rw [List.mem_singleton.mp hjob] at hp
    cases hp
    exact h.live key s hs
  | close key =>
    obtain ⟨s,hs,rfl⟩ := Option.map_eq_some_iff.mp hw
    refine h.submit (h.live key s hs) fun job hjob p hp => ?_
    rw [List.mem_singleton.mp hjob] at hp
    cases hp
    exact h.live key s hs
  | record r =>
    cases hw
    exact h.enqueue (by simp [Job.payload?])
  | work ts => exact h.work hw
  | truncateWal =>
    cases hw
    unfold World.truncateWal
    dsimp only
    split
    · exact h
    · exact h.enqueue (by simp [Job.payload?])
  | prune =>
    simp only [World.step] at hw
    split at hw
    · cases hw
    · cases hw
      exact ⟨h.modify_live fun _ => rfl,h.queued,h.written,h.straight⟩
  | admission target scope =>
    simp only [World.step,World.admission] at hw
    split at hw
    · cases hw
      exact ⟨h.live,h.queued,h.written,h.straight⟩
    · cases hw
  | checkout ts => cases ha

end World.Unrewound
namespace Wal
variable {w : Wal}

/-- The replay of exactly the session's entries up to a sequence number. -/
def prefixFold (w : Wal) (key : SessionKey) (seq : ℕ) : Except PyError AgentSnapshot :=
  (AgentSnapshot.empty key.1 key.2).absorbAll (w.lines.filter fun l => l.routes key && l.seq ≤ seq)

/-- Without reset-records the lineage of a position is everything up to it. -/
theorem mem_lineage_of_straight (hs : ∀ l ∈ w.lines, isRewind l.event = false) (scope : Scope) {s h : ℕ}
    (hpos : 0 < s) : s ∈ (w.resets scope).lineage h ↔ s ≤ h := by
  constructor
  · intro hmem
    exact (Resets.mem_lineage_bounds _ hmem).2
  · intro hle
    refine (Resets.mem_lineage_iff _ hpos hle).mpr fun r _ n hn => ?_
    have hrec := (w.targetAt_eq_some_iff scope r n).mp hn
    obtain ⟨record,hmem,-⟩ := List.mem_map.mp hrec
    obtain ⟨l,hl,hrl⟩ := List.mem_filterMap.mp (List.mem_filter.mp hmem).1
    simp [WalLine.record?,hs l hl] at hrl

theorem fold_eq_prefixFold (hw : w.Sound) (hs : ∀ l ∈ w.lines, isRewind l.event = false) (key : SessionKey) (seq : ℕ) :
    w.fold key seq = w.prefixFold key seq := by
  have hbranch : ∀ l ∈ w.lines, decide (l.seq ∈ (w.resets (some key)).lineage seq) = decide (l.seq ≤ seq) :=
    fun l _ => decide_eq_decide.mpr (mem_lineage_of_straight hs (some key) l.pos)
  have hsound : ∀ l ∈ w.lines.filter (fun l => l.seq ≤ seq), Reyn.Sound l :=
    fun l hl => hw l (List.mem_of_mem_filter hl)
  rw [fold,branch,List.filter_congr hbranch,absorbAll_filter_routes hsound,List.filter_filter]
  rfl

end Wal

theorem absorbAll_undated {s t : AgentSnapshot} {ls : List WalLine} (hs : EveryChain Undated s)
    (hl : ∀ l ∈ ls, Sound l) (ht : s.absorbAll ls = .ok t) : EveryChain Undated t := by
  induction ls generalizing s with
  | nil => cases ht; exact hs
  | cons l rest ih =>
    have hrest : ∀ l' ∈ rest, Sound l' := fun l' hl' => hl l' (List.mem_cons_of_mem _ hl')
    cases hroute : l.routes s.key with
    | false =>
      simp only [AgentSnapshot.absorbAll,List.foldlM_cons,AgentSnapshot.absorb_of_not_routes hroute] at ht
      exact ih hs hrest ht
    | true =>
      obtain ⟨u,m,r,ts,hk,hr,he⟩ := (hl l List.mem_cons_self).journaled hroute
      obtain ⟨s',-,habsorb,habs⟩ := absorb_recorded hr he hk.symm
      simp only [AgentSnapshot.absorbAll,List.foldlM_cons,habsorb] at ht
      exact ih (s := { s' with appliedSeq := l.seq }) ((habs.undated hs).congr rfl) hrest ht

/-- Every file of a run without rewinds against the prefix its stamp names. -/
theorem World.written_prefix {cfg : Config} {w : World}
    (hr : Runs (World.step cfg) (fun _ a => a.isCheckout = false) World.init w) {key : SessionKey}
    {p : AgentSnapshot} (hp : (key,p) ∈ w.written) : ∃ t, w.hist.prefixFold key p.appliedSeq = .ok t ∧ Agree p t ∧
      (SameState p t ↔ ∀ id, p.pendingChains.get? id = none) := by
  obtain ⟨hinv,hstamped⟩ := World.Stamped.run (hr.mono fun _ _ h => .of_not_checkout h)
  have hplain : w.Unrewound := hr.invariant .init fun _ _ _ h hg hs => h.step hg hs
  obtain ⟨-,t,hfold,hagree⟩ := hstamped.written key p hp
  have hempty : EveryChain Undated (.empty key.1 key.2) := fun _ _ hc => by simp [AgentSnapshot.empty] at hc
  have hundated : EveryChain Undated t :=
    absorbAll_undated hempty (fun l hl => hinv.sound l (List.mem_of_mem_filter hl)) hfold
  rw [Wal.fold_eq_prefixFold hinv.sound hplain.straight] at hfold
  exact ⟨t,hfold,hagree,hagree.sameState_iff (hplain.written key p hp) hundated⟩

/-- In every interleaving without a rewind, a written snapshot or generation holds neither more
nor less than the entries of its session up to its stamp, it is their replay exactly when no
chain is pending in it, and the watermark in memory is never ahead of the one on disk. -/
theorem persisted_prefix_iff (cfg : Config) (w : World)
    (hr : Runs (World.step cfg) (fun _ a => a.isCheckout = false) World.init w) :
    (∀ key p, (key,p) ∈ w.written → ∃ t, w.hist.prefixFold key p.appliedSeq = .ok t ∧ Agree p t ∧
      (SameState p t ↔ ∀ id, p.pendingChains.get? id = none)) ∧
    ∀ key s, w.sessions.get? key = some s → s.applied ≤ s.onDisk :=
  ⟨fun _ _ hp => World.written_prefix hr hp,fun key s hs =>
    ((World.Stamped.run (hr.mono fun _ _ h => .of_not_checkout h)).2.memory key s hs).1⟩

/-- Two sessions, the generation of one cut while an append of the other waits behind it. -/
def interleavedActions : List Action :=
  [.load ("a","main"),.load ("b","main"),.mutate ("a","main") (.nextTurnContextStaged "note" .null),
   .cutGeneration ("a","main"),.mutate ("b","main") (.nextTurnContextStaged "note" .null),
   .work "t",.work "t",.work "t"]

theorem persisted_prefix_iff_interleaved : ∃ (w : World) (p : AgentSnapshot), w.written = [(("a","main"),p)] ∧
    (∃ t, w.hist.prefixFold ("a","main") p.appliedSeq = .ok t ∧ Agree p t ∧
      (SameState p t ↔ ∀ id, p.pendingChains.get? id = none)) ∧
    ∀ key s, w.sessions.get? key = some s → s.applied ≤ s.onDisk := by
  have hview : (runAll (World.step ⟨20,none⟩) World.init interleavedActions).map (fun w =>
      w.written.map Prod.fst) = some [("a","main")] := by decide_cbv
  obtain ⟨w,hw,hv⟩ := Option.map_eq_some_iff.mp hview
  have hplain : ∀ a ∈ interleavedActions, a.isCheckout = false := by decide
  obtain ⟨hpre,hmemory⟩ := persisted_prefix_iff ⟨20,none⟩ w (.of_runAll (.refl _) (fun a ha _ => hplain a ha) hw)
  cases hwritten : w.written with
  | nil => simp [hwritten] at hv
  | cons entry rest =>
    obtain ⟨key,p⟩ := entry
    simp only [hwritten,List.map_cons,List.cons.injEq,List.map_eq_nil_iff] at hv
    obtain ⟨rfl,rfl⟩ := hv
    exact ⟨w,p,hwritten,hpre _ p (hwritten ▸ List.mem_cons_self),hmemory⟩

/-- A generation is cut while a chain is pending. -/
def pendingActions : List Action :=
  [.load ("a","main"),.mutate ("a","main") (.chainRegister "c" sampleChain),.cutGeneration ("a","main"),
   .work "t",.work "t"]

/-- The generation keeps the chain's `registered_at`, which no replay of the entry restores. -/
theorem persisted_not_replay : ¬ ∀ (cfg : Config) (w : World),
    Runs (World.step cfg) (fun _ a => a.isCheckout = false) World.init w → ∀ key p, (key,p) ∈ w.written →
      ∃ t, w.hist.prefixFold key p.appliedSeq = .ok t ∧ SameState p t := by
  intro h
  have hview : (runAll (World.step ⟨20,none⟩) World.init pendingActions).map (fun w =>
      w.written.map fun entry => (entry.2.pendingChains.get? "c").isSome) = some [true] := by decide_cbv
  obtain ⟨w,hw,hv⟩ := Option.map_eq_some_iff.mp hview
  have hplain : ∀ a ∈ pendingActions, a.isCheckout = false := by decide
  have hrun : Runs (World.step ⟨20,none⟩) (fun _ a => a.isCheckout = false) World.init w :=
    .of_runAll (.refl _) (fun a ha _ => hplain a ha) hw
  cases hwritten : w.written with
  | nil => simp [hwritten] at hv
  | cons entry rest =>
    obtain ⟨key,p⟩ := entry
    have hmem : (key,p) ∈ w.written := hwritten ▸ List.mem_cons_self
    obtain ⟨t,hfold,hsame⟩ := h ⟨20,none⟩ w hrun key p hmem
    obtain ⟨t',hfold',-,hiff⟩ := World.written_prefix hrun hmem
    rw [hfold] at hfold'
    cases hfold'
    simp only [hwritten,List.map_cons,List.cons.injEq,hiff.mp hsame "c"] at hv
    simp at hv

end Reyn
