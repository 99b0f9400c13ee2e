import Reyn.Runtime.JournalReplay

/-! # Runs of one journal against the replay of what it wrote

The live snapshot after any sequence of mutations is compared with the replay,
from the empty snapshot, of the entries these mutations appended. The chain
contents are the one difference, so the two are the same state exactly when
every registered chain has been settled.
-/
namespace Reyn
open Py

/-- The mutations of one journal, one after the other, with what they submit. -/
def SnapshotJournal.issueAll : SnapshotJournal → List Mutation → SnapshotJournal × List Submission
  | j, [] => (j,[])
  | j, m :: rest =>
    let issued := j.issue m
    let final := issued.1.issueAll rest
    (final.1,issued.2 ++ final.2)

/-- The sequence numbers and time stamps the log writer hands out, append after append. -/
structure Stamps where
  seq : ℕ → ℕ
  ts : ℕ → String
  pos : 0 < seq 0
  mono : StrictMono seq

/-- The entries written for the submitted appends, from the `n`-th stamp on. -/
def Stamps.entries (c : Stamps) : ℕ → List Submission → List Event
  | _, [] => []
  | n, .append kind fields :: rest => walEntry (c.seq n) (c.ts n) kind fields :: c.entries (n + 1) rest
  | n, .snapshot _ :: rest => c.entries n rest

def Submission.isAppend : Submission → Bool
  | .append _ _ => true
  | .snapshot _ => false

theorem Stamps.entries_append (c : Stamps) (n : ℕ) (as bs : List Submission) :
    c.entries n (as ++ bs) = c.entries n as ++ c.entries (n + as.countP Submission.isAppend) bs := by
  induction as generalizing n with
  | nil => simp [Stamps.entries]
  | cons a rest ih =>
    cases a with
    | append kind fields =>
      simp only [List.cons_append,Stamps.entries,ih,Submission.isAppend,List.countP_cons,if_true]
      rw [Nat.add_assoc,Nat.add_comm 1]
    | snapshot payload => simp [Stamps.entries,ih,Submission.isAppend]

theorem SnapshotJournal.entries_saveNowait (c : Stamps) (n : ℕ) (j : SnapshotJournal) :
    c.entries n j.saveNowait.2 = [] ∧ j.saveNowait.2.countP Submission.isAppend = 0 := by
  unfold SnapshotJournal.saveNowait
  split <;> simp [Stamps.entries,Submission.isAppend]

/-- What the two sides keep over a run: `t` is the replay so far, `n` the next stamp. -/
structure Mirrored (c : Stamps) (n : ℕ) (s t : AgentSnapshot) : Prop where
  agree : Agree s t
  dated : EveryChain Dated s
  undated : EveryChain Undated t
  below : t.appliedSeq < c.seq n

theorem Mirrored.key {c : Stamps} {n : ℕ} {s t : AgentSnapshot} (h : Mirrored c n s t) : t.key = s.key :=
  Prod.ext h.agree.1.symm h.agree.2.symm

/-- One mutation keeps the two sides together. -/
theorem Mirrored.issue {c : Stamps} {n : ℕ} {j : SnapshotJournal} {t : AgentSnapshot}
    (h : Mirrored c n j.snapshot t) (m : Mutation) :
    ∃ t', t.applyEvents (c.entries n (j.issue m).2) = .ok t' ∧
      Mirrored c (n + (j.issue m).2.countP Submission.isAppend) (j.issue m).1.snapshot t' := by
  unfold SnapshotJournal.issue
  cases hr : m.recording j.snapshot with
  | none => exact ⟨t,rfl,h⟩
  | some r =>
    obtain ⟨t',hap,habs⟩ := m.applyEvent j.snapshot t (c.seq n) (c.ts n) hr h.key h.below
    have hsave := fun k => SnapshotJournal.entries_saveNowait c k { j with snapshot := r.mirror j.snapshot }
    refine ⟨{ t' with appliedSeq := c.seq n },?_,?_⟩
    · simp [SnapshotJournal.record,Stamps.entries,hsave,AgentSnapshot.applyEvents,hap]
    · have hcount : (j.record r).2.countP Submission.isAppend = 1 := by
        simp [SnapshotJournal.record,List.countP_cons,Submission.isAppend,(hsave 0).2]
      simp only [hcount,SnapshotJournal.record_snapshot]
      exact ⟨(habs.agree _ h.agree).withSeq _,habs.dated _ h.dated,
        (habs.undated h.undated).congr rfl,c.mono (Nat.lt_succ_self n)⟩

/-- A run keeps the two sides together. -/
theorem Mirrored.issueAll {c : Stamps} {n : ℕ} {j : SnapshotJournal} {t : AgentSnapshot}
    (h : Mirrored c n j.snapshot t) (ms : List Mutation) :
    ∃ t', t.applyEvents (c.entries n (j.issueAll ms).2) = .ok t' ∧
      Mirrored c (n + (j.issueAll ms).2.countP Submission.isAppend) (j.issueAll ms).1.snapshot t' := by
  induction ms generalizing n j t with
  | nil => exact ⟨t,rfl,h⟩
  | cons m rest ih =>
    obtain ⟨u,hu,hm⟩ := h.issue m
    obtain ⟨v,hv,hr⟩ := ih hm
    refine ⟨v,?_,?_⟩
    · simp only [SnapshotJournal.issueAll,Stamps.entries_append,AgentSnapshot.applyEvents,List.foldlM_append]
      exact (congrArg (· >>= _) hu).trans hv
    · simpa only [SnapshotJournal.issueAll,List.countP_append,Nat.add_assoc] using hr

theorem Mirrored.new (c : Stamps) (agentName sessionId : String) (snapshotInterval : ℕ) :
    Mirrored c 0 (SnapshotJournal.new agentName sessionId snapshotInterval).snapshot
      (.empty agentName sessionId) :=
  ⟨Agree.refl _,nofun,nofun,c.pos⟩

/-- The two sides are the same state exactly when no chain is pending. -/
theorem Mirrored.sameState_iff {c : Stamps} {n : ℕ} {s t : AgentSnapshot} (h : Mirrored c n s t) :
    SameState s t ↔ ∀ id, s.pendingChains.get? id = none := h.agree.sameState_iff h.dated h.undated

/-- The call removes the chain. -/
def Mutation.Settles (id : String) (m : Mutation) : Prop := m = .chainResolve id ∨ m = .chainTimeoutFired id

/-- Some registration of the chain is followed by no call that removes it. -/
def LeavesPending (id : String) (ms : List Mutation) : Prop :=
  ∃ before r after, ms = before ++ .chainRegister id r :: after ∧ ∀ m ∈ after, ¬ m.Settles id

/-- Every registered chain is resolved or timed out later in the run. -/
def Settled (ms : List Mutation) : Prop :=
  ∀ before id r after, ms = before ++ .chainRegister id r :: after → ∃ m ∈ after, m.Settles id

theorem settled_iff (ms : List Mutation) : Settled ms ↔ ∀ id, ¬ LeavesPending id ms := by
  simp only [Settled,LeavesPending,not_exists,not_and,not_forall,not_not,exists_prop]
  exact ⟨fun h id before r after he => h before id r after he,fun h before id r after he => h id before r after he⟩

theorem leavesPending_cons (id : String) (m : Mutation) (ms : List Mutation) :
    LeavesPending id (m :: ms) ↔
      LeavesPending id ms ∨ ((∃ r, m = .chainRegister id r) ∧ ∀ m ∈ ms, ¬ m.Settles id) := by
  constructor
  · rintro ⟨before,r,after,he,hafter⟩
    cases before with
    | nil =>
      obtain ⟨hm,hms⟩ := List.cons.inj he
      exact .inr ⟨⟨r,hm⟩,hms ▸ hafter⟩
    | cons b before => exact .inl ⟨before,r,after,(List.cons.inj he).2,hafter⟩
  · rintro (⟨before,r,after,rfl,hafter⟩ | ⟨⟨r,rfl⟩,hms⟩)
    · exact ⟨m :: before,r,after,rfl,hafter⟩
    · exact ⟨[],r,ms,rfl,hms⟩

/-- A chain is pending after a call when the call registers it, or it was pending and stays. -/
theorem SnapshotJournal.pending_issue_iff (j : SnapshotJournal) (m : Mutation) (id : String) :
    (j.issue m).1.snapshot.pendingChains.get? id ≠ none ↔
      (∃ r, m = .chainRegister id r) ∨ (j.snapshot.pendingChains.get? id ≠ none ∧ ¬ m.Settles id) := by
  unfold SnapshotJournal.issue
  cases m with
  | chainRegister chainId r =>
    by_cases h : id = chainId
    · subst h
      simp [Mutation.recording,recordChainRegister]
    · have h' : chainId ≠ id := fun e => h e.symm
      simp [Mutation.recording,recordChainRegister,Dict.get?_set,h,h',Mutation.Settles]
  | chainUpdate chainId u =>
    simp only [Mutation.recording,record_snapshot,recordChainUpdate_mirror]
    cases hc : j.snapshot.pendingChains.get? chainId with
    | none => simp [Mutation.Settles]
    | some chain =>
      by_cases h : id = chainId
      · subst h
        simp [hc,Mutation.Settles]
      · simp [Dict.get?_set,h,Mutation.Settles]
  | chainResolve chainId =>
    by_cases h : id = chainId
    · simp [Mutation.recording,recordChainResolve,dropChain,Dict.get?_pop,h,Mutation.Settles]
    · have h' : chainId ≠ id := fun e => h e.symm
      simp [Mutation.recording,recordChainResolve,dropChain,Dict.get?_pop,h,h',Mutation.Settles]
  | chainTimeoutFired chainId =>
    by_cases h : id = chainId
    · simp [Mutation.recording,recordChainTimeoutFired,dropChain,Dict.get?_pop,h,Mutation.Settles]
    · have h' : chainId ≠ id := fun e => h e.symm
      simp [Mutation.recording,recordChainTimeoutFired,dropChain,Dict.get?_pop,h,h',Mutation.Settles]
  | consumeInbox msgId =>
    cases msgId <;> simp [Mutation.recording,Reyn.consumeInbox,pruneInbox,Mutation.Settles]
  | cancelInbox msgId =>
    cases msgId with
    | none => simp [Mutation.recording,Reyn.cancelInbox,Mutation.Settles]
    | some msgId =>
      simp only [Mutation.recording,Reyn.cancelInbox]
      split <;> rename_i hr
      · simp_all [Mutation.Settles]
      · split at hr <;> cases hr
        simp [pruneInbox,Mutation.Settles]
  | _ =>
    simp [Mutation.recording,Mutation.Settles,Reyn.appendInbox,recordInterventionDispatched,
      recordInterventionResolved,recordInterventionAnswerBuffered,recordInterventionAnswerConsumed,
      recordNextTurnContextStaged,recordNextTurnContextCleared]

theorem SnapshotJournal.pending_issueAll_iff (j : SnapshotJournal) (ms : List Mutation) (id : String) :
    (j.issueAll ms).1.snapshot.pendingChains.get? id ≠ none ↔
      LeavesPending id ms ∨ (j.snapshot.pendingChains.get? id ≠ none ∧ ∀ m ∈ ms, ¬ m.Settles id) := by
  induction ms generalizing j with
  | nil => simp [SnapshotJournal.issueAll,LeavesPending]
  | cons m rest ih =>
    simp only [SnapshotJournal.issueAll,ih,SnapshotJournal.pending_issue_iff,leavesPending_cons,
      List.forall_mem_cons]
    tauto

/-- After any run the live snapshot and the replay of the written entries are the same
state, up to `applied_seq`, exactly when every registered chain has been settled. -/
theorem live_sameState_replay_iff (agentName sessionId : String) (snapshotInterval : ℕ) (c : Stamps)
    (ms : List Mutation) :
    (∃ t, (AgentSnapshot.empty agentName sessionId).applyEvents
        (c.entries 0 ((SnapshotJournal.new agentName sessionId snapshotInterval).issueAll ms).2) = .ok t ∧
      SameState ((SnapshotJournal.new agentName sessionId snapshotInterval).issueAll ms).1.snapshot t) ↔
    Settled ms := by
  obtain ⟨t,ht,hm⟩ := (Mirrored.new c agentName sessionId snapshotInterval).issueAll ms
  have hpending : (∀ id, ((SnapshotJournal.new agentName sessionId snapshotInterval).issueAll
      ms).1.snapshot.pendingChains.get? id = none) ↔ Settled ms := by
    rw [settled_iff]
    refine forall_congr' fun id => ?_
    rw [← not_iff_not,not_not]
    refine (SnapshotJournal.pending_issueAll_iff _ ms id).trans ?_
    simp [SnapshotJournal.new,AgentSnapshot.empty]
  rw [← hpending,← hm.sameState_iff]
  constructor
  · rintro ⟨u,hu,hs⟩
    rw [ht] at hu
    cases hu
    exact hs
  · exact fun hs => ⟨t,ht,hs⟩

def sampleChain : ChainRegistration := ⟨"user","main",0,"hi",["worker"],none,"2026-01-01T00:00:00"⟩

def sampleStamps : Stamps := ⟨fun n => n + 1,fun _ => "2026-01-01T00:00:01",Nat.one_pos,fun _ _ h => Nat.succ_lt_succ h⟩

/-- One pending chain: the live snapshot has its `registered_at`, the replay has not. -/
theorem live_not_sameState_replay :
    ¬ ∃ t, (AgentSnapshot.empty "a" "main").applyEvents (sampleStamps.entries 0
        ((SnapshotJournal.new "a" "main" 20).issueAll [.chainRegister "c" sampleChain]).2) = .ok t ∧
      SameState ((SnapshotJournal.new "a" "main" 20).issueAll [.chainRegister "c" sampleChain]).1.snapshot t := by
  obtain ⟨t,ht,hm⟩ := (Mirrored.new sampleStamps "a" "main" 20).issueAll [.chainRegister "c" sampleChain]
  rintro ⟨u,hu,hs⟩
  rw [ht] at hu
  cases hu
  have hnone := hm.sameState_iff.mp hs "c"
  revert hnone
  decide

end Reyn
