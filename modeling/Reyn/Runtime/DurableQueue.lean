import Reyn.Runtime.World

/-! # What waits at the worker, as one session sees it

The live snapshot of a session is what the log will hold of it once the worker has
drained. A payload that waits in the queue was captured between two appends of its
session, and the log will hold just that prefix when the payload is stamped.
-/
namespace Reyn
open Py

/-- The session a job was submitted for by a journal. -/
def Job.owner : Job → Option SessionKey
  | .append key _ _ | .snapshot key _ | .generation key _ => some key
  | .registryAppend _ | .acknowledge _ _ | .truncate _ => none

/-- Appends of journals are recordings of their sessions. -/
def Job.Sound : Job → Prop
  | .append key kind fields =>
    ∃ s m r, AgentSnapshot.key s = key ∧ Mutation.recording s m = some r ∧ r.kind = kind ∧ r.fields = fields
  | _ => True

/-- The jobs of the session carry the snapshot `u`, what the log holds now, to the live one. -/
inductive Tracks (key : SessionKey) : List Job → AgentSnapshot → AgentSnapshot → Prop
  | done {u live : AgentSnapshot} : Agree u live → Tracks key [] u live
  | append {rest : List Job} {u live s : AgentSnapshot} {m : Mutation} {r : Recording} : s.key = key →
      m.recording s = some r → Tracks key rest (r.mirror u) live →
      Tracks key (.append key r.kind r.fields :: rest) u live
  | snapshot {rest : List Job} {u live payload : AgentSnapshot} : Agree payload u → Tracks key rest u live →
      Tracks key (.snapshot key payload :: rest) u live
  | generation {rest : List Job} {u live payload : AgentSnapshot} : Agree payload u → Tracks key rest u live →
      Tracks key (.generation key payload :: rest) u live
  | other {job : Job} {rest : List Job} {u live : AgentSnapshot} : job.owner ≠ some key →
      Tracks key rest u live → Tracks key (job :: rest) u live

/-- Mirrors respect agreement. -/
theorem Mutation.mirror_agree {s : AgentSnapshot} {m : Mutation} {r : Recording} (hr : m.recording s = some r)
    {u v : AgentSnapshot} (h : Agree u v) : Agree (r.mirror u) (r.mirror v) := by
  obtain ⟨t,-,habs⟩ := m.replays s v 0 "" hr
  exact (habs.agree u h).trans (habs.agree v (Agree.refl v)).symm

namespace Tracks
variable {key : SessionKey} {queue : List Job} {u v live live' : AgentSnapshot}

theorem congr_left (h : Tracks key queue u live) (ha : Agree u v) : Tracks key queue v live := by
  induction h generalizing v with
  | done hu => exact .done (ha.symm.trans hu)
  | append hk hr _ ih => exact .append hk hr (ih (Mutation.mirror_agree hr ha))
  | snapshot hp _ ih => exact .snapshot (hp.trans ha) (ih ha)
  | generation hp _ ih => exact .generation (hp.trans ha) (ih ha)
  | other ho _ ih => exact .other ho (ih ha)

/-- More jobs at the end. -/
theorem concat {jobs : List Job} (h : Tracks key queue u live)
    (hj : ∀ u', Agree u' live → Tracks key jobs u' live') : Tracks key (queue ++ jobs) u live' := by
  induction h with
  | done hu => exact hj _ hu
  | append hk hr _ ih => exact .append hk hr (ih hj)
  | snapshot hp _ ih => exact .snapshot hp (ih hj)
  | generation hp _ ih => exact .generation hp (ih hj)
  | other ho _ ih => exact .other ho (ih hj)

theorem others {jobs : List Job} (hj : ∀ job ∈ jobs, job.owner ≠ some key) (hu : Agree u live) :
    Tracks key jobs u live := by
  induction jobs with
  | nil => exact .done hu
  | cons job rest ih =>
    exact .other (hj job List.mem_cons_self) (ih fun j hm => hj j (List.mem_cons_of_mem _ hm))

theorem congr_right (h : Tracks key queue u live) (ha : Agree live live') : Tracks key queue u live' := by
  have hnil : Tracks key (queue ++ []) u live' := h.concat fun u' hu => .done (hu.trans ha)
  rwa [List.append_nil] at hnil

/-- Jobs that are not the session's make no difference. -/
theorem concat_others {jobs : List Job} (h : Tracks key queue u live)
    (hj : ∀ job ∈ jobs, job.owner ≠ some key) : Tracks key (queue ++ jobs) u live :=
  h.concat fun _ hu => others hj hu

theorem tail_other {job : Job} (h : Tracks key (job :: queue) u live) (ho : job.owner ≠ some key) :
    Tracks key queue u live := by
  cases h with
  | append => exact absurd rfl ho
  | snapshot => exact absurd rfl ho
  | generation => exact absurd rfl ho
  | other _ ht => exact ht

theorem tail_append {kind : String} {fields : WalFields} (h : Tracks key (.append key kind fields :: queue) u live) :
    ∃ s m r, AgentSnapshot.key s = key ∧ Mutation.recording s m = some r ∧ r.kind = kind ∧ r.fields = fields ∧
      Tracks key queue (r.mirror u) live := by
  cases h with
  | append hk hr ht => exact ⟨_,_,_,hk,hr,rfl,rfl,ht⟩
  | other ho _ => exact absurd rfl ho

theorem tail_snapshot {payload : AgentSnapshot} (h : Tracks key (.snapshot key payload :: queue) u live) :
    Agree payload u ∧ Tracks key queue u live := by
  cases h with
  | snapshot hp ht => exact ⟨hp,ht⟩
  | other ho _ => exact absurd rfl ho

theorem tail_generation {payload : AgentSnapshot} (h : Tracks key (.generation key payload :: queue) u live) :
    Agree payload u ∧ Tracks key queue u live := by
  cases h with
  | generation hp ht => exact ⟨hp,ht⟩
  | other ho _ => exact absurd rfl ho

end Tracks

theorem Submission.owner_job (key : SessionKey) (sub : Submission) : (sub.job key).owner = some key := by
  cases sub <;> rfl

/-- What the journal submits for a mutation carries its old snapshot to its new one. -/
theorem SnapshotJournal.tracks_issue (j : SnapshotJournal) (m : Mutation) {u : AgentSnapshot}
    (hu : Agree u j.snapshot) :
    Tracks j.snapshot.key ((j.issue m).2.map (·.job j.snapshot.key)) u (j.issue m).1.snapshot := by
  unfold SnapshotJournal.issue
  cases hr : m.recording j.snapshot with
  | none => exact .done hu
  | some r =>
    have hmirror : Agree (r.mirror u) (r.mirror j.snapshot) := Mutation.mirror_agree hr hu
    have hsave : Tracks j.snapshot.key
        ((SnapshotJournal.saveNowait { j with snapshot := r.mirror j.snapshot }).2.map (·.job j.snapshot.key))
        (r.mirror u) (r.mirror j.snapshot) := by
      unfold SnapshotJournal.saveNowait
      split
      · exact .done hmirror
      · exact .snapshot hmirror.symm (.done hmirror)
    rw [SnapshotJournal.record_snapshot]
    exact .append rfl hr hsave

theorem SnapshotJournal.sound_issue (j : SnapshotJournal) (m : Mutation) :
    ∀ job ∈ (j.issue m).2.map (·.job j.snapshot.key), job.Sound := by
  unfold SnapshotJournal.issue
  cases hr : m.recording j.snapshot with
  | none => simp
  | some r =>
    have hsave : ∀ job ∈ (SnapshotJournal.saveNowait { j with snapshot := r.mirror j.snapshot }).2.map
        (·.job j.snapshot.key), job.Sound := by
      unfold SnapshotJournal.saveNowait
      split <;> simp [Submission.job,Job.Sound]
    intro job hjob
    rcases List.mem_cons.mp hjob with rfl | hjob
    · exact ⟨j.snapshot,m,r,rfl,hr,rfl,rfl⟩
    · exact hsave job hjob

theorem SnapshotJournal.issue_appliedSeq (j : SnapshotJournal) (m : Mutation) :
    (j.issue m).1.snapshot.appliedSeq = j.snapshot.appliedSeq := by
  unfold SnapshotJournal.issue
  cases hr : m.recording j.snapshot with
  | none => rfl
  | some r => exact (congrArg _ (SnapshotJournal.record_snapshot j r)).trans (Mutation.mirror_appliedSeq _ hr _)

theorem RegistryRecord.foreign (r : RegistryRecord) (seq : ℕ) (ts : String) :
    AgentSnapshot.eventRouteKey (walEntry seq ts r.kind r.fields) = none := by
  simp [AgentSnapshot.eventRouteKey,walEntry_getD,r.untargeted,r.unowned]

theorem checkout_foreign (seq : ℕ) (ts : String) (target : ℕ) (supersedes : Option ℕ) (scope : Scope) :
    AgentSnapshot.eventRouteKey (walEntry seq ts "rewind" (checkoutFields target supersedes scope)) = none := by
  cases scope <;>
    simp [AgentSnapshot.eventRouteKey,walEntry_getD,checkoutFields,Scope.tuple,Dict.lookup_cons]

/-- An ordinary line resets no lineage. -/
theorem WalLine.ordinary_record? (seq : ℕ) (ts kind : String) (fields : WalFields) (pos : 0 < seq)
    (hk : kind ≠ "rewind") : (WalLine.ordinary seq ts kind fields pos hk).record? = none := by
  simp [WalLine.record?,WalLine.ordinary,isRewind,hk]

theorem WalLine.reset_record? (seq : ℕ) (ts : String) (target : ℕ) (supersedes : Option ℕ) (scope : Scope)
    (h : target < seq) :
    (WalLine.reset seq ts target supersedes scope h).record? = some ⟨seq,target,scope.tuple⟩ := by
  have hr : isRewind (WalLine.reset seq ts target supersedes scope h).event = true := by
    simp [isRewind,WalLine.reset]
  simp only [WalLine.record?,hr,if_true]
  rw [WalLine.reset,decodeRewind_checkout]
  rfl

/-- A rewind's record is seen by the sessions it materialises and by no other. -/
theorem visible_iff_rewinds (r target : ℕ) (scope : Scope) (key : SessionKey) :
    RewindRecord.visible ⟨r,target,scope.tuple⟩ (some key) = World.rewinds scope key := by
  cases scope with
  | none => simp [RewindRecord.visible,Scope.tuple,World.rewinds]
  | some k => simp [RewindRecord.visible,Scope.tuple,World.rewinds,Prod.ext_iff]

end Reyn
