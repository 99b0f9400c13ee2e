import Reyn.Hooks.HookBus

/-! # When a composer fires

The background loop waits for the next event with a timeout and sweeps when none comes in
time. Beside it stands the composer that sweeps continuously: a record leaves at the very
moment its time is over.
-/
namespace Reyn
open Py Transition

/-- The ops whose records fire when their time is over; the others drop them then. -/
def ComposerOp.firesOnExpiry : ComposerOp → Bool
  | .window | .debounce | .deadline => true
  | .all | .any | .seq | .correlateBy | .count => false

namespace Composer
variable (lib : Payloads) (d : ComposerDef)

/-- `min(ttl, 1.0) or 1.0`; nothing expires by a sweep when the time to live is not finite. -/
def sweepInterval : ℚ :=
  match d.policy.ttlSeconds with
  | .finite ttl => if min ttl 1 = 0 then 1 else min ttl 1
  | _ => 1

/-- The loop of one composer: whether its task runs, its records, and the time it began to wait. The log and the events
are history. -/
structure Loop where
  running : Bool
  pending : Pending
  waitStart : ℚ
  log : List (ℚ × Effect)
  events : List (ℚ × HookEvent)

inductive LoopAction where
  | event (at_ : ℚ) (e : HookEvent)
  | timeout

namespace Loop

def start (t : ℚ) : Loop := ⟨true,.empty,t,[],[]⟩

/-- An event is taken before the timeout; a handler that raises ends the task, and later events go unheard. -/
def step (s : Loop) : LoopAction → Option Loop
  | .event t e =>
    if s.running then
      if s.waitStart ≤ t ∧ t ≤ s.waitStart + sweepInterval d then
        match handleEvent lib d t s.pending e with
        | some r => some ⟨true,r.1,t,s.log ++ r.2.map (t,·),s.events ++ [(t,e)]⟩
        | none => some { s with running := false, waitStart := t, events := s.events ++ [(t,e)] }
      else none
    else if s.waitStart ≤ t then some { s with waitStart := t, events := s.events ++ [(t,e)] }
    else none
  | .timeout =>
    if s.running then
      let t := s.waitStart + sweepInterval d
      let r := sweep lib d t s.pending
      some ⟨true,r.1,t,s.log ++ r.2.map (t,·),s.events⟩
    else none

end Loop

/-! ## Sweeping continuously -/

/-- When the time of a record is over. -/
def expiry (record : PendingRecord) : ℚ :=
  match d.policy.ttlSeconds with
  | .finite ttl => since d record + ttl
  | _ => since d record

/-- What leaves up to a time, each at the moment its time is over. -/
def expiries (t : ℚ) (pending : Pending) : List (ℚ × Effect) :=
  (pending.items.filter fun p => expired d t p.2).map fun p => (expiry d p.2,onExpiry lib d p.1 p.2)

/-- The records and the log after some events. -/
def continuous (events : List (ℚ × HookEvent)) : Option (Pending × List (ℚ × Effect)) :=
  events.foldlM (fun s p =>
    (handleEvent lib d p.1 (sweep lib d p.1 s.1).1 p.2).map fun r =>
      (r.1,s.2 ++ expiries lib d p.1 s.1 ++ r.2.map (p.1,·))) (.empty,[])

/-- What the composer that sweeps continuously has fired and dropped by a time. -/
def continuousLog (events : List (ℚ × HookEvent)) (t : ℚ) : Option (List (ℚ × Effect)) :=
  (continuous lib d events).map fun s => s.2 ++ expiries lib d t s.1

/-- The same effect, at most an interval later. -/
def Delayed (interval : ℚ) (x y : ℚ × Effect) : Prop := x.2 = y.2 ∧ y.1 ≤ x.1 ∧ x.1 ≤ y.1 + interval

/-- At a time, a log is that of the continuous sweep, with each effect delayed by an interval at most: those that are
still to come are less late than that. -/
def OnTime (interval t : ℚ) (log reference : List (ℚ × Effect)) : Prop := ∃ done due,
  reference.Perm (done ++ due) ∧ List.Forall₂ (Delayed interval) log done ∧ ∀ x ∈ due, t ≤ x.1 + interval

/-! ## What a handler does to the records -/

section Handlers
variable {lib d}

/-- What taking a record does. -/
structure Took (now : ℚ) (pending : Pending) (key : String) (result : Option PendingRecord × Pending × List Effect) :
    Prop where
  fate : ∀ k r, pending.get? k = some r →
    result.2.1.get? k = some r ∨ k ≠ key ∧ .dropped k "capacity_drop_oldest" ∈ result.2.2
  origin : ∀ k r, result.2.1.get? k = some r → pending.get? k = some r
  record : ∀ r, result.1 = some r → pending.get? key = some r ∨
    pending.get? key = none ∧ r.createdAt = now ∧ r.lastAt = now
  known : ∀ r, pending.get? key = some r → result.1 = some r

theorem oldest_mem {p : String × PendingRecord} (l : List (String × PendingRecord)) (o : Option (String × PendingRecord))
    (ho : l.foldl (fun oldest p => match oldest with
      | none => some p
      | some q => if p.2.createdAt < q.2.createdAt then some p else some q) o = some p) : p ∈ l ∨ o = some p := by
  induction l generalizing o with
  | nil => exact .inr ho
  | cons x rest ih =>
    rcases ih _ ho with hmem | hx
    · exact .inl (List.mem_cons_of_mem _ hmem)
    · dsimp only at hx
      split at hx
      · cases hx
        exact .inl List.mem_cons_self
      · split at hx
        · cases hx
          exact .inl List.mem_cons_self
        · exact .inr hx

theorem oldestKey_mem {pending : Pending} {p : String × PendingRecord} (h : oldestKey pending = some p) :
    p ∈ pending.items := by
  apply (oldest_mem pending.items none h).resolve_right
  intro hnone
  cases hnone

/-- What admission does: a key that is there stays, or is the one that is dropped. -/
theorem admitNewKey_fate {pending left : Pending} {key : String} {admitted : Bool} {effects : List Effect}
    (hnew : pending.get? key = none) (h : admitNewKey d pending key = (admitted,left,effects)) :
    (∀ k r, pending.get? k = some r → left.get? k = some r ∨ k ≠ key ∧ .dropped k "capacity_drop_oldest" ∈ effects) ∧
      ∀ k r, left.get? k = some r → pending.get? k = some r := by
  rw [admitNewKey] at h
  split at h
  · cases h
    exact ⟨fun _ _ hk => .inl hk,fun _ _ hk => hk⟩
  · split at h
    · split at h
      · rename_i oldest record hold
        cases h
        refine ⟨fun k r hk => ?_,fun k r hk => ?_⟩
        · by_cases hko : k = oldest
          · subst hko
            refine .inr ⟨?_,List.mem_singleton_self _⟩
            rintro rfl
            rw [hnew] at hk
            cases hk
          · exact .inl (by rw [Dict.get?_pop,if_neg hko,hk])
        · rw [Dict.get?_pop] at hk
          split at hk
          · cases hk
          · exact hk
      · cases h
        exact ⟨fun _ _ hk => .inl hk,fun _ _ hk => hk⟩
    · cases h
      exact ⟨fun _ _ hk => .inl hk,fun _ _ hk => hk⟩
    · cases h
      exact ⟨fun _ _ hk => .inl hk,fun _ _ hk => hk⟩

theorem recordOf_took (now : ℚ) (pending : Pending) (key : String) :
    Took now pending key (recordOf d now pending key) := by
  rw [recordOf]
  cases hget : pending.get? key with
  | some record =>
    exact ⟨fun _ _ hk => .inl hk,fun _ _ hk => hk,fun _ hr => .inl (hget.trans hr),fun _ hr => hget.symm.trans hr⟩
  | none =>
    dsimp only
    split
    · obtain ⟨hfate,horigin⟩ := admitNewKey_fate hget ‹_›
      refine ⟨hfate,horigin,fun r hr => .inr ⟨hget,?_⟩,fun r hr => ?_⟩
      · cases hr
        exact ⟨rfl,rfl⟩
      · rw [hget] at hr
        cases hr
    · obtain ⟨hfate,horigin⟩ := admitNewKey_fate hget ‹_›
      refine ⟨hfate,horigin,fun r hr => ?_,fun r hr => ?_⟩
      · cases hr
      · rw [hget] at hr
        cases hr

/-- The event is an input of the record's key. -/
def Concerns (lib : Payloads) (d : ComposerDef) (k : String) (e : HookEvent) : Prop :=
  correlationKey lib d e = k ∧ Wants lib d e

/-- The last moment of a record after an event: a debounce takes that of every event that concerns it. -/
def Touched (lib : Payloads) (d : ComposerDef) (now : ℚ) (e : HookEvent) (k : String) (r r' : PendingRecord) : Prop :=
  r'.lastAt = now ∧ Concerns lib d k e ∨ r'.lastAt = r.lastAt ∧ (d.op = .debounce → ¬ Concerns lib d k e)

/-- What an event makes of a record: it stays, with its first moment and perhaps a new last one, or its key is fired,
dropped or disarmed. -/
inductive Fate (lib : Payloads) (d : ComposerDef) (now : ℚ) (e : HookEvent) (k : String) (r : PendingRecord)
    (result : Pending × List Effect) : Prop
  | kept (r' : PendingRecord) (hk : result.1.get? k = some r') (hcreated : r'.createdAt = r.createdAt)
      (hlast : Touched lib d now e k r r')
  | fired (hop : d.op.firesOnExpiry = false) (x : HookEvent) (hmem : .fired k x ∈ result.2)
  | dropped (hmem : .dropped k "capacity_drop_oldest" ∈ result.2)
  | disarmed (hop : d.op = .deadline) (hkey : correlationKey lib d e = k)
      (huntil : ∃ u, d.untilInput = some u ∧ inputMatches lib u e = some true)

/-- What a handled event does to all records. -/
structure Handled (lib : Payloads) (d : ComposerDef) (now : ℚ) (e : HookEvent) (pending : Pending)
    (result : Pending × List Effect) : Prop where
  fate : ∀ k r, pending.get? k = some r → Fate lib d now e k r result
  origin : ∀ k r', result.1.get? k = some r' → r'.createdAt = now ∧ r'.lastAt = now ∨
    ∃ r, pending.get? k = some r ∧ r'.createdAt = r.createdAt ∧ (r'.lastAt = r.lastAt ∨ r'.lastAt = now)

theorem Handled.refl {now : ℚ} {e : HookEvent} (pending : Pending) (h : d.op = .debounce → ¬ Wants lib d e) :
    Handled lib d now e pending (pending,[]) :=
  ⟨fun _ r hk => .kept r hk rfl (.inr ⟨rfl,fun hop hconcerns => h hop hconcerns.2⟩),fun _ r' hk => .inr ⟨r',hk,rfl,.inl rfl⟩⟩

theorem buffer_handled {now : ℚ} {pending : Pending} {event : HookEvent} {key : String}
    {change : PendingRecord → PendingRecord} {complete : PendingRecord → Bool}
    (hconcerns : Concerns lib d key event) (hop : d.op ≠ .debounce)
    (hcomplete : ∀ r, complete r = true → d.op.firesOnExpiry = false)
    (hchange : ∀ r, (change r).createdAt = r.createdAt) :
    Handled lib d now event pending (buffer d now pending event key change complete) := by
  rw [buffer]
  have htook := recordOf_took (d := d) now pending key
  split
  · rename_i left effects hrecord
    rw [hrecord] at htook
    refine ⟨fun k r hk => ?_,fun k r' hk => .inr ⟨r',htook.origin k r' hk,rfl,.inl rfl⟩⟩
    rcases htook.fate k r hk with hleft | ⟨-,hdrop⟩
    · exact .kept r hleft rfl (.inr ⟨rfl,fun hdebounce => absurd hdebounce hop⟩)
    · exact .dropped hdrop
  · rename_i record left effects hrecord
    rw [hrecord] at htook
    dsimp only
    have hcreated : (change (appendEventBounded d record event key).1).createdAt = record.createdAt := hchange _
    have hold : ∀ r, pending.get? key = some r → record = r := fun r hr => Option.some.inj (htook.known r hr)
    split
    · rename_i hdone
      refine ⟨fun k r hk => ?_,fun k r' hk => ?_⟩
      · by_cases hkk : k = key
        · subst hkk
          exact .fired (hcomplete _ hdone) _ (List.mem_append_right _ (List.mem_singleton_self _))
        · rcases htook.fate k r hk with hleft | ⟨-,hdrop⟩
          · exact .kept r ((Dict.get?_pop ..).trans (by rw [if_neg hkk,hleft])) rfl (.inr ⟨rfl,fun hdebounce => absurd hdebounce hop⟩)
          · exact .dropped (List.mem_append_left _ (List.mem_append_left _ hdrop))
      · rw [Dict.get?_pop] at hk
        split at hk
        · cases hk
        · exact .inr ⟨r',htook.origin k r' hk,rfl,.inl rfl⟩
    · refine ⟨fun k r hk => ?_,fun k r' hk => ?_⟩
      · by_cases hkk : k = key
        · subst hkk
          obtain rfl := hold r hk
          exact .kept _ (Dict.get?_set_self ..) hcreated (.inl ⟨rfl,hconcerns⟩)
        · rcases htook.fate k r hk with hleft | ⟨-,hdrop⟩
          · exact .kept r ((Dict.get?_set_ne _ hkk _).trans hleft) rfl (.inr ⟨rfl,fun hdebounce => absurd hdebounce hop⟩)
          · exact .dropped (List.mem_append_left _ hdrop)
      · by_cases hkk : k = key
        · subst hkk
          obtain rfl := Option.some.inj ((Dict.get?_set_self ..).symm.trans hk)
          rcases htook.record record rfl with hrec | ⟨-,hnow,-⟩
          · exact .inr ⟨record,hrec,hcreated,.inr rfl⟩
          · exact .inl ⟨hcreated.trans hnow,rfl⟩
        · exact .inr ⟨r',htook.origin k r' ((Dict.get?_set_ne _ hkk _).symm.trans hk),rfl,.inl rfl⟩

theorem handleDebounce_handled {now : ℚ} {pending : Pending} {event : HookEvent} {key : String}
    (hconcerns : Concerns lib d key event) :
    Handled lib d now event pending (handleDebounce d now pending event key) := by
  rw [handleDebounce]
  have htook := recordOf_took (d := d) now pending key
  split
  · rename_i left effects hrecord
    rw [hrecord] at htook
    refine ⟨fun k r hk => ?_,fun k r' hk => .inr ⟨r',htook.origin k r' hk,rfl,.inl rfl⟩⟩
    rcases htook.fate k r hk with hleft | ⟨-,hdrop⟩
    · refine .kept r hleft rfl (.inr ⟨rfl,fun _ hk' => ?_⟩)
      obtain rfl := hconcerns.1.symm.trans hk'.1
      cases htook.known r hk
    · exact .dropped hdrop
  · rename_i record left effects hrecord
    rw [hrecord] at htook
    refine ⟨fun k r hk => ?_,fun k r' hk => ?_⟩
    · by_cases hkk : k = key
      · subst hkk
        obtain rfl := Option.some.inj (htook.known r hk)
        exact .kept _ (Dict.get?_set_self ..) rfl (.inl ⟨rfl,hconcerns⟩)
      · rcases htook.fate k r hk with hleft | ⟨-,hdrop⟩
        · exact .kept r ((Dict.get?_set_ne _ hkk _).trans hleft) rfl
            (.inr ⟨rfl,fun _ hk' => hkk (hk'.1.symm.trans hconcerns.1)⟩)
        · exact .dropped hdrop
    · by_cases hkk : k = key
      · subst hkk
        obtain rfl := Option.some.inj ((Dict.get?_set_self ..).symm.trans hk)
        rcases htook.record record rfl with hrec | ⟨-,hnow,-⟩
        · exact .inr ⟨record,hrec,rfl,.inr rfl⟩
        · exact .inl ⟨hnow,rfl⟩
      · exact .inr ⟨r',htook.origin k r' ((Dict.get?_set_ne _ hkk _).symm.trans hk),rfl,.inl rfl⟩

theorem handleDeadlineEvent_handled {now : ℚ} {pending : Pending} {event : HookEvent} {result : Pending × List Effect}
    (hop : d.op = .deadline) (h : handleDeadlineEvent lib d now pending event = some result) :
    Handled lib d now event pending result := by
  have hdebounce : d.op ≠ .debounce := by
    rw [hop]
    exact ComposerOp.noConfusion
  simp only [handleDeadlineEvent,bind,Option.bind_eq_some_iff,pure] at h
  obtain ⟨untilInput,huntil,matched,hmatched,h⟩ := h
  split at h
  · rename_i htrue
    subst htrue
    cases h
    refine ⟨fun k r hk => ?_,fun k r' hk => ?_⟩
    · by_cases hkk : k = correlationKey lib d event
      · exact .disarmed hop hkk.symm ⟨untilInput,huntil,hmatched⟩
      · exact .kept r ((Dict.get?_pop ..).trans (by rw [if_neg hkk,hk])) rfl (.inr ⟨rfl,fun hd => absurd hd hdebounce⟩)
    · rw [Dict.get?_pop] at hk
      split at hk
      · cases hk
      · exact .inr ⟨r',hk,rfl,.inl rfl⟩
  · obtain ⟨armInput,-,h⟩ := Option.bind_eq_some_iff.mp h
    obtain ⟨armed,-,h⟩ := Option.bind_eq_some_iff.mp h
    split at h
    · split at h
      · cases h
        exact .refl _ fun hd => absurd hd hdebounce
      · rename_i hnone
        rw [Option.not_isSome_iff_eq_none] at hnone
        split at h
        · cases h
          obtain ⟨hfate,horigin⟩ := admitNewKey_fate hnone ‹_›
          refine ⟨fun k r hk => ?_,fun k r' hk => ?_⟩
          · have hkk : k ≠ correlationKey lib d event := by
              rintro rfl
              rw [hnone] at hk
              cases hk
            rcases hfate k r hk with hleft | ⟨-,hdrop⟩
            · exact .kept r ((Dict.get?_set_ne _ hkk _).trans hleft) rfl (.inr ⟨rfl,fun hd => absurd hd hdebounce⟩)
            · exact .dropped hdrop
          · by_cases hkk : k = correlationKey lib d event
            · subst hkk
              obtain rfl := Option.some.inj ((Dict.get?_set_self ..).symm.trans hk)
              exact .inl ⟨rfl,rfl⟩
            · exact .inr ⟨r',horigin k r' ((Dict.get?_set_ne _ hkk _).symm.trans hk),rfl,.inl rfl⟩
        · cases h
          obtain ⟨hfate,horigin⟩ := admitNewKey_fate hnone ‹_›
          refine ⟨fun k r hk => ?_,fun k r' hk => .inr ⟨r',horigin k r' hk,rfl,.inl rfl⟩⟩
          rcases hfate k r hk with hleft | ⟨-,hdrop⟩
          · exact .kept r hleft rfl (.inr ⟨rfl,fun hd => absurd hd hdebounce⟩)
          · exact .dropped hdrop
    · cases h
      exact .refl _ fun hd => absurd hd hdebounce

theorem handleEvent_handled {now : ℚ} {pending : Pending} {event : HookEvent} {result : Pending × List Effect}
    (h : handleEvent lib d now pending event = some result) : Handled lib d now event pending result := by
  rw [handleEvent] at h
  split at h
  · exact handleDeadlineEvent_handled ‹_› h
  · simp only [bind,Option.bind_eq_some_iff,pure] at h
    obtain ⟨indices,hindices,h⟩ := h
    split at h
    · rename_i hnil
      cases h
      exact .refl _ fun _ => not_wants_of_indices (hnil ▸ hindices)
    · rename_i hne
      have hconcerns : Concerns lib d (correlationKey lib d event) event := ⟨rfl,wants_of_indices hindices hne⟩
      split at h
      · rename_i hop
        cases h
        refine ⟨fun _ r hk => .kept r hk rfl (.inr ⟨rfl,fun hdebounce => ?_⟩),fun _ r' hk => .inr ⟨r',hk,rfl,.inl rfl⟩⟩
        rw [hop] at hdebounce
        cases hdebounce
      · rename_i hop
        cases h
        exact buffer_handled hconcerns (by rw [hop]; exact ComposerOp.noConfusion) (fun _ _ => by rw [hop]; rfl) fun _ => rfl
      · rename_i hop
        cases h
        exact buffer_handled hconcerns (by rw [hop]; exact ComposerOp.noConfusion) (fun _ _ => by rw [hop]; rfl) fun _ => rfl
      · rename_i hop
        simp only [handleSeq,bind,Option.bind_eq_some_iff,pure] at h
        obtain ⟨expected,-,matched,-,h⟩ := h
        split at h
        · cases h
          exact buffer_handled hconcerns (by rw [hop]; exact ComposerOp.noConfusion) (fun _ _ => by rw [hop]; rfl) fun _ => rfl
        · cases h
          exact .refl _ fun hdebounce => by rw [hop] at hdebounce; cases hdebounce
      · rename_i hop
        cases h
        exact buffer_handled hconcerns (by rw [hop]; exact ComposerOp.noConfusion) (fun _ hc => Bool.noConfusion hc) fun _ => rfl
      · cases h
        exact handleDebounce_handled hconcerns
      · rename_i hop
        cases h
        exact buffer_handled hconcerns (by rw [hop]; exact ComposerOp.noConfusion) (fun _ _ => by rw [hop]; rfl) fun _ => rfl
      · rename_i hop
        exact absurd hop ‹_›

end Handlers

/-! ## The run of the loop -/

section Run
variable {lib d}

/-- No record is expired when an event comes in, and the handler does not raise. -/
def Regular (lib : Payloads) (d : ComposerDef) (s : Loop) : LoopAction → Prop
  | .event t e => (∀ p ∈ s.pending.items, expired d t p.2 = false) ∧ (handleEvent lib d t s.pending e).isSome
  | .timeout => True

variable (hpositive : ∀ ttl, d.policy.ttlSeconds = .finite ttl → 0 < ttl) (hlower : d.policy.ttlSeconds ≠ .negInf)

theorem expired_iff (hlower : d.policy.ttlSeconds ≠ .negInf) {t : ℚ} {r : PendingRecord} :
    expired d t r = true ↔ ∃ ttl, d.policy.ttlSeconds = .finite ttl ∧ since d r + ttl ≤ t := by
  rw [expired]
  cases httl : d.policy.ttlSeconds with
  | finite ttl =>
    simp only [reached,decide_eq_true_eq,PyFloat.finite.injEq,exists_eq_left']
    constructor <;> intro h <;> linarith
  | negInf => exact absurd httl hlower
  | inf => simp [reached]
  | nan => simp [reached]

include hlower in
theorem expired_mono {t t' : ℚ} (hle : t ≤ t') {r : PendingRecord} (h : expired d t r = true) :
    expired d t' r = true := by
  obtain ⟨ttl,httl,hover⟩ := (expired_iff hlower).mp h
  exact (expired_iff hlower).mpr ⟨ttl,httl,hover.trans hle⟩

include hlower in
theorem expiry_of_expired {t : ℚ} {r : PendingRecord} (h : expired d t r = true) : expiry d r ≤ t := by
  obtain ⟨ttl,httl,hover⟩ := (expired_iff hlower).mp h
  rw [expiry,httl]
  exact hover

include hlower in
/-- A record that is not expired at an earlier time and is at a later one ends in between. -/
theorem lt_expiry {t t' : ℚ} {r : PendingRecord} (h : expired d t r = false) (h' : expired d t' r = true) :
    t < expiry d r := by
  obtain ⟨ttl,httl,-⟩ := (expired_iff hlower).mp h'
  rw [expiry,httl]
  by_contra hle
  have hexpired := (expired_iff hlower).mpr ⟨ttl,httl,not_lt.mp hle⟩
  rw [h] at hexpired
  cases hexpired

include hlower in
/-- Sweeping at a later time that nothing is expired at changes nothing. -/
theorem sweep_later {w t : ℚ} {pending : Pending} (hle : w ≤ t)
    (hfresh : ∀ p ∈ (sweep lib d w pending).1.items, expired d t p.2 = false) :
    (sweep lib d t pending).1 = (sweep lib d w pending).1 ∧ expiries lib d t pending = expiries lib d w pending := by
  have hsame : ∀ p ∈ pending.items, expired d t p.2 = expired d w p.2 := by
    intro p hp
    cases hw : expired d w p.2 with
    | true => exact expired_mono hlower hle hw
    | false =>
      apply hfresh p
      rw [sweep_items]
      exact List.mem_filter.mpr ⟨hp,by rw [hw]; rfl⟩
  refine ⟨Dict.ext_items ?_,?_⟩
  · rw [sweep_items,sweep_items]
    exact List.filter_congr fun p hp => by rw [hsame p hp]
  · rw [expiries,expiries,List.filter_congr fun p hp => hsame p hp]

include hlower in
/-- Two sweeps are one, and what leaves leaves at the first or at the second. -/
theorem sweep_sweep {w t : ℚ} {pending : Pending} (hle : w ≤ t) :
    (sweep lib d t pending).1 = (sweep lib d t (sweep lib d w pending).1).1 ∧
      (expiries lib d t pending).Perm (expiries lib d w pending ++ expiries lib d t (sweep lib d w pending).1) := by
  refine ⟨Dict.ext_items ?_,?_⟩
  · rw [sweep_items,sweep_items,sweep_items,List.filter_filter]
    apply List.filter_congr
    intro p _
    cases hw : expired d w p.2 with
    | true => rw [expired_mono hlower hle hw]; rfl
    | false => simp
  · rw [expiries,expiries,expiries,← List.map_append,sweep_items]
    apply List.Perm.map
    have hsplit := ((List.filter_append_perm (fun p => expired d w p.2) pending.items).filter
      fun p => expired d t p.2).symm
    rw [List.filter_append,List.filter_filter] at hsplit
    refine hsplit.trans (List.Perm.append_right _ (List.Perm.of_eq ?_))
    apply List.filter_congr
    intro p _
    cases hw : expired d w p.2 with
    | true => rw [expired_mono hlower hle hw]; rfl
    | false => simp

include hpositive hlower in
/-- A record that a handler touches is not expired right after it. -/
theorem Handled.fresh {now : ℚ} {e : HookEvent} {pending : Pending} {result : Pending × List Effect}
    (h : Handled lib d now e pending result) (hfresh : ∀ p ∈ pending.items, expired d now p.2 = false) :
    ∀ p ∈ result.1.items, expired d now p.2 = false := by
  intro p hp
  rw [Bool.eq_false_iff]
  intro hexpired
  obtain ⟨ttl,httl,hover⟩ := (expired_iff hlower).mp hexpired
  have hpos := hpositive ttl httl
  have hnow : since d p.2 = now → False := fun hs => by linarith
  rcases h.origin p.1 p.2 (Dict.get?_of_mem hp) with ⟨hc,hl⟩ | ⟨r,hr,hc,hl⟩
  · apply hnow
    rw [since,hc,hl,ite_self]
  · have hold := hfresh (p.1,r) (Dict.mem_of_get? hr)
    have hsince : since d p.2 = since d r ∨ since d p.2 = now := by
      rw [since,since,hc]
      split
      · exact hl
      · exact .inl rfl
    rcases hsince with hsame | hs
    · have := (expired_iff hlower).mpr ⟨ttl,httl,hsame ▸ hover⟩
      rw [hold] at this
      cases this
    · exact hnow hs

/-- The log so far is the continuous one, each effect at most an interval late, and the records are the same. -/
structure Loop.Inv (lib : Payloads) (d : ComposerDef) (s : Loop) : Prop where
  running : s.running = true
  fresh : ∀ p ∈ s.pending.items, expired d s.waitStart p.2 = false
  tracked : ∃ c, continuous lib d s.events = some c ∧ (sweep lib d s.waitStart c.1).1 = s.pending ∧
    ∃ done, (c.2 ++ expiries lib d s.waitStart c.1).Perm done ∧ List.Forall₂ (Delayed (sweepInterval d)) s.log done

theorem sweepInterval_pos (hpositive : ∀ ttl, d.policy.ttlSeconds = .finite ttl → 0 < ttl) : 0 < sweepInterval d := by
  rw [sweepInterval]
  split
  · split
    · exact one_pos
    · exact lt_min (hpositive _ ‹_›) one_pos
  · exact one_pos

/-- What happens at once is not delayed. -/
theorem forall₂_delayed_now (hpositive : ∀ ttl, d.policy.ttlSeconds = .finite ttl → 0 < ttl) (l : List (ℚ × Effect)) :
    List.Forall₂ (Delayed (sweepInterval d)) l l := by
  apply List.forall₂_same.mpr
  intro x _
  exact ⟨rfl,le_rfl,le_add_of_nonneg_right (sweepInterval_pos hpositive).le⟩

theorem continuous_concat (events : List (ℚ × HookEvent)) (t : ℚ) (e : HookEvent) {c : Pending × List (ℚ × Effect)}
    (h : continuous lib d events = some c) : continuous lib d (events ++ [(t,e)]) =
      (handleEvent lib d t (sweep lib d t c.1).1 e).map fun r =>
        (r.1,c.2 ++ expiries lib d t c.1 ++ r.2.map (t,·)) := by
  rw [continuous] at h ⊢
  rw [List.foldlM_append,h]
  simp

include hpositive hlower in
theorem Loop.Inv.step {s s' : Loop} {a : LoopAction} (h : Loop.Inv lib d s) (hreg : Regular lib d s a)
    (hs : Loop.step lib d s a = some s') : Loop.Inv lib d s' := by
  obtain ⟨hrunning,hfresh,c,hc,hpending,done,hperm,hdelayed⟩ := h
  cases a with
  | event t e =>
    obtain ⟨hexpired,hsome⟩ := hreg
    rw [Loop.step,if_pos hrunning] at hs
    obtain ⟨⟨hle,-⟩,hs⟩ := Option.ite_none_right_eq_some.mp hs
    obtain ⟨r,hr⟩ := Option.isSome_iff_exists.mp hsome
    rw [hr] at hs
    cases hs
    have hfresh' := (handleEvent_handled hr).fresh hpositive hlower hexpired
    obtain ⟨hsweep,hexpiries⟩ := @sweep_later lib _ hlower _ _ _ hle (hpending ▸ hexpired)
    refine ⟨rfl,hfresh',(r.1,c.2 ++ expiries lib d t c.1 ++ r.2.map (t,·)),?_,?_,?_⟩
    · rw [continuous_concat s.events t e hc,hsweep,hpending,hr]
      rfl
    · apply Dict.ext_items
      rw [sweep_items,List.filter_eq_self]
      intro p hp
      rw [hfresh' p hp]
      rfl
    · have hnone : expiries lib d t r.1 = [] := by
        rw [expiries,List.filter_eq_nil_iff.mpr,List.map_nil]
        intro p hp
        rw [hfresh' p hp]
        exact Bool.false_ne_true
      refine ⟨done ++ r.2.map (t,·),?_,List.rel_append hdelayed (forall₂_delayed_now hpositive _)⟩
      rw [hnone,List.append_nil,hexpiries]
      exact hperm.append_right _
  | timeout =>
    rw [Loop.step,if_pos hrunning] at hs
    cases hs
    have hpos := sweepInterval_pos hpositive
    obtain ⟨hsweep,hexpiries⟩ := @sweep_sweep lib _ hlower _ _ c.1
      (le_add_of_nonneg_right hpos.le : s.waitStart ≤ s.waitStart + sweepInterval d)
    rw [hpending] at hsweep hexpiries
    refine ⟨rfl,?_,c,hc,hsweep,done ++ expiries lib d (s.waitStart + sweepInterval d) s.pending,?_,?_⟩
    · intro p hp
      rw [sweep_items] at hp
      simpa using (List.mem_filter.mp hp).2
    · refine (List.Perm.append_left c.2 hexpiries).trans ?_
      rw [← List.append_assoc]
      exact hperm.append_right _
    · apply List.rel_append hdelayed
      rw [sweep,expiries,List.map_map]
      rw [List.forall₂_map_left_iff,List.forall₂_map_right_iff,List.forall₂_same]
      intro p hp
      obtain ⟨hmem,hexpired⟩ := List.mem_filter.mp hp
      refine ⟨rfl,expiry_of_expired hlower hexpired,?_⟩
      have hlt := lt_expiry hlower (hfresh p hmem) hexpired
      dsimp only [Function.comp_apply]
      linarith

theorem Loop.Inv.start (t : ℚ) : Loop.Inv lib d (.start t) :=
  ⟨rfl,fun _ hp => absurd hp List.not_mem_nil,(.empty,[]),rfl,rfl,[],.refl [],.nil⟩

include hpositive hlower in
theorem Loop.Inv.run {s s' : Loop} (hs : Loop.Inv lib d s) (h : Runs (Loop.step lib d) (Regular lib d) s s') :
    Loop.Inv lib d s' :=
  h.invariant hs fun _ _ _ hs hreg hstep => hs.step hpositive hlower hreg hstep

include hlower in
/-- Until the next sweep the log is on time. -/
theorem Loop.Inv.onTime {s : Loop} (h : Loop.Inv lib d s) {t : ℚ} (hle : s.waitStart ≤ t)
    (hlt : t ≤ s.waitStart + sweepInterval d) :
    ∃ reference, continuousLog lib d s.events t = some reference ∧ OnTime (sweepInterval d) t s.log reference := by
  obtain ⟨-,hfresh,c,hc,hpending,done,hperm,hdelayed⟩ := h
  refine ⟨c.2 ++ expiries lib d t c.1,by rw [continuousLog,hc]; rfl,done,expiries lib d t s.pending,?_,hdelayed,?_⟩
  · have hexpiries := (@sweep_sweep lib _ hlower _ _ c.1 hle).2
    rw [hpending] at hexpiries
    refine (List.Perm.append_left c.2 hexpiries).trans ?_
    rw [← List.append_assoc]
    exact hperm.append_right _
  · intro x hx
    obtain ⟨p,hp,rfl⟩ := List.mem_map.mp hx
    obtain ⟨hmem,hexpired⟩ := List.mem_filter.mp hp
    have hlate := lt_expiry hlower (hfresh p hmem) hexpired
    dsimp only
    linarith

/-! ## What becomes of a record -/

/-- A record as it is after some events: its first moment, and as its last one that of the last event that concerns it. -/
structure Kept (lib : Payloads) (d : ComposerDef) (k : String) (r last : PendingRecord) (heard : List (ℚ × HookEvent)) :
    Prop where
  created : last.createdAt = r.createdAt
  touched : last.lastAt = r.lastAt ∨ ∃ e, (last.lastAt,e) ∈ heard ∧ Concerns lib d k e
  latest : d.op = .debounce → ∀ p ∈ heard, Concerns lib d k p.2 → p.1 ≤ last.lastAt

/-- How a record came to its end at a time: its time was over, or it was complete, dropped for another key or disarmed
before that. -/
inductive Ended (lib : Payloads) (d : ComposerDef) (ttl : ℚ) (k : String) (last : PendingRecord) (t : ℚ)
    (events : List (ℚ × HookEvent)) (log : List (ℚ × Effect)) : Prop
  | expired (hmem : (t,onExpiry lib d k last) ∈ log) (hover : since d last + ttl ≤ t)
      (hsoon : t ≤ since d last + ttl + sweepInterval d)
  | completed (hop : d.op.firesOnExpiry = false) (x : HookEvent) (hmem : (t,.fired k x) ∈ log)
      (hbefore : t < since d last + ttl)
  | dropped (hmem : (t,.dropped k "capacity_drop_oldest") ∈ log) (hbefore : t < since d last + ttl)
  | disarmed (hop : d.op = .deadline) (e : HookEvent) (hmem : (t,e) ∈ events) (hkey : correlationKey lib d e = k)
      (huntil : ∃ u, d.untilInput = some u ∧ inputMatches lib u e = some true) (hbefore : t < since d last + ttl)

/-- The course of a record through later events: it is still there and its time is not over, or it came to its end. -/
inductive Course (lib : Payloads) (d : ComposerDef) (ttl : ℚ) (k : String) (r : PendingRecord)
    (events : List (ℚ × HookEvent)) (log : List (ℚ × Effect)) (s : Loop) : Prop
  | pending (last : PendingRecord) (hkept : Kept lib d k r last events) (hget : s.pending.get? k = some last)
      (hbefore : s.waitStart < since d last + ttl)
  | ended (last : PendingRecord) (t : ℚ) (heard later : List (ℚ × HookEvent)) (hevents : events = heard ++ later)
      (hkept : Kept lib d k r last heard) (hlater : ∀ p ∈ later, t ≤ p.1) (hpast : t ≤ s.waitStart)
      (hend : Ended lib d ttl k last t events log)

theorem Kept.refl (k : String) (r : PendingRecord) : Kept lib d k r r [] := ⟨rfl,.inl rfl,nofun⟩

theorem Kept.touch {k : String} {r last last' : PendingRecord} {heard : List (ℚ × HookEvent)} {now : ℚ} {e : HookEvent}
    (h : Kept lib d k r last heard) (hpast : ∀ p ∈ heard, p.1 ≤ now) (hcreated : last'.createdAt = last.createdAt)
    (htouched : Touched lib d now e k last last') : Kept lib d k r last' (heard ++ [(now,e)]) := by
  refine ⟨hcreated.trans h.created,?_,fun hop p hp hconcerns => ?_⟩
  · rcases htouched with ⟨hnow,hconcerns⟩ | ⟨hsame,-⟩
    · exact .inr ⟨e,by rw [hnow]; exact List.mem_append_right _ (List.mem_singleton_self _),hconcerns⟩
    · rw [hsame]
      exact h.touched.imp_right fun ⟨e',he',hconcerns⟩ => ⟨e',List.mem_append_left _ he',hconcerns⟩
  · rcases htouched with ⟨hnow,-⟩ | ⟨hsame,hnot⟩
    · rw [hnow]
      rcases List.mem_append.mp hp with hp | hp
      · exact hpast p hp
      · cases List.mem_singleton.mp hp
        exact le_rfl
    · rw [hsame]
      rcases List.mem_append.mp hp with hp | hp
      · exact h.latest hop p hp hconcerns
      · cases List.mem_singleton.mp hp
        exact absurd hconcerns (hnot hop)

theorem Ended.mono {ttl t : ℚ} {k : String} {last : PendingRecord} {events events' : List (ℚ × HookEvent)}
    {log log' : List (ℚ × Effect)} (h : Ended lib d ttl k last t events log) (hevents : events ⊆ events')
    (hlog : log ⊆ log') : Ended lib d ttl k last t events' log' := by
  cases h with
  | expired hmem hover hsoon => exact .expired (hlog hmem) hover hsoon
  | completed hop x hmem hbefore => exact .completed hop x (hlog hmem) hbefore
  | dropped hmem hbefore => exact .dropped (hlog hmem) hbefore
  | disarmed hop e hmem hkey huntil hbefore => exact .disarmed hop e (hevents hmem) hkey huntil hbefore

/-- An event before the time of the record is over. -/
theorem Fate.course {ttl t : ℚ} {k : String} {r last : PendingRecord} {events : List (ℚ × HookEvent)}
    {log : List (ℚ × Effect)} {e : HookEvent} {result : Pending × List Effect} {s : Loop}
    (h : Fate lib d t e k last result) (hkept : Kept lib d k r last events) (hpast : ∀ p ∈ events, p.1 ≤ t)
    (hbefore : t < since d last + ttl) (httl : 0 < ttl) (hs : s.pending = result.1) (ht : s.waitStart = t) :
    Course lib d ttl k r (events ++ [(t,e)]) (log ++ result.2.map (t,·)) s := by
  have hnow : ∀ {x}, x ∈ result.2 → (t,x) ∈ log ++ result.2.map (t,·) := fun hx =>
    List.mem_append_right _ (List.mem_map_of_mem hx)
  have hlater : ∀ p ∈ [(t,e)], t ≤ p.1 := by
    intro p hp
    cases List.mem_singleton.mp hp
    exact le_rfl
  cases h with
  | kept r' hk hcreated hlast =>
    refine .pending r' (hkept.touch hpast hcreated hlast) (hs ▸ hk) ?_
    have hsince : since d r' = since d last ∨ since d r' = t := by
      rw [since,since,hcreated]
      split
      · exact hlast.symm.imp And.left And.left
      · exact .inl rfl
    rcases hsince with hsame | hs
    · rw [ht,hsame]
      exact hbefore
    · linarith
  | fired hop x hmem => exact .ended last t events _ rfl hkept hlater ht.ge (.completed hop x (hnow hmem) hbefore)
  | dropped hmem => exact .ended last t events _ rfl hkept hlater ht.ge (.dropped (hnow hmem) hbefore)
  | disarmed hop hkey huntil =>
    refine .ended last t events _ rfl hkept hlater ht.ge (.disarmed hop e ?_ hkey huntil hbefore)
    exact List.mem_append_right _ (List.mem_singleton_self _)

/-- What happened since a state in which the record was pending. -/
structure Followed (lib : Payloads) (d : ComposerDef) (ttl : ℚ) (k : String) (r : PendingRecord) (s₀ s : Loop)
    (events : List (ℚ × HookEvent)) (log : List (ℚ × Effect)) : Prop where
  events_eq : s.events = s₀.events ++ events
  log_eq : s.log = s₀.log ++ log
  past : ∀ p ∈ events, p.1 ≤ s.waitStart
  course : Course lib d ttl k r events log s

include hlower in
theorem Followed.start {ttl : ℚ} {k : String} {r : PendingRecord} {s₀ : Loop} (h : Loop.Inv lib d s₀)
    (httl : d.policy.ttlSeconds = .finite ttl) (hr : s₀.pending.get? k = some r) :
    Followed lib d ttl k r s₀ s₀ [] [] := by
  refine ⟨(List.append_nil _).symm,(List.append_nil _).symm,nofun,.pending r (.refl k r) hr ?_⟩
  by_contra hle
  have hexpired := (expired_iff hlower).mpr ⟨ttl,httl,not_lt.mp hle⟩
  rw [h.fresh (k,r) (Dict.mem_of_get? hr)] at hexpired
  cases hexpired

include hpositive hlower in
theorem Followed.step {ttl : ℚ} {k : String} {r : PendingRecord} {s₀ s s' : Loop} {a : LoopAction}
    {events : List (ℚ × HookEvent)} {log : List (ℚ × Effect)} (h : Followed lib d ttl k r s₀ s events log)
    (hinv : Loop.Inv lib d s) (httl : d.policy.ttlSeconds = .finite ttl) (hreg : Regular lib d s a)
    (hs : Loop.step lib d s a = some s') : ∃ events' log', Followed lib d ttl k r s₀ s' events' log' := by
  obtain ⟨hevents,hlog,hpast,hcourse⟩ := h
  cases a with
  | event t e =>
    obtain ⟨hexpired,hsome⟩ := hreg
    rw [Loop.step,if_pos hinv.running] at hs
    obtain ⟨⟨hle,-⟩,hs'⟩ := Option.ite_none_right_eq_some.mp hs
    obtain ⟨result,hresult⟩ := Option.isSome_iff_exists.mp hsome
    rw [hresult] at hs'
    cases hs'
    have hpast' : ∀ p ∈ events, p.1 ≤ t := fun p hp => (hpast p hp).trans hle
    refine ⟨events ++ [(t,e)],log ++ result.2.map (t,·),?_,?_,?_,?_⟩
    · rw [hevents,List.append_assoc]
    · rw [hlog,List.append_assoc]
    · intro p hp
      rcases List.mem_append.mp hp with hp | hp
      · exact hpast' p hp
      · cases List.mem_singleton.mp hp
        exact le_rfl
    · cases hcourse with
      | pending last hkept hget hbefore =>
        have hnot : t < since d last + ttl := by
          by_contra hover
          have := (expired_iff hlower).mpr ⟨ttl,httl,not_lt.mp hover⟩
          rw [hexpired (k,last) (Dict.mem_of_get? hget)] at this
          cases this
        exact ((handleEvent_handled hresult).fate k last hget).course hkept hpast' hnot (hpositive ttl httl) rfl rfl
      | ended last t' heard later heq hkept hlater hpast hend =>
        refine .ended last t' heard (later ++ [(t,e)]) (by rw [heq,List.append_assoc]) hkept ?_ (hpast.trans hle) ?_
        · intro p hp
          rcases List.mem_append.mp hp with hp | hp
          · exact hlater p hp
          · cases List.mem_singleton.mp hp
            exact hpast.trans hle
        · exact hend.mono (List.subset_append_left ..) (List.subset_append_left ..)
  | timeout =>
    rw [Loop.step,if_pos hinv.running] at hs
    cases hs
    have hpos := sweepInterval_pos hpositive
    have hle : s.waitStart ≤ s.waitStart + sweepInterval d := le_add_of_nonneg_right hpos.le
    refine ⟨events,_,hevents,by rw [hlog,List.append_assoc],fun p hp => (hpast p hp).trans hle,?_⟩
    cases hcourse with
    | pending last hkept hget hbefore =>
      by_cases hover : since d last + ttl ≤ s.waitStart + sweepInterval d
      · refine .ended last _ events [] (List.append_nil _).symm hkept nofun le_rfl (.expired ?_ hover ?_)
        · apply List.mem_append_right
          apply List.mem_map_of_mem
          rw [sweep]
          apply List.mem_map.mpr
          exact ⟨(k,last),List.mem_filter.mpr ⟨Dict.mem_of_get? hget,(expired_iff hlower).mpr ⟨ttl,httl,hover⟩⟩,rfl⟩
        · linarith
      · refine .pending last hkept ?_ (not_le.mp hover)
        apply Dict.get?_of_mem
        rw [sweep_items]
        refine List.mem_filter.mpr ⟨Dict.mem_of_get? hget,?_⟩
        rw [Bool.not_eq_true',Bool.eq_false_iff]
        intro hexpired
        obtain ⟨ttl',httl',hover'⟩ := (expired_iff hlower).mp hexpired
        cases httl.symm.trans httl'
        exact hover hover'
    | ended last t' heard later heq hkept hlater hpast hend =>
      exact .ended last t' heard later heq hkept hlater (hpast.trans hle) (hend.mono (List.Subset.refl _)
        (List.subset_append_left ..))

include hpositive hlower in
theorem Followed.run {ttl : ℚ} {k : String} {r : PendingRecord} {s₀ s : Loop} (h₀ : Loop.Inv lib d s₀)
    (httl : d.policy.ttlSeconds = .finite ttl) (hr : s₀.pending.get? k = some r)
    (h : Runs (Loop.step lib d) (Regular lib d) s₀ s) : ∃ events log, Followed lib d ttl k r s₀ s events log := by
  have hboth := h.invariant (I := fun s => Loop.Inv lib d s ∧ ∃ events log, Followed lib d ttl k r s₀ s events log)
    ⟨h₀,[],[],.start hlower h₀ httl hr⟩ fun s a s' ⟨hinv,_,_,hf⟩ hreg hstep =>
      ⟨hinv.step hpositive hlower hreg hstep,hf.step hpositive hlower hinv httl hreg hstep⟩
  exact hboth.2

end Run

end Composer

/-! ## The definitions that are loaded -/

namespace Composer
variable {floatOf : String → Option PyFloat} {lib : Payloads} {raw : Value} {defs : List ComposerDef} {d : ComposerDef}

theorem ttl_of_load (hload : ComposerConfig.loadComposers floatOf raw = .ok defs) (hd : d ∈ defs) :
    (∀ ttl, d.policy.ttlSeconds = .finite ttl → 0 < ttl) ∧ d.policy.ttlSeconds ≠ .negInf := by
  have hpositive := ComposerConfig.loadComposers_positive hload d hd
  constructor
  · intro ttl httl
    rw [httl] at hpositive
    exact hpositive
  · intro httl
    rw [httl] at hpositive
    exact hpositive

/-- What a composer has fired and dropped depends only on when its events happened: until the next sweep the log is that
of the composer that sweeps continuously, each effect at most an interval late, and every record follows its course. -/
structure FiresOnTime (lib : Payloads) (d : ComposerDef) (begun : ℚ) (guard : Loop → LoopAction → Prop) (s : Loop) : Prop where
  onTime : ∀ t, s.waitStart ≤ t → t ≤ s.waitStart + sweepInterval d → ∃ reference,
    continuousLog lib d s.events t = some reference ∧ OnTime (sweepInterval d) t s.log reference
  course : ∀ s₀ ttl k r, Runs (Loop.step lib d) guard (.start begun) s₀ → Runs (Loop.step lib d) guard s₀ s →
    d.policy.ttlSeconds = .finite ttl → s₀.pending.get? k = some r → ∃ events log, Followed lib d ttl k r s₀ s events log

/-- A composer that has no expired record when an event comes in, and whose handlers do not raise, is on time. -/
theorem fires_on_time (hload : ComposerConfig.loadComposers floatOf raw = .ok defs) (hd : d ∈ defs) {begun : ℚ}
    {s : Loop} (h : Runs (Loop.step lib d) (Regular lib d) (.start begun) s) :
    FiresOnTime lib d begun (Regular lib d) s := by
  obtain ⟨hpositive,hlower⟩ := ttl_of_load hload hd
  refine ⟨fun t hle hlt => ?_,fun s₀ ttl k r h₀ hs httl hr => ?_⟩
  · exact ((Loop.Inv.start begun).run hpositive hlower h).onTime hlower hle hlt
  · exact Followed.run hpositive hlower ((Loop.Inv.start begun).run hpositive hlower h₀) httl hr hs

section Sample

/-- A deadline of one second. -/
def reply : ComposerDef :=
  ⟨"reply",.deadline,[⟨"asked",none⟩],"composed:reply",{ ttlSeconds := .finite 1 },none,none,some ⟨"answered",none⟩,true⟩

def replyRaw : Value :=
  .list [.dict [(.str "name",.str "reply"),(.str "op",.str "deadline"),(.str "on",.str "asked"),
    (.str "until",.dict [(.str "on",.str "answered")]),(.str "ttl",.int 1)]]

theorem parseDuration_one : ComposerConfig.parseDuration (fun _ => none) (.int 1) = .ok (.finite 1) := by
  have hgap : ∀ m n : ℕ, 1 ≤ m → m < n → 1 < 2 ^ n - 2 ^ m := by
    intro m n hm hmn
    have htwo : 2 ^ 1 ≤ 2 ^ m := Nat.pow_le_pow_right two_pos hm
    have hdouble : 2 ^ (m + 1) ≤ 2 ^ n := Nat.pow_le_pow_right two_pos hmn
    rw [pow_succ] at hdouble
    omega
  have hrange : Int.natAbs 1 < ComposerConfig.floatRange := by
    rw [Int.natAbs_one]
    unfold ComposerConfig.floatRange
    apply hgap
    · decide
    · decide
  rw [ComposerConfig.parseDuration,if_pos hrange]
  rfl

theorem loadComposers_reply : ComposerConfig.loadComposers (fun _ => none) replyRaw = .ok [reply] := by
  have hpolicy : ComposerConfig.parsePolicy (fun _ => none) (.dict [(.str "ttl",.int 1)]) "reply" =
      .ok { ttlSeconds := .finite 1 } := by
    rw [ComposerConfig.parsePolicy]
    change (ComposerConfig.parseDuration _ (.int 1)).bind _ = _
    rw [parseDuration_one]
    rfl
  have hone : ∀ entry, replyRaw = .list [entry] → ComposerConfig.parseOne (fun _ => none) entry 0 = .ok reply := by
    intro entry hentry
    cases hentry
    rw [ComposerConfig.parseOne]
    change (ComposerConfig.parsePolicy (fun _ => none) (.dict [(.str "ttl",.int 1)]) "reply").bind _ = _
    rw [hpolicy]
    rfl
  rw [replyRaw,ComposerConfig.loadComposers,ComposerConfig.parseAll,List.zipIdx_singleton,List.mapM_cons,hone _ rfl]
  rfl

def plain : Payloads := ⟨fun _ => "",fun _ _ => false,fun _ => .none⟩

instance (s : Loop) : (a : LoopAction) → Decidable (Regular plain reply s a)
  | .event _ _ => inferInstanceAs (Decidable (_ ∧ _))
  | .timeout => .isTrue trivial

/-- Nothing answers. -/
def missedRun : Computed (runChecked (Loop.step plain reply) (fun s a => decide (Regular plain reply s a)) (.start 0)
    [.event 0 ⟨"asked",.empty⟩,.event (1/2) ⟨"asked",.empty⟩,.timeout]) fun s => s.log.map Prod.fst == [3/2] :=
  .of _ _ (by decide +kernel)

theorem reply_fires_on_time : ∃ s, s.log.map Prod.fst = [3/2] ∧ FiresOnTime plain reply 0 (Regular plain reply) s := by
  obtain ⟨s,hs,hseen⟩ := missedRun
  exact ⟨s,beq_iff_eq.mp hseen,fires_on_time loadComposers_reply (List.mem_singleton_self _)
    (.of_runChecked (.refl _) (fun _ _ h => of_decide_eq_true h) hs)⟩

/-- An answer after the deadline, heard before the sweep that other traffic put off. -/
def lateEvents : List (ℚ × HookEvent) := [(0,⟨"asked",.empty⟩),(1/2,⟨"asked",.empty⟩),(5/4,⟨"answered",.empty⟩)]

def lateRun : Computed (runAll (Loop.step plain reply) (.start 0)
    (lateEvents.map (fun p => .event p.1 p.2) ++ [.timeout])) fun s =>
      decide (s.log = []) && decide (s.events = lateEvents) && decide (s.waitStart = 9/4) :=
  .of _ _ (by decide +kernel)

def lateReference : Computed (continuousLog plain reply lateEvents (9/4)) fun l => l.map Prod.fst == [1] :=
  .of _ _ (by decide +kernel)

/-- The deadline never fires. -/
theorem late_until_disarms : ¬ ∀ (floatOf : String → Option PyFloat) (lib : Payloads) (raw : Value)
    (defs : List ComposerDef) (d : ComposerDef) (begun : ℚ) (s : Loop),
    ComposerConfig.loadComposers floatOf raw = .ok defs → d ∈ defs →
    Runs (Loop.step lib d) (fun _ _ => True) (.start begun) s → FiresOnTime lib d begun (fun _ _ => True) s := by
  intro h
  obtain ⟨s,hs,hseen⟩ := lateRun
  obtain ⟨l,hl,htimes⟩ := lateReference
  simp only [Bool.and_eq_true,decide_eq_true_eq] at hseen
  obtain ⟨⟨hlog,hevents⟩,hwait⟩ := hseen
  have hinterval : sweepInterval reply = 1 := by
    simp [sweepInterval,reply]
  have hrun : Runs _ (fun _ _ => True) _ s := Runs.of_runAll (.refl _) (fun _ _ _ => trivial) hs
  obtain ⟨reference,href,done,due,hperm,hdelayed,hdue⟩ := (h _ plain _ _ reply 0 s loadComposers_reply
    (List.mem_singleton_self _) hrun).onTime (9/4) hwait.le (by rw [hwait,hinterval]; norm_num)
  rw [hevents,hl] at href
  obtain rfl := Option.some.inj href
  rw [hlog] at hdelayed
  cases hdelayed
  obtain ⟨x,rfl⟩ : ∃ x, l = [x] := List.length_eq_one_iff.mp (by simpa using congrArg List.length (beq_iff_eq.mp htimes))
  have hfirst : x.1 = 1 := by simpa using htimes
  have hlate := hdue x (hperm.subset (List.mem_singleton_self _))
  rw [hfirst,hinterval] at hlate
  norm_num at hlate

end Sample

end Composer
end Reyn
