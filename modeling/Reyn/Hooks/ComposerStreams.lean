import Reyn.Hooks.ComposerTiming

/-! # What an event stream makes a composer fire

The documented meaning of an op counts, for each correlation key by itself, the events since the
last fire. The composer keeps a record instead, whose buffer is cut at the front. Inside the time
to live and the capacity the two agree, but for what the cut loses and for events out of order.
-/
namespace Reyn
open Py Transition Fallible

namespace Composer
variable (lib : Payloads) (d : ComposerDef)

/-! ## The documented meaning -/

/-- Every input is matched by one of the events. -/
def CoversInputs (events : List HookEvent) : Prop := ∀ inp ∈ d.inputs, ∃ e ∈ events, inputMatches lib inp e = some true

instance (events : List HookEvent) : Decidable (CoversInputs lib d events) :=
  inferInstanceAs (Decidable (∀ _ ∈ d.inputs, _))

instance (k : String) (e : HookEvent) : Decidable (Concerns lib d k e) := inferInstanceAs (Decidable (_ ∧ _))

/-- The event matches the input at a position. -/
def Expected (position : ℕ) (e : HookEvent) : Prop := ∃ inp, d.inputs[position]? = some inp ∧ inputMatches lib inp e = some true

instance (position : ℕ) (e : HookEvent) : Decidable (Expected lib d position e) :=
  decidable_of_iff (d.inputs[position]?.any fun inp => inputMatches lib inp e = some true) (by
    rw [Expected,Option.any_eq_true]
    simp only [decide_eq_true_eq])

/-- An event of a key after those that count towards the next fire: what counts afterwards, and whether the op fires. -/
def documentedStep (since : List HookEvent) (e : HookEvent) : List HookEvent × Bool :=
  match d.op with
  | .all | .correlateBy => if CoversInputs lib d (since ++ [e]) then ([],true) else (since ++ [e],false)
  | .seq =>
    if Expected lib d since.length e then
      if d.inputs.length ≤ since.length + 1 then ([],true) else (since ++ [e],false)
    else ([],false)
  | .count => if d.threshold.getD 1 ≤ since.length + 1 then ([],true) else (since ++ [e],false)
  | .any => ([],true)
  | .window | .debounce | .deadline => ([],false)

/-- The events of a key that count towards its next fire. Only the events of the key go in. -/
def progress (k : String) (history : List HookEvent) : List HookEvent :=
  (history.filter fun e => Concerns lib d k e).foldl (fun since e => (documentedStep lib d since e).1) []

def Due (history : List HookEvent) (e : HookEvent) : Prop :=
  Wants lib d e ∧ (documentedStep lib d (progress lib d (correlationKey lib d e) history) e).2 = true

instance (history : List HookEvent) (e : HookEvent) : Decidable (Due lib d history e) :=
  inferInstanceAs (Decidable (_ ∧ _))

/-! ## Runs -/

/-- A step of the composer: an event after those before it, or a sweep, and what came of it. -/
structure Turn where
  past : List HookEvent
  event : Option HookEvent
  effects : List Effect
  deriving DecidableEq

/-- A composer with what it has seen and done. -/
structure Stream where
  running : Bool
  pending : Pending
  history : List HookEvent
  turns : List Turn

inductive StreamAction where
  | event (now : ℚ) (e : HookEvent)
  | sweep (now : ℚ)

namespace Stream

def start : Stream := ⟨true,.empty,[],[]⟩

def turn (s : Stream) (event : Option HookEvent) (result : Pending × List Effect) : Stream :=
  { s with pending := result.1, history := s.history ++ event.toList, turns := s.turns ++ [⟨s.history,event,result.2⟩] }

/-- A handler that raises ends the task of the composer. -/
def step (s : Stream) : StreamAction → Option Stream
  | .event now e =>
    if s.running then
      match handleEvent lib d now s.pending e with
      | some result => some (s.turn (some e) result)
      | none => some { s.turn (some e) (s.pending,[]) with running := false }
    else some (s.turn (some e) (s.pending,[]))
  | .sweep now => some (s.turn none (if s.running then Composer.sweep lib d now s.pending else (s.pending,[])))

/-- Inside the time to live and within capacity. -/
def Bounded (s : Stream) : StreamAction → Prop
  | .event _ e => Wants lib d e → correlationKey lib d e ∈ s.pending.keys ∨ s.pending.keys.length < d.policy.capacity
  | .sweep now => ∀ p ∈ s.pending.items, expired d now p.2 = false

/-- The end of the events that the buffer of a key has room for. -/
def buffered (events : List HookEvent) : List HookEvent := events.drop (events.length - d.policy.maxEventsPerKey)

/-- No matcher raises; what the buffer keeps for a fire of `all` or `correlate_by` has an event for every input; and for
`seq`, an event is out of order only where nothing counts yet. -/
def Undisturbed (s : Stream) : StreamAction → Prop
  | .event _ e => (∀ inp ∈ d.inputs, inputMatches lib inp e ≠ none) ∧
      (d.op = .all ∨ d.op = .correlateBy → Due lib d s.history e →
        CoversInputs lib d (buffered d (progress lib d (correlationKey lib d e) s.history ++ [e]))) ∧
      (d.op = .seq → Wants lib d e → progress lib d (correlationKey lib d e) s.history = [] ∨
        Expected lib d (progress lib d (correlationKey lib d e) s.history).length e)
  | .sweep _ => True

instance (s : Stream) : (a : StreamAction) → Decidable (s.Bounded lib d a)
  | .event _ _ => inferInstanceAs (Decidable (_ → _))
  | .sweep _ => inferInstanceAs (Decidable (∀ _ ∈ _, _))

instance (s : Stream) : (a : StreamAction) → Decidable (s.Undisturbed lib d a)
  | .event _ _ => inferInstanceAs (Decidable (_ ∧ _ ∧ _))
  | .sweep _ => .isTrue trivial

end Stream

/-- The composer fires when the op is due, for the key of the event, with the last of the events that count; of `all` and
of `correlate_by`, they have one for every input. -/
def Turn.AsDocumented (t : Turn) : Prop :=
  match t.event with
  | none => published t.effects = []
  | some e =>
    if Due lib d t.past e then
      ∃ events, events <:+ progress lib d (correlationKey lib d e) t.past ++ [e] ∧
        published t.effects = [composed d (correlationKey lib d e) events []] ∧
        (d.op = .all ∨ d.op = .correlateBy → CoversInputs lib d events)
    else published t.effects = []

/-! ## The record of a key -/

section Records
variable {lib d}

theorem progress_concat (k : String) (history : List HookEvent) (e : HookEvent) : progress lib d k (history ++ [e]) =
    if Concerns lib d k e then (documentedStep lib d (progress lib d k history) e).1 else progress lib d k history := by
  rw [progress,List.filter_append,List.foldl_append,List.filter_singleton]
  by_cases h : Concerns lib d k e
  · simp only [h,decide_true,if_true]
    rfl
  · simp only [h,decide_false,if_false,Bool.false_eq_true]
    rfl

theorem buffered_buffered (since : List HookEvent) (e : HookEvent) :
    Stream.buffered d (Stream.buffered d since ++ [e]) = Stream.buffered d (since ++ [e]) := by
  simp only [Stream.buffered,List.length_append,List.length_drop,List.length_singleton]
  rw [← List.drop_append_of_le_length (by omega),List.drop_drop]
  congr 1
  omega

theorem length_buffered (events : List HookEvent) :
    (Stream.buffered d events).length = min events.length d.policy.maxEventsPerKey := by
  rw [Stream.buffered,List.length_drop]
  omega

variable (lib d) in
/-- What the record of a key keeps of the events that count. -/
structure Keeps (since : List HookEvent) (r : PendingRecord) : Prop where
  events : r.events = Stream.buffered d since
  matched : d.op = .all ∨ d.op = .correlateBy → ∀ i, i ∈ r.matchedInputs ↔ ∃ e ∈ since, Expected lib d i e
  position : d.op = .seq → r.seqPos = since.length

variable (lib d) in
/-- A key without a record has no event that counts. -/
def Linked (pending : Pending) (history : List HookEvent) : Prop := ∀ k,
  (pending.get? k = none → progress lib d k history = []) ∧
    ∀ r, pending.get? k = some r → Keeps lib d (progress lib d k history) r

theorem Keeps.fresh (now : ℚ) : Keeps lib d [] ⟨[],∅,0,now,now⟩ :=
  ⟨List.drop_nil.symm,fun _ i => by simp,fun _ => rfl⟩

theorem Linked.keeps {pending : Pending} {history : List HookEvent} (h : Linked lib d pending history) (k : String)
    (now : ℚ) : Keeps lib d (progress lib d k history) ((pending.get? k).getD ⟨[],∅,0,now,now⟩) := by
  cases hget : pending.get? k with
  | none =>
    rw [(h k).1 hget]
    exact .fresh now
  | some r => exact (h k).2 r hget

/-- Within capacity nothing is dropped for a new key. -/
theorem recordOf_within {now : ℚ} {pending : Pending} {key : String}
    (hroom : key ∈ pending.keys ∨ pending.keys.length < d.policy.capacity) :
    recordOf d now pending key = (some ((pending.get? key).getD ⟨[],∅,0,now,now⟩),pending,[]) := by
  rw [recordOf]
  cases hget : pending.get? key with
  | some r => rfl
  | none => simp only [admitNewKey,if_pos hroom,Option.getD_none]

/-- An op that buffers fires as it is documented, when its record says when. -/
theorem buffer_turn {now : ℚ} {pending : Pending} {history : List HookEvent} {e : HookEvent} {key : String}
    {change : PendingRecord → PendingRecord} {complete : PendingRecord → Bool} {fires : Prop} [Decidable fires]
    (hlinked : Linked lib d pending history) (hconcerns : Concerns lib d key e)
    (hroom : key ∈ pending.keys ∨ pending.keys.length < d.policy.capacity)
    (hdoc : documentedStep lib d (progress lib d key history) e =
      if fires then ([],true) else (progress lib d key history ++ [e],false))
    (hchange : ∀ r, Keeps lib d (progress lib d key history) r →
      Keeps lib d (progress lib d key history ++ [e]) (change (appendEventBounded d r e key).1))
    (hcomplete : ∀ r, Keeps lib d (progress lib d key history ++ [e]) r → (complete r = true ↔ fires)) :
    Linked lib d (buffer d now pending e key change complete).1 (history ++ [e]) ∧
      published (buffer d now pending e key change complete).2 =
        if fires then [composed d key (Stream.buffered d (progress lib d key history ++ [e])) []] else [] := by
  have hkeeps := hchange _ (hlinked.keeps key now)
  generalize hr : change (appendEventBounded d ((pending.get? key).getD ⟨[],∅,0,now,now⟩) e key).1 = r at hkeeps
  have hkeeps' : Keeps lib d (progress lib d key history ++ [e]) { r with lastAt := now } := ⟨hkeeps.1,hkeeps.2,hkeeps.3⟩
  have hother : ∀ k, k ≠ key → progress lib d k (history ++ [e]) = progress lib d k history := by
    intro k hk
    rw [progress_concat,if_neg]
    exact fun hk' => hk (hk'.1.symm.trans hconcerns.1)
  have hown : progress lib d key (history ++ [e]) = if fires then [] else progress lib d key history ++ [e] := by
    rw [progress_concat,if_pos hconcerns,hdoc]
    split <;> rfl
  have hdropped : published (appendEventBounded d ((pending.get? key).getD ⟨[],∅,0,now,now⟩) e key).2 = [] :=
    published_replicate_dropped ..
  simp only [buffer,recordOf_within hroom,hr]
  split
  · rename_i hdone
    have hfires := (hcomplete _ hkeeps').mp hdone
    rw [if_pos hfires] at hown ⊢
    refine ⟨fun k => ?_,?_⟩
    · by_cases hk : k = key
      · subst hk
        rw [hown,Dict.get?_pop,if_pos rfl]
        refine ⟨fun _ => rfl,fun r hr => ?_⟩
        cases hr
      · rw [hother k hk,Dict.get?_pop,if_neg hk]
        exact hlinked k
    · rw [List.nil_append,published_append,hdropped,emitComposed,hkeeps.events]
      rfl
  · rename_i hdone
    have hfires : ¬fires := fun h => hdone ((hcomplete _ hkeeps').mpr h)
    rw [if_neg hfires] at hown ⊢
    refine ⟨fun k => ?_,hdropped⟩
    by_cases hk : k = key
    · subst hk
      rw [hown,Dict.get?_set_self]
      refine ⟨fun hnone => ?_,fun r' hr' => ?_⟩
      · cases hnone
      · cases hr'
        exact hkeeps'
    · rw [hother k hk,Dict.get?_set_ne _ hk]
      exact hlinked k

/-! ## The handlers -/

theorem mem_indices {e : HookEvent} {indices : List ℕ} (h : matchedInputIndices lib d e = some indices) (i : ℕ) :
    i ∈ indices ↔ Expected lib d i e := by
  obtain ⟨bs,hbs,rfl⟩ := Option.map_eq_some_iff.mp h
  obtain ⟨hlength,hall⟩ := List.forall₂_iff_get.mp (Fallible.mapM_some_members hbs)
  constructor
  · intro hi
    obtain ⟨⟨b,j⟩,hmem,rfl⟩ := List.mem_map.mp hi
    obtain ⟨hmem,hb⟩ := List.mem_filter.mp hmem
    obtain rfl : b = true := hb
    have hget : bs[j]? = some true := List.mem_zipIdx_iff_getElem?.mp hmem
    obtain ⟨hj,htrue⟩ := List.getElem?_eq_some_iff.mp hget
    have hmatch := hall j (hlength ▸ hj) hj
    rw [List.get_eq_getElem,List.get_eq_getElem,htrue] at hmatch
    exact ⟨_,List.getElem?_eq_getElem (hlength ▸ hj),hmatch⟩
  · rintro ⟨inp,hinp,hmatch⟩
    obtain ⟨hi,rfl⟩ := List.getElem?_eq_some_iff.mp hinp
    have htrue : bs.get ⟨i,hlength ▸ hi⟩ = true := Option.some.inj ((hall i hi (hlength ▸ hi)).symm.trans hmatch)
    refine List.mem_map.mpr ⟨(true,i),List.mem_filter.mpr ⟨?_,rfl⟩,rfl⟩
    rw [← htrue]
    exact List.mem_zipIdx_iff_getElem?.mpr (List.getElem?_eq_getElem _)

theorem coversInputs_iff (events : List HookEvent) :
    CoversInputs lib d events ↔ ∀ i < d.inputs.length, ∃ e ∈ events, Expected lib d i e := by
  constructor
  · intro h i hi
    obtain ⟨e,he,hmatch⟩ := h _ (List.getElem_mem hi)
    exact ⟨e,he,_,List.getElem?_eq_getElem hi,hmatch⟩
  · intro h inp hinp
    obtain ⟨i,hi,rfl⟩ := List.getElem_of_mem hinp
    obtain ⟨e,he,inp',hget,hmatch⟩ := h i hi
    rw [List.getElem?_eq_getElem hi] at hget
    cases hget
    exact ⟨e,he,hmatch⟩

/-- The set of matched inputs is full when every input was matched. -/
theorem matched_full_iff {since : List HookEvent} {r : PendingRecord} (h : Keeps lib d since r)
    (hop : d.op = .all ∨ d.op = .correlateBy) : d.inputs.length ≤ r.matchedInputs.card ↔ CoversInputs lib d since := by
  have hsub : r.matchedInputs ⊆ Finset.range d.inputs.length := by
    intro i hi
    obtain ⟨e,-,inp,hget,-⟩ := (h.matched hop i).mp hi
    exact Finset.mem_range.mpr (List.getElem?_eq_some_iff.mp hget).1
  rw [coversInputs_iff]
  constructor
  · intro hcard i hi
    have heq := Finset.eq_of_subset_of_card_le hsub (by rwa [Finset.card_range])
    apply (h.matched hop i).mp
    rw [heq]
    exact Finset.mem_range.mpr hi
  · intro hall
    have heq : r.matchedInputs = Finset.range d.inputs.length := by
      apply Finset.Subset.antisymm hsub
      intro i hi
      exact (h.matched hop i).mpr (hall i (Finset.mem_range.mp hi))
    rw [heq,Finset.card_range]

theorem keeps_append {since : List HookEvent} {r : PendingRecord} (h : Keeps lib d since r) (e : HookEvent) (key : String) :
    (appendEventBounded d r e key).1.events = Stream.buffered d (since ++ [e]) := by
  rw [← buffered_buffered,← h.events]
  rfl

section Turns
variable {now : ℚ} {pending : Pending} {history : List HookEvent} {e : HookEvent} {key : String}
  (hlinked : Linked lib d pending history) (hconcerns : Concerns lib d key e)
  (hroom : key ∈ pending.keys ∨ pending.keys.length < d.policy.capacity)
include hlinked hconcerns hroom

theorem handleAllOrCorrelate_turn (hop : d.op = .all ∨ d.op = .correlateBy) {indices : List ℕ}
    (hindices : matchedInputIndices lib d e = some indices) :
    Linked lib d (handleAllOrCorrelate d now pending e key indices).1 (history ++ [e]) ∧
      published (handleAllOrCorrelate d now pending e key indices).2 =
        if CoversInputs lib d (progress lib d key history ++ [e]) then
          [composed d key (Stream.buffered d (progress lib d key history ++ [e])) []] else [] := by
  apply buffer_turn hlinked hconcerns hroom
  · rw [documentedStep]
    rcases hop with hop | hop <;> rw [hop]
  · refine fun r hr => ⟨keeps_append hr e key,fun _ i => ?_,fun hseq => ?_⟩
    · change i ∈ r.matchedInputs ∪ indices.toFinset ↔ _
      rw [Finset.mem_union,hr.matched hop,List.mem_toFinset,mem_indices hindices]
      simp [or_and_right,exists_or]
    · rcases hop with hop | hop <;> rw [hop] at hseq <;> cases hseq
  · intro r hr
    rw [decide_eq_true_iff]
    exact matched_full_iff hr hop

theorem handleCount_turn (hop : d.op = .count) (hcap : d.threshold.getD 1 ≤ d.policy.maxEventsPerKey) :
    Linked lib d (handleCount d now pending e key).1 (history ++ [e]) ∧
      published (handleCount d now pending e key).2 =
        if d.threshold.getD 1 ≤ (progress lib d key history).length + 1 then
          [composed d key (Stream.buffered d (progress lib d key history ++ [e])) []] else [] := by
  have hnot : ¬(d.op = .all ∨ d.op = .correlateBy) := by simp [hop]
  apply buffer_turn hlinked hconcerns hroom
  · rw [documentedStep,hop]
  · exact fun r hr => ⟨keeps_append hr e key,fun h => absurd h hnot,fun h => by simp [hop] at h⟩
  · intro r hr
    rw [decide_eq_true_iff,hr.events,length_buffered,List.length_append,List.length_singleton]
    omega

theorem handleSeq_turn (hop : d.op = .seq) {result : Pending × List Effect}
    (h : handleSeq lib d now pending e key = some result)
    (horder : progress lib d key history = [] ∨ Expected lib d (progress lib d key history).length e) :
    Linked lib d result.1 (history ++ [e]) ∧ published result.2 =
      if (documentedStep lib d (progress lib d key history) e).2 then
        [composed d key (Stream.buffered d (progress lib d key history ++ [e])) []] else [] := by
  have hnot : ¬(d.op = .all ∨ d.op = .correlateBy) := by simp [hop]
  have hposition : (pending.get? key).elim 0 PendingRecord.seqPos = (progress lib d key history).length := by
    cases hget : pending.get? key with
    | none =>
      rw [(hlinked key).1 hget]
      rfl
    | some r => exact ((hlinked key).2 r hget).position hop
  simp only [handleSeq,bind,Option.bind_eq_some_iff,pure,hposition] at h
  obtain ⟨expected,hget,matched,hmatched,h⟩ := h
  split at h
  · rename_i htrue
    subst htrue
    cases h
    have hexpected : Expected lib d (progress lib d key history).length e := ⟨expected,hget,hmatched⟩
    have hdoc : documentedStep lib d (progress lib d key history) e =
        if d.inputs.length ≤ (progress lib d key history).length + 1 then ([],true)
        else (progress lib d key history ++ [e],false) := by
      rw [documentedStep,hop]
      exact if_pos hexpected
    rw [hdoc]
    have hturn := @buffer_turn lib d now pending history e key (fun r => { r with seqPos := r.seqPos + 1 })
      (fun r => decide (d.inputs.length ≤ r.seqPos)) _ _ hlinked hconcerns hroom hdoc
      (fun r hr => ⟨keeps_append hr e key,fun h => absurd h hnot,fun _ => ?_⟩) fun r hr => ?_
    · refine ⟨hturn.1,hturn.2.trans ?_⟩
      split <;> rfl
    · change r.seqPos + 1 = _
      rw [hr.position hop,List.length_append,List.length_singleton]
    · rw [decide_eq_true_iff,hr.position hop,List.length_append,List.length_singleton]
  · rename_i hfalse
    cases h
    have hunexpected : ¬Expected lib d (progress lib d key history).length e := by
      rintro ⟨inp,hinp,hmatch⟩
      rw [hget] at hinp
      cases hinp
      rw [hmatched] at hmatch
      exact hfalse (Option.some.inj hmatch)
    have hnil := horder.resolve_right hunexpected
    have hdoc : documentedStep lib d (progress lib d key history) e = ([],false) := by
      rw [documentedStep,hop]
      exact if_neg hunexpected
    refine ⟨fun k => ?_,?_⟩
    · have hsame : progress lib d k (history ++ [e]) = progress lib d k history := by
        rw [progress_concat]
        split
        · rename_i hk
          obtain rfl : key = k := hconcerns.1.symm.trans hk.1
          rw [hdoc,hnil]
        · rfl
      rw [hsame]
      exact hlinked k
    · rw [hdoc]
      rfl

end Turns

/-! ## A step -/

/-- The ops whose records say what counts. -/
def Counts (d : ComposerDef) : Prop := d.op = .all ∨ d.op = .correlateBy ∨ d.op = .seq ∨ d.op = .count

theorem Turn.AsDocumented.fires {history events : List HookEvent} {e : HookEvent} {effects : List Effect}
    (hsuffix : events <:+ progress lib d (correlationKey lib d e) history ++ [e])
    (hpublished : published effects = if Due lib d history e then [composed d (correlationKey lib d e) events []] else [])
    (hcovers : Due lib d history e → d.op = .all ∨ d.op = .correlateBy → CoversInputs lib d events) :
    Turn.AsDocumented lib d ⟨history,some e,effects⟩ := by
  rw [Turn.AsDocumented]
  dsimp only
  split
  · rename_i hdue
    rw [if_pos hdue] at hpublished
    exact ⟨events,hsuffix,hpublished,hcovers hdue⟩
  · rename_i hdue
    rwa [if_neg hdue] at hpublished

/-- An op that does not fire. -/
theorem Turn.AsDocumented.silent {history : List HookEvent} {e : HookEvent} {effects : List Effect} (hnone : published effects = [])
    (hdue : ¬Due lib d history e) : Turn.AsDocumented lib d ⟨history,some e,effects⟩ := by
  rw [Turn.AsDocumented]
  dsimp only
  rwa [if_neg hdue]

theorem due_iff {history : List HookEvent} {e : HookEvent} (hwants : Wants lib d e) : Due lib d history e ↔
    (documentedStep lib d (progress lib d (correlationKey lib d e) history) e).2 = true :=
  and_iff_right hwants

/-- An event that no input wants changes nothing. -/
theorem Linked.unwanted {pending : Pending} {history : List HookEvent} {e : HookEvent} (h : Linked lib d pending history)
    (hwants : ¬Wants lib d e) : Linked lib d pending (history ++ [e]) := by
  intro k
  rw [progress_concat,if_neg fun hk => hwants hk.2]
  exact h k

theorem buffer_silent {now : ℚ} {pending : Pending} {e : HookEvent} {key : String}
    {change : PendingRecord → PendingRecord} :
    published (buffer d now pending e key change fun _ => false).2 = [] := by
  rw [buffer]
  split
  · exact (recordOf_silent ‹_›).1
  · have hdropped : ∀ record, published (appendEventBounded d record e key).2 = [] := fun _ => published_replicate_dropped ..
    simp [(recordOf_silent ‹_›).1,hdropped]

theorem handleDebounce_silent {now : ℚ} {pending : Pending} {e : HookEvent} {key : String} :
    published (handleDebounce d now pending e key).2 = [] := by
  rw [handleDebounce]
  split <;> exact (recordOf_silent ‹_›).1

theorem handleDeadlineEvent_silent {now : ℚ} {pending : Pending} {e : HookEvent} {result : Pending × List Effect}
    (h : handleDeadlineEvent lib d now pending e = some result) : published result.2 = [] := by
  simp only [handleDeadlineEvent,bind,Option.bind_eq_some_iff,pure] at h
  obtain ⟨untilInput,-,matched,-,h⟩ := h
  split at h
  · cases h
    rfl
  · obtain ⟨armInput,-,h⟩ := Option.bind_eq_some_iff.mp h
    obtain ⟨armed,-,h⟩ := Option.bind_eq_some_iff.mp h
    split at h
    · split at h
      · cases h
        rfl
      · split at h
        · cases h
          exact (admitNewKey_silent ‹_›).1
        · cases h
          exact (admitNewKey_silent ‹_›).1
    · cases h
      rfl

theorem not_counts_of {op : ComposerOp} (hop : d.op = op) (h : op = .any ∨ op = .window ∨ op = .debounce ∨ op = .deadline) :
    ¬Counts d := by
  rw [Counts,hop]
  rcases h with rfl | rfl | rfl | rfl <;> decide

theorem not_due_of {op : ComposerOp} (hop : d.op = op) (h : op = .window ∨ op = .debounce ∨ op = .deadline)
    (history : List HookEvent) (e : HookEvent) : ¬Due lib d history e := by
  rintro ⟨-,hdue⟩
  rw [documentedStep,hop] at hdue
  rcases h with rfl | rfl | rfl <;> cases hdue

theorem fires_iff {P : Prop} [Decidable P] (since : List HookEvent) :
    (if P then (([] : List HookEvent),true) else (since,false)).2 = true ↔ P := by
  split
  · exact iff_of_true rfl ‹P›
  · exact iff_of_false Bool.false_ne_true ‹¬P›

/-- An event goes as documented when what counts is linked to the records. -/
theorem handleEvent_turn {now : ℚ} {pending : Pending} {history : List HookEvent} {e : HookEvent}
    {result : Pending × List Effect} (h : handleEvent lib d now pending e = some result)
    (hcap : d.op = .count → d.threshold.getD 1 ≤ d.policy.maxEventsPerKey)
    (hlinked : Counts d → Linked lib d pending history)
    (hroom : Wants lib d e → correlationKey lib d e ∈ pending.keys ∨ pending.keys.length < d.policy.capacity)
    (hcovers : d.op = .all ∨ d.op = .correlateBy → Due lib d history e →
      CoversInputs lib d (Stream.buffered d (progress lib d (correlationKey lib d e) history ++ [e])))
    (horder : d.op = .seq → Wants lib d e → progress lib d (correlationKey lib d e) history = [] ∨
      Expected lib d (progress lib d (correlationKey lib d e) history).length e) :
    (Counts d → Linked lib d result.1 (history ++ [e])) ∧ Turn.AsDocumented lib d ⟨history,some e,result.2⟩ := by
  rw [handleEvent] at h
  split at h
  · rename_i hop
    exact ⟨fun hc => absurd hc (not_counts_of hop (by simp)),
      .silent (handleDeadlineEvent_silent h) (not_due_of hop (by simp) history e)⟩
  simp only [bind,Option.bind_eq_some_iff,pure] at h
  obtain ⟨indices,hindices,h⟩ := h
  split at h
  · rename_i hnil
    subst hnil
    cases h
    have hunwanted := not_wants_of_indices hindices
    exact ⟨fun hc => (hlinked hc).unwanted hunwanted,.silent rfl fun hdue => hunwanted hdue.1⟩
  rename_i hne
  have hwants := wants_of_indices hindices hne
  have hconcerns : Concerns lib d (correlationKey lib d e) e := ⟨rfl,hwants⟩
  have hdue := @due_iff lib d history e hwants
  have hboth : d.op = .all ∨ d.op = .correlateBy → Counts d →
      (Counts d → Linked lib d (handleAllOrCorrelate d now pending e (correlationKey lib d e) indices).1 (history ++ [e])) ∧
        Turn.AsDocumented lib d ⟨history,some e,(handleAllOrCorrelate d now pending e (correlationKey lib d e) indices).2⟩ := by
    intro hop hcounts
    have hturn := @handleAllOrCorrelate_turn lib d now _ _ _ _ (hlinked hcounts) hconcerns (hroom hwants) hop _ hindices
    refine ⟨fun _ => hturn.1,.fires (List.drop_suffix ..) (hturn.2.trans (if_congr ?_ rfl rfl)) fun hfires hop => hcovers hop hfires⟩
    rw [hdue,documentedStep]
    rcases hop with hop | hop <;> rw [hop] <;> exact (fires_iff _).symm
  split at h
  · rename_i hop
    cases h
    refine ⟨fun hc => absurd hc (not_counts_of hop (by simp)),@Turn.AsDocumented.fires lib d history [e] e _ (List.suffix_append ..) ?_ ?_⟩
    · rw [if_pos]
      · rfl
      · rw [hdue,documentedStep,hop]
    · rw [hop]
      rintro - (hc | hc) <;> cases hc
  · rename_i hop
    cases h
    exact hboth (.inl hop) (.inl hop)
  · rename_i hop
    cases h
    exact hboth (.inr hop) (.inr (.inl hop))
  · rename_i hop
    have hturn := handleSeq_turn (hlinked (.inr (.inr (.inl hop)))) hconcerns (hroom hwants) hop h (horder hop hwants)
    refine ⟨fun _ => hturn.1,.fires (List.drop_suffix ..) (hturn.2.trans (if_congr hdue.symm rfl rfl)) fun _ hc => ?_⟩
    rw [hop] at hc
    rcases hc with hc | hc <;> cases hc
  · rename_i hop
    cases h
    exact ⟨fun hc => absurd hc (not_counts_of hop (by simp)),.silent buffer_silent (not_due_of hop (by simp) history e)⟩
  · rename_i hop
    cases h
    exact ⟨fun hc => absurd hc (not_counts_of hop (by simp)),
      .silent handleDebounce_silent (not_due_of hop (by simp) history e)⟩
  · rename_i hop
    cases h
    have hturn := @handleCount_turn lib d now _ _ _ _ (hlinked (.inr (.inr (.inr hop)))) hconcerns (hroom hwants) hop (hcap hop)
    refine ⟨fun _ => hturn.1,.fires (List.drop_suffix ..) (hturn.2.trans (if_congr ?_ rfl rfl)) fun _ hc => ?_⟩
    · rw [hdue,documentedStep,hop]
      exact (fires_iff _).symm
    · rw [hop] at hc
      rcases hc with hc | hc <;> cases hc
  · rename_i hop
    exact absurd hop ‹_›

/-! ## A run -/

theorem progress_lt (hop : d.op = .seq) (k : String) (history : List HookEvent) :
    progress lib d k history = [] ∨ (progress lib d k history).length < d.inputs.length := by
  induction history using List.reverseRecOn with
  | nil => exact .inl rfl
  | append_singleton history e ih =>
    rw [progress_concat]
    split
    · rw [documentedStep,hop]
      dsimp only
      split
      · split
        · exact .inl rfl
        · rename_i hmore
          rw [List.length_append,List.length_singleton]
          exact .inr (not_le.mp hmore)
      · exact .inl rfl
    · exact ih

theorem mapM_ne_none {A B : Type} {f : A → Option B} {l : List A} (h : ∀ x ∈ l, f x ≠ none) : l.mapM f ≠ none := by
  induction l with
  | nil => exact Option.some_ne_none _
  | cons x l ih =>
    obtain ⟨y,hy⟩ := Option.ne_none_iff_exists'.mp (h x List.mem_cons_self)
    obtain ⟨ys,hys⟩ := Option.ne_none_iff_exists'.mp (ih fun x hx => h x (List.mem_cons_of_mem _ hx))
    rw [List.mapM_cons,hy,hys]
    exact Option.some_ne_none _

/-- Without a matcher that raises the handler does not raise. -/
theorem handleEvent_ne_none {now : ℚ} {pending : Pending} {history : List HookEvent} {e : HookEvent}
    (hop : d.op ≠ .deadline) (hmatch : ∀ inp ∈ d.inputs, inputMatches lib inp e ≠ none)
    (hlinked : Counts d → Linked lib d pending history) : handleEvent lib d now pending e ≠ none := by
  obtain ⟨bs,hbs⟩ := Option.ne_none_iff_exists'.mp (mapM_ne_none hmatch)
  have hindices : matchedInputIndices lib d e = some _ := congrArg (Option.map _) hbs
  rw [handleEvent,if_neg hop,hindices]
  simp only [bind,Option.bind_some,pure]
  split
  · exact Option.some_ne_none _
  rename_i hne
  obtain ⟨inp,hinp,-⟩ := wants_of_indices hindices hne
  split
  · exact Option.some_ne_none _
  · exact Option.some_ne_none _
  · exact Option.some_ne_none _
  · rename_i hseq
    have hposition : (pending.get? (correlationKey lib d e)).elim 0 PendingRecord.seqPos < d.inputs.length := by
      have hlinked := hlinked (.inr (.inr (.inl hseq))) (correlationKey lib d e)
      cases hget : pending.get? (correlationKey lib d e) with
      | none => exact List.length_pos_of_mem hinp
      | some r =>
        change r.seqPos < _
        rw [(hlinked.2 r hget).position hseq]
        rcases @progress_lt lib d hseq (correlationKey lib d e) history with hnil | hlt
        · rw [hnil]
          exact List.length_pos_of_mem hinp
        · exact hlt
    obtain ⟨b,hb⟩ := Option.ne_none_iff_exists'.mp (hmatch _ (List.getElem_mem hposition))
    rw [handleSeq,List.getElem?_eq_getElem hposition]
    simp only [bind,Option.bind_some,hb,pure]
    split <;> exact Option.some_ne_none _
  · exact Option.some_ne_none _
  · exact Option.some_ne_none _
  · exact Option.some_ne_none _
  · exact Option.some_ne_none _

/-- A sweep inside the time to live leaves everything as it is. -/
theorem sweep_idle {now : ℚ} {pending : Pending} (h : ∀ p ∈ pending.items, expired d now p.2 = false) :
    sweep lib d now pending = (pending,[]) := by
  apply Prod.ext
  · apply Dict.ext_items
    rw [sweep_items,List.filter_eq_self]
    intro p hp
    rw [h p hp]
    rfl
  · have hnone : pending.items.filter (fun p => expired d now p.2) = [] := by
      rw [List.filter_eq_nil_iff]
      intro p hp
      rw [h p hp]
      exact Bool.false_ne_true
    exact congrArg (List.map _) hnone

variable (lib d) in
structure Stream.Inv (s : Stream) : Prop where
  running : d.op ≠ .deadline → s.running = true
  linked : Counts d → Linked lib d s.pending s.history
  documented : ∀ t ∈ s.turns, t.AsDocumented lib d

theorem Stream.Inv.start : Stream.Inv lib d .start := by
  refine ⟨fun _ => rfl,fun _ k => ⟨fun _ => rfl,fun r hr => ?_⟩,List.forall_mem_nil _⟩
  cases hr

theorem Stream.Inv.turns {s : Stream} (h : s.Inv lib d) {t : Turn} (ht : t.AsDocumented lib d) :
    ∀ t' ∈ s.turns ++ [t], t'.AsDocumented lib d := by
  intro t' ht'
  rcases List.mem_append.mp ht' with hold | hnew
  · exact h.documented t' hold
  · rwa [List.mem_singleton.mp hnew]

theorem Stream.Inv.step {s s' : Stream} {a : StreamAction} (h : s.Inv lib d)
    (hcap : d.op = .count → d.threshold.getD 1 ≤ d.policy.maxEventsPerKey) (hbounded : s.Bounded lib d a)
    (hcalm : s.Undisturbed lib d a) (hs : Stream.step lib d s a = some s') : s'.Inv lib d := by
  cases a with
  | event now e =>
    obtain ⟨hmatch,hcovers,horder⟩ := hcalm
    simp only [Stream.step] at hs
    split at hs
    · rename_i hrunning
      split at hs
      · rename_i result hresult
        cases hs
        obtain ⟨hlinked,hturn⟩ := handleEvent_turn hresult hcap h.linked hbounded hcovers horder
        exact ⟨fun _ => hrunning,hlinked,h.turns hturn⟩
      · rename_i hnone
        cases hs
        have hop : d.op = .deadline := by
          by_contra hop
          exact handleEvent_ne_none hop hmatch h.linked hnone
        refine ⟨fun hop' => absurd hop hop',fun hc => absurd hc (not_counts_of hop (by simp)),h.turns (.silent rfl ?_)⟩
        exact not_due_of hop (by simp) s.history e
    · rename_i hstopped
      cases hs
      have hop : d.op = .deadline := by
        by_contra hop
        exact hstopped (h.running hop)
      refine ⟨fun hop' => absurd hop hop',fun hc => absurd hc (not_counts_of hop (by simp)),h.turns (.silent rfl ?_)⟩
      exact not_due_of hop (by simp) s.history e
  | sweep now =>
    cases hs
    rw [sweep_idle hbounded,ite_self]
    refine ⟨h.running,fun hc => ?_,h.turns rfl⟩
    change Linked lib d s.pending (s.history ++ [])
    rw [List.append_nil]
    exact h.linked hc

/-! ## Capacity -/

/-- Room for the record of a key. -/
def Fits (d : ComposerDef) (pending : Pending) (key : String) : Prop :=
  pending.items.length ≤ d.policy.capacity ∧ (key ∈ pending.keys ∨ pending.items.length < d.policy.capacity)

theorem Fits.set {pending : Pending} {key : String} (h : Fits d pending key) (r : PendingRecord) :
    (pending.set key r).items.length ≤ d.policy.capacity := by
  rcases h.2 with hmem | hlt
  · exact (Dict.length_set_of_mem hmem r).trans_le h.1
  · exact (Dict.length_set_le ..).trans hlt

theorem oldestKey_some {pending : Pending} (h : pending.items ≠ []) : oldestKey pending ≠ none := by
  rw [oldestKey]
  obtain ⟨p,rest,hitems⟩ := List.exists_cons_of_ne_nil h
  rw [hitems,List.foldl_cons]
  clear hitems
  generalize p = q
  induction rest generalizing q with
  | nil => exact Option.some_ne_none _
  | cons x rest ih =>
    rw [List.foldl_cons]
    dsimp only
    split
    · exact ih x
    · exact ih q

/-- Dropping the oldest record makes room. -/
theorem pop_lt {pending : Pending} {p : String × PendingRecord} (h : p ∈ pending.items) :
    (pending.pop p.1).items.length < pending.items.length :=
  List.length_filter_lt_length_iff_exists.mpr ⟨p,h,by simp⟩

theorem admitNewKey_fits {pending left : Pending} {key : String} {admitted : Bool} {effects : List Effect}
    (hpos : 1 ≤ d.policy.capacity) (hle : pending.items.length ≤ d.policy.capacity)
    (h : admitNewKey d pending key = (admitted,left,effects)) :
    left.items.length ≤ d.policy.capacity ∧ (admitted = true → Fits d left key) := by
  have hkeys : pending.keys.length = pending.items.length := List.length_map ..
  rw [admitNewKey] at h
  split at h
  · rename_i hroom
    rw [hkeys] at hroom
    cases h
    exact ⟨hle,fun _ => ⟨hle,hroom⟩⟩
  rename_i hfull
  rw [hkeys,not_or,not_lt] at hfull
  split at h
  · split at h
    · rename_i oldest record hold
      cases h
      have hlt := (pop_lt (oldestKey_mem hold)).trans_le hle
      exact ⟨hlt.le,fun _ => ⟨hlt.le,.inr hlt⟩⟩
    · rename_i hnone
      apply absurd hnone (oldestKey_some _)
      apply List.ne_nil_of_length_pos
      omega
  · cases h
    exact ⟨hle,fun hc => Bool.noConfusion hc⟩
  · cases h
    exact ⟨hle,fun hc => Bool.noConfusion hc⟩

theorem recordOf_fits {now : ℚ} {pending left : Pending} {key : String} {record : Option PendingRecord}
    {effects : List Effect} (hpos : 1 ≤ d.policy.capacity) (hle : pending.items.length ≤ d.policy.capacity)
    (h : recordOf d now pending key = (record,left,effects)) :
    left.items.length ≤ d.policy.capacity ∧ (record.isSome → Fits d left key) := by
  rw [recordOf] at h
  split at h
  · rename_i r hget
    cases h
    exact ⟨hle,fun _ => ⟨hle,.inl (Dict.mem_keys_iff.mpr ⟨r,hget⟩)⟩⟩
  · split at h
    · cases h
      obtain ⟨hleft,hfits⟩ := admitNewKey_fits hpos hle ‹_›
      exact ⟨hleft,fun _ => hfits rfl⟩
    · cases h
      exact ⟨(admitNewKey_fits hpos hle ‹_›).1,fun hc => Bool.noConfusion hc⟩

section Within
variable {now : ℚ} {pending : Pending} {e : HookEvent} {key : String} (hpos : 1 ≤ d.policy.capacity)
  (hle : pending.items.length ≤ d.policy.capacity)
include hpos hle

theorem buffer_within (change : PendingRecord → PendingRecord) (complete : PendingRecord → Bool) :
    (buffer d now pending e key change complete).1.items.length ≤ d.policy.capacity := by
  rw [buffer]
  split
  · exact (recordOf_fits hpos hle ‹_›).1
  · rename_i record left effects hrecord
    obtain ⟨hleft,hfits⟩ := recordOf_fits hpos hle hrecord
    dsimp only
    split
    · exact (left.length_pop_le key).trans hleft
    · exact (hfits rfl).set _

theorem handleDebounce_within : (handleDebounce d now pending e key).1.items.length ≤ d.policy.capacity := by
  rw [handleDebounce]
  split
  · exact (recordOf_fits hpos hle ‹_›).1
  · exact ((recordOf_fits hpos hle ‹_›).2 rfl).set _

theorem handleDeadlineEvent_within {result : Pending × List Effect}
    (h : handleDeadlineEvent lib d now pending e = some result) : result.1.items.length ≤ d.policy.capacity := by
  simp only [handleDeadlineEvent,bind,Option.bind_eq_some_iff,pure] at h
  obtain ⟨untilInput,-,matched,-,h⟩ := h
  split at h
  · cases h
    exact (pending.length_pop_le _).trans hle
  · obtain ⟨armInput,-,h⟩ := Option.bind_eq_some_iff.mp h
    obtain ⟨armed,-,h⟩ := Option.bind_eq_some_iff.mp h
    split at h
    · split at h
      · cases h
        exact hle
      · split at h
        · cases h
          exact ((admitNewKey_fits hpos hle ‹_›).2 rfl).set _
        · cases h
          exact (admitNewKey_fits hpos hle ‹_›).1
    · cases h
      exact hle

theorem handleEvent_within {result : Pending × List Effect} (h : handleEvent lib d now pending e = some result) :
    result.1.items.length ≤ d.policy.capacity := by
  rw [handleEvent] at h
  split at h
  · exact handleDeadlineEvent_within hpos hle h
  simp only [bind,Option.bind_eq_some_iff,pure] at h
  obtain ⟨indices,-,h⟩ := h
  split at h
  · cases h
    exact hle
  split at h
  · cases h
    exact hle
  · cases h
    exact buffer_within hpos hle ..
  · cases h
    exact buffer_within hpos hle ..
  · simp only [handleSeq,bind,Option.bind_eq_some_iff,pure] at h
    obtain ⟨expected,-,matched,-,h⟩ := h
    split at h
    · cases h
      exact buffer_within hpos hle ..
    · cases h
      exact hle
  · cases h
    exact buffer_within hpos hle ..
  · cases h
    exact handleDebounce_within hpos hle
  · cases h
    exact buffer_within hpos hle ..
  · cases h
    exact hle

end Within

theorem Stream.step_within {s s' : Stream} {a : StreamAction} (hpos : 1 ≤ d.policy.capacity)
    (hle : s.pending.items.length ≤ d.policy.capacity) (hs : Stream.step lib d s a = some s') :
    s'.pending.items.length ≤ d.policy.capacity := by
  cases a with
  | event now e =>
    simp only [Stream.step] at hs
    split at hs
    · split at hs
      · cases hs
        exact handleEvent_within hpos hle ‹_›
      · cases hs
        exact hle
    · cases hs
      exact hle
  | sweep now =>
    cases hs
    dsimp only [Stream.turn]
    split
    · rw [sweep_items]
      exact (List.length_filter_le ..).trans hle
    · exact hle

/-! ## Loaded composers -/

end Records
end Composer

namespace ComposerConfig
variable {floatOf : String → Option PyFloat}

theorem positive_ok {v : Value} {message : Parser.Message} {n : ℕ} (h : positive v message = .ok n) : 1 ≤ n := by
  rw [positive] at h
  split at h
  · split at h
    · cases h
      omega
    · cases h
  · cases h

theorem parsePolicy_room {raw : Value} {name : String} {policy : ComposerPolicy}
    (h : parsePolicy floatOf raw name = .ok policy) : 1 ≤ policy.capacity := by
  have hevents : ∀ {fields at_ capacity overflow ttl}, parsePolicy.withEvents fields at_ capacity overflow ttl = .ok policy →
      policy.capacity = capacity := by
    intro fields at_ capacity overflow ttl h
    obtain ⟨maxEvents,-,h⟩ := bind_ok h
    cases h
    rfl
  cases raw with
  | none =>
    cases h
    decide
  | dict fields =>
    obtain ⟨capacity,hcapacity,h⟩ := bind_ok h
    have hpos := positive_ok hcapacity
    dsimp only at h
    split at h
    · cases h
    · obtain ⟨ttl,-,h⟩ := bind_ok h
      split at h
      · cases h
      · split at h
        · cases h
        · rwa [hevents h]
      · rwa [hevents h]
      · rwa [hevents h]
  | _ => cases h

/-- The threshold of an accepted entry fits into the buffer of a key. -/
theorem parseOne_threshold {raw : Value} {index : ℕ} {d : ComposerDef} (h : parseOne floatOf raw index = .ok d)
    (hop : d.op = .count) : d.threshold.getD 1 ≤ d.policy.maxEventsPerKey := by
  simp only [parseOne] at h
  split at h
  · split at h
    · split at h
      · cases h
      · split at h
        · cases h
        · rename_i op _
          obtain ⟨patterns,-,h⟩ := bind_ok h
          obtain ⟨emitKind,-,h⟩ := bind_ok h
          obtain ⟨correlateBy,-,h⟩ := bind_ok h
          obtain ⟨threshold,hthreshold,h⟩ := bind_ok h
          split at h
          · cases h
          · obtain ⟨policy,-,h⟩ := bind_ok h
            split at h
            · cases h
            · rename_i hfits
              obtain ⟨hd,hthr,hpol⟩ : d.op = op ∧ d.threshold = threshold ∧ d.policy = policy := by
                split at h <;> cases h <;> exact ⟨rfl,rfl,rfl⟩
              rw [hthr,hpol]
              rw [hop] at hd
              cases threshold with
              | none =>
                rw [← hd,parseThreshold] at hthreshold
                split at hthreshold
                · cases hthreshold
                · obtain ⟨_,-,hc⟩ := map_eq_ok hthreshold
                  cases hc
              | some t =>
                rw [← hd] at hfits
                simpa using hfits
    · cases h
  · cases h

theorem loadComposers_fits {raw : Value} {defs : List ComposerDef} (h : loadComposers floatOf raw = .ok defs) :
    ∀ d ∈ defs, 1 ≤ d.policy.capacity ∧ (d.op = .count → d.threshold.getD 1 ≤ d.policy.maxEventsPerKey) := by
  intro d hd
  cases raw with
  | none =>
    cases h
    cases hd
  | list entries =>
    obtain ⟨hparse,-,-⟩ := loadComposers_ok_iff.mp h
    obtain ⟨p,-,hp⟩ := mapM_ok_mem hparse hd
    obtain ⟨_,_,_,_,-,hpolicy⟩ := parseOne_ok hp
    exact ⟨parsePolicy_room hpolicy,parseOne_threshold hp⟩
  | _ => cases h

end ComposerConfig

namespace Composer

/-- Every turn of a composer is as documented while no matcher raises, the buffer keeps an event for every input and the
events of a sequence come in order; its pending keys are within capacity however it runs. -/
theorem streams_documented {floatOf : String → Option PyFloat} {raw : Value} {defs : List ComposerDef}
    (h : ComposerConfig.loadComposers floatOf raw = .ok defs) {d : ComposerDef} (hd : d ∈ defs) (lib : Payloads) :
    (∀ s, Runs (Stream.step lib d) (fun _ _ => True) .start s → s.pending.keys.length ≤ d.policy.capacity) ∧
      ∀ s, Runs (Stream.step lib d) (fun s a => s.Bounded lib d a ∧ s.Undisturbed lib d a) .start s →
        ∀ t ∈ s.turns, t.AsDocumented lib d := by
  obtain ⟨hpos,hcap⟩ := ComposerConfig.loadComposers_fits h d hd
  constructor
  · intro s hs
    have hle : s.pending.items.length ≤ d.policy.capacity :=
      hs.invariant (Nat.zero_le _) fun _ _ _ hle _ hstep => Stream.step_within hpos hle hstep
    rwa [Dict.keys,List.length_map]
  · intro s hs
    have hinv : s.Inv lib d := hs.invariant .start fun _ _ _ hinv hg hstep => hinv.step hcap hg.1 hg.2 hstep
    exact hinv.documented

section Sample

/-- Both of two kinds, with a cap on the events of a key. -/
def both (cap : ℕ) : ComposerDef :=
  ⟨"both",.all,[⟨"a",none⟩,⟨"b",none⟩],"composed:both",{ ttlSeconds := .finite 1, maxEventsPerKey := cap },none,none,none,
    false⟩

def bothRaw (cap : ℕ) : Value :=
  .list [.dict [(.str "name",.str "both"),(.str "op",.str "all"),
    (.str "inputs",.list [.dict [(.str "kind",.str "a")],.dict [(.str "kind",.str "b")]]),
    (.str "emit",.dict [(.str "kind",.str "composed:both")]),
    (.str "policy",.dict [(.str "ttl",.int 1),(.str "max_events_per_key",.int cap)])]]

theorem loadComposers_both {cap : ℕ} (hcap : 1 ≤ cap) :
    ComposerConfig.loadComposers (fun _ => none) (bothRaw cap) = .ok [both cap] := by
  have hpositive : ∀ message, ComposerConfig.positive (.int cap) message = .ok cap := by
    intro message
    rw [ComposerConfig.positive]
    exact if_pos (Int.ofNat_le.mpr hcap)
  have hpolicy : ComposerConfig.parsePolicy (fun _ => none)
      (.dict [(.str "ttl",.int 1),(.str "max_events_per_key",.int cap)]) "both" =
        .ok { ttlSeconds := .finite 1, maxEventsPerKey := cap } := by
    rw [ComposerConfig.parsePolicy]
    change (ComposerConfig.parseDuration _ (.int 1)).bind _ = _
    rw [parseDuration_one]
    change (ComposerConfig.positive (.int cap) _).bind _ = _
    rw [hpositive]
    rfl
  have hone : ∀ entry, bothRaw cap = .list [entry] →
      ComposerConfig.parseOne (fun _ => none) entry 0 = .ok (both cap) := by
    intro entry hentry
    cases hentry
    rw [ComposerConfig.parseOne]
    change (ComposerConfig.parsePolicy (fun _ => none)
      (.dict [(.str "ttl",.int 1),(.str "max_events_per_key",.int cap)]) "both").bind _ = _
    rw [hpolicy]
    rfl
  rw [bothRaw,ComposerConfig.loadComposers,ComposerConfig.parseAll,List.zipIdx_singleton,List.mapM_cons,hone _ rfl]
  rfl

def bothEvents : List StreamAction := [.event 0 ⟨"a",.empty⟩,.event 0 ⟨"b",.empty⟩]

def bothRun : Computed (runChecked (Stream.step plain (both 2))
    (fun s a => decide (s.Bounded plain (both 2) a ∧ s.Undisturbed plain (both 2) a)) .start bothEvents) fun s =>
      s.turns.map (fun t => (published t.effects).length) == [0,1] :=
  .of _ _ (by decide +kernel)

/-- The second event fires. -/
theorem both_documented : ∃ s : Stream, s.turns.map (fun t => (published t.effects).length) = [0,1] ∧
    ∀ t ∈ s.turns, t.AsDocumented plain (both 2) := by
  obtain ⟨s,hs,hseen⟩ := bothRun
  have hload := @loadComposers_both 2 (by decide)
  exact ⟨s,beq_iff_eq.mp hseen,(streams_documented hload (List.mem_singleton_self _) plain).2 s
    (.of_runChecked (.refl _) (fun _ _ h => of_decide_eq_true h) hs)⟩

def cappedTurn : Turn := ⟨[⟨"a",.empty⟩],some ⟨"b",.empty⟩,
  [.dropped defaultCorrelationKey "per_key_event_cap",emitComposed (both 1) defaultCorrelationKey [⟨"b",.empty⟩] []]⟩

def cappedRun : Computed (runChecked (Stream.step plain (both 1)) (fun s a => decide (s.Bounded plain (both 1) a)) .start
    bothEvents) fun s => decide (cappedTurn ∈ s.turns) :=
  .of _ _ (by decide +kernel)

/-- What is fired says how many events it is made of. -/
theorem composed_length {d : ComposerDef} {key : String} {events events' : List HookEvent}
    (h : composed d key events [] = composed d key events' []) : events.length = events'.length := by
  have hinputs : ∀ l : List HookEvent, (composed d key l []).payload.get? "inputs" =
      some (.list (l.map fun e => .dict (e.payload.items.map fun p => (.str p.1,p.2)))) := fun _ => rfl
  have hlists := congrArg (fun e => e.payload.get? "inputs") h
  rw [hinputs,hinputs] at hlists
  simpa using congrArg List.length (Value.list.inj (Option.some.inj hlists))

/-- With room for one event only, what is fired has no event for the first input. -/
theorem capped_not_documented : ¬Turn.AsDocumented plain (both 1) cappedTurn := by
  have hdue : Due plain (both 1) [⟨"a",.empty⟩] ⟨"b",.empty⟩ := by decide
  intro h
  rw [Turn.AsDocumented] at h
  change if Due plain (both 1) [⟨"a",.empty⟩] ⟨"b",.empty⟩ then _ else _ at h
  rw [if_pos hdue] at h
  obtain ⟨events,hsuffix,hpublished,hcovers⟩ := h
  have hlength : 1 = events.length := composed_length (List.cons.inj hpublished).1
  have hfull : progress plain (both 1) (correlationKey plain (both 1) ⟨"b",.empty⟩) cappedTurn.past ++ [⟨"b",.empty⟩] =
      [⟨"a",.empty⟩,⟨"b",.empty⟩] := by decide
  rw [hfull,List.suffix_iff_eq_drop,← hlength] at hsuffix
  rw [hsuffix] at hcovers
  exact absurd (hcovers (.inl rfl)) (by decide)

/-- The composer loses the event of an input. -/
theorem cap_loses_input : ¬ ∀ (floatOf : String → Option PyFloat) (lib : Payloads) (raw : Value) (defs : List ComposerDef)
    (d : ComposerDef) (s : Stream), ComposerConfig.loadComposers floatOf raw = .ok defs → d ∈ defs →
    Runs (Stream.step lib d) (fun s a => s.Bounded lib d a) .start s → ∀ t ∈ s.turns, t.AsDocumented lib d := by
  intro h
  obtain ⟨s,hs,hseen⟩ := cappedRun
  have hload := @loadComposers_both 1 le_rfl
  have hrun : Runs (Stream.step plain (both 1)) (fun s a => s.Bounded plain (both 1) a) .start s :=
    .of_runChecked (.refl _) (fun _ _ h => of_decide_eq_true h) hs
  exact capped_not_documented
    (h _ plain _ _ _ s hload (List.mem_singleton_self _) hrun cappedTurn (of_decide_eq_true hseen))

end Sample

end Composer
end Reyn
