import Reyn.Hooks.ComposerCycles
import Reyn.Lib.Runs

/-! # The composers on the bus

Every running composer has a bounded queue at the bus; what a composer publishes goes to
all queues, its own included. Three fields of a seat are history: how many events matched
an input of the composer, how many it published, and how many records it had at the start.
-/
namespace Reyn
open Py Relation Transition

structure Seat where
  definition : ComposerDef
  pending : Pending
  queue : List HookEvent
  running : Bool
  received : ℕ
  emitted : ℕ
  restored : ℕ
  deriving DecidableEq

structure HookBus where
  seats : List Seat
  external : ℕ
  deriving DecidableEq

inductive BusAction where
  | publish (event : HookEvent)
  | handle (i : ℕ) (now : ℚ)
  | sweep (i : ℕ) (now : ℚ)

/-- `_DEFAULT_SUBSCRIBER_MAXSIZE` -/
def subscriberMaxsize : ℕ := 128

section Bus
variable (lib : Payloads)

/-- A full queue drops its oldest event. -/
def Seat.receive (s : Seat) (event : HookEvent) : Seat :=
  if s.running then
    { s with
      queue := (if s.queue.length < subscriberMaxsize then s.queue else s.queue.tail) ++ [event]
      received := s.received + if Composer.Wants lib s.definition event then 1 else 0 }
  else s

namespace HookBus

def publish (b : HookBus) (event : HookEvent) : HookBus :=
  { b with seats := b.seats.map (·.receive lib event) }

/-- The seat after a step of its composer, and what the step publishes. -/
def finish (b : HookBus) (i : ℕ) (s : Seat) (queue : List HookEvent) (result : Pending × List Effect) : HookBus :=
  (Composer.published result.2).foldl (publish lib)
    { b with seats := b.seats.set i { s with
        pending := result.1, queue := queue, emitted := s.emitted + (Composer.published result.2).length } }

def step (b : HookBus) : BusAction → Option HookBus
  | .publish event => some { publish lib b event with external := b.external + 1 }
  | .handle i now =>
    match b.seats[i]? with
    | none => none
    | some s =>
      match s.running, s.queue with
      | true, event :: rest =>
        match Composer.handleEvent lib s.definition now s.pending event with
        | some result => some (finish lib b i s rest result)
        -- the task ends with an exception and unsubscribes
        | none => some { b with seats := b.seats.set i { s with queue := [], running := false } }
      | _, _ => none
  | .sweep i now =>
    match b.seats[i]? with
    | none => none
    | some s => if s.running then some (finish lib b i s s.queue (Composer.sweep lib s.definition now s.pending)) else none

/-- The composers when they start, with the records a store has kept. -/
def start (composers : List (ComposerDef × Pending)) : HookBus :=
  ⟨composers.map fun p => ⟨p.1,p.2,[],true,0,0,p.2.items.length⟩,0⟩

/-- The composed events published so far. -/
def composedCount (b : HookBus) : ℕ := (b.seats.map (·.emitted)).sum

/-- The records that were there at the start. -/
def restoredCount (b : HookBus) : ℕ := (b.seats.map (·.restored)).sum

end HookBus

/-! ## Who feeds whom -/

namespace Composer

/-- An event that a step of the composer publishes, from any records. -/
def CanEmit (d : ComposerDef) (e : HookEvent) : Prop := ∃ now pending,
  (∃ event result, handleEvent lib d now pending event = some result ∧ e ∈ published result.2) ∨
    e ∈ published (sweep lib d now pending).2

/-- An event emitted by the first composer can match an input of the second. -/
def Feeds (a b : ComposerDef) : Prop := ∃ e, CanEmit lib a e ∧ Wants lib b e

variable {lib}

theorem CanEmit.kind {d : ComposerDef} {e : HookEvent} (h : CanEmit lib d e) : e.kind = d.emitKind := by
  obtain ⟨now,pending,⟨event,result,hresult,he⟩ | he⟩ := h
  · exact (handleEvent_paid hresult).own e he
  · exact (sweep_paid now pending).own e he

/-- The kinds decide, as a composed kind has one spelling. -/
theorem Feeds.kind {a b : ComposerDef} (ha : IsComposed a.emitKind) (h : Feeds lib a b) :
    ComposerConfig.FeedsKind a b := by
  obtain ⟨e,hemit,inp,hinp,hmatch⟩ := h
  refine ⟨inp,hinp,eq_of_canonicalKind ha ?_⟩
  rw [inputMatches] at hmatch
  split at hmatch
  · cases hmatch
  · rename_i hkind
    rw [hemit.kind] at hkind
    exact not_not.mp hkind

end Composer
end Bus

/-! ## Weights -/

section Weights
variable {α : Type} {r : α → α → Prop} {l : List α}

open Classical in
/-- How many members of the list lead to a member. -/
noncomputable def below (r : α → α → Prop) (l : List α) (b : α) : ℕ :=
  (l.toFinset.filter fun a => TransGen (fun a b => a ∈ l ∧ b ∈ l ∧ r a b) a b).card

theorem below_lt (h : ∀ a, ¬ TransGen (fun a b => a ∈ l ∧ b ∈ l ∧ r a b) a a) {a b : α} (ha : a ∈ l) (hb : b ∈ l)
    (hab : r a b) : below r l a < below r l b := by
  classical
  have hstep : TransGen (fun a b => a ∈ l ∧ b ∈ l ∧ r a b) a b := .single ⟨ha,hb,hab⟩
  apply Finset.card_lt_card
  refine ⟨?_,?_⟩
  · intro c hc
    obtain ⟨hmem,hca⟩ := Finset.mem_filter.mp hc
    exact Finset.mem_filter.mpr ⟨hmem,hca.trans hstep⟩
  · intro hsub
    have hself := hsub (Finset.mem_filter.mpr ⟨List.mem_toFinset.mpr ha,hstep⟩)
    exact h a (Finset.mem_filter.mp hself).2

/-- The weight of a member exceeds the weights of what leads to it, all together. -/
noncomputable def weight (r : α → α → Prop) (l : List α) (b : α) : ℕ := (l.length + 1) ^ (below r l b + 1)

open Classical in
theorem sum_weight_lt (h : ∀ a, ¬ TransGen (fun a b => a ∈ l ∧ b ∈ l ∧ r a b) a a) {b : α} (hb : b ∈ l) :
    1 + (l.map fun a => if r a b then weight r l a else 0).sum ≤ weight r l b := by
  have heach : ∀ x ∈ l.map fun a => if r a b then weight r l a else 0, x ≤ (l.length + 1) ^ below r l b := by
    intro x hx
    obtain ⟨a,ha,rfl⟩ := List.mem_map.mp hx
    split
    · exact Nat.pow_le_pow_right (Nat.succ_pos _) (below_lt h ha hb ‹_›)
    · exact Nat.zero_le _
  have hsum := List.sum_le_card_nsmul _ _ heach
  rw [List.length_map,smul_eq_mul] at hsum
  have hpos : 1 ≤ (l.length + 1) ^ below r l b := Nat.one_le_pow _ _ (Nat.succ_pos _)
  calc 1 + (l.map fun a => if r a b then weight r l a else 0).sum
      ≤ (l.length + 1) ^ below r l b + l.length * (l.length + 1) ^ below r l b := Nat.add_le_add hpos hsum
    _ = weight r l b := by rw [weight,pow_succ]; ring

end Weights

/-! ## What the queues pay for -/

section Invariant
variable {lib : Payloads}

theorem Seat.receive_same (s : Seat) (event : HookEvent) : (s.receive lib event).definition = s.definition ∧
    (s.receive lib event).pending = s.pending ∧ (s.receive lib event).running = s.running ∧
    (s.receive lib event).emitted = s.emitted ∧ (s.receive lib event).restored = s.restored := by
  rw [Seat.receive]
  split <;> exact ⟨rfl,rfl,rfl,rfl,rfl⟩

/-- The waiting events that match an input. -/
def Seat.wanted (lib : Payloads) (s : Seat) : List HookEvent :=
  s.queue.filter fun e => decide (Composer.Wants lib s.definition e)

/-- A published event that matches counts as received, whether or not it stays in the queue. -/
theorem Seat.receive_wanted (s : Seat) (event : HookEvent) :
    ((s.receive lib event).wanted lib).length + s.received ≤ (s.wanted lib).length + (s.receive lib event).received := by
  rw [Seat.receive]
  split
  · simp only [Seat.wanted,List.filter_append,List.length_append]
    have htail : ((if s.queue.length < subscriberMaxsize then s.queue else s.queue.tail).filter fun e =>
        decide (Composer.Wants lib s.definition e)).length ≤
        (s.queue.filter fun e => decide (Composer.Wants lib s.definition e)).length := by
      split
      · exact le_rfl
      · exact ((List.tail_sublist s.queue).filter _).length_le
    have hone : ([event].filter fun e => decide (Composer.Wants lib s.definition e)).length =
        if Composer.Wants lib s.definition event then 1 else 0 := by
      by_cases h : Composer.Wants lib s.definition event <;> simp [h]
    omega
  · exact le_rfl

theorem Seat.receive_received (s : Seat) (event : HookEvent) : (s.receive lib event).received ≤
    s.received + if Composer.Wants lib s.definition event then 1 else 0 := by
  rw [Seat.receive]
  split
  · exact le_rfl
  · exact Nat.le_add_right ..

open Classical in
/-- What the composers that can feed a definition have published. -/
noncomputable def HookBus.fedTo (lib : Payloads) (b : HookBus) (d : ComposerDef) : ℕ :=
  (b.seats.map fun s => if Composer.Feeds lib s.definition d then s.emitted else 0).sum

/-- Every composed event, every record and every waiting event of a composer is paid for by an event it received or a
record it had at the start; and what it received came from outside or from a composer that can feed it. The credit
counts what is published already but not received. -/
structure HookBus.Inv (lib : Payloads) (composers : List (ComposerDef × Pending)) (credit : ComposerDef → ℕ)
    (b : HookBus) : Prop where
  seats : b.seats.map (fun s => (s.definition,s.restored)) = composers.map fun p => (p.1,p.2.items.length)
  paid : ∀ s ∈ b.seats, s.emitted + s.pending.items.length + (s.wanted lib).length ≤ s.received + s.restored
  source : ∀ s ∈ b.seats, s.received + credit s.definition ≤ b.external + b.fedTo lib s.definition

namespace HookBus
variable {composers : List (ComposerDef × Pending)} {b c : HookBus} {credit : ComposerDef → ℕ}

theorem fedTo_publish (event : HookEvent) (d : ComposerDef) : (b.publish lib event).fedTo lib d = b.fedTo lib d := by
  rw [fedTo,publish,List.map_map,fedTo]
  congr 1
  apply List.map_congr_left
  intro s _
  obtain ⟨hd,-,-,he,-⟩ := @Seat.receive_same lib s event
  rw [Function.comp_apply,hd,he]

theorem Inv.publish {spent : ComposerDef → ℕ} (h : Inv lib composers credit b) (event : HookEvent)
    (hle : ∀ d, spent d + (if Composer.Wants lib d event then 1 else 0) ≤ credit d) :
    Inv lib composers spent (b.publish lib event) := by
  refine ⟨?_,?_,?_⟩
  · rw [← h.seats,HookBus.publish,List.map_map]
    apply List.map_congr_left
    intro s _
    obtain ⟨hd,-,-,-,hr⟩ := @Seat.receive_same lib s event
    rw [Function.comp_apply,hd,hr]
  · intro received hmem
    obtain ⟨s,hs,rfl⟩ := List.mem_map.mp hmem
    obtain ⟨-,hp,-,he,hr⟩ := @Seat.receive_same lib s event
    have hpaid := h.paid s hs
    have hwanted := @Seat.receive_wanted lib s event
    rw [hp,he,hr]
    omega
  · intro received hmem
    obtain ⟨s,hs,rfl⟩ := List.mem_map.mp hmem
    obtain ⟨hd,-⟩ := @Seat.receive_same lib s event
    have hsource := h.source s hs
    have hreceived := @Seat.receive_received lib s event
    have hspent := hle s.definition
    rw [fedTo_publish,hd]
    calc (s.receive lib event).received + spent s.definition ≤ s.received + credit s.definition := by omega
      _ ≤ b.external + b.fedTo lib s.definition := hsource

open Classical in
theorem Inv.foldl_publish {d : ComposerDef} {events : List HookEvent} (hemit : ∀ e ∈ events, Composer.CanEmit lib d e)
    (h : Inv lib composers (fun d' => if Composer.Feeds lib d d' then events.length else 0) b) :
    Inv lib composers (fun _ => 0) (events.foldl (HookBus.publish lib) b) := by
  induction events generalizing b with
  | nil => simpa using h
  | cons e rest ih =>
    apply ih fun e' he' => hemit e' (List.mem_cons_of_mem _ he')
    refine h.publish e fun d' => ?_
    by_cases hwants : Composer.Wants lib d' e
    · have hfeeds : Composer.Feeds lib d d' := ⟨e,hemit e List.mem_cons_self,hwants⟩
      simp [hwants,hfeeds]
    · rw [if_neg hwants]
      split <;> simp

theorem mem_set_cases {α : Type} {l : List α} {i : ℕ} {a x : α} (h : x ∈ l.set i a) : x = a ∨ x ∈ l :=
  (List.mem_or_eq_of_mem_set h).symm

theorem sum_map_set {α : Type} {l : List α} {i : ℕ} {s s' : α} (h : l[i]? = some s) (f : α → ℕ) :
    ((l.set i s').map f).sum + f s = (l.map f).sum + f s' := by
  obtain ⟨hi,rfl⟩ := List.getElem?_eq_some_iff.mp h
  rw [List.set_eq_take_append_cons_drop,if_pos hi]
  conv_rhs => rw [← List.take_append_drop i l,← List.getElem_cons_drop hi]
  simp only [List.map_append,List.map_cons,List.sum_append,List.sum_cons]
  omega

open Classical in
/-- One seat changes, and `k` events of its composer are to be published. -/
theorem Inv.set {i k : ℕ} {s s' : Seat} (h : Inv lib composers (fun _ => 0) b) (hi : b.seats[i]? = some s)
    (hdefinition : s'.definition = s.definition) (hrestored : s'.restored = s.restored)
    (hreceived : s'.received = s.received) (hemitted : s'.emitted = s.emitted + k)
    (hpaid : s'.emitted + s'.pending.items.length + (s'.wanted lib).length ≤ s'.received + s'.restored) :
    Inv lib composers (fun d => if Composer.Feeds lib s.definition d then k else 0)
      { b with seats := b.seats.set i s' } := by
  have hmem : s ∈ b.seats := List.mem_of_getElem? hi
  refine ⟨?_,?_,?_⟩
  · rw [← h.seats]
    apply List.ext_getElem?
    intro j
    rw [List.getElem?_map,List.getElem?_map,List.getElem?_set]
    split
    · rename_i hij
      subst hij
      rw [hi,if_pos (List.getElem?_eq_some_iff.mp hi).1,Option.map_some,Option.map_some,hdefinition,hrestored]
    · rfl
  · intro x hx
    rcases mem_set_cases hx with rfl | hx
    · exact hpaid
    · exact h.paid x hx
  · intro x hx
    have hd := @sum_map_set _ _ _ _ s' hi fun s => if Composer.Feeds lib s.definition x.definition then s.emitted else 0
    have hsource : x.received ≤ b.external + b.fedTo lib x.definition := by
      rcases mem_set_cases hx with rfl | hx
      · rw [hreceived,hdefinition]
        exact h.source s hmem
      · exact h.source x hx
    rw [hdefinition,hemitted] at hd
    simp only [fedTo] at *
    split_ifs at hd ⊢ <;> omega

/-- A step of one composer: its queue gives up what the step was paid with. -/
theorem Inv.finish {i : ℕ} {s : Seat} {queue : List HookEvent} {room : ℕ} {result : Pending × List Effect}
    (h : Inv lib composers (fun _ => 0) b) (hi : b.seats[i]? = some s)
    (hqueue : (queue.filter fun e => decide (Composer.Wants lib s.definition e)).length + room ≤ (s.wanted lib).length)
    (hpaid : Composer.Paid s.definition s.pending room result)
    (hemit : ∀ e ∈ Composer.published result.2, Composer.CanEmit lib s.definition e) :
    Inv lib composers (fun _ => 0) (HookBus.finish lib b i s queue result) := by
  rw [HookBus.finish]
  apply Inv.foldl_publish hemit
  refine h.set hi rfl rfl rfl rfl ?_
  have hold := h.paid s (List.mem_of_getElem? hi)
  have hnew := hpaid.paid
  simp only [Seat.wanted] at *
  omega

theorem Inv.step {a : BusAction} (h : Inv lib composers (fun _ => 0) b) (hs : HookBus.step lib b a = some c) :
    Inv lib composers (fun _ => 0) c := by
  cases a with
  | publish event =>
    cases hs
    have hcredit : Inv lib composers (fun _ => 1) { b with external := b.external + 1 } := by
      refine ⟨h.seats,h.paid,fun s hs => ?_⟩
      have hsource := h.source s hs
      simp only [fedTo] at *
      omega
    exact hcredit.publish event fun d => by split <;> simp
  | handle i now =>
    simp only [HookBus.step] at hs
    split at hs
    · cases hs
    · rename_i s hi
      split at hs
      · rename_i event rest hrunning hqueue
        split at hs
        · rename_i result hresult
          cases hs
          refine h.finish hi ?_ (Composer.handleEvent_paid hresult) ?_
          · rw [Seat.wanted,hqueue]
            by_cases hwants : Composer.Wants lib s.definition event <;> simp [hwants]
          · intro e he
            exact ⟨now,s.pending,.inl ⟨event,result,hresult,he⟩⟩
        · cases hs
          have hdead := @Inv.set _ _ _ _ 0 _ { s with queue := [], running := false } h hi rfl rfl rfl rfl ?_
          · simpa using hdead
          · have hold := h.paid s (List.mem_of_getElem? hi)
            simp only [Seat.wanted,List.filter_nil,List.length_nil] at *
            omega
      · cases hs
  | sweep i now =>
    simp only [HookBus.step] at hs
    split at hs
    · cases hs
    · rename_i s hi
      split at hs
      · cases hs
        refine h.finish hi le_rfl (Composer.sweep_paid now s.pending) ?_
        intro e he
        exact ⟨now,s.pending,.inr he⟩
      · cases hs

theorem Inv.run (h : Runs (HookBus.step lib) (fun _ _ => True) (start composers) b) :
    Inv lib composers (fun _ => 0) b := by
  refine h.invariant ⟨?_,?_,?_⟩ fun _ _ _ hinv _ hs => hinv.step hs
  · rw [start,List.map_map]
    rfl
  · intro s hs
    obtain ⟨p,-,rfl⟩ := List.mem_map.mp hs
    simp [Seat.wanted]
  · intro s hs
    obtain ⟨p,-,rfl⟩ := List.mem_map.mp hs
    exact Nat.zero_le _

/-! ## Finitely many composed events -/

/-- What comes from outside: external events and restored records. -/
def outside (b : HookBus) : ℕ := b.external + b.restoredCount

theorem restored_le {s : Seat} (hs : s ∈ b.seats) : s.restored ≤ b.restoredCount :=
  List.le_sum_of_mem (List.mem_map_of_mem hs)

/-- A composer publishes at most its weight for every event from outside. -/
theorem Inv.emitted_le (h : Inv lib composers (fun _ => 0) b) {s : Seat} (hs : s ∈ b.seats)
    (hacyclic : ∀ a, ¬ TransGen (fun a d => a ∈ composers.map Prod.fst ∧ d ∈ composers.map Prod.fst ∧
      Composer.Feeds lib a d) a a) :
    s.emitted ≤ weight (Composer.Feeds lib) (composers.map Prod.fst) s.definition * b.outside := by
  have hdefinitions : b.seats.map (·.definition) = composers.map Prod.fst := by
    have hfst := congrArg (List.map Prod.fst) h.seats
    simpa [List.map_map,Function.comp_def] using hfst
  have hmem : ∀ {s}, s ∈ b.seats → s.definition ∈ composers.map Prod.fst := fun hs =>
    hdefinitions ▸ List.mem_map_of_mem hs
  generalize hn : below (Composer.Feeds lib) (composers.map Prod.fst) s.definition = n
  induction n using Nat.strong_induction_on generalizing s with
  | _ n ih =>
    classical
    let w := weight (Composer.Feeds lib) (composers.map Prod.fst)
    have hfed : b.fedTo lib s.definition ≤
        ((composers.map Prod.fst).map fun d => if Composer.Feeds lib d s.definition then w d else 0).sum * b.outside := by
      rw [← hdefinitions,List.map_map,← List.sum_map_mul_right,fedTo]
      apply List.sum_le_sum
      intro x hx
      rw [Function.comp_apply]
      by_cases hfeeds : Composer.Feeds lib x.definition s.definition
      · rw [if_pos hfeeds,if_pos hfeeds]
        exact ih _ (hn ▸ below_lt hacyclic (hmem hx) (hmem hs) hfeeds) hx rfl
      · rw [if_neg hfeeds,if_neg hfeeds,Nat.zero_mul]
    have hpaid := h.paid s hs
    have hsource := h.source s hs
    have hrestored := restored_le hs
    calc s.emitted ≤ b.outside + b.fedTo lib s.definition := by simp only [outside]; omega
      _ ≤ b.outside + ((composers.map Prod.fst).map fun d =>
            if Composer.Feeds lib d s.definition then w d else 0).sum * b.outside := Nat.add_le_add_left hfed _
      _ = (1 + ((composers.map Prod.fst).map fun d =>
            if Composer.Feeds lib d s.definition then w d else 0).sum) * b.outside := by ring
      _ ≤ w s.definition * b.outside := Nat.mul_le_mul_right _ (sum_weight_lt hacyclic (hmem hs))

/-- Without a cycle the composed events are bounded by the events from outside. -/
theorem composedCount_le (hacyclic : ∀ a, ¬ TransGen (fun a d => a ∈ composers.map Prod.fst ∧
      d ∈ composers.map Prod.fst ∧ Composer.Feeds lib a d) a a)
    (h : Runs (HookBus.step lib) (fun _ _ => True) (start composers) b) : b.composedCount ≤
      ((composers.map Prod.fst).map (weight (Composer.Feeds lib) (composers.map Prod.fst))).sum * b.outside := by
  have hinv := Inv.run h
  have hdefinitions : b.seats.map (·.definition) = composers.map Prod.fst := by
    have hfst := congrArg (List.map Prod.fst) hinv.seats
    simpa [List.map_map,Function.comp_def] using hfst
  conv_rhs => rw [← hdefinitions,List.map_map,← List.sum_map_mul_right]
  apply List.sum_le_sum
  intro s hs
  rw [Function.comp_apply,hdefinitions]
  exact hinv.emitted_le hs hacyclic

end HookBus
end Invariant

/-! ## The claim of the load-time check -/

namespace ComposerConfig
variable (floatOf : String → Option PyFloat) (lib : Payloads)

def FeedsAmong (defs : List ComposerDef) (a b : ComposerDef) : Prop := a ∈ defs ∧ b ∈ defs ∧ Composer.Feeds lib a b

def HasCycle (defs : List ComposerDef) : Prop := ∃ d, TransGen (FeedsAmong lib defs) d d

/-- What the check is for: the composers it accepts do not feed each other in a cycle, the events from outside lead to
only so many composed events in any run, and composers with a cycle are refused. -/
structure NoFeedback (raw : Value) : Prop where
  acyclic : ∀ defs, loadComposers floatOf raw = .ok defs → ¬ HasCycle lib defs
  bounded : ∀ defs, loadComposers floatOf raw = .ok defs → ∃ n, ∀ composers : List (ComposerDef × Pending),
    composers.map Prod.fst = defs → ∀ b, Runs (HookBus.step lib) (fun _ _ => True) (HookBus.start composers) b →
      b.composedCount ≤ n * b.outside
  refused : ∀ entries defs, raw = .list entries → parseAll floatOf entries = .ok defs → HasCycle lib defs →
    ∃ failure, loadComposers floatOf raw = .error failure

variable {floatOf lib}

/-- The check does what it is for exactly when every list with a cycle and without a name used twice has a composer that
takes its own kind, or a cycle through composers that are each the last to emit their kind. -/
theorem noFeedback_iff (raw : Value) : NoFeedback floatOf lib raw ↔
    ∀ entries defs, raw = .list entries → parseAll floatOf entries = .ok defs → (defs.map (·.name)).Nodup →
      HasCycle lib defs → (∃ d ∈ defs, FeedsKind d d) ∨ ∃ d, TransGen (LastFeeds defs) d d := by
  constructor
  · rintro h entries defs rfl hparse hnodup hcycle
    by_contra hnone
    rw [not_or] at hnone
    obtain ⟨hself,hlast⟩ := hnone
    refine h.acyclic defs (loadComposers_ok_iff.mpr ⟨hparse,hnodup,?_⟩) hcycle
    exact (checkNoCycles_ok_iff hnodup).mpr ⟨fun d hd hfeeds => hself ⟨d,hd,hfeeds⟩,hlast⟩
  · intro h
    have hacyclic : ∀ defs, loadComposers floatOf raw = .ok defs → ¬ HasCycle lib defs := by
      intro defs hload hcycle
      cases raw with
      | none =>
        cases hload
        obtain ⟨d,hd⟩ := hcycle
        obtain ⟨b,⟨hmem,-⟩,-⟩ := TransGen.head'_iff.mp hd
        cases hmem
      | list entries =>
        obtain ⟨hparse,hnodup,hcheck⟩ := loadComposers_ok_iff.mp hload
        obtain ⟨hself,hlast⟩ := (checkNoCycles_ok_iff hnodup).mp hcheck
        rcases h entries defs rfl hparse hnodup hcycle with ⟨d,hd,hfeeds⟩ | hcycle
        · exact hself d hd hfeeds
        · exact hlast hcycle
      | _ => cases hload
    refine ⟨hacyclic,?_,?_⟩
    · intro defs hload
      refine ⟨(defs.map (weight (Composer.Feeds lib) defs)).sum,?_⟩
      rintro composers rfl b hrun
      exact HookBus.composedCount_le (fun a ha => hacyclic _ hload ⟨a,ha⟩) hrun
    · intro entries defs hraw hparse hcycle
      cases hload : loadComposers floatOf raw with
      | error failure => exact ⟨failure,rfl⟩
      | ok defs' =>
        subst hraw
        obtain ⟨hparse',-⟩ := loadComposers_ok_iff.mp hload
        obtain rfl := Except.ok.inj (hparse.symm.trans hparse')
        exact absurd hcycle (hacyclic defs hload)

/-- Composers that emit different kinds are checked right. -/
theorem noFeedback_of_distinct {raw : Value} (h : ∀ entries defs, raw = .list entries →
    parseAll floatOf entries = .ok defs → (defs.map (·.emitKind)).Nodup) : NoFeedback floatOf lib raw := by
  refine (noFeedback_iff raw).mpr fun entries defs hraw hparse _ ⟨d,hcycle⟩ => .inr ⟨d,?_⟩
  have hlast : ∀ a ∈ defs, IsLastEmitter defs a := by
    intro a ha
    have hone : ∀ b ∈ defs.filter (·.emitKind = a.emitKind), b = a := by
      intro b hb
      obtain ⟨hb,hkind⟩ := List.mem_filter.mp hb
      exact List.inj_on_of_nodup_map (h entries defs hraw hparse) hb ha (by simpa using hkind)
    have hne : defs.filter (·.emitKind = a.emitKind) ≠ [] :=
      List.ne_nil_of_mem (List.mem_filter.mpr ⟨ha,by simp⟩)
    rw [IsLastEmitter,List.getLast?_eq_some_getLast hne,hone _ (List.getLast_mem hne)]
  refine TransGen.mono (fun a b hab => ?_) d d hcycle
  obtain ⟨ha,hb,hfeeds⟩ := hab
  exact ⟨hlast a ha,hlast b hb,hfeeds.kind (parseAll_composed hparse a ha)⟩

/-! ## Two composers that emit one kind -/

section Sample

def anyEntry (name input emit : String) : Value :=
  .dict [(.str "name",.str name),(.str "op",.str "any"),(.str "inputs",.list [.dict [(.str "kind",.str input)]]),
    (.str "emit",.dict [(.str "kind",.str emit)])]

def anyComposer (name input emit : String) : ComposerDef :=
  ⟨name,.any,[⟨input,none⟩],emit,{},none,none,none,false⟩

/-- The first two feed each other; the third one emits the first one's kind. -/
def sharedKind : List ComposerDef :=
  [anyComposer "a" "composed:y" "composed:x",anyComposer "c" "composed:x" "composed:y",
    anyComposer "b" "turn_end" "composed:x"]

def sharedKindRaw : Value :=
  .list [anyEntry "a" "composed:y" "composed:x",anyEntry "c" "composed:x" "composed:y",anyEntry "b" "turn_end" "composed:x"]

theorem loadComposers_sharedKind : loadComposers (fun _ => none) sharedKindRaw = .ok sharedKind := rfl

theorem feeds_any {lib : Payloads} {name input emit name' emit' : String} :
    Composer.Feeds lib (anyComposer name input emit) (anyComposer name' emit emit') := by
  let event : HookEvent := ⟨input,.empty⟩
  let d := anyComposer name input emit
  have hmatch : ∀ kind payload, Composer.inputMatches lib ⟨kind,none⟩ ⟨kind,payload⟩ = some true := by
    intro kind payload
    rw [Composer.inputMatches,if_neg (not_not_intro rfl)]
  have hindices : Composer.matchedInputIndices lib d event = some [0] := by
    simp [Composer.matchedInputIndices,d,anyComposer,event,hmatch]
  have hhandle : Composer.handleEvent lib d 0 .empty event =
      some (.empty,[Composer.emitComposed d (Composer.correlationKey lib d event) [event] []]) := by
    rw [Composer.handleEvent,if_neg (fun hop => ComposerOp.noConfusion hop),hindices]
    rfl
  refine ⟨_,⟨0,.empty,.inl ⟨event,_,hhandle,List.mem_singleton_self _⟩⟩,?_⟩
  exact ⟨⟨emit,none⟩,List.mem_singleton_self _,hmatch emit _⟩

/-- The cycle is accepted. -/
theorem shared_kind_feeds_back : ¬ ∀ (floatOf : String → Option PyFloat) (lib : Payloads) (raw : Value),
    NoFeedback floatOf lib raw := by
  intro h
  refine (h (fun _ => none) ⟨fun _ => "",fun _ _ => false,fun _ => .none⟩ sharedKindRaw).acyclic _ loadComposers_sharedKind ?_
  refine ⟨anyComposer "a" "composed:y" "composed:x",.head (b := anyComposer "c" "composed:x" "composed:y") ?_ (.single ?_)⟩
  · exact ⟨by simp [sharedKind],by simp [sharedKind],feeds_any⟩
  · exact ⟨by simp [sharedKind],by simp [sharedKind],feeds_any⟩

end Sample

end ComposerConfig
end Reyn
