import Reyn.Runtime.ChatMessage

/-! # Tool cycles under the branch filter

The branch filter decides each entry from the entries in front of it. A tool result shares the fate of
the assistant entry that issued it while nothing but tool results lies between the two; an internal row
between them closes the cycle, and the result is judged by its own anchor.
-/
namespace Reyn
open Py

namespace ChatMessage

/-- The open cycle behind the entry. -/
def cycleBehind (cycle : Option (Option ℕ)) (m : ChatMessage) : Option (Option ℕ) :=
  if m.role = .tool then cycle else m.nextCycle

/-- The anchor that decides the entry. -/
def deciding (cycle : Option (Option ℕ)) (m : ChatMessage) : Option ℕ :=
  (if m.role = .tool then cycle else none).getD m.walSeq

end ChatMessage

/-- The open cycle behind some entries. -/
def cycleAfter (cycle : Option (Option ℕ)) (front : List ChatMessage) : Option (Option ℕ) :=
  front.foldl ChatMessage.cycleBehind cycle

section Filter
variable {isActive : Option ℕ → Bool} {cycle : Option (Option ℕ)} {front rest : List ChatMessage} {m : ChatMessage}

theorem filterVisible_cons : filterVisibleOnActiveBranch isActive cycle (m :: rest) =
    (if isActive (m.deciding cycle) then [m] else []) ++ filterVisibleOnActiveBranch isActive (m.cycleBehind cycle) rest := by
  rw [filterVisibleOnActiveBranch,ChatMessage.deciding,ChatMessage.cycleBehind]
  by_cases htool : m.role = .tool
  · have hnext : m.nextCycle = none := by simp [ChatMessage.nextCycle,ChatMessage.opensCycle,htool]
    rw [if_pos htool,if_pos htool]
    cases cycle with
    | none =>
      simp only [Option.getD_none,hnext]
      split <;> rfl
    | some anchor =>
      simp only [Option.getD_some]
      split <;> rfl
  · rw [if_neg htool,if_neg htool]
    simp only [Option.getD_none]
    split <;> rfl

/-- Entries are decided by those in front. -/
theorem filterVisible_append : filterVisibleOnActiveBranch isActive cycle (front ++ rest) =
    filterVisibleOnActiveBranch isActive cycle front ++
      filterVisibleOnActiveBranch isActive (cycleAfter cycle front) rest := by
  induction front generalizing cycle with
  | nil => rfl
  | cons m front ih =>
    rw [List.cons_append,filterVisible_cons,filterVisible_cons,ih,List.append_assoc]
    rfl

end Filter

/-- The filter keeps an entry that stands behind these. -/
def StaysVisible (isActive : Option ℕ → Bool) (front : List ChatMessage) (m : ChatMessage) : Prop :=
  filterVisibleOnActiveBranch isActive none (front ++ [m]) = filterVisibleOnActiveBranch isActive none front ++ [m]

theorem staysVisible_iff {isActive : Option ℕ → Bool} {front : List ChatMessage} {m : ChatMessage} :
    StaysVisible isActive front m ↔ isActive (m.deciding (cycleAfter none front)) = true := by
  rw [StaysVisible,filterVisible_append,filterVisible_cons,filterVisibleOnActiveBranch,List.append_nil,List.append_cancel_left_eq]
  split
  · rename_i hact
    exact iff_of_true rfl hact
  · rename_i hact
    exact iff_of_false (List.cons_ne_nil m []).symm hact

/-- What the filter leaves out stands in nothing, and what it keeps stays where it was. -/
theorem filterVisible_at {isActive : Option ℕ → Bool} (front : List ChatMessage) (m : ChatMessage) (rest : List ChatMessage) :
    ∃ kept : List ChatMessage, kept.Sublist rest ∧
      (StaysVisible isActive front m ∧ filterVisibleOnActiveBranch isActive none (front ++ m :: rest) =
          filterVisibleOnActiveBranch isActive none front ++ m :: kept ∨
        ¬ StaysVisible isActive front m ∧ filterVisibleOnActiveBranch isActive none (front ++ m :: rest) =
          filterVisibleOnActiveBranch isActive none front ++ kept) := by
  refine ⟨_,@filterVisible_sublist isActive (m.cycleBehind (cycleAfter none front)) rest,?_⟩
  rw [staysVisible_iff,filterVisible_append,filterVisible_cons]
  by_cases hact : isActive (m.deciding (cycleAfter none front)) = true
  · left
    rw [if_pos hact]
    exact ⟨hact,rfl⟩
  · right
    rw [if_neg hact]
    exact ⟨hact,rfl⟩

/-! ## Cycles -/

theorem cycleAfter_concat (front : List ChatMessage) (m : ChatMessage) (cycle : Option (Option ℕ)) :
    cycleAfter cycle (front ++ [m]) = m.cycleBehind (cycleAfter cycle front) :=
  List.foldl_concat ..

/-- Tool results keep a cycle open, and a row of another kind closes it. -/
theorem cycleAfter_between {cycle : Option (Option ℕ)} {between : List ChatMessage}
    (h : ∀ x ∈ between, x.role ≠ .user ∧ x.role ≠ .assistant) :
    cycleAfter cycle between = if ∀ x ∈ between, x.role = .tool then cycle else none := by
  induction between generalizing cycle with
  | nil => simp [cycleAfter]
  | cons x between ih =>
    have hrest := fun y hy => h y (List.mem_cons_of_mem x hy)
    change cycleAfter (x.cycleBehind cycle) between = _
    rw [ih hrest]
    by_cases htool : x.role = .tool
    · simp [ChatMessage.cycleBehind,htool]
    · have hclosed : x.cycleBehind cycle = none := by
        simp [ChatMessage.cycleBehind,ChatMessage.nextCycle,ChatMessage.opensCycle,htool,(h x List.mem_cons_self).2]
      rw [hclosed,ite_self,if_neg]
      intro hall
      exact htool (hall x List.mem_cons_self)

/-- The history is the entries in front, an assistant entry that opens a cycle, entries that are no message of the
user or the assistant, and a tool result; the result is one the assistant entry issued. -/
structure CycleOf (history earlier : List ChatMessage) (a : ChatMessage) (between : List ChatMessage) (m : ChatMessage)
    (rest : List ChatMessage) : Prop where
  split : history = earlier ++ a :: between ++ m :: rest
  opens : a.opensCycle = true
  result : m.role = .tool
  between : ∀ x ∈ between, x.role ≠ .user ∧ x.role ≠ .assistant

namespace CycleOf
variable {isActive : Option ℕ → Bool} {history earlier between rest : List ChatMessage} {a m : ChatMessage}

theorem opening_not_tool (h : CycleOf history earlier a between m rest) : a.role ≠ .tool := by
  intro htool
  have hopens := h.opens
  simp [ChatMessage.opensCycle,htool] at hopens

theorem opening_visible_iff (h : CycleOf history earlier a between m rest) : StaysVisible isActive earlier a ↔ isActive a.walSeq = true := by
  rw [staysVisible_iff,ChatMessage.deciding,if_neg h.opening_not_tool,Option.getD_none]

theorem result_visible_iff (h : CycleOf history earlier a between m rest) :
    StaysVisible isActive (earlier ++ a :: between) m ↔
      isActive (if ∀ x ∈ between, x.role = .tool then a.walSeq else m.walSeq) = true := by
  have hcycle : cycleAfter none (earlier ++ a :: between) = if ∀ x ∈ between, x.role = .tool then some a.walSeq else none := by
    rw [List.append_cons,cycleAfter,List.foldl_append]
    change cycleAfter (cycleAfter none (earlier ++ [a])) between = _
    rw [cycleAfter_between h.between,cycleAfter_concat,ChatMessage.cycleBehind,if_neg h.opening_not_tool,ChatMessage.nextCycle,if_pos h.opens]
  rw [staysVisible_iff,hcycle,ChatMessage.deciding,if_pos h.result]
  split <;> rfl

end CycleOf

/-- Tool cycles are whole: a result stays visible exactly when the entry that issued it does, every entry of another kind
exactly when its own anchor is active or absent, and what stays visible keeps its order. -/
structure ToolCyclesWhole (active : ℕ → Bool) (history : List ChatMessage) : Prop where
  results : ∀ earlier a between m rest, CycleOf history earlier a between m rest →
    (StaysVisible (·.all active) (earlier ++ a :: between) m ↔ StaysVisible (·.all active) earlier a)
  others : ∀ front m rest, history = front ++ m :: rest → m.role ≠ .tool →
    (StaysVisible (·.all active) front m ↔ m.walSeq.all active = true)
  order : ∀ front m rest, history = front ++ m :: rest → ∃ kept : List ChatMessage, kept.Sublist rest ∧
    (StaysVisible (·.all active) front m ∧ filterVisibleOnActiveBranch (·.all active) none history =
        filterVisibleOnActiveBranch (·.all active) none front ++ m :: kept ∨
      ¬ StaysVisible (·.all active) front m ∧ filterVisibleOnActiveBranch (·.all active) none history =
        filterVisibleOnActiveBranch (·.all active) none front ++ kept)

/-- Exactly the results that an internal row divides from the entry that issued them need an anchor of their own that is
as active as that entry's. -/
theorem toolCyclesWhole_iff (active : ℕ → Bool) (history : List ChatMessage) : ToolCyclesWhole active history ↔
    ∀ earlier a between m rest, CycleOf history earlier a between m rest → (∃ x ∈ between, x.role ≠ .tool) →
      m.walSeq.all active = a.walSeq.all active := by
  constructor
  · rintro ⟨hresults,-,-⟩ earlier a between m rest hcycle ⟨x,hx,hne⟩
    have hboth := hresults earlier a between m rest hcycle
    rw [hcycle.result_visible_iff,hcycle.opening_visible_iff,if_neg fun hall => hne (hall x hx)] at hboth
    exact Bool.eq_iff_iff.mpr hboth
  · intro h
    constructor
    · intro earlier a between m rest hcycle
      rw [hcycle.result_visible_iff,hcycle.opening_visible_iff]
      split
      · rfl
      · rename_i hsplit
        rw [not_forall] at hsplit
        obtain ⟨x,hx⟩ := hsplit
        obtain ⟨hmem,hne⟩ := Classical.not_imp.mp hx
        rw [h earlier a between m rest hcycle ⟨x,hmem,hne⟩]
    · intro front m rest _ hrole
      rw [staysVisible_iff,ChatMessage.deciding,if_neg hrole,Option.getD_none]
    · rintro front m rest rfl
      exact filterVisible_at front m rest

/-! ## A row between a call and its result -/

/-- Every tool result is one that an assistant entry in front of it issued. -/
def ResultsIssued (history : List ChatMessage) : Prop :=
  ∀ front m rest, history = front ++ m :: rest → m.role = .tool →
    ∃ earlier a between, front = earlier ++ a :: between ∧ CycleOf history earlier a between m rest

def AnchorsIncrease (history : List ChatMessage) : Prop := (history.filterMap (·.walSeq)).Pairwise (· ≤ ·)

def rowOf (role : ChatRole) (seq : ℕ) (toolCalls : Bool) (walSeq : ℕ) : ChatMessage :=
  ⟨role,.str "",seq,toolCalls,none,some walSeq,false,none,0,none⟩

/-- A call, a record of a spill, and the result of the call. -/
def spilledCycle : List ChatMessage := [rowOf .assistant 1 true 3,rowOf .spillRecord 2 false 4,rowOf .tool 3 false 10]

/-- A cut between the anchors leaves the call without its result. -/
theorem spilledCycle_divided : ¬ ∀ active history, ResultsIssued history → AnchorsIncrease history →
    ToolCyclesWhole active history := by
  intro h
  have hcycle : CycleOf spilledCycle [] (rowOf .assistant 1 true 3) [rowOf .spillRecord 2 false 4] (rowOf .tool 3 false 10) [] := by
    constructor
    · rfl
    · rfl
    · rfl
    · simp [rowOf]
  have hissued : ResultsIssued spilledCycle := by
    intro front m rest hsplit htool
    rcases front with _ | ⟨x,_ | ⟨y,_ | ⟨z,front⟩⟩⟩
    · cases hsplit
      cases htool
    · cases hsplit
      cases htool
    · cases hsplit
      exact ⟨[],_,_,rfl,hcycle⟩
    · have hlength := congrArg List.length hsplit
      simp [spilledCycle] at hlength
  have hincrease : AnchorsIncrease spilledCycle := by
    rw [AnchorsIncrease]
    decide
  have hwhole := h (· ≤ 5) spilledCycle hissued hincrease
  have hboth := hwhole.results _ _ _ _ _ hcycle
  rw [hcycle.opening_visible_iff,hcycle.result_visible_iff] at hboth
  revert hboth
  decide

end Reyn
