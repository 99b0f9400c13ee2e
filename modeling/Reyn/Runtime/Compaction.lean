import Reyn.Lib.KeyedLog
import Reyn.Runtime.ChatMessage

/-! # What a compaction pass offers to the summarizer

The oldest and the newest turns are protected, a tool cycle as a unit; between
them the operator takes everything, an overflow the oldest cycles up to its
shortfall. What a pass takes has no holes: a turn between two candidates is one.
-/
namespace Reyn
open Py

/-- Which rule picks the candidates. -/
inductive Selection where
  | operator
  | shortfall
  deriving DecidableEq

/-- Token estimates and budgets at the time of a pass. -/
structure CompactionBudgets where
  tokens : ChatMessage → ℕ
  headBudget : ℕ
  tailBudget : ℕ
  mainRoom : ℤ

namespace Compaction

/-- `_group_tool_cycles`; `cycle` is the tool cycle that is open. -/
def groupToolCycles (cycle : List ChatMessage) : List ChatMessage → List (List ChatMessage)
  | [] => if cycle = [] then [] else [cycle]
  | m :: rest =>
    if cycle ≠ [] ∧ m.role = .tool then groupToolCycles (cycle ++ [m]) rest
    else (if cycle = [] then [] else [cycle]) ++
      if m.opensCycle then groupToolCycles [m] rest else [m] :: groupToolCycles [] rest

theorem flatten_groupToolCycles (cycle messages : List ChatMessage) :
    (groupToolCycles cycle messages).flatten = cycle ++ messages := by
  have hclose : ∀ cycle : List ChatMessage, (if cycle = [] then [] else [cycle]).flatten = cycle := by
    intro cycle
    split
    · rename_i h
      rw [h,List.flatten_nil]
    · exact List.flatten_singleton
  induction messages generalizing cycle with
  | nil => rw [groupToolCycles,hclose,List.append_nil]
  | cons m rest ih =>
    rw [groupToolCycles]
    split
    · rw [ih,List.append_assoc,List.singleton_append]
    · rw [List.flatten_append,hclose]
      split
      · rw [ih,List.singleton_append]
      · rw [List.flatten_cons,ih,List.nil_append,List.singleton_append]

section Trim
variable (tokens : ChatMessage → ℕ)

def groupTokens (group : List ChatMessage) : ℕ := (group.map tokens).sum

/-- `_trim_groups`, with whether a group is kept already and the tokens of those kept. -/
def trimGroups (maxTokens : ℕ) (kept : Bool) (total : ℕ) : List (List ChatMessage) → List (List ChatMessage)
  | [] => []
  | group :: rest =>
    if kept && maxTokens < total + groupTokens tokens group then []
    else if maxTokens < groupTokens tokens group then [group]
    else group :: trimGroups maxTokens true (total + groupTokens tokens group) rest

def trimHead (messages : List ChatMessage) (maxTokens : ℕ) : List ChatMessage :=
  (trimGroups tokens maxTokens false 0 (groupToolCycles [] messages)).flatten

def trimTail (messages : List ChatMessage) (maxTokens : ℕ) : List ChatMessage :=
  (trimGroups tokens maxTokens false 0 (groupToolCycles [] messages).reverse).reverse.flatten

/-- The loop of `select_fold_candidates_for_shortfall` -/
def takeGroups (shortfall : ℤ) (total : ℕ) : List (List ChatMessage) → List ChatMessage
  | [] => []
  | group :: rest =>
    if shortfall ≤ total then [] else group ++ takeGroups shortfall (total + groupTokens tokens group) rest

def selectFoldCandidatesForShortfall (turns : List ChatMessage) (shortfall : ℤ) : List ChatMessage :=
  if shortfall ≤ 0 then [] else takeGroups tokens shortfall 0 (groupToolCycles [] turns)

theorem trimGroups_isPrefix (maxTokens : ℕ) (kept : Bool) (total : ℕ) (groups : List (List ChatMessage)) :
    trimGroups tokens maxTokens kept total groups <+: groups := by
  induction groups generalizing kept total with
  | nil => exact List.prefix_rfl
  | cons group rest ih =>
    rw [trimGroups]
    split
    · exact List.nil_prefix
    · split
      · exact List.prefix_append [group] rest
      · exact List.cons_prefix_cons.mpr ⟨rfl,ih true _⟩

theorem flatten_isPrefix {gs hs : List (List ChatMessage)} (h : gs <+: hs) : gs.flatten <+: hs.flatten := by
  obtain ⟨rest,rfl⟩ := h
  rw [List.flatten_append]
  exact List.prefix_append _ _

theorem flatten_suffix {gs hs : List (List ChatMessage)} (h : gs <:+ hs) : gs.flatten <:+ hs.flatten := by
  obtain ⟨rest,rfl⟩ := h
  rw [List.flatten_append]
  exact List.suffix_append _ _

/-- The protected head is an initial part of the history. -/
theorem trimHead_prefix (messages : List ChatMessage) (maxTokens : ℕ) : trimHead tokens messages maxTokens <+: messages := by
  have h := flatten_isPrefix (trimGroups_isPrefix tokens maxTokens false 0 (groupToolCycles [] messages))
  rwa [flatten_groupToolCycles,List.nil_append] at h

/-- The protected tail is a final part of it. -/
theorem trimTail_suffix (messages : List ChatMessage) (maxTokens : ℕ) : trimTail tokens messages maxTokens <:+ messages := by
  have h := flatten_suffix (List.reverse_suffix.mpr
    (trimGroups_isPrefix tokens maxTokens false 0 (groupToolCycles [] messages).reverse))
  rwa [List.reverse_reverse,flatten_groupToolCycles,List.nil_append] at h

theorem takeGroups_prefix (shortfall : ℤ) (total : ℕ) (groups : List (List ChatMessage)) :
    takeGroups tokens shortfall total groups <+: groups.flatten := by
  induction groups generalizing total with
  | nil => exact List.prefix_rfl
  | cons group rest ih =>
    rw [takeGroups]
    split
    · exact List.nil_prefix
    · rw [List.flatten_cons]
      exact (List.prefix_append_right_inj group).mpr (ih _)

theorem selectFoldCandidates_prefix (turns : List ChatMessage) (shortfall : ℤ) :
    selectFoldCandidatesForShortfall tokens turns shortfall <+: turns := by
  rw [selectFoldCandidatesForShortfall]
  split
  · exact List.nil_prefix
  · have h := takeGroups_prefix tokens shortfall 0 (groupToolCycles [] turns)
    rwa [flatten_groupToolCycles,List.nil_append] at h

end Trim

/-! ## Selection -/

/-- The turns of neither window. The windows overlap on a short history. -/
def betweenWindows (messages head tail : List ChatMessage) : List ChatMessage :=
  (messages.drop head.length).take (messages.length - head.length - tail.length)

/-- Uncovered, and before the turn in flight. -/
def unprotected (budgets : CompactionBudgets) (messages : List ChatMessage) (prevCover : ℕ)
    (protectSeqGte : Option ℕ) : List ChatMessage :=
  (betweenWindows messages (trimHead budgets.tokens messages budgets.headBudget)
    (trimTail budgets.tokens messages budgets.tailBudget)).filter fun m =>
      prevCover < m.seq && protectSeqGte.all fun bound => m.seq < bound

/-- `_measure_and_select` -/
def measureAndSelect (budgets : CompactionBudgets) (messages : List ChatMessage) (prevCover : ℕ) (selection : Selection)
    (protectSeqGte : Option ℕ) : List ChatMessage :=
  match selection with
  | .operator => unprotected budgets messages prevCover protectSeqGte
  | .shortfall =>
    selectFoldCandidatesForShortfall budgets.tokens (unprotected budgets messages prevCover protectSeqGte)
      (groupTokens budgets.tokens (unprotected budgets messages prevCover protectSeqGte) - budgets.mainRoom)

section Convex
variable {budgets : CompactionBudgets} {messages : List ChatMessage} {prevCover : ℕ} {protectSeqGte : Option ℕ}

theorem unprotected_sublist : (unprotected budgets messages prevCover protectSeqGte).Sublist messages :=
  List.filter_sublist.trans ((List.take_sublist _ _).trans (List.drop_sublist _ _))

theorem lt_of_mem_unprotected {m : ChatMessage} (h : m ∈ unprotected budgets messages prevCover protectSeqGte) :
    prevCover < m.seq := by
  have hp := (List.mem_filter.mp h).2
  simp only [Bool.and_eq_true,decide_eq_true_eq] at hp
  exact hp.1

variable (budgets messages prevCover protectSeqGte) in
theorem measureAndSelect_isPrefix (selection : Selection) :
    measureAndSelect budgets messages prevCover selection protectSeqGte <+:
      unprotected budgets messages prevCover protectSeqGte := by
  cases selection with
  | operator => exact List.prefix_rfl
  | shortfall => exact selectFoldCandidates_prefix _ _ _

variable (budgets prevCover protectSeqGte) in
/-- What a pass offers has no holes. -/
theorem measureAndSelect_convex (hs : messages.Pairwise (·.seq < ·.seq)) (selection : Selection) (n : ℕ) :
    KeyedLog.Convex (·.seq) ((measureAndSelect budgets messages prevCover selection protectSeqGte).take n) messages := by
  have hmiddle : KeyedLog.Convex (·.seq) (betweenWindows messages (trimHead budgets.tokens messages budgets.headBudget)
      (trimTail budgets.tokens messages budgets.tailBudget)) messages :=
    .of_isInfix hs ((List.take_prefix _ _).isInfix.trans (List.drop_suffix _ _).isInfix)
  have hfilter : KeyedLog.Convex (·.seq) (unprotected budgets messages prevCover protectSeqGte) messages := by
    refine hmiddle.filter fun a b m ha hb hlo hhi => ?_
    simp only [Bool.and_eq_true,decide_eq_true_eq,Option.all_eq_true_iff_get] at ha hb ⊢
    exact ⟨ha.1.trans_le hlo,fun h => hhi.trans_lt (hb.2 h)⟩
  have hpre := (List.take_prefix n _).trans
    (measureAndSelect_isPrefix budgets messages prevCover protectSeqGte selection)
  exact (KeyedLog.Convex.of_isInfix (hs.sublist unprotected_sublist) hpre.isInfix).trans hfilter hpre.subset

end Convex
end Compaction
end Reyn
