import Reyn.Runtime.BudgetTracker

/-! # Scans of whole lines

Both readers of the ledger find the records of its calls, and a scan adds them up.
-/
namespace Reyn
open Py Transition

namespace Counter
variable {d : Counter} {a b : String}

theorem total_set (n : ℤ) : Counter.total (d.set a n) b = if b = a then n else Counter.total d b := by
  rw [Counter.total,Dict.get?_set]
  split
  · rfl
  · rfl

theorem total_add (n : ℤ) : Counter.total (Counter.add d a n) b = Counter.total d b + if b = a then n else 0 := by
  rw [Counter.add,total_set]
  split
  · rename_i h
    rw [h]
  · rw [add_zero]

end Counter

/-- A call with the timestamp of its line. -/
abbrev Entry := LlmCall × String

/-- The tokens of the calls of a list that satisfy a condition. -/
def spent (p : Entry → Bool) (l : List Entry) : ℤ := ((l.filter p).map fun e => (e.1.totalTokens : ℤ)).sum

def ofAgent (a : String) (e : Entry) : Bool := e.1.agent == some a

def onDay (zone : ℤ → ℤ) (day : String) (e : Entry) : Bool := (parseIsoTs e.2).map (dayKey zone) == some day

def inMonth (zone : ℤ → ℤ) (month : String) (e : Entry) : Bool := (parseIsoTs e.2).map (monthKey zone) == some month

/-- The lines of the calls. -/
def linesOf (l : List Entry) : Bytes := l.flatMap fun e => e.1.line e.2

section Sums
variable {p : Entry → Bool} {l l' : List Entry}

theorem spent_nil : spent p [] = 0 := rfl

theorem spent_append : spent p (l ++ l') = spent p l + spent p l' := by
  rw [spent,List.filter_append,List.map_append,List.sum_append]
  rfl

theorem spent_cons (e : Entry) : spent p (e :: l) = (if p e then (e.1.totalTokens : ℤ) else 0) + spent p l := by
  by_cases h : p e = true
  · rw [spent,List.filter_cons_of_pos h,List.map_cons,List.sum_cons,if_pos h]
    rfl
  · rw [spent,List.filter_cons_of_neg h,if_neg h,zero_add]
    rfl

theorem spent_zero (h : ∀ e ∈ l, p e = false) : spent p l = 0 := by
  rw [spent,List.filter_eq_nil_iff.mpr fun e he => by simp [h e he]]
  rfl

theorem spent_nonneg : 0 ≤ spent p l := by
  induction l with
  | nil => exact le_rfl
  | cons e l ih =>
    rw [spent_cons]
    split
    · omega
    · omega

theorem linesOf_append : linesOf (l ++ l') = linesOf l ++ linesOf l' := List.flatMap_append

end Sums

theorem add_agentTokens (t : Totals) (agent : Option String) (n : ℤ) (x y : Bool) (a : String) :
    Counter.total (t.add agent n x y).agentTokens a = Counter.total t.agentTokens a + if agent == some a then n else 0 := by
  cases agent with
  | none => exact (add_zero _).symm
  | some b =>
    have hadd : Counter.total (t.add (some b) n x y).agentTokens a =
        Counter.total t.agentTokens a + if a = b then n else 0 := Counter.total_add n
    rw [hadd]
    by_cases h : a = b
    · simp [h]
    · simp [h,Ne.symm h]

theorem add_dailyTokens (t : Totals) (agent : Option String) (n : ℤ) (x y : Bool) :
    (t.add agent n x y).dailyTokens = t.dailyTokens + if x then n else 0 := by
  cases x with
  | true => rfl
  | false => exact (add_zero _).symm

theorem add_monthlyTokens (t : Totals) (agent : Option String) (n : ℤ) (x y : Bool) :
    (t.add agent n x y).monthlyTokens = t.monthlyTokens + if y then n else 0 := by
  cases y with
  | true => rfl
  | false => exact (add_zero _).symm

section Scan
variable {host : Host} {day month : String} {l : List Entry} {torn : Bytes}

/-- Text after the last newline that neither reader finds a record in. -/
def Unread (torn : Bytes) : Prop :=
  BudgetLedger.iterRecords (some torn) = some [] ∧ BudgetLedger.iterRecordsFrom (some torn) 0 = []

theorem iterRecords_lines (h : Unread torn) (l : List Entry) :
    BudgetLedger.iterRecords (some (linesOf l ++ torn)) = some (l.map fun e => e.1.record e.2) := by
  induction l with
  | nil => exact h.1
  | cons e l ih =>
    have hline := textValues_jsonLine (e.1.record_wf e.2) (linesOf l ++ torn)
    have hcons : linesOf (e :: l) ++ torn = jsonLine (.obj (e.1.record e.2)) ++ (linesOf l ++ torn) :=
      List.append_assoc _ _ _
    simp only [BudgetLedger.iterRecords] at ih ⊢
    obtain ⟨vs,hvs,hrest⟩ := Option.map_eq_some_iff.mp ih
    rw [hcons,hline,hvs,Option.map_some,Option.map_some,List.map_cons,← hrest]
    rfl

theorem iterRecordsFrom_lines (h : Unread torn) (l : List Entry) :
    BudgetLedger.iterRecordsFrom (some (linesOf l ++ torn)) 0 = l.map fun e => e.1.record e.2 := by
  induction l with
  | nil => exact h.2
  | cons e l ih =>
    have hline := byteValues_jsonLine (e.1.record_wf e.2) (linesOf l ++ torn)
    have hcons : linesOf (e :: l) ++ torn = jsonLine (.obj (e.1.record e.2)) ++ (linesOf l ++ torn) :=
      List.append_assoc _ _ _
    simp only [BudgetLedger.iterRecordsFrom,List.drop_zero] at ih ⊢
    rw [hcons,hline,List.filterMap_cons,ih]
    rfl

theorem record_lookup (c : LlmCall) (ts : String) : (c.record ts).lookup "ts" = some (.str ts) ∧
    (c.record ts).lookup "agent" = some (.ofStr? c.agent) ∧ (c.record ts).lookup "tokens" = some (.int c.totalTokens) := by
  refine ⟨rfl,rfl,rfl⟩

/-- The record of a call counts as the call. -/
theorem countRecord_record {e : Entry} {ts : ℤ} (hts : parseIsoTs e.2 = some ts) (t : Totals) :
    countRecord host day month t (e.1.record e.2) =
      some (t.add e.1.agent e.1.totalTokens (onDay host.zone day e) (inMonth host.zone month e)) := by
  obtain ⟨hstamp,hagent,htokens⟩ := record_lookup e.1 e.2
  have hname : (Json.ofStr? e.1.agent).asStr = e.1.agent := by cases e.1.agent <;> rfl
  have hcount : tokensOf host (e.1.record e.2) = some (e.1.totalTokens : ℤ) := by
    rw [tokensOf,htokens]
    rfl
  rw [countRecord,hstamp]
  simp only [Option.bind_some,Json.asStr_str,hts,hcount,Option.map_some,hagent,hname,onDay,inMonth]
  rfl

/-- A scan adds the calls of the lines to what it begins with. -/
theorem scan_lines (host : Host) (day month : String) (h : ∀ e ∈ l, ∃ ts, parseIsoTs e.2 = some ts) (t : Totals) :
    ∃ u, (l.map fun e => e.1.record e.2).foldlM (countRecord host day month) t = some u ∧
      (∀ a, Counter.total u.agentTokens a = Counter.total t.agentTokens a + spent (ofAgent a) l) ∧
      u.dailyTokens = t.dailyTokens + spent (onDay host.zone day) l ∧
      u.monthlyTokens = t.monthlyTokens + spent (inMonth host.zone month) l := by
  induction l generalizing t with
  | nil =>
    refine ⟨t,rfl,fun a => ?_,?_,?_⟩ <;> rw [spent_nil,add_zero]
  | cons e l ih =>
    obtain ⟨ts,hts⟩ := h e List.mem_cons_self
    obtain ⟨u,hu,hagent,hdaily,hmonthly⟩ := ih (fun e he => h e (List.mem_cons_of_mem _ he))
      (t.add e.1.agent e.1.totalTokens (onDay host.zone day e) (inMonth host.zone month e))
    refine ⟨u,?_,fun a => ?_,?_,?_⟩
    · rw [List.map_cons,List.foldlM_cons,countRecord_record hts]
      exact hu
    · rw [hagent,spent_cons,add_agentTokens,ofAgent]
      omega
    · rw [hdaily,spent_cons,add_dailyTokens]
      omega
    · rw [hmonthly,spent_cons,add_monthlyTokens]
      omega

/-- The full scan of whole lines. -/
theorem fullScan_lines (host : Host) (day month : String) (h : ∀ e ∈ l, ∃ ts, parseIsoTs e.2 = some ts) :
    ∃ u, BudgetTracker.fullScan host (some (linesOf l)) day month = some u ∧
      ∀ a, Counter.total u.agentTokens a = spent (ofAgent a) l := by
  obtain ⟨u,hscan,hagents,-⟩ := scan_lines host day month h ⟨.empty,0,0⟩
  have hnothing : Unread [] := ⟨rfl,rfl⟩
  have hlines := iterRecords_lines hnothing l
  rw [List.append_nil] at hlines
  refine ⟨u,?_,fun a => ?_⟩
  · rw [BudgetTracker.fullScan,hlines,Option.bind_some,hscan]
  · rw [hagents]
    exact zero_add _

end Scan

end Reyn
