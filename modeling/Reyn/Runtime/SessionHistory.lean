import Reyn.Runtime.ReplayLaws

/-! # The history of one session on a lineage

The history is every entry ever appended. The state of a session at a position is
the replay, from the empty snapshot, of the entries on the lineage of the position.
Appending to the history leaves the states at earlier positions alone.
-/
namespace Reyn
open Py TimeTravel

namespace Wal

/-- Append one entry above the head. -/
def snoc (w : Wal) (l : WalLine) (h : w.head < l.seq) : Wal where
  lines := w.lines ++ [l]
  increasing := by
    refine List.pairwise_append.mpr ⟨w.increasing,List.pairwise_singleton _ _,?_⟩
    intro a ha b hb
    rw [List.mem_singleton.mp hb]
    exact (w.seq_le_head ha).trans_lt h

section Snoc
variable {w : Wal} {l : WalLine} {hl : w.head < l.seq}

@[simp] theorem snoc_lines : (w.snoc l hl).lines = w.lines ++ [l] := rfl
@[simp] theorem snoc_head : (w.snoc l hl).head = l.seq := by simp [head,snoc]

theorem find?_snoc_of_le {s : ℕ} (hs : s ≤ w.head) :
    (w.snoc l hl).lines.find? (fun a => a.seq = s) = w.lines.find? fun a => a.seq = s := by
  have hne : l.seq ≠ s := by omega
  simp [hne]

theorem targetAt_snoc_of_le (scope : Scope) {s : ℕ} (hs : s ≤ w.head) :
    (w.snoc l hl).targetAt scope s = w.targetAt scope s := by
  rw [targetAt,targetAt,find?_snoc_of_le hs]

theorem targetAt_snoc_self (scope : Scope) :
    (w.snoc l hl).targetAt scope l.seq = (l.record?.filter (·.visible scope)).map (·.targetN) := by
  have hnone : w.lines.find? (fun a => a.seq = l.seq) = none := by
    refine List.find?_eq_none.mpr fun a ha => ?_
    have := w.seq_le_head ha
    simp only [decide_eq_true_eq]
    omega
  simp [targetAt,List.find?_append,hnone]

theorem lineage_snoc_of_le (scope : Scope) {h : ℕ} (hh : h ≤ w.head) :
    ((w.snoc l hl).resets scope).lineage h = (w.resets scope).lineage h :=
  Resets.lineage_congr _ _ fun _ hs => targetAt_snoc_of_le scope (hs.trans hh)

/-- An entry no reset of the scope continues the lineage of the head. -/
theorem lineage_snoc_ordinary {scope : Scope} (hn : l.record?.filter (·.visible scope) = none)
    (hs : l.seq = w.head + 1) :
    ((w.snoc l hl).resets scope).lineage l.seq = insert l.seq ((w.resets scope).lineage w.head) := by
  have ht : ((w.snoc l hl).resets scope).target (w.head + 1) = none := by
    rw [← hs]
    exact (targetAt_snoc_self scope).trans (by simp [hn])
  rw [hs,Resets.lineage_ordinary _ ht,lineage_snoc_of_le scope le_rfl]

theorem lineage_snoc_reset {scope : Scope} {record : RewindRecord} (hr : l.record? = some record)
    (hv : record.visible scope = true) (hn : record.targetN ≤ w.head) :
    ((w.snoc l hl).resets scope).lineage l.seq = insert l.seq ((w.resets scope).lineage record.targetN) := by
  have ht : ((w.snoc l hl).resets scope).target l.seq = some record.targetN :=
    (targetAt_snoc_self scope).trans (by simp [hr,hv])
  rw [Resets.lineage_reset _ l.pos ht,lineage_snoc_of_le scope hn]

end Snoc

/-- The entries on the lineage of a position, as the session sees it. -/
def branch (w : Wal) (k : SessionKey) (h : ℕ) : List WalLine :=
  w.lines.filter fun l => l.seq ∈ (w.resets (some k)).lineage h

/-- The entries of the branch above a position. -/
def branchAbove (w : Wal) (k : SessionKey) (h g : ℕ) : List WalLine :=
  w.lines.filter fun l => l.seq ∈ (w.resets (some k)).lineage h && g < l.seq

/-- The state of a session at a position: the replay of its whole history on the lineage. -/
def fold (w : Wal) (k : SessionKey) (h : ℕ) : Except PyError AgentSnapshot :=
  (AgentSnapshot.empty k.1 k.2).absorbAll (w.branch k h)

/-- Every entry is one of a session's journal, or routed to none. -/
def Sound (w : Wal) : Prop := ∀ l ∈ w.lines, Reyn.Sound l

/-- A position whose state the state at `h` continues. -/
def Below (w : Wal) (k : SessionKey) (g h : ℕ) : Prop := g = 0 ∨ g ∈ (w.resets (some k)).lineage h

theorem Below.le {w : Wal} {k : SessionKey} {g h : ℕ} (hb : w.Below k g h) : g ≤ h := by
  rcases hb with rfl | hb
  · exact Nat.zero_le h
  · exact (Resets.mem_lineage_bounds _ hb).2

theorem branch_zero (w : Wal) (k : SessionKey) : w.branch k 0 = [] := by simp [branch]

theorem branch_split {w : Wal} {k : SessionKey} {g h : ℕ} (hb : w.Below k g h) :
    w.branch k h = w.branch k g ++ w.branchAbove k h g := by
  rw [branch,KeyedLog.filter_split w.increasing _ g,branchAbove]
  congr 1
  refine List.filter_congr fun l hl => ?_
  rcases hb with rfl | hb
  · have hpos := l.pos
    have hle : ¬ l.seq ≤ 0 := by omega
    simp [hle]
  · by_cases hle : l.seq ≤ g
    · simp [hle,Resets.mem_lineage_of_mem _ hb hle]
    · have hng : l.seq ∉ (w.resets (some k)).lineage g := fun hc => hle (Resets.mem_lineage_bounds _ hc).2
      simp [hle,hng]

theorem fold_split {w : Wal} {k : SessionKey} {g h : ℕ} (hb : w.Below k g h) :
    w.fold k h = w.fold k g >>= (·.absorbAll (w.branchAbove k h g)) := by
  rw [fold,branch_split hb,absorbAll_append]
  rfl

theorem fold_ok {w : Wal} (hw : w.Sound) (k : SessionKey) (h : ℕ) :
    ∃ t, w.fold k h = .ok t ∧ t.key = k :=
  absorbAll_ok _ fun l hl => hw l (List.mem_of_mem_filter hl)

/-- A session without entries is in the empty state everywhere. -/
theorem fold_of_no_entry {w : Wal} (hw : w.Sound) {k : SessionKey} (hr : ∀ l ∈ w.lines, l.routes k = false)
    (h : ℕ) : w.fold k h = .ok (.empty k.1 k.2) := by
  have hnone : (w.branch k h).filter (·.routes (AgentSnapshot.empty k.1 k.2).key) = [] := by
    refine List.filter_eq_nil_iff.mpr fun l hl => ?_
    have hroute : l.routes (AgentSnapshot.empty k.1 k.2).key = false := hr l (List.mem_of_mem_filter hl)
    simp [hroute]
  have hsound : ∀ l ∈ w.branch k h, Reyn.Sound l := fun l hl => hw l (List.mem_of_mem_filter hl)
  rw [fold,absorbAll_filter_routes hsound,hnone]
  rfl

section Snoc
variable {w : Wal} {l : WalLine} {hl : w.head < l.seq} {k : SessionKey}

theorem branch_snoc_of_le {h : ℕ} (hh : h ≤ w.head) : (w.snoc l hl).branch k h = w.branch k h := by
  have hne : l.seq ∉ (w.resets (some k)).lineage h := by
    intro hc
    have := (Resets.mem_lineage_bounds _ hc).2
    omega
  simp [branch,lineage_snoc_of_le (some k) hh,List.filter_append,hne]

variable (hl) in
theorem fold_snoc_of_le {h : ℕ} (hh : h ≤ w.head) : (w.snoc l hl).fold k h = w.fold k h := by
  rw [fold,branch_snoc_of_le hh]
  rfl

theorem Below.snoc {g h : ℕ} (hb : w.Below k g h) (hh : h ≤ w.head) : (w.snoc l hl).Below k g h := by
  rw [Below,lineage_snoc_of_le _ hh]
  exact hb

/-- The branch of a new head that continues the lineage of `n`. -/
theorem branch_snoc {n : ℕ}
    (hc : ((w.snoc l hl).resets (some k)).lineage l.seq = insert l.seq ((w.resets (some k)).lineage n)) :
    (w.snoc l hl).branch k l.seq = w.branch k n ++ [l] := by
  simp only [branch,snoc_lines,List.filter_append,hc]
  congr 1
  · refine List.filter_congr fun a ha => ?_
    have := w.seq_le_head ha
    have hne : a.seq ≠ l.seq := by omega
    simp [hne]
  · simp

theorem fold_snoc {n : ℕ}
    (hc : ((w.snoc l hl).resets (some k)).lineage l.seq = insert l.seq ((w.resets (some k)).lineage n)) :
    (w.snoc l hl).fold k l.seq = w.fold k n >>= (·.absorb l) := by
  rw [fold,branch_snoc hc,absorbAll_append]
  simp [fold,AgentSnapshot.absorbAll]

/-- An entry that is not the session's leaves its state alone. -/
theorem fold_snoc_of_not_routes {n : ℕ} (hw : w.Sound)
    (hc : ((w.snoc l hl).resets (some k)).lineage l.seq = insert l.seq ((w.resets (some k)).lineage n))
    (hr : l.routes k = false) : (w.snoc l hl).fold k l.seq = w.fold k n := by
  rw [fold_snoc hc]
  obtain ⟨t,ht,hk⟩ := fold_ok hw k n
  rw [ht]
  exact AgentSnapshot.absorb_of_not_routes (hk ▸ hr)

end Snoc
end Wal

/-- The part of a history that is still in the file: truncation keeps every reset-record. -/
structure Kept (w : Wal) (kept : List WalLine) : Prop where
  sub : kept.Sublist w.lines
  rewinds : ∀ l ∈ w.lines, isRewind l.event → l ∈ kept

namespace Kept
variable {w : Wal} {kept : List WalLine}

theorem increasing (h : Kept w kept) : kept.Pairwise (·.seq < ·.seq) := w.increasing.sublist h.sub

theorem records (h : Kept w kept) : kept.filterMap WalLine.record? = w.records := by
  have hfilter : ∀ ls : List WalLine, ls.filterMap WalLine.record? =
      (ls.filter fun l => isRewind l.event).filterMap WalLine.record? := by
    intro ls
    rw [List.filterMap_filter]
    refine List.filterMap_congr fun l _ => ?_
    by_cases hl : isRewind l.event = true <;> simp [WalLine.record?,hl]
  rw [Wal.records,hfilter,hfilter w.lines,KeyedLog.filter_of_sublist h.sub w.increasing h.rewinds]

/-- The reset-records decide the predicate, so the file derives that of the whole history. -/
theorem buildActivePredicate (h : Kept w kept) (scope : Scope) :
    Reyn.buildActivePredicate (kept.map (·.event)) scope = .ok (w.isActive scope) := by
  rw [Reyn.buildActivePredicate,Wal.records_of_lines,h.records]
  rfl

theorem refl (w : Wal) : Kept w w.lines := ⟨List.Sublist.refl _,fun _ h _ => h⟩

theorem snoc (h : Kept w kept) {l : WalLine} (hl : w.head < l.seq) : Kept (w.snoc l hl) (kept ++ [l]) := by
  refine ⟨h.sub.append (List.Sublist.refl _),fun a ha hr => ?_⟩
  rcases List.mem_append.mp ha with ha | ha
  · exact List.mem_append_left _ (h.rewinds a ha hr)
  · exact List.mem_append_right _ ha

theorem filter (h : Kept w kept) {p : WalLine → Bool} (hp : ∀ l ∈ kept, isRewind l.event → p l = true) :
    Kept w (kept.filter p) := by
  refine ⟨List.filter_sublist.trans h.sub,fun a ha hr => ?_⟩
  have hmem := h.rewinds a ha hr
  exact List.mem_filter.mpr ⟨hmem,hp a hmem hr⟩

end Kept
end Reyn
