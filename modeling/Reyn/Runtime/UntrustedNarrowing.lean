import Reyn.Runtime.FoldCoverage

/-! # Untrusted text and the narrowing

The decision to narrow a turn looks at a flag kept on append, a latch for the turn in
flight and the highest marked entry evicted. The wire is a view of the resident history
through the branch and the latest summary on it. What can part the two is a rewind, a
backward load or a restart.
-/
namespace Reyn
open Py TimeTravel Transition

namespace ChatSession

/-- The flag is up, or something marked was evicted that no summary has reached. -/
def Alarmed (s : ChatSession) : Prop := s.untrustedTaintActive = true ∨ s.prevCover < s.maxEvictedUntrustedSeq

section Session
variable (c : HistoryConfig)

/-- Some entry on the branch decides that the entry is. -/
def Visible (s : ChatSession) (m : ChatMessage) : Prop :=
  ∃ a, Governs s.file a m ∧ anchorActive s.stateLog c.key a.walSeq = true

/-- With these entries in memory the wire does not have the entry as it is: the latest summary
on the branch hides it, or a later spill record stands for it. -/
def Withheld (s : ChatSession) (lines : List ChatMessage) (m : ChatMessage) : Prop :=
  stillActive (s.activeBranch c lines) m = false ∨
    ∃ r ∈ s.activeBranch c lines, r.supersedes m = true ∧ m.seq < r.seq

/-- Every marked entry of the branch is withheld. -/
def MarkedWithheld (s : ChatSession) (lines : List ChatMessage) : Prop :=
  ∀ m ∈ lines, m.untrusted = true → m.isCompactionEligible = true → s.Visible c m → s.Withheld c lines m

/-- A rewind or a branch switch, a backward load and a restart leave the marked entries in
memory withheld, or the alarm up. -/
def StaysWithheld (s : ChatSession) : ChatAction → Prop
  | .logged l => ∀ w (hl : w.head < l.seq), s.stateLog = some w →
    (l.record?.filter (·.visible (some c.key))).isSome = true →
    s.Alarmed ∨ (s.withLog (w.snoc l hl)).MarkedWithheld c s.history
  | .loadOlder minLines => (s.loadOlderEntries minLines).Alarmed ∨
    s.MarkedWithheld c (s.loadOlderEntries minLines).history
  | .restart => (s.restarted c).Alarmed ∨ s.MarkedWithheld c (hydrated c s.file).1
  | _ => True

end Session

structure NarrowingInv (c : HistoryConfig) (s : ChatSession) : Prop where
  wellFormed : WellFormed s
  through : ∀ m ∈ s.file, m.role = .summary → m.coversThroughSeq < m.seq
  alarm : s.Alarmed ∨ s.MarkedWithheld c s.history

section Log
variable {key : SessionKey}

/-- An entry that is no rewind of the session leaves the branch below it as it is. -/
theorem lineage_snoc_of_no_reset {w : Wal} {l : WalLine} {hl : w.head < l.seq}
    (hn : l.record?.filter (·.visible (some key)) = none) {a : ℕ} (ha : a ≤ w.head) :
    a ∈ ((w.snoc l hl).resets (some key)).lineage l.seq ↔ a ∈ (w.resets (some key)).lineage w.head := by
  have hnone : ∀ n, w.head < n → n ≤ l.seq → ((w.snoc l hl).resets (some key)).target n = none := by
    intro n hlo hhi
    show (w.snoc l hl).targetAt (some key) n = none
    rcases Nat.lt_or_ge n l.seq with hlt | hge
    · have hfind : (w.snoc l hl).lines.find? (fun a => a.seq = n) = none := by
        refine List.find?_eq_none.mpr fun a ha => ?_
        rcases List.mem_append.mp ha with ha | ha
        · have := w.seq_le_head ha
          simpa using (this.trans_lt hlo).ne
        · rw [List.mem_singleton.mp ha]
          simpa using hlt.ne'
      rw [Wal.targetAt,hfind]
      rfl
    · rw [le_antisymm hhi hge,Wal.targetAt_snoc_self,hn]
      rfl
  have hbelow : ∀ n, w.head ≤ n → n ≤ l.seq →
      (a ∈ ((w.snoc l hl).resets (some key)).lineage n ↔ a ∈ (w.resets (some key)).lineage w.head) := by
    intro n hlo
    induction n, hlo using Nat.le_induction with
    | base =>
      intro _
      rw [Wal.lineage_snoc_of_le _ le_rfl]
    | succ n hn ih =>
      intro hhi
      have hne : a ≠ n + 1 := (ha.trans_lt (Nat.lt_succ_of_le hn)).ne
      rw [Resets.lineage_ordinary _ (hnone _ (Nat.lt_succ_of_le hn) hhi),Finset.mem_insert,ih (Nat.le_of_succ_le hhi)]
      exact or_iff_right hne
  exact hbelow l.seq hl.le le_rfl

theorem anchorActive_snoc_of_no_reset {w : Wal} {l : WalLine} {hl : w.head < l.seq}
    (hn : l.record?.filter (·.visible (some key)) = none) {x : Option ℕ} (hx : x.getD 0 ≤ w.head) :
    anchorActive (some (w.snoc l hl)) key x = anchorActive (some w) key x := by
  have hx' : x.getD 0 ≤ logHead (some (w.snoc l hl)) := by
    rw [show logHead (some (w.snoc l hl)) = l.seq from Wal.snoc_head]
    exact hx.trans hl.le
  have hx'' : x.getD 0 ≤ logHead (some w) := hx
  rw [Bool.eq_iff_iff,anchorActive_iff hx',anchorActive_iff hx'']
  simp only [StandsAt,Option.some.injEq,forall_eq']
  rw [show logHead (some (w.snoc l hl)) = l.seq from Wal.snoc_head,show logHead (some w) = w.head from rfl,
    lineage_snoc_of_no_reset hn hx]

end Log

section Invariant
variable {c : HistoryConfig} {s t : ChatSession} {msg m : ChatMessage}

/-- An entry that decides for itself is on the branch of any entries it is among, with its anchor. -/
theorem mem_activeBranch_of_role {lines : List ChatMessage} (hrole : m.role ≠ .tool) :
    m ∈ s.activeBranch c lines ↔ m ∈ lines ∧ anchorActive s.stateLog c.key m.walSeq = true := by
  constructor
  · intro h
    obtain ⟨a,hgov,ha⟩ := governs_of_mem_filterVisible (.none []) h
    refine ⟨(filterVisible_sublist _ _).subset h,?_⟩
    rcases hgov with ⟨rfl,-⟩ | ⟨-,htool,-⟩
    · exact ha
    · exact absurd htool hrole
  · rintro ⟨hm,ha⟩
    refine mem_filterVisible_of_governs (.none []) hm fun a hgov => ?_
    rcases hgov with ⟨rfl,-⟩ | ⟨-,htool,-⟩
    · exact ha
    · exact absurd htool hrole

theorem Visible.of_append (h : (s.appendHistory c msg).Visible c m) (hm : m ≠ s.stamp msg) : s.Visible c m := by
  obtain ⟨a,hgov,ha⟩ := h
  exact ⟨a,hgov.of_concat hm,ha⟩

/-- What is withheld stays so behind an eviction and another entry. -/
theorem Withheld.append (hw : WellFormed s) (hthrough : ∀ m ∈ s.file, m.role = .summary → m.coversThroughSeq < m.seq)
    (hm : Unstamped msg) (hrole : msg.role ≠ .summary) {kept : List ChatMessage} (hkept : kept <:+ s.history)
    (hmem : m ∈ kept) (h : s.Withheld c s.history m) : s.Withheld c (kept ++ [s.stamp msg]) m := by
  have hinc := hw.increasing.sublist hw.suffix.sublist
  -- what decides for itself behind the entry is in memory and on the branch still
  have hstays : ∀ {r : ChatMessage}, r ∈ s.activeBranch c s.history → r.role ≠ .tool → m.seq ≤ r.seq →
      r ∈ s.activeBranch c (kept ++ [s.stamp msg]) := by
    intro r hr htool hle
    obtain ⟨hr,ha⟩ := (mem_activeBranch_of_role htool).mp hr
    have hresident := KeyedLog.mem_of_suffix hinc hkept hmem hr hle
    exact (mem_activeBranch_of_role htool).mpr ⟨List.mem_append_left _ hresident,ha⟩
  rcases h with hhidden | ⟨r,hr,hs,hlt⟩
  · obtain ⟨hpos,summary,first,hlatest,hfirst,hlo,hhi⟩ := stillActive_eq_false_iff.mp hhidden
    have hbranch : (s.activeBranch c s.history).Pairwise (·.seq < ·.seq) := hinc.sublist (filterVisible_sublist _ _)
    obtain ⟨hsummary,hsrole,hmax⟩ := (latestSummary_eq_some_iff hbranch).mp hlatest
    have hfile : summary ∈ s.file := hw.suffix.subset ((filterVisible_sublist _ _).subset hsummary)
    have hnew : (kept ++ [s.stamp msg]).Sublist (s.file ++ [s.stamp msg]) :=
      (hkept.sublist.trans hw.suffix.sublist).append (List.Sublist.refl _)
    have hinc' : (s.activeBranch c (kept ++ [s.stamp msg])).Pairwise (·.seq < ·.seq) :=
      ((hw.append (c := c) hm).increasing.sublist hnew).sublist (filterVisible_sublist _ _)
    refine .inl (stillActive_eq_false_iff.mpr ⟨hpos,summary,first,?_,hfirst,hlo,hhi⟩)
    refine (latestSummary_eq_some_iff hinc').mpr ⟨?_,hsrole,fun x hx hxrole => ?_⟩
    · exact hstays hsummary (by simp [hsrole]) (hhi.trans (hthrough summary hfile hsrole).le)
    · have hxtool : x.role ≠ .tool := by simp [hxrole]
      obtain ⟨hxmem,hxactive⟩ := (mem_activeBranch_of_role hxtool).mp hx
      rcases List.mem_append.mp hxmem with hxmem | hxmem
      · exact hmax x ((mem_activeBranch_of_role hxtool).mpr ⟨hkept.subset hxmem,hxactive⟩) hxrole
      · rw [List.mem_singleton.mp hxmem] at hxrole
        exact absurd hxrole hrole
  · have hrrole : r.role = .spillRecord := by
      simpa using ((Bool.and_eq_true _ _).mp hs).1
    exact .inr ⟨r,hstays hr (by simp [hrrole]) hlt.le,hs,hlt⟩

theorem le_latchEvicted (latch : ℕ) (evicted : List ChatMessage) : latch ≤ latchEvicted latch evicted := by
  induction evicted generalizing latch with
  | nil => exact le_rfl
  | cons m rest ih =>
    refine le_trans ?_ (ih _)
    show latch ≤ if m.untrusted then max latch m.seq else latch
    split
    · exact le_max_left _ _
    · exact le_rfl

/-- An eviction may lose the latest summary, and with it the watermark, but never finds another one. -/
theorem compactionWatermark_suffix_le {kept history : List ChatMessage} (h : kept <:+ history) :
    compactionWatermark kept ≤ compactionWatermark history := by
  obtain ⟨older,rfl⟩ := h
  cases hs : latestSummary kept with
  | none => simp [compactionWatermark,compactionCoverage,hs,compactionCoverageFromSummary]
  | some summary =>
    rw [compactionWatermark,compactionWatermark,compactionCoverage,compactionCoverage,latestSummary_append hs,hs]

theorem Alarmed.append (h : s.Alarmed) (hrole : msg.role ≠ .summary) : (s.appendHistory c msg).Alarmed := by
  rcases h with hflag | hlatch
  · refine .inl ?_
    show (if msg.role = .summary then _ else s.untrustedTaintActive || msg.untrusted) = true
    rw [if_neg hrole,hflag,Bool.true_or]
  · obtain ⟨kept,hkept,hresident⟩ := resident_concat (c := c) s.history (s.stamp msg)
    have hcover : (s.appendHistory c msg).prevCover = compactionWatermark kept := by
      show compactionWatermark (resident c (s.history ++ [s.stamp msg])) = _
      rw [hresident,compactionWatermark,compactionCoverage,latestSummary_concat (m := s.stamp msg) hrole]
      rfl
    refine .inr ?_
    rw [hcover]
    exact (compactionWatermark_suffix_le hkept).trans_lt (hlatch.trans_le (le_latchEvicted _ _))

theorem NarrowingInv.append (h : NarrowingInv c s) (hm : Unstamped msg) (hrole : msg.role ≠ .summary) :
    NarrowingInv c (s.appendHistory c msg) where
  wellFormed := h.wellFormed.append hm
  through := by
    intro m hmem hsummary
    rcases List.mem_append.mp hmem with hmem | hmem
    · exact h.through m hmem hsummary
    · rw [List.mem_singleton.mp hmem] at hsummary
      exact absurd hsummary hrole
  alarm := by
    rcases h.alarm with halarm | hwithheld
    · exact .inl (halarm.append hrole)
    by_cases hu : msg.untrusted = true
    · refine .inl (.inl ?_)
      show (if msg.role = .summary then _ else s.untrustedTaintActive || msg.untrusted) = true
      rw [if_neg hrole,hu,Bool.or_true]
    · obtain ⟨kept,hkept,hresident⟩ := resident_concat (c := c) s.history (s.stamp msg)
      have hhistory : (s.appendHistory c msg).history = kept ++ [s.stamp msg] := hresident
      rw [hhistory]
      refine .inr fun m hmem hmarked he hvisible => ?_
      rcases List.mem_append.mp hmem with hmem | hmem
      · have hlt := (h.wellFormed.bounded m (h.wellFormed.suffix.subset (hkept.subset hmem))).2
        have hne : m ≠ s.stamp msg := by
          rintro rfl
          rw [stamp_seq hm] at hlt
          exact Nat.lt_irrefl _ hlt
        have hbefore := hwithheld m (hkept.subset hmem) hmarked he (hvisible.of_append hne)
        exact hbefore.append h.wellFormed h.through hm hrole hkept hmem
      · rw [List.mem_singleton.mp hmem] at hmarked
        exact absurd hmarked hu

theorem NarrowingInv.appendAll (h : NarrowingInv c s) {records : List ChatMessage}
    (hr : ∀ r ∈ records, r.role = .spillRecord ∧ Fresh r) : NarrowingInv c (s.appendAll c records) :=
  appendAll_induction hr h fun _ _ h _ hf => h.append hf.unstamped hf.2.2

/-- A new summary takes the flag down only when it hides all that is marked. -/
theorem NarrowingInv.persist (h : NarrowingInv c s) {content : Json} {first through : ℕ} (hthrough : through < s.nextSeq)
    (inputs previews : List ChatMessage) :
    NarrowingInv c (s.persistSummary c (summaryMessage content first through) inputs previews) where
  wellFormed := h.wellFormed.persistSummary (unstamped_summaryMessage _ _ _) _ _
  through := by
    intro m hmem hsummary
    rcases List.mem_append.mp hmem with hmem | hmem
    · exact h.through m hmem hsummary
    · rw [List.mem_singleton.mp hmem,stamp_seq (unstamped_summaryMessage _ _ _)]
      exact hthrough
  alarm := by
    obtain ⟨kept,-,hresident⟩ := resident_concat (c := c) s.history (s.stamp (summaryMessage content first through))
    have hhistory : (s.persistSummary c (summaryMessage content first through) inputs previews).history =
        kept ++ [s.stamp (summaryMessage content first through)] := hresident
    have hflag : (s.persistSummary c (summaryMessage content first through) inputs previews).untrustedTaintActive =
        recomputeTaint (kept ++ [s.stamp (summaryMessage content first through)]) := by
      rw [← hresident]
      rfl
    by_cases htaint : recomputeTaint (kept ++ [s.stamp (summaryMessage content first through)]) = true
    · exact .inl (.inl (hflag.trans htaint))
    · refine .inr fun m hmem hmarked _ _ => .inl ?_
      rw [hhistory] at hmem ⊢
      have hhidden : stillActive (kept ++ [s.stamp (summaryMessage content first through)]) m = false := by
        by_contra hactive
        rw [Bool.not_eq_false] at hactive
        exact htaint (List.any_eq_true.mpr ⟨m,List.mem_filter.mpr ⟨hmem,hactive⟩,hmarked⟩)
      have hbranch := latestSummary_persistSummary (c := c) h.wellFormed content first through inputs previews
      rw [activeBranchHistory,hhistory] at hbranch
      have hlatest : latestSummary (kept ++ [s.stamp (summaryMessage content first through)]) =
          some (s.stamp (summaryMessage content first through)) := latestSummary_concat_summary rfl
      rw [stillActive,compactionCoverage,hlatest] at hhidden
      rw [stillActive,compactionCoverage,hbranch]
      exact hhidden

/-- The branch is the same after an entry that is no rewind of the session. -/
theorem NarrowingInv.ordinary (h : NarrowingInv c s) {w : Wal} (hlog : s.stateLog = some w) {l : WalLine}
    (hl : w.head < l.seq) (hn : l.record?.filter (·.visible (some c.key)) = none) :
    (s.withLog (w.snoc l hl)).Alarmed ∨ (s.withLog (w.snoc l hl)).MarkedWithheld c s.history := by
  have hsame : ∀ m ∈ s.file, anchorActive (s.withLog (w.snoc l hl)).stateLog c.key m.walSeq =
      anchorActive s.stateLog c.key m.walSeq := by
    intro m hm
    have hanchor := h.wellFormed.anchored m hm
    rw [hlog] at hanchor ⊢
    exact anchorActive_snoc_of_no_reset hn hanchor
  have hbranch : (s.withLog (w.snoc l hl)).activeBranch c s.history = s.activeBranch c s.history :=
    filterVisible_congr (by rintro _ ⟨⟩) fun m hm => hsame m (h.wellFormed.suffix.subset hm)
  refine h.alarm.imp id fun hwithheld m hm hmarked he hvisible => ?_
  obtain ⟨a,hgov,ha⟩ := hvisible
  rw [hsame a hgov.mem.1] at ha
  rw [Withheld,hbranch]
  exact hwithheld m hm hmarked he ⟨a,hgov,ha⟩

theorem NarrowingInv.step (h : NarrowingInv c s) {a : ChatAction} (hg : s.StaysWithheld c a) (ht : step c s a = some t) :
    NarrowingInv c t := by
  have hw := h.wellFormed.step ht
  cases a with
  | append msg =>
    obtain ⟨hf,ht⟩ := Option.ite_none_right_eq_some.mp ht
    cases ht
    exact h.append hf.unstamped hf.2.2
  | logged l =>
    obtain ⟨w,hlog,ht⟩ := Option.bind_eq_some_iff.mp ht
    obtain ⟨hl,ht⟩ := Option.dite_none_right_eq_some.mp ht
    cases ht
    refine ⟨hw,h.through,?_⟩
    cases hn : l.record?.filter (·.visible (some c.key)) with
    | none => exact h.ordinary hlog hl hn
    | some record => exact hg w hl hlog (by rw [hn]; rfl)
  | markInFlight | startTurn =>
    cases ht
    exact ⟨hw,h.through,h.alarm⟩
  | loadOlder minLines =>
    cases ht
    exact ⟨hw,h.through,hg⟩
  | restart =>
    cases ht
    exact ⟨hw,h.through,hg⟩
  | forceCompact budgets selection protectSeqGte attempts content =>
    obtain ⟨ha,ht⟩ := Option.ite_none_right_eq_some.mp ht
    cases ht
    obtain ⟨records,hr,hs | ⟨first,rest,offered,hc,-,hs⟩⟩ :=
      forceCompactNow_cases budgets selection protectSeqGte ha content
    · rw [hs]
      exact h.appendAll hr
    · rw [hs]
      refine (h.appendAll hr).persist ?_ _ _
      rw [appendAll_nextSeq fun r hmem => (hr r hmem).2.unstamped]
      exact (coversThrough_lt h.wellFormed hc offered).trans_le (Nat.le_add_right _ _)
  | persistRecovery folded spilled content =>
    obtain ⟨hr,ht⟩ := Option.ite_none_right_eq_some.mp ht
    cases ht
    rcases persistRecoverySummary_cases (c := c) (s := s) folded spilled content with hs | ⟨-,hs⟩
    · rw [hs]
      exact h
    · rw [hs]
      exact h.persist (recoveryCoversThrough_lt h.wellFormed fun m hm => (hr.1 m (List.mem_append_left _ hm)).1) _ _

end Invariant

/-! ## A rewind behind a fold -/

end ChatSession
end Reyn
