import Reyn.Runtime.FoldCoverage

/-! # How long a fold lasts

The readers look at the range of the latest summary alone, and a pass starts its range
behind the summary it knows. So the messages of a fold stay out of the projections until
the next fold is persisted, and come back with it.
-/
namespace Reyn
open Py TimeTravel Transition

namespace ChatSession

/-- A range after the first one takes in again what the earlier folds have read, and all this one reads. -/
def TakesIn (s : ChatSession) (first through : ℕ) (inputs : List ChatMessage) : Prop :=
  s.folds ≠ [] → ∀ m ∈ s.folds.flatMap (·.inputs) ++ inputs, first ≤ m.seq ∧ m.seq ≤ through

/-- No rewind the session sees goes behind a persisted fold, and the range of a fold after the
first one takes in the earlier ones. -/
def KeepsFolds (c : HistoryConfig) (s : ChatSession) : ChatAction → Prop
  | .logged l => ∀ record, l.record? = some record → record.visible (some c.key) = true →
    ∀ f ∈ s.folds, f.summary.walSeq.getD 0 ≤ record.targetN
  | .forceCompact budgets selection protectSeqGte attempts _ => ∀ first rest offered,
    s.candidates c budgets selection protectSeqGte = first :: rest →
    (runCompaction c (latestSummary s.history).toList.length s
      ((latestSummary s.history).toList.length + (first :: rest).length) attempts).2 = some offered →
    s.TakesIn first.seq (coversThrough first (first :: rest) offered)
      ((latestSummary s.history).toList ++ (first :: rest).take offered)
  | .persistRecovery folded _ _ => s.prevCover < recoveryCoversThrough folded →
    s.TakesIn (s.prevCover + 1) (recoveryCoversThrough folded) folded
  | _ => True

/-- The position is on the lineage of every later one. -/
def StandsFrom (log : Option Wal) (key : SessionKey) (g : ℕ) : Prop :=
  ∀ n, g ≤ n → n ≤ logHead log → StandsAt log key n g

section Stands
variable {key : SessionKey} {g : ℕ}

theorem StandsFrom.head {log : Option Wal} : StandsFrom log key (logHead log) := by
  intro n hlo hhi
  rw [le_antisymm hhi hlo]
  exact .head

theorem StandsFrom.snoc {w : Wal} (h : StandsFrom (some w) key g) {l : WalLine} (hl : w.head < l.seq) (hg : g ≤ w.head)
    (hkeeps : ∀ record, l.record? = some record → record.visible (some key) = true → g ≤ record.targetN) :
    StandsFrom (some (w.snoc l hl)) key g := by
  intro n hlo hhi
  rcases Nat.eq_zero_or_pos g with rfl | hpos
  · exact .inl rfl
  refine .inr ?_
  rintro _ ⟨⟩
  have hhead : logHead (some (w.snoc l hl)) = l.seq := Wal.snoc_head
  rw [hhead] at hhi
  induction n using Nat.strong_induction_on with
  | _ n ih =>
    rcases Nat.lt_or_ge w.head n with hn | hn
    · have hparent : g ≤ ((w.snoc l hl).resets (some key)).parent n := by
        rw [Resets.parent]
        rcases Nat.lt_or_ge n l.seq with hlt | hge
        · have hnone : ((w.snoc l hl).resets (some key)).target n = none := by
            have hfind : (w.snoc l hl).lines.find? (fun a => a.seq = n) = none := by
              refine List.find?_eq_none.mpr fun a ha => ?_
              rcases List.mem_append.mp ha with ha | ha
              · have := w.seq_le_head ha
                simpa using (this.trans_lt hn).ne
              · rw [List.mem_singleton.mp ha]
                simpa using hlt.ne'
            show (w.snoc l hl).targetAt (some key) n = none
            rw [Wal.targetAt,hfind]
            rfl
          rw [hnone,Option.getD_none]
          omega
        · obtain rfl : n = l.seq := le_antisymm hhi hge
          have htarget : ((w.snoc l hl).resets (some key)).target l.seq =
              (l.record?.filter (·.visible (some key))).map (·.targetN) := Wal.targetAt_snoc_self (some key)
          rw [htarget]
          cases hrec : l.record?.filter (·.visible (some key)) with
          | none =>
            rw [Option.map_none,Option.getD_none]
            omega
          | some record =>
            obtain ⟨hr,hv⟩ := Option.filter_eq_some_iff.mp hrec
            exact hkeeps record hr hv
      have hnpos : 0 < n := Nat.zero_lt_of_lt hn
      have hlt := ((w.snoc l hl).resets (some key)).parent_lt hnpos
      rw [Resets.lineage_eq _ hnpos]
      exact Finset.mem_insert_of_mem (ih _ hlt hparent (hlt.le.trans hhi))
    · rw [Wal.lineage_snoc_of_le _ hn]
      exact (h n hlo hn).resolve_left hpos.ne' w rfl

end Stands

/-- What the last fold keeps: it is on the branch for good, its range holds what the folds have
read as it is, and what they have read as a preview has its record. -/
structure Lasting (c : HistoryConfig) (s : ChatSession) (f : Fold) : Prop where
  latest : latestSummary s.file = some f.summary
  stands : StandsFrom s.stateLog c.key (f.summary.walSeq.getD 0)
  inside : ∀ g ∈ s.folds, ∀ m ∈ g.inputs, m ∈ s.file ∧ m.seq < f.summary.seq ∧
    ∃ first, f.summary.coversFromSeq = some first ∧ first ≤ m.seq ∧ m.seq ≤ f.summary.coversThroughSeq
  spilled : ∀ g ∈ s.folds, ∀ m ∈ g.previews, m ∈ s.file ∧ ∃ r ∈ s.file, r.supersedes m = true ∧ m.seq < r.seq ∧
    StandsAt s.stateLog c.key (f.summary.walSeq.getD 0) (r.walSeq.getD 0) ∧
    r.walSeq.getD 0 ≤ f.summary.walSeq.getD 0

structure PermanenceInv (c : HistoryConfig) (s : ChatSession) : Prop where
  wellFormed : WellFormed s
  accounted : s.Accounted
  lasting : ∀ f, s.folds.getLast? = some f → Lasting c s f

section Invariant
variable {c : HistoryConfig} {s t : ChatSession} {msg m : ChatMessage} {f : Fold}

theorem Lasting.mem (h : Lasting c s f) : f.summary ∈ s.file := (latestSummary_spec h.latest).1

theorem Lasting.of_same (h : Lasting c s f) (hfile : t.file = s.file) (hlog : t.stateLog = s.stateLog)
    (hfolds : t.folds = s.folds) : Lasting c t f := by
  refine ⟨?_,?_,?_,?_⟩
  · rw [hfile]
    exact h.latest
  · rw [hlog]
    exact h.stands
  · rw [hfile,hfolds]
    exact h.inside
  · rw [hfile,hlog,hfolds]
    exact h.spilled

theorem Lasting.append (h : Lasting c s f) (hrole : msg.role ≠ .summary) : Lasting c (s.appendHistory c msg) f where
  latest := by
    rw [appendHistory_file,latestSummary_concat (m := s.stamp msg) hrole]
    exact h.latest
  stands := h.stands
  inside := by
    intro g hg m hm
    obtain ⟨hmem,hlt,hrange⟩ := h.inside g hg m hm
    exact ⟨List.mem_append_left _ hmem,hlt,hrange⟩
  spilled := by
    intro g hg m hm
    obtain ⟨hmem,r,hr,hs,hlt,hstands,hle⟩ := h.spilled g hg m hm
    exact ⟨List.mem_append_left _ hmem,r,List.mem_append_left _ hr,hs,hlt,hstands,hle⟩

theorem Lasting.logged (h : Lasting c s f) (hw : WellFormed s) {w : Wal} (hlog : s.stateLog = some w) {l : WalLine}
    (hl : w.head < l.seq) (hkeeps : ∀ record, l.record? = some record → record.visible (some c.key) = true →
      f.summary.walSeq.getD 0 ≤ record.targetN) : Lasting c (s.withLog (w.snoc l hl)) f where
  latest := h.latest
  stands := by
    have hg := hw.anchored _ h.mem
    have hstands := h.stands
    rw [hlog] at hg hstands
    exact hstands.snoc hl hg hkeeps
  inside := h.inside
  spilled := by
    intro g hf m hm
    obtain ⟨hmem,r,hr,hs,hlt,hstands,hle⟩ := h.spilled g hf m hm
    have hg := hw.anchored _ h.mem
    rw [hlog] at hg hstands
    exact ⟨hmem,r,hr,hs,hlt,(StandsAt.snoc hl hg).mpr hstands,hle⟩

theorem PermanenceInv.start (log : Option Wal) : PermanenceInv c (.start log) :=
  ⟨.start log,by simp [ChatSession.start,Accounted],by simp [ChatSession.start]⟩

theorem PermanenceInv.of_same (h : PermanenceInv c s) (hw : WellFormed t) (hfile : t.file = s.file)
    (hlog : t.stateLog = s.stateLog) (hfolds : t.folds = s.folds) : PermanenceInv c t where
  wellFormed := hw
  accounted := h.accounted.of_same hfile hfolds
  lasting := by
    intro f hf
    rw [hfolds] at hf
    exact (h.lasting f hf).of_same hfile hlog hfolds

theorem PermanenceInv.append (h : PermanenceInv c s) (hm : Unstamped msg) (hrole : msg.role ≠ .summary) :
    PermanenceInv c (s.appendHistory c msg) where
  wellFormed := h.wellFormed.append hm
  accounted := h.accounted.append hrole
  lasting f hf := (h.lasting f hf).append hrole

theorem PermanenceInv.appendAll (h : PermanenceInv c s) {records : List ChatMessage}
    (hr : ∀ r ∈ records, r.role = .spillRecord ∧ Fresh r) : PermanenceInv c (s.appendAll c records) :=
  appendAll_induction hr h fun _ _ h _ hf => h.append hf.unstamped hf.2.2

/-- What an earlier fold has read as a preview has a record on the branch still. -/
theorem PermanenceInv.spilled_stands (h : PermanenceInv c s) {g : Fold} (hg : g ∈ s.folds) (hm : m ∈ g.previews) :
    m ∈ s.file ∧ ∃ r ∈ s.file, r.supersedes m = true ∧ m.seq < r.seq ∧
      StandsAt s.stateLog c.key (logHead s.stateLog) (r.walSeq.getD 0) := by
  obtain ⟨f,hf⟩ := Option.isSome_iff_exists.mp (List.getLast?_isSome.mpr (List.ne_nil_of_mem hg))
  have hlasting := h.lasting f hf
  obtain ⟨hmem,r,hr,hs,hlt,hstands,hle⟩ := hlasting.spilled g hg m hm
  have hhead := hlasting.stands _ (h.wellFormed.anchored _ hlasting.mem) le_rfl
  exact ⟨hmem,r,hr,hs,hlt,(StandsAt.below hhead hle).mpr hstands⟩

/-- A fold whose range takes in the earlier ones lasts. -/
theorem PermanenceInv.persist (h : PermanenceInv c s) {content : Json} {first through : ℕ}
    {inputs previews : List ChatMessage}
    (hinside : ∀ m ∈ s.folds.flatMap (·.inputs) ++ inputs, m ∈ s.file ∧ first ≤ m.seq ∧ m.seq ≤ through)
    (hspilled : ∀ m ∈ previews, m ∈ s.file ∧ ∃ r ∈ s.activeBranchHistory c, r.supersedes m = true ∧ m.seq < r.seq) :
    PermanenceInv c (s.persistSummary c (summaryMessage content first through) inputs previews) where
  wellFormed := h.wellFormed.persistSummary (unstamped_summaryMessage _ _ _) _ _
  accounted := h.accounted.persist _ _
  lasting := by
    intro f hf
    have hlast : (s.folds ++ [(⟨s.stamp (summaryMessage content first through),inputs,previews⟩ : Fold)]).getLast? =
        some f := hf
    rw [List.getLast?_concat] at hlast
    cases hlast
    have hanchor : (s.stamp (summaryMessage content first through)).walSeq.getD 0 = logHead s.stateLog :=
      stamp_anchor (unstamped_summaryMessage _ _ _)
    have hseq : (s.stamp (summaryMessage content first through)).seq = s.nextSeq :=
      stamp_seq (unstamped_summaryMessage _ _ _)
    have hlatest : latestSummary (s.file ++ [s.stamp (summaryMessage content first through)]) =
        some (s.stamp (summaryMessage content first through)) := latestSummary_concat_summary rfl
    refine ⟨hlatest,?_,fun g hg m hm => ?_,fun g hg m hm => ?_⟩
    · rw [hanchor]
      exact .head
    · have hmem : m ∈ s.folds.flatMap (·.inputs) ++ inputs := by
        rcases List.mem_append.mp hg with hg | hg
        · exact List.mem_append_left _ (List.mem_flatMap.mpr ⟨g,hg,hm⟩)
        · rw [List.mem_singleton.mp hg] at hm
          exact List.mem_append_right _ hm
      obtain ⟨hfile,hlo,hhi⟩ := hinside m hmem
      exact ⟨List.mem_append_left _ hfile,(h.wellFormed.bounded m hfile).2.trans_eq hseq.symm,first,rfl,hlo,hhi⟩
    · have hrecord : m ∈ s.file ∧ ∃ r ∈ s.file, r.supersedes m = true ∧ m.seq < r.seq ∧
          StandsAt s.stateLog c.key (logHead s.stateLog) (r.walSeq.getD 0) := by
        rcases List.mem_append.mp hg with hg | hg
        · exact h.spilled_stands hg hm
        · rw [List.mem_singleton.mp hg] at hm
          obtain ⟨hmem,r,hr,hs,hlt⟩ := hspilled m hm
          have hrole : r.role = .spillRecord := by
            simpa using ((Bool.and_eq_true _ _).mp hs).1
          refine ⟨hmem,r,h.wellFormed.suffix.subset ((filterVisible_sublist _ _).subset hr),hs,hlt,?_⟩
          obtain ⟨a,⟨rfl,-⟩ | ⟨-,htool,-⟩,hstands⟩ := shown_of_mem_activeBranch h.wellFormed h.wellFormed.suffix hr
          · exact hstands
          · rw [hrole] at htool
            cases htool
      obtain ⟨hmem,r,hr,hs,hlt,hstands⟩ := hrecord
      refine ⟨List.mem_append_left _ hmem,r,List.mem_append_left _ hr,hs,hlt,?_,?_⟩
      · rw [hanchor]
        exact hstands
      · rw [hanchor]
        exact h.wellFormed.anchored r hr

/-- What a pass was offered lies in the range it records. -/
theorem offered_in_range (hw : WellFormed s) {budgets : CompactionBudgets} {selection : Selection}
    {protectSeqGte : Option ℕ} {first : ChatMessage} {rest : List ChatMessage} {offered : ℕ}
    (hc : s.candidates c budgets selection protectSeqGte = first :: rest) (hm : m ∈ (first :: rest).take offered) :
    m ∈ s.file ∧ first.seq ≤ m.seq ∧ m.seq ≤ coversThrough first (first :: rest) offered := by
  have hinc : (first :: rest).Pairwise (·.seq < ·.seq) := by
    have hsub := (Compaction.measureAndSelect_isPrefix budgets (s.eligibleMessages c) s.prevCover protectSeqGte
      selection).sublist.trans Compaction.unprotected_sublist
    rw [measureAndSelect_of_candidates hc] at hsub
    exact hw.increasing.sublist (hsub.trans (eligibleMessages_sublist hw))
  have hmem : m ∈ first :: rest := List.mem_of_mem_take hm
  refine ⟨(eligibleMessages_sublist hw).subset (mem_candidates hc hmem).1,?_,?_⟩
  · rcases List.mem_cons.mp hmem with rfl | hrest
    · exact le_rfl
    · exact ((List.pairwise_cons.mp hinc).1 m hrest).le
  · obtain ⟨last,hlast⟩ := Option.isSome_iff_exists.mp (List.getLast?_isSome.mpr (List.ne_nil_of_mem hm))
    rw [coversThrough,hlast,Option.map_some,Option.getD_some]
    rcases KeyedLog.eq_or_lt_getLast (hinc.sublist (List.take_sublist _ _)) hlast hm with rfl | hlt
    · exact le_rfl
    · exact hlt.le

theorem le_recoveryCoversThrough {folded : List ChatMessage} (hm : m ∈ folded) (hrole : m.role ≠ .summary) :
    m.seq ≤ recoveryCoversThrough folded := by
  refine (KeyedLog.le_foldl_max _ 0).2 m.seq (List.mem_map.mpr ⟨m,?_,rfl⟩)
  exact List.mem_filter.mpr ⟨hm,by simpa using hrole⟩

/-- What is folded lies in the range of a further fold by the condition, in that of the first one anyway. -/
theorem TakesIn.inside (h : PermanenceInv c s) {first through : ℕ} {inputs : List ChatMessage}
    (htakes : s.TakesIn first through inputs) (hfile : inputs ⊆ s.file)
    (hfirst : s.folds = [] → ∀ m ∈ inputs, first ≤ m.seq ∧ m.seq ≤ through)
    (hm : m ∈ s.folds.flatMap (·.inputs) ++ inputs) : m ∈ s.file ∧ first ≤ m.seq ∧ m.seq ≤ through := by
  refine ⟨?_,?_⟩
  · rcases List.mem_append.mp hm with hm | hm
    · obtain ⟨g,hg,hm⟩ := List.mem_flatMap.mp hm
      obtain ⟨f,hf⟩ := Option.isSome_iff_exists.mp (List.getLast?_isSome.mpr (List.ne_nil_of_mem hg))
      exact ((h.lasting f hf).inside g hg m hm).1
    · exact hfile hm
  · by_cases hnil : s.folds = []
    · rw [hnil,List.flatMap_nil,List.nil_append] at hm
      exact hfirst hnil m hm
    · exact htakes hnil m hm

theorem PermanenceInv.step (h : PermanenceInv c s) {a : ChatAction} (hg : s.KeepsFolds c a) (ht : step c s a = some t) :
    PermanenceInv c t := by
  have hw := h.wellFormed.step ht
  cases a with
  | append msg =>
    obtain ⟨hf,ht⟩ := Option.ite_none_right_eq_some.mp ht
    cases ht
    exact h.append hf.unstamped hf.2.2
  | logged l =>
    obtain ⟨w,hlog,ht⟩ := Option.bind_eq_some_iff.mp ht
    obtain ⟨hl,ht⟩ := Option.dite_none_right_eq_some.mp ht
    cases ht
    refine ⟨hw,h.accounted,fun f hf => (h.lasting f hf).logged h.wellFormed hlog hl fun record hrec hv => ?_⟩
    exact hg record hrec hv f (List.mem_of_getLast? hf)
  | markInFlight | startTurn | loadOlder minLines | restart =>
    cases ht
    exact h.of_same hw rfl rfl rfl
  | forceCompact budgets selection protectSeqGte attempts content =>
    obtain ⟨ha,ht⟩ := Option.ite_none_right_eq_some.mp ht
    cases ht
    obtain ⟨records,hr,hs | ⟨first,rest,offered,hc,hrun,hs⟩⟩ :=
      forceCompactNow_cases budgets selection protectSeqGte ha content
    · rw [hs]
      exact h.appendAll hr
    · rw [hs]
      have htakes := hg first rest offered hc hrun
      refine (h.appendAll hr).persist (fun m hm => ?_) (by simp)
      rw [appendAll_folds] at hm
      have hinside : m ∈ s.file ∧ first.seq ≤ m.seq ∧ m.seq ≤ coversThrough first (first :: rest) offered := by
        refine htakes.inside h (List.append_subset.mpr ⟨fun x hx => ?_,fun x hx => ?_⟩) (fun hnil x hx => ?_) hm
        · exact h.wellFormed.suffix.subset (latestSummary_spec (Option.mem_toList.mp hx)).1
        · exact (offered_in_range h.wellFormed hc hx).1
        · rw [h.accounted.latestSummary_eq_none hnil h.wellFormed.suffix.subset] at hx
          exact (offered_in_range h.wellFormed hc hx).2
      exact ⟨appendAll_file s records hinside.1,hinside.2⟩
  | persistRecovery folded spilled content =>
    obtain ⟨hr,ht⟩ := Option.ite_none_right_eq_some.mp ht
    cases ht
    rcases persistRecoverySummary_cases (c := c) (s := s) folded spilled content with hs | ⟨hlt,hs⟩
    · rw [hs]
      exact h
    · rw [hs]
      have hfile : folded ⊆ s.file := fun m hm => (hr.1 m (List.mem_append_left _ hm)).1
      refine h.persist (fun m hm => (hg hlt).inside h hfile (fun hnil x hx => ?_) hm) fun m hm =>
        ⟨(hr.1 m (List.mem_append_right _ hm)).1,hr.2 m hm⟩
      have hrole : x.role ≠ .summary := by
        intro hsummary
        obtain ⟨f,hf,-⟩ := h.accounted x (hfile hx) hsummary
        rw [hnil] at hf
        cases hf
      have hcover : s.prevCover = 0 := by
        rw [prevCover,compactionWatermark,compactionCoverage,
          h.accounted.latestSummary_eq_none hnil h.wellFormed.suffix.subset]
        rfl
      rw [hcover]
      exact ⟨(h.wellFormed.bounded x (hfile hx)).1,le_recoveryCoversThrough hx hrole⟩

/-- An entry the last fold has in its range is not active on the branch, once it is in memory. -/
theorem Lasting.hidden (h : Lasting c s f) (hw : WellFormed s) {g : Fold} (hg : g ∈ s.folds) (hm : m ∈ g.inputs)
    (hmem : m ∈ s.history) : stillActive (s.activeBranchHistory c) m = false := by
  obtain ⟨hfile,hlt,first,hfirst,hlo,hhi⟩ := h.inside g hg m hm
  have hrole := (latestSummary_spec h.latest).2
  have hresident : f.summary ∈ s.history := KeyedLog.mem_of_suffix hw.increasing hw.suffix hmem h.mem hlt.le
  have hvisible : f.summary ∈ s.activeBranchHistory c := by
    refine mem_activeBranchHistory hw hresident (by simp [hrole]) ?_
    exact h.stands _ (hw.anchored _ h.mem) le_rfl
  have hlatest : latestSummary (s.activeBranchHistory c) = some f.summary :=
    latestSummary_of_sublist hw.increasing ((filterVisible_sublist _ _).trans hw.suffix.sublist) h.latest hvisible
  exact stillActive_eq_false_iff.mpr ⟨(hw.bounded m hfile).1,f.summary,first,hlatest,hfirst,hlo,hhi⟩

end Invariant

/-! ## Two folds -/

end ChatSession
end Reyn
