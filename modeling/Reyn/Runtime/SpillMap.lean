import Reyn.Lib.Dict
import Reyn.Lib.Runs
import Reyn.Runtime.ChatInvariant
import Reyn.Runtime.CycleVisibility

/-! # The incremental spill map

The map of the spill records is kept between calls with the number of visible entries it was read from and
the sequence number of the last of them. Time travel makes this enough: in front of an entry that is visible
before and after, the branch is the same. What it does not see is the front of the resident history, where an
eviction can take a call and leave its result to its own anchor.
-/
namespace Reyn
open Py TimeTravel Transition

/-- What a spill record says: the text it supersedes, and the preview. -/
def ChatMessage.spillEntry (m : ChatMessage) : Option (String × String) :=
  if m.role = .spillRecord then
    match m.spillTarget, m.content with
    | some target, .str preview => some (target,preview)
    | _, _ => none
  else none

/-- The loop over the entries. -/
def scanSpills (cache : Dict String String) (entries : List ChatMessage) : Dict String String :=
  cache.update (entries.filterMap (·.spillEntry))

/-- What `_spill_supersede_map` keeps between calls. -/
structure SpillCache where
  map : Dict String String
  count : ℕ
  boundarySeq : Option ℕ

namespace SpillCache

def empty : SpillCache := ⟨.empty,0,none⟩

def needsRebuild (cache : SpillCache) (current : List ChatMessage) : Bool :=
  current.length < cache.count || 0 < cache.count && current[cache.count - 1]?.map (·.seq) != cache.boundarySeq

/-- `_spill_supersede_map`; the map is what is returned. -/
def spillSupersedeMap (cache : SpillCache) (current : List ChatMessage) : SpillCache :=
  ⟨if cache.needsRebuild current then scanSpills .empty current else scanSpills cache.map (current.drop cache.count),
    current.length,current.getLast?.map (·.seq)⟩

end SpillCache

/-- A session, and the cache of its history buffer. -/
structure SpillWorld where
  session : ChatSession
  cache : SpillCache

inductive SpillAction where
  | append (msg : ChatMessage)
  /-- A new entry of the write-ahead log: a rewind, a switch of branches, or anything else. -/
  | logged (l : WalLine)
  | evict (count : ℕ)
  | loadOlder (minLines : ℕ)
  | clearHistory
  | supersedeMap

namespace ChatSession

instance (msg : ChatMessage) : Decidable (Unstamped msg) := inferInstanceAs (Decidable (_ ∧ _))

def evict (s : ChatSession) (count : ℕ) : ChatSession := { s with history := s.history.drop count }

/-- `clear_history`; the counter of the session goes on. -/
def clearHistory (s : ChatSession) : ChatSession := { s with file := [], history := [] }

end ChatSession

namespace SpillWorld
open ChatSession
variable (c : HistoryConfig)

def visible (w : SpillWorld) : List ChatMessage := w.session.activeBranchHistory c

def step (w : SpillWorld) : SpillAction → Option SpillWorld
  | .append msg => if Unstamped msg then some { w with session := w.session.appendHistory c msg } else none
  | .logged l => w.session.stateLog.bind fun log =>
    if h : log.head < l.seq then some { w with session := w.session.withLog (log.snoc l h) } else none
  | .evict count => some { w with session := w.session.evict count }
  | .loadOlder minLines => some { w with session := w.session.loadOlderEntries minLines }
  | .clearHistory => some { w with session := w.session.clearHistory }
  | .supersedeMap => some { w with cache := w.cache.spillSupersedeMap (w.visible c) }

end SpillWorld

/-! ## Scanning -/

section Scan
variable {cache : SpillCache} {current : List ChatMessage}

theorem scanSpills_append (d : Dict String String) (xs ys : List ChatMessage) :
    scanSpills d (xs ++ ys) = scanSpills (scanSpills d xs) ys := by
  rw [scanSpills,scanSpills,scanSpills,List.filterMap_append]
  exact List.foldl_append ..

theorem scanSpills_congr (d : Dict String String) {xs ys : List ChatMessage}
    (h : xs.filterMap (·.spillEntry) = ys.filterMap (·.spillEntry)) : scanSpills d xs = scanSpills d ys := by
  rw [scanSpills,scanSpills,h]

theorem spillEntry_eq_none {m : ChatMessage} (h : m.role ≠ .spillRecord) : m.spillEntry = none := if_neg h

theorem filterMap_spillEntry_eq_nil {xs : List ChatMessage} (h : ∀ m ∈ xs, m.role ≠ .spillRecord) :
    xs.filterMap (·.spillEntry) = [] := by
  rw [List.filterMap_eq_nil_iff]
  intro m hm
  exact spillEntry_eq_none (h m hm)

namespace SpillCache

theorem map_of_needsRebuild (h : cache.needsRebuild current = true) :
    (cache.spillSupersedeMap current).map = scanSpills .empty current := if_pos h

theorem map_of_kept (h : cache.needsRebuild current = false) :
    (cache.spillSupersedeMap current).map = scanSpills cache.map (current.drop cache.count) :=
  if_neg (Bool.eq_false_iff.mp h)

/-- A rebuild is not needed where the entry at the boundary has the number it had. -/
theorem needsRebuild_eq_false_iff : cache.needsRebuild current = false ↔
    cache.count ≤ current.length ∧ (0 < cache.count → current[cache.count - 1]?.map (·.seq) = cache.boundarySeq) := by
  simp [needsRebuild]

/-- The tail completes a map of the same records. -/
theorem map_of_same (h : cache.needsRebuild current = false) {scanned : List ChatMessage}
    (hmap : cache.map = scanSpills .empty scanned)
    (hsame : (current.take cache.count).filterMap (·.spillEntry) = scanned.filterMap (·.spillEntry)) :
    (cache.spillSupersedeMap current).map = scanSpills .empty current := by
  rw [map_of_kept h,hmap,← scanSpills_congr _ hsame,← scanSpills_append,List.take_append_drop]

end SpillCache
end Scan

/-! ## The branch at a position -/

namespace ChatSession
variable {log : Option Wal} {key : SessionKey} {g h : ℕ} {x : Option ℕ}

/-- The anchor is visible from the position `h`. -/
def activeAt (log : Option Wal) (key : SessionKey) (h : ℕ) (x : Option ℕ) : Bool :=
  x.getD 0 == 0 || log.all fun w => decide (x.getD 0 ∈ (w.resets (some key)).lineage h)

theorem activeAt_iff : activeAt log key h x = true ↔ StandsAt log key h (x.getD 0) := by
  rw [activeAt,StandsAt,Bool.or_eq_true,beq_iff_eq,Option.all_eq_true]
  simp only [decide_eq_true_eq]

theorem anchorActive_eq (hx : x.getD 0 ≤ logHead log) : anchorActive log key x = activeAt log key (logHead log) x := by
  rw [Bool.eq_iff_iff,anchorActive_iff hx,activeAt_iff]

theorem activeAt_snoc {w : Wal} {l : WalLine} (hl : w.head < l.seq) (hh : h ≤ w.head) :
    activeAt (some (w.snoc l hl)) key h = activeAt (some w) key h := by
  funext x
  rw [Bool.eq_iff_iff,activeAt_iff,activeAt_iff,StandsAt.snoc hl hh]

/-- In front of an anchor that both positions see they see the same. -/
theorem activeAt_below {a : Option ℕ} (hg : activeAt log key g a = true) (hh : activeAt log key h a = true)
    (hx : x.getD 0 ≤ a.getD 0) : activeAt log key g x = activeAt log key h x := by
  rw [activeAt_iff] at hg hh
  rw [Bool.eq_iff_iff,activeAt_iff,activeAt_iff,hg.below hx,hh.below hx]

end ChatSession

/-! ## The entries in front of a visible one -/

section Front
variable {isActive isActive' : Option ℕ → Bool} {cycle : Option (Option ℕ)} {front rest : List ChatMessage} {b : ChatMessage}

theorem filterVisible_results {anchor : Option ℕ} (h : isActive anchor = true) (hresults : ∀ m ∈ front, m.role = .tool) :
    filterVisibleOnActiveBranch isActive (some anchor) front = front := by
  induction front with
  | nil => rfl
  | cons m front ih =>
    have htool := hresults m List.mem_cons_self
    rw [filterVisible_cons,ChatMessage.deciding,if_pos htool,Option.getD_some,if_pos h,ChatMessage.cycleBehind,if_pos htool,
      ih fun m' hm' => hresults m' (List.mem_cons_of_mem m hm')]
    rfl

/-- The cycle that is open behind some entries was opened by one of them, or was open in front of them all. -/
theorem cycleAfter_cases {anchor : Option ℕ} (h : cycleAfter cycle front = some anchor) :
    (cycle = some anchor ∧ ∀ m ∈ front, m.role = .tool) ∨ ∃ earlier a results, front = earlier ++ a :: results ∧
      a.opensCycle = true ∧ a.walSeq = anchor ∧ ∀ m ∈ results, m.role = .tool := by
  induction front using List.reverseRecOn with
  | nil => exact .inl ⟨h,List.forall_mem_nil _⟩
  | append_singleton front m ih =>
    rw [cycleAfter_concat,ChatMessage.cycleBehind] at h
    split at h
    · rename_i htool
      rcases ih h with ⟨hcycle,hall⟩ | ⟨earlier,a,results,rfl,ha,hanchor,hall⟩
      · left
        refine ⟨hcycle,?_⟩
        intro m' hm'
        rcases List.mem_append.mp hm' with hm' | hm'
        · exact hall m' hm'
        · rw [List.mem_singleton.mp hm']
          exact htool
      · right
        refine ⟨earlier,a,results ++ [m],by simp,ha,hanchor,?_⟩
        intro m' hm'
        rcases List.mem_append.mp hm' with hm' | hm'
        · exact hall m' hm'
        · rw [List.mem_singleton.mp hm']
          exact htool
    · obtain ⟨hopens,hsome⟩ := Option.ite_none_right_eq_some.mp h
      exact .inr ⟨front,m,[],rfl,hopens,Option.some.inj hsome,List.forall_mem_nil _⟩

/-- Two predicates that agree on the anchors up to that which decides `b` agree on what stands in front of `b`, when
they both keep it. -/
theorem filterVisible_front (hordered : front.Pairwise (·.walSeq.getD 0 ≤ ·.walSeq.getD 0))
    (hlast : ∀ m ∈ front, m.walSeq.getD 0 ≤ b.walSeq.getD 0)
    (hcycle : ∀ anchor, cycle = some anchor → anchor.getD 0 ≤ b.walSeq.getD 0 ∧ ∀ m ∈ front, anchor.getD 0 ≤ m.walSeq.getD 0)
    (hagree : ∀ x : Option ℕ, x.getD 0 ≤ (b.deciding (cycleAfter cycle front)).getD 0 → isActive x = isActive' x)
    (hb : isActive (b.deciding (cycleAfter cycle front)) = true) :
    filterVisibleOnActiveBranch isActive cycle front = filterVisibleOnActiveBranch isActive' cycle front := by
  have hb' := (hagree _ le_rfl).symm.trans hb
  rcases Option.eq_none_or_eq_some (if b.role = .tool then cycleAfter cycle front else none) with hown | ⟨anchor,hopen⟩
  · have hdeciding : b.deciding (cycleAfter cycle front) = b.walSeq := by rw [ChatMessage.deciding,hown,Option.getD_none]
    rw [hdeciding] at hagree
    apply filterVisible_congr
    · intro anchor hanchor
      exact hagree anchor (hcycle anchor hanchor).1
    · intro m hm
      exact hagree m.walSeq (hlast m hm)
  · have hdeciding : b.deciding (cycleAfter cycle front) = anchor := by rw [ChatMessage.deciding,hopen,Option.getD_some]
    obtain ⟨-,hafter⟩ := Option.ite_none_right_eq_some.mp hopen
    rw [hdeciding] at hagree hb hb'
    rcases cycleAfter_cases hafter with ⟨hsame,hall⟩ | ⟨earlier,a,results,rfl,ha,rfl,hall⟩
    · rw [hsame,filterVisible_results hb hall,filterVisible_results hb' hall]
    · have hrole : a.role ≠ .tool := by
        intro htool
        simp [ChatMessage.opensCycle,htool] at ha
      have hearlier : filterVisibleOnActiveBranch isActive cycle (earlier ++ [a]) =
          filterVisibleOnActiveBranch isActive' cycle (earlier ++ [a]) := by
        have hord := (List.pairwise_append.mp hordered).2.2
        apply filterVisible_congr
        · intro anchor hanchor
          exact hagree anchor ((hcycle anchor hanchor).2 a (by simp))
        · intro m hm
          rcases List.mem_append.mp hm with hm | hm
          · exact hagree m.walSeq (hord m hm a List.mem_cons_self)
          · rw [List.mem_singleton.mp hm]
            exact hagree a.walSeq le_rfl
      have hcycle' : cycleAfter cycle (earlier ++ [a]) = some a.walSeq := by
        rw [cycleAfter_concat,ChatMessage.cycleBehind,if_neg hrole,ChatMessage.nextCycle,if_pos ha]
      rw [List.append_cons,@filterVisible_append isActive cycle (earlier ++ [a]) results,
        @filterVisible_append isActive' cycle (earlier ++ [a]) results,hcycle',hearlier,filterVisible_results hb hall,
        filterVisible_results hb' hall]

theorem filterVisible_split {after X Y : List ChatMessage} (hfront : b ∉ front) (hafter : b ∉ after)
    (h : filterVisibleOnActiveBranch isActive cycle (front ++ b :: after) = X ++ b :: Y) :
    isActive (b.deciding (cycleAfter cycle front)) = true ∧ X = filterVisibleOnActiveBranch isActive cycle front := by
  have hfront' : b ∉ filterVisibleOnActiveBranch isActive cycle front :=
    fun hmem => hfront ((filterVisible_sublist _ _).subset hmem)
  have hafter' : b ∉ filterVisibleOnActiveBranch isActive (b.cycleBehind (cycleAfter cycle front)) after :=
    fun hmem => hafter ((filterVisible_sublist _ _).subset hmem)
  have hmem : b ∈ X ++ b :: Y := by simp
  rw [← h,filterVisible_append,filterVisible_cons] at hmem
  rw [filterVisible_append,filterVisible_cons] at h
  by_cases hact : isActive (b.deciding (cycleAfter cycle front)) = true
  · rw [if_pos hact,List.singleton_append] at h
    obtain ⟨hsame,-,-⟩ := (List.append_cons_inj_of_notMem hfront' hafter').mp h
    exact ⟨hact,hsame.symm⟩
  · rw [if_neg hact,List.nil_append] at hmem
    rcases List.mem_append.mp hmem with hmem | hmem
    · exact absurd hmem hfront'
    · exact absurd hmem hafter'

end Front

/-! ## The resident history -/

namespace ChatSession
variable {c : HistoryConfig} {s : ChatSession} {legacy newer : List ChatMessage}

/-- The entries in memory: a final part of the newer ones, or all of them behind legacy ones. -/
def Resident (legacy newer history : List ChatMessage) : Prop :=
  ∃ front later, history = front ++ later ∧ later <:+ newer ∧ (∀ m ∈ front, m ∈ legacy) ∧ (front ≠ [] → later = newer)

/-- The file is legacy entries, which may share the number 0, and newer ones. Spill records came after the numbers. -/
structure Ages (legacy newer : List ChatMessage) (s : ChatSession) : Prop where
  file : s.file = legacy ++ newer
  noSpill : ∀ m ∈ legacy, m.role ≠ .spillRecord
  older : ∀ a ∈ legacy, ∀ b ∈ newer, a.seq < b.seq
  increasing : newer.Pairwise (·.seq < ·.seq)
  bounded : ∀ m ∈ s.file, m.seq < s.nextSeq
  anchored : ∀ m ∈ s.file, m.walSeq.getD 0 ≤ logHead s.stateLog
  ordered : s.file.Pairwise (·.walSeq.getD 0 ≤ ·.walSeq.getD 0)
  resident : Resident legacy newer s.history

theorem Resident.of_suffix {history : List ChatMessage} (h : history <:+ legacy ++ newer) : Resident legacy newer history := by
  obtain ⟨earlier,h⟩ := h
  rcases List.append_eq_append_iff.mp h with ⟨front,rfl,rfl⟩ | ⟨rest,rfl,rfl⟩
  · exact ⟨front,newer,rfl,List.suffix_rfl,fun m hm => List.mem_append_right _ hm,fun _ => rfl⟩
  · exact ⟨[],history,rfl,⟨rest,rfl⟩,List.forall_mem_nil _,fun hne => absurd rfl hne⟩

theorem Resident.drop {history : List ChatMessage} (h : Resident legacy newer history) (n : ℕ) :
    Resident legacy newer (history.drop n) := by
  obtain ⟨front,later,rfl,hlater,hfront,hwhole⟩ := h
  refine ⟨front.drop n,later.drop (n - front.length),List.drop_append,(List.drop_suffix _ _).trans hlater,?_,?_⟩
  · intro m hm
    exact hfront m (List.mem_of_mem_drop hm)
  · intro hne
    have hlt : n < front.length := by
      by_contra hge
      exact hne (List.drop_eq_nil_of_le (Nat.le_of_not_lt hge))
    rw [Nat.sub_eq_zero_of_le hlt.le,List.drop_zero]
    apply hwhole
    rintro rfl
    exact absurd hlt (Nat.not_lt_zero n)

theorem Resident.concat {history : List ChatMessage} (h : Resident legacy newer history) (m : ChatMessage) :
    Resident legacy (newer ++ [m]) (history ++ [m]) := by
  obtain ⟨front,later,rfl,⟨earlier,hlater⟩,hfront,hwhole⟩ := h
  refine ⟨front,later ++ [m],List.append_assoc ..,⟨earlier,?_⟩,hfront,fun hne => by rw [hwhole hne]⟩
  rw [← List.append_assoc,hlater]

theorem Resident.subset {history : List ChatMessage} (h : Resident legacy newer history) {m : ChatMessage} (hm : m ∈ history) :
    m ∈ legacy ++ newer := by
  obtain ⟨front,later,rfl,hlater,hfront,-⟩ := h
  rcases List.mem_append.mp hm with hm | hm
  · exact List.mem_append_left _ (hfront m hm)
  · exact List.mem_append_right _ (hlater.subset hm)

theorem Ages.append (h : Ages legacy newer s) {msg : ChatMessage} (hm : Unstamped msg) :
    Ages legacy (newer ++ [s.stamp msg]) (s.appendHistory c msg) := by
  have hmem : ∀ m ∈ legacy ++ newer, m.seq < s.nextSeq := fun m hm => h.bounded m (h.file ▸ hm)
  constructor
  · rw [appendHistory_file,h.file,List.append_assoc]
  · exact h.noSpill
  · intro a ha b hb
    rcases List.mem_append.mp hb with hb | hb
    · exact h.older a ha b hb
    · rw [List.mem_singleton.mp hb,stamp_seq hm]
      exact hmem a (List.mem_append_left _ ha)
  · apply List.pairwise_append.mpr
    refine ⟨h.increasing,List.pairwise_singleton _ _,?_⟩
    intro a ha b hb
    rw [List.mem_singleton.mp hb,stamp_seq hm]
    exact hmem a (List.mem_append_right _ ha)
  · intro a ha
    rw [appendHistory_nextSeq hm]
    rcases List.mem_append.mp ha with ha | ha
    · exact (h.bounded a ha).trans (Nat.lt_succ_self _)
    · rw [List.mem_singleton.mp ha,stamp_seq hm]
      exact Nat.lt_succ_self _
  · intro a ha
    rcases List.mem_append.mp ha with ha | ha
    · exact h.anchored a ha
    · rw [List.mem_singleton.mp ha,stamp_anchor hm]
      exact le_rfl
  · apply List.pairwise_append.mpr
    refine ⟨h.ordered,List.pairwise_singleton _ _,?_⟩
    intro a ha b hb
    rw [List.mem_singleton.mp hb,stamp_anchor hm]
    exact h.anchored a ha
  · exact (h.resident.concat (s.stamp msg)).drop _

theorem Ages.logged (h : Ages legacy newer s) {w : Wal} (hw : s.stateLog = some w) {l : WalLine} (hl : w.head < l.seq) :
    Ages legacy newer (s.withLog (w.snoc l hl)) := by
  refine ⟨h.file,h.noSpill,h.older,h.increasing,h.bounded,?_,h.ordered,h.resident⟩
  intro m hm
  have hle := h.anchored m hm
  rw [hw] at hle
  exact hle.trans (by simpa [withLog,logHead] using hl.le)

theorem Ages.evict (h : Ages legacy newer s) (count : ℕ) : Ages legacy newer (s.evict count) :=
  ⟨h.file,h.noSpill,h.older,h.increasing,h.bounded,h.anchored,h.ordered,h.resident.drop count⟩

theorem Ages.cleared (s : ChatSession) : Ages [] [] s.clearHistory := by
  refine ⟨rfl,List.forall_mem_nil _,List.forall_mem_nil _,List.Pairwise.nil,List.forall_mem_nil _,List.forall_mem_nil _,
    List.Pairwise.nil,.of_suffix List.nil_suffix⟩

/-- What is read back is legacy, when the first entry is, and otherwise what stands in front of it. -/
theorem Ages.loadOlder (h : Ages legacy newer s) (minLines : ℕ) : Ages legacy newer (s.loadOlderEntries minLines) := by
  refine ⟨h.file,h.noSpill,h.older,h.increasing,h.bounded,h.anchored,h.ordered,?_⟩
  have hread : ∀ before, ∀ m ∈ readHistoryBefore s.file before minLines, m ∈ s.file ∧ m.seq < before := by
    intro before m hm
    have hm := (List.take_sublist _ _).subset (List.mem_reverse.mp hm)
    simpa using List.mem_filter.mp (List.mem_reverse.mp hm)
  obtain ⟨front,later,hhistory,hlater,hfront,hwhole⟩ := h.resident
  rw [loadOlderEntries,hhistory]
  cases front with
  | cons f front =>
    refine ⟨readHistoryBefore s.file f.seq minLines ++ (f :: front),later,(List.append_assoc ..).symm,hlater,?_,
      fun _ => hwhole (List.cons_ne_nil f front)⟩
    intro m hm
    rcases List.mem_append.mp hm with hm | hm
    · obtain ⟨hmem,hlt⟩ := hread f.seq m hm
      rw [h.file] at hmem
      rcases List.mem_append.mp hmem with hmem | hmem
      · exact hmem
      · exact absurd (h.older f (hfront f List.mem_cons_self) m hmem) (Nat.lt_asymm hlt)
    · exact hfront m hm
  | nil =>
    cases later with
    | nil =>
      have hnone : readHistoryBefore s.file 0 minLines = [] := by simp [readHistoryBefore]
      exact .of_suffix (by simp [hnone])
    | cons b rest =>
      obtain ⟨earlier,hearlier⟩ := hlater
      have hinc := h.increasing
      rw [← hearlier] at hinc
      have hbefore : s.file.filter (fun a => a.seq < b.seq) = legacy ++ earlier := by
        rw [h.file,← hearlier,List.filter_append,KeyedLog.filter_gt_eq hinc,List.filter_eq_self.mpr]
        intro a ha
        exact decide_eq_true (h.older a ha b (by simp [← hearlier]))
      have hsuffix : readHistoryBefore s.file b.seq minLines <:+ legacy ++ earlier := by
        rw [readHistoryBefore,hbefore,← List.reverse_prefix,List.reverse_reverse]
        exact List.take_prefix _ _
      apply Resident.of_suffix
      obtain ⟨first,hfirst⟩ := hsuffix
      refine ⟨first,?_⟩
      change first ++ (readHistoryBefore s.file b.seq minLines ++ (b :: rest)) = _
      rw [← List.append_assoc,hfirst,← hearlier,List.append_assoc]

end ChatSession

/-! ## Calls -/

namespace ChatSession
variable {c : HistoryConfig} {s : ChatSession} {legacy newer : List ChatMessage}

/-- The branch filter shows what is resident as it does in the whole file: no tool result is visible by its own anchor
where the call that issued it, evicted, would hide it, and none is hidden that the call would show. -/
def FrontWhole (c : HistoryConfig) (s : ChatSession) : Prop :=
  ∀ older front later, s.file = older ++ later → s.history = front ++ later →
    filterVisibleOnActiveBranch (anchorActive s.stateLog c.key) (cycleAfter none front) later =
      filterVisibleOnActiveBranch (anchorActive s.stateLog c.key) (cycleAfter none older) later

/-- The newer entries that are visible from the position `h`. -/
def newerVisible (c : HistoryConfig) (s : ChatSession) (legacy newer : List ChatMessage) (h : ℕ) : List ChatMessage :=
  filterVisibleOnActiveBranch (activeAt s.stateLog c.key h) (cycleAfter none legacy) newer

/-- What is visible is a final part of the newer visible entries, or all of them behind legacy ones. -/
theorem Ages.visible (h : Ages legacy newer s) (hfront : FrontWhole c s) :
    Resident legacy (newerVisible c s legacy newer (logHead s.stateLog)) (s.activeBranchHistory c) := by
  obtain ⟨front,later,hhistory,⟨earlier,hlater⟩,hlegacy,hwhole⟩ := h.resident
  have hfile : s.file = (legacy ++ earlier) ++ later := by rw [h.file,← hlater,List.append_assoc]
  have hmem : ∀ m ∈ legacy ++ newer, m.walSeq.getD 0 ≤ logHead s.stateLog := fun m hm => h.anchored m (h.file ▸ hm)
  have hcycle : ∀ rows, (∀ m ∈ rows, m ∈ legacy ++ newer) → ∀ anchor, cycleAfter none rows = some anchor →
      anchor.getD 0 ≤ logHead s.stateLog := by
    intro rows hrows anchor hanchor
    rcases cycleAfter_cases hanchor with ⟨hnone,-⟩ | ⟨before,a,results,rfl,-,rfl,-⟩
    · exact absurd hnone (Option.some_ne_none anchor).symm
    · exact hmem a (hrows a (by simp))
  have hnewer : newerVisible c s legacy newer (logHead s.stateLog) =
      filterVisibleOnActiveBranch (anchorActive s.stateLog c.key) (cycleAfter none legacy) newer := by
    apply filterVisible_congr
    · intro anchor hanchor
      exact (anchorActive_eq (hcycle legacy (fun m hm => List.mem_append_left _ hm) anchor hanchor)).symm
    · intro m hm
      exact (anchorActive_eq (hmem m (List.mem_append_right _ hm))).symm
  rw [hnewer,activeBranchHistory,activeBranch,hhistory,filterVisible_append,hfront _ _ _ hfile hhistory]
  refine ⟨filterVisibleOnActiveBranch (anchorActive s.stateLog c.key) none front,_,rfl,?_,?_,?_⟩
  · rw [← hlater,filterVisible_append,cycleAfter,cycleAfter,cycleAfter,List.foldl_append]
    exact List.suffix_append _ _
  · intro m hm
    exact hlegacy m ((filterVisible_sublist _ _).subset hm)
  · intro hne
    have hsome : front ≠ [] := by
      rintro rfl
      exact hne rfl
    have hall := hwhole hsome
    rw [hall] at hlater
    obtain rfl : earlier = [] := List.append_left_eq_self.mp hlater
    rw [hall,List.append_nil]

theorem split_at_getElem? {rows : List ChatMessage} {n : ℕ} {b : ChatMessage} (h : rows[n]? = some b) :
    ∃ front back, rows = front ++ b :: back ∧ front.length = n := by
  obtain ⟨hlt,rfl⟩ := List.getElem?_eq_some_iff.mp h
  refine ⟨rows.take n,rows.drop (n + 1),?_,List.length_take_of_le hlt.le⟩
  rw [← List.drop_eq_getElem_cons hlt,List.take_append_drop]

/-- In front of an entry that two positions see they see the same of the newer entries. -/
theorem Ages.front_same (h : Ages legacy newer s) {read more P X Y : List ChatMessage} (hnewer : newer = read ++ more)
    {g k : ℕ} {b b' : ChatMessage} (hg : newerVisible c s legacy read g = P ++ [b])
    (hk : newerVisible c s legacy newer k = X ++ b' :: Y) (hseq : b'.seq = b.seq) : b' = b ∧ X = P := by
  have hbread : b ∈ read := by
    apply (filterVisible_sublist _ _).subset
    change b ∈ newerVisible c s legacy read g
    simp [hg]
  have hb'newer : b' ∈ newer := by
    apply (filterVisible_sublist _ _).subset
    change b' ∈ newerVisible c s legacy newer k
    simp [hk]
  obtain ⟨before,after,rfl⟩ := List.append_of_mem hbread
  rw [List.append_assoc,List.cons_append] at hnewer
  have hinc := h.increasing
  rw [hnewer] at hinc
  obtain ⟨-,hback,hcross⟩ := List.pairwise_append.mp hinc
  have hbefore : ∀ a ∈ before, a.seq < b.seq := fun a ha => hcross a ha b List.mem_cons_self
  have hafter : ∀ a ∈ after ++ more, b.seq < a.seq := (List.pairwise_cons.mp hback).1
  have hnotbefore : b ∉ before := fun hmem => absurd (hbefore b hmem) (Nat.lt_irrefl _)
  have hnotafter : b ∉ after ++ more := fun hmem => absurd (hafter b hmem) (Nat.lt_irrefl _)
  obtain rfl : b' = b := by
    rw [hnewer] at hb'newer
    rcases List.mem_append.mp hb'newer with hmem | hmem
    · exact absurd (hbefore b' hmem) (by omega)
    · rcases List.mem_cons.mp hmem with hmem | hmem
      · exact hmem
      · exact absurd (hafter b' hmem) (by omega)
  rw [newerVisible] at hg hk
  rw [hnewer] at hk
  obtain ⟨hactive,rfl⟩ := filterVisible_split hnotbefore (fun hmem => hnotafter (List.mem_append_left _ hmem)) hg
  obtain ⟨hactive',rfl⟩ := filterVisible_split hnotbefore hnotafter hk
  refine ⟨rfl,?_⟩
  have hord := h.ordered
  rw [h.file,hnewer] at hord
  obtain ⟨-,hordnewer,hordcross⟩ := List.pairwise_append.mp hord
  obtain ⟨hordbefore,-,hordlast⟩ := List.pairwise_append.mp hordnewer
  symm
  apply filterVisible_front (b := b') hordbefore
  · intro m hm
    exact hordlast m hm b' List.mem_cons_self
  · intro anchor hanchor
    rcases cycleAfter_cases hanchor with ⟨hnone,-⟩ | ⟨earlier,a,results,rfl,-,rfl,-⟩
    · exact absurd hnone (Option.some_ne_none anchor).symm
    · refine ⟨hordcross a (by simp) b' (by simp),?_⟩
      intro m hm
      exact hordcross a (by simp) m (List.mem_append_left _ hm)
  · intro x hx
    exact activeAt_below hactive hactive' hx
  · exact hactive

/-- The entries up to the boundary hold the records that were read, when the entry there has the number it had. -/
theorem Ages.same_records (h : Ages legacy newer s) {read more rows current : List ChatMessage} (hnewer : newer = read ++ more)
    {g k : ℕ} (hrows : Resident legacy (newerVisible c s legacy read g) rows)
    (hcurrent : Resident legacy (newerVisible c s legacy newer k) current) {b : ChatMessage} (hb : rows.getLast? = some b)
    (hseq : current[rows.length - 1]?.map (·.seq) = some b.seq) :
    (current.take rows.length).filterMap (·.spillEntry) = rows.filterMap (·.spillEntry) := by
  obtain ⟨front,later,rfl,hlater,hfront,hwhole⟩ := hrows
  obtain ⟨front',later',rfl,hlater',hfront',hwhole'⟩ := hcurrent
  have hnospill : ∀ rows : List ChatMessage, (∀ m ∈ rows, m ∈ legacy) → rows.filterMap (·.spillEntry) = [] := by
    intro rows hrows
    exact filterMap_spillEntry_eq_nil fun m hm => h.noSpill m (hrows m hm)
  have hread : ∀ m ∈ later, m ∈ newer := by
    intro m hm
    rw [hnewer]
    exact List.mem_append_left _ ((filterVisible_sublist _ _).subset (hlater.subset hm))
  have hnow : ∀ m ∈ later', m ∈ newer := fun m hm => (filterVisible_sublist _ _).subset (hlater'.subset hm)
  obtain ⟨b',hb',hbseq⟩ := Option.map_eq_some_iff.mp hseq
  rcases List.eq_nil_or_concat later with rfl | ⟨init,last,hlast⟩
  · -- the boundary is a legacy entry, and so is the entry that is there now
    rw [List.append_nil] at hb hb' ⊢
    have hblegacy := hfront b (List.mem_of_getLast? hb)
    have hlt : front.length - 1 < front'.length := by
      by_contra hge
      rw [List.getElem?_append_right (Nat.le_of_not_lt hge)] at hb'
      have hlt := h.older b hblegacy b' (hnow b' (List.mem_of_getElem? hb'))
      omega
    rw [hnospill front hfront,hnospill]
    intro m hm
    rw [List.take_append_of_le_length (by omega)] at hm
    exact hfront' m (List.mem_of_mem_take hm)
  · rw [List.concat_eq_append] at hlast
    subst hlast
    obtain rfl : last = b := by
      rw [← List.append_assoc,List.getLast?_concat] at hb
      exact Option.some.inj hb
    have hlength : (front ++ (init ++ [last])).length - 1 = front.length + init.length := by
      simp only [List.length_append,List.length_singleton]
      omega
    rw [hlength] at hb'
    have hge : front'.length ≤ front.length + init.length := by
      by_contra hlt
      rw [List.getElem?_append_left (Nat.lt_of_not_le hlt)] at hb'
      have hlt := h.older b' (hfront' b' (List.mem_of_getElem? hb')) last (hread last (by simp))
      omega
    rw [List.getElem?_append_right hge] at hb'
    obtain ⟨mid,back,hsplit,hmid⟩ := split_at_getElem? hb'
    obtain ⟨pre,hpre⟩ := hlater
    obtain ⟨pre',hpre'⟩ := hlater'
    rw [← List.append_assoc] at hpre
    rw [hsplit,← List.append_assoc] at hpre'
    obtain ⟨rfl,hsame⟩ := h.front_same hnewer hpre.symm hpre'.symm hbseq
    have hsize := congrArg List.length hsame
    rw [List.length_append,List.length_append] at hsize
    have hmidinit : mid.length = init.length := by
      rcases Nat.lt_trichotomy mid.length init.length with hlt | heq | hlt
      · have hne : front' ≠ [] := by
          rintro rfl
          rw [List.length_nil,Nat.sub_zero] at hmid
          omega
        have hall := congrArg List.length (hwhole' hne)
        rw [← hpre',hsplit] at hall
        simp only [List.length_append,List.length_cons] at hall
        omega
      · exact heq
      · have hne : front ≠ [] := by
          rintro rfl
          rw [List.length_nil] at hmid
          omega
        have hall := congrArg List.length (hwhole hne)
        rw [← hpre] at hall
        simp only [List.length_append,List.length_singleton] at hall
        omega
    obtain rfl : mid = init := (List.append_inj' hsame hmidinit).2
    have htake : (front' ++ later').take (front ++ (mid ++ [b'])).length = front' ++ (mid ++ [b']) := by
      have hcount : (front ++ (mid ++ [b'])).length = (front' ++ (mid ++ [b'])).length := by
        simp only [List.length_append,List.length_singleton]
        omega
      have hrows : front' ++ later' = (front' ++ (mid ++ [b'])) ++ back := by
        simp [hsplit]
      rw [hcount,hrows,List.take_left]
    have hbare : ∀ rows : List ChatMessage, (∀ m ∈ rows, m ∈ legacy) → ∀ later : List ChatMessage,
        (rows ++ later).filterMap (·.spillEntry) = later.filterMap (·.spillEntry) := by
      intro rows hrows later
      rw [List.filterMap_append,hnospill rows hrows,List.nil_append]
    rw [htake,hbare front' hfront',hbare front hfront]

end ChatSession

/-! ## Runs -/

namespace SpillWorld
open ChatSession
variable {c : HistoryConfig} {s t : ChatSession} {cache : SpillCache} {legacy newer : List ChatMessage}

/-- What the cache was read from: nothing yet, entries that are gone, or what was visible of the newer entries from an
earlier position. -/
inductive Tracks (c : HistoryConfig) (legacy newer : List ChatMessage) (s : ChatSession) (cache : SpillCache) : Prop
  | unread (count : cache.count = 0) (map : cache.map = .empty)
  | gone (seq : ℕ) (count : 0 < cache.count) (boundary : cache.boundarySeq = some seq) (next : seq < s.nextSeq)
      (absent : ∀ m ∈ s.file, m.seq ≠ seq)
  | scanned (read more rows : List ChatMessage) (last : ChatMessage) (h : ℕ) (newer : newer = read ++ more)
      (position : h ≤ logHead s.stateLog) (visible : Resident legacy (newerVisible c s legacy read h) rows)
      (boundary : rows.getLast? = some last)
      (cache : cache = ⟨scanSpills .empty rows,rows.length,some last.seq⟩)

/-- The last entry a cache was read from is in the file. -/
theorem mem_of_scanned (h : Ages legacy newer s) {read more rows : List ChatMessage} {last : ChatMessage} {g : ℕ}
    (hnewer : newer = read ++ more) (hrows : Resident legacy (newerVisible c s legacy read g) rows)
    (hlast : rows.getLast? = some last) : last ∈ s.file := by
  rw [h.file]
  rcases List.mem_append.mp (hrows.subset (List.mem_of_getLast? hlast)) with hmem | hmem
  · exact List.mem_append_left _ hmem
  · rw [hnewer]
    exact List.mem_append_right _ (List.mem_append_left _ ((filterVisible_sublist _ _).subset hmem))

/-- A call returns what a scan from the start does. -/
theorem Tracks.map_eq (ht : Tracks c legacy newer s cache) (h : Ages legacy newer s) (hfront : FrontWhole c s) :
    (cache.spillSupersedeMap (s.activeBranchHistory c)).map = scanSpills .empty (s.activeBranchHistory c) := by
  cases hrebuild : cache.needsRebuild (s.activeBranchHistory c) with
  | true => exact SpillCache.map_of_needsRebuild hrebuild
  | false =>
    obtain ⟨hle,hboundary⟩ := SpillCache.needsRebuild_eq_false_iff.mp hrebuild
    cases ht with
    | unread count map => rw [SpillCache.map_of_kept hrebuild,map,count,List.drop_zero]
    | gone seq count boundary next absent =>
      have hsome := (hboundary count).trans boundary
      obtain ⟨m,hm,hseq⟩ := Option.map_eq_some_iff.mp hsome
      have hfile : m ∈ s.file := by
        rw [h.file]
        exact h.resident.subset ((filterVisible_sublist _ _).subset (List.mem_of_getElem? hm))
      exact absurd hseq (absent m hfile)
    | scanned read more rows last g hnewer position hvisible hlast hcache =>
      subst hcache
      have hpos : 0 < rows.length := List.length_pos_of_mem (List.mem_of_getLast? hlast)
      exact SpillCache.map_of_same hrebuild rfl
        (h.same_records hnewer hvisible (h.visible hfront) hlast (hboundary hpos))

/-- After a call the cache was read from what is visible. -/
theorem Tracks.supersedeMap (ht : Tracks c legacy newer s cache) (h : Ages legacy newer s) (hfront : FrontWhole c s) :
    Tracks c legacy newer s (cache.spillSupersedeMap (s.activeBranchHistory c)) := by
  have hmap := ht.map_eq h hfront
  cases hlast : (s.activeBranchHistory c).getLast? with
  | none =>
    have hnil := List.getLast?_eq_none_iff.mp hlast
    rw [hnil] at hmap ⊢
    exact .unread rfl hmap
  | some last =>
    apply Tracks.scanned newer [] (s.activeBranchHistory c) last (logHead s.stateLog) (List.append_nil newer).symm le_rfl
      (h.visible hfront) hlast
    rw [← hmap,← Option.map_some,← hlast]
    rfl

/-- What the cache was read from stays as it was while the file grows and the log goes on. -/
theorem Tracks.mono {newer' : List ChatMessage} (ht : Tracks c legacy newer s cache) (hnewer : newer <+: newer')
    (hnext : s.nextSeq ≤ t.nextSeq) (hlog : logHead s.stateLog ≤ logHead t.stateLog)
    (hactive : ∀ h ≤ logHead s.stateLog, activeAt t.stateLog c.key h = activeAt s.stateLog c.key h)
    (hfile : ∀ m ∈ t.file, m ∈ s.file ∨ s.nextSeq ≤ m.seq) : Tracks c legacy newer' t cache := by
  cases ht with
  | unread count map => exact .unread count map
  | gone seq count boundary next absent =>
    refine .gone seq count boundary (next.trans_le hnext) ?_
    intro m hm
    rcases hfile m hm with hold | hnew
    · exact absent m hold
    · exact (next.trans_le hnew).ne'
  | scanned read more rows last h hread position hvisible hlast hcache =>
    obtain ⟨added,rfl⟩ := hnewer
    refine .scanned read (more ++ added) rows last h (by rw [hread,List.append_assoc]) (position.trans hlog) ?_ hlast hcache
    rw [newerVisible,hactive h position]
    exact hvisible

/-- A cleared history has none of the entries the cache was read from. -/
theorem Tracks.clearHistory (ht : Tracks c legacy newer s cache) (h : Ages legacy newer s) : Tracks c [] [] s.clearHistory cache := by
  cases ht with
  | unread count map => exact .unread count map
  | gone seq count boundary next absent => exact .gone seq count boundary next (List.forall_mem_nil _)
  | scanned read more rows last g hnewer position hvisible hlast hcache =>
    subst hcache
    exact .gone last.seq (List.length_pos_of_mem (List.mem_of_getLast? hlast)) rfl
      (h.bounded last (mem_of_scanned h hnewer hvisible hlast)) (List.forall_mem_nil _)

def Inv (c : HistoryConfig) (w : SpillWorld) : Prop :=
  ∃ legacy newer, Ages legacy newer w.session ∧ Tracks c legacy newer w.session w.cache

/-- At a call the resident history shows what the file does. -/
def CallsWhole (c : HistoryConfig) (w : SpillWorld) (a : SpillAction) : Prop := a = .supersedeMap → FrontWhole c w.session

theorem Inv.step {w w' : SpillWorld} {a : SpillAction} (h : Inv c w) (ha : CallsWhole c w a) (hs : SpillWorld.step c w a = some w') :
    Inv c w' := by
  obtain ⟨legacy,newer,hages,htracks⟩ := h
  cases a with
  | append msg =>
    obtain ⟨hm,hs⟩ := Option.ite_none_right_eq_some.mp hs
    cases hs
    refine ⟨legacy,newer ++ [w.session.stamp msg],hages.append hm,htracks.mono (List.prefix_append _ _) ?_ le_rfl (fun _ _ => rfl) ?_⟩
    · rw [appendHistory_nextSeq hm]
      exact Nat.le_succ _
    · intro m hmem
      rcases List.mem_append.mp hmem with hmem | hmem
      · exact .inl hmem
      · right
        rw [List.mem_singleton.mp hmem,stamp_seq hm]
  | logged l =>
    obtain ⟨log,hlog,hs⟩ := Option.bind_eq_some_iff.mp hs
    split at hs
    · rename_i hl
      cases hs
      refine ⟨legacy,newer,hages.logged hlog hl,htracks.mono List.prefix_rfl le_rfl ?_ ?_ fun m hm => .inl hm⟩
      · rw [hlog]
        simpa [withLog,logHead] using hl.le
      · intro h hh
        rw [hlog] at hh ⊢
        exact activeAt_snoc hl hh
    · cases hs
  | evict count =>
    cases hs
    exact ⟨legacy,newer,hages.evict count,htracks.mono List.prefix_rfl le_rfl le_rfl (fun _ _ => rfl) fun m hm => .inl hm⟩
  | loadOlder minLines =>
    cases hs
    exact ⟨legacy,newer,hages.loadOlder minLines,htracks.mono List.prefix_rfl le_rfl le_rfl (fun _ _ => rfl) fun m hm => .inl hm⟩
  | clearHistory =>
    cases hs
    exact ⟨[],[],.cleared w.session,htracks.clearHistory hages⟩
  | supersedeMap =>
    cases hs
    exact ⟨legacy,newer,hages,htracks.supersedeMap hages (ha rfl)⟩

end SpillWorld
end Reyn
