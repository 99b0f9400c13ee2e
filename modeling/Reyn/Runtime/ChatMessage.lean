import Reyn.Lib.Json
import Reyn.Lib.KeyedLog

/-! # Entries of a conversation

An entry of the chat history with the metadata its readers look at, and the two
filters between the history and the wire: the branch filter, which takes a tool
cycle as a unit, and the coverage filter of the latest summary.
-/
namespace Reyn
open Py

inductive ChatRole where
  | user
  | assistant
  | tool
  | system
  | summary
  | spillRecord
  deriving DecidableEq

inductive Disclosure where
  | internal
  | operator
  | model
  deriving DecidableEq

/-- `seq` is zero until a coordinate is assigned; the fields from `walSeq` on are kept in `meta`. -/
structure ChatMessage where
  role : ChatRole
  content : Json
  seq : ℕ
  toolCalls : Bool
  disclosure : Option Disclosure
  walSeq : Option ℕ
  untrusted : Bool
  coversFromSeq : Option ℕ
  coversThroughSeq : ℕ
  /-- The text a spill record supersedes, kept as its hash. -/
  spillTarget : Option String
  deriving DecidableEq

namespace ChatMessage

def isModelVisible (m : ChatMessage) : Bool := m.role == .system && m.disclosure == some .model

def isCompactionEligible (m : ChatMessage) : Bool :=
  m.role == .user || m.role == .assistant || m.role == .tool || m.isModelVisible

def isCompactionEligibleIncludingSummary (m : ChatMessage) : Bool := m.isCompactionEligible || m.role == .summary

/-- An assistant entry that opens a tool cycle. -/
def opensCycle (m : ChatMessage) : Bool := m.role == .assistant && m.toolCalls

/-- The anchor of the cycle that is open behind the entry, unless it continues one. -/
def nextCycle (m : ChatMessage) : Option (Option ℕ) := if m.opensCycle then some m.walSeq else none

theorem not_isCompactionEligible_of_summary {m : ChatMessage} (h : m.role = .summary) :
    m.isCompactionEligible = false := by
  simp [isCompactionEligible,isModelVisible,h]

end ChatMessage

/-! ## The coverage filter -/

def isSeqStillActive (seq : ℕ) (coversFrom : Option ℕ) (coversThrough : ℕ) : Bool :=
  seq == 0 || coversThrough == 0 || match coversFrom with
    | none => true
    | some first => !(first ≤ seq && seq ≤ coversThrough)

def compactionCoverageFromSummary : Option ChatMessage → Option ℕ × ℕ
  | none => (none,0)
  | some m => (m.coversFromSeq,m.coversThroughSeq)

/-- `_latest_summary` -/
def latestSummary (history : List ChatMessage) : Option ChatMessage := history.reverse.find? fun m => m.role == .summary

def compactionCoverage (history : List ChatMessage) : Option ℕ × ℕ :=
  compactionCoverageFromSummary (latestSummary history)

def compactionWatermark (history : List ChatMessage) : ℕ := (compactionCoverage history).2

/-- `_apply_watermark_filter` with the coverage of the history itself. -/
def stillActive (history : List ChatMessage) (m : ChatMessage) : Bool :=
  isSeqStillActive m.seq (compactionCoverage history).1 (compactionCoverage history).2

/-- Whether the entry is a spill record for the text of the turn. -/
def ChatMessage.supersedes (r m : ChatMessage) : Bool :=
  r.role == .spillRecord && match m.content with
    | .str text => r.spillTarget == some text
    | _ => false

theorem isSeqStillActive_eq_false_iff {seq through : ℕ} {first : Option ℕ} :
    isSeqStillActive seq first through = false ↔ 0 < seq ∧ 0 < through ∧ ∃ f, first = some f ∧ f ≤ seq ∧ seq ≤ through := by
  cases first with
  | none => simp [isSeqStillActive]
  | some f => simp [isSeqStillActive,Nat.pos_iff_ne_zero,and_assoc]

/-- A turn the coverage hides lies in the range the latest summary names. -/
theorem stillActive_eq_false_iff {history : List ChatMessage} {m : ChatMessage} :
    stillActive history m = false ↔ 0 < m.seq ∧ ∃ summary first, latestSummary history = some summary ∧
      summary.coversFromSeq = some first ∧ first ≤ m.seq ∧ m.seq ≤ summary.coversThroughSeq := by
  rw [stillActive,isSeqStillActive_eq_false_iff,compactionCoverage]
  cases hs : latestSummary history with
  | none => simp [compactionCoverageFromSummary]
  | some summary =>
    simp only [compactionCoverageFromSummary,Option.some.injEq]
    constructor
    · rintro ⟨hpos,-,first,hf,hlo,hhi⟩
      exact ⟨hpos,summary,first,rfl,hf,hlo,hhi⟩
    · rintro ⟨hpos,_,first,rfl,hf,hlo,hhi⟩
      exact ⟨hpos,hpos.trans_le hhi,first,hf,hlo,hhi⟩

theorem latestSummary_spec {history : List ChatMessage} {summary : ChatMessage} (h : latestSummary history = some summary) :
    summary ∈ history ∧ summary.role = .summary := by
  refine ⟨List.mem_reverse.mp (List.mem_of_find?_eq_some h),?_⟩
  simpa using List.find?_some h

theorem latestSummary_concat_summary {history : List ChatMessage} {m : ChatMessage} (h : m.role = .summary) :
    latestSummary (history ++ [m]) = some m := by simp [latestSummary,h]

theorem latestSummary_concat {history : List ChatMessage} {m : ChatMessage} (h : m.role ≠ .summary) :
    latestSummary (history ++ [m]) = latestSummary history := by simp [latestSummary,h]

/-- What comes in front of a history with a summary leaves the latest one as it is. -/
theorem latestSummary_append {older history : List ChatMessage} {summary : ChatMessage}
    (h : latestSummary history = some summary) : latestSummary (older ++ history) = some summary := by
  rw [latestSummary] at h
  rw [latestSummary,List.reverse_append,List.find?_append,h,Option.some_or]

theorem latestSummary_eq_none {history : List ChatMessage} :
    latestSummary history = none ↔ ∀ m ∈ history, m.role ≠ .summary := by
  simp [latestSummary]

/-- Where the sequence numbers increase, the latest summary is the one with the highest. -/
theorem latestSummary_eq_some_iff {history : List ChatMessage} (hinc : history.Pairwise (·.seq < ·.seq))
    {summary : ChatMessage} : latestSummary history = some summary ↔ summary ∈ history ∧ summary.role = .summary ∧
      ∀ m ∈ history, m.role = .summary → m.seq ≤ summary.seq := by
  have hlast : latestSummary history = (history.filter fun m => m.role == .summary).getLast? := by
    rw [latestSummary,← List.head?_filter,List.filter_reverse,List.head?_reverse]
  have hinc' := hinc.sublist (List.filter_sublist (p := fun m : ChatMessage => m.role == .summary))
  have hmem : ∀ {m : ChatMessage}, m ∈ history → m.role = .summary → m ∈ history.filter fun m => m.role == .summary :=
    fun hm hrole => List.mem_filter.mpr ⟨hm,beq_iff_eq.mpr hrole⟩
  constructor
  · intro h
    obtain ⟨hs,hrole⟩ := latestSummary_spec h
    rw [hlast] at h
    refine ⟨hs,hrole,fun m hm hm' => ?_⟩
    rcases KeyedLog.eq_or_lt_getLast hinc' h (hmem hm hm') with rfl | hlt
    · exact le_rfl
    · exact hlt.le
  · rintro ⟨hs,hrole,hmax⟩
    obtain ⟨last,hsome⟩ := Option.isSome_iff_exists.mp
      (List.getLast?_isSome.mpr (List.ne_nil_of_mem (hmem hs hrole)))
    rw [hlast,hsome]
    rcases KeyedLog.eq_or_lt_getLast hinc' hsome (hmem hs hrole) with rfl | hlt
    · rfl
    · obtain ⟨hl,hl'⟩ := List.mem_filter.mp (List.mem_of_getLast? hsome)
      exact absurd (hmax last hl (beq_iff_eq.mp hl')) (Nat.not_le_of_lt hlt)

/-- The latest summary is that of every part it is in. -/
theorem latestSummary_of_sublist {lines history : List ChatMessage} (hinc : history.Pairwise (·.seq < ·.seq))
    (hsub : lines.Sublist history) {summary : ChatMessage} (hs : latestSummary history = some summary)
    (hm : summary ∈ lines) : latestSummary lines = some summary := by
  obtain ⟨-,hrole,hmax⟩ := (latestSummary_eq_some_iff hinc).mp hs
  exact (latestSummary_eq_some_iff (hinc.sublist hsub)).mpr ⟨hm,hrole,fun m hm hm' => hmax m (hsub.subset hm) hm'⟩

/-! ## The branch filter -/

section Branch
variable (isActive : Option ℕ → Bool)

/-- `_filter_visible_on_active_branch`; `cycle` is the anchor of the open tool cycle, when one is open. -/
def filterVisibleOnActiveBranch (cycle : Option (Option ℕ)) : List ChatMessage → List ChatMessage
  | [] => []
  | m :: rest =>
    match (if m.role = .tool then cycle else none) with
    | some anchor =>
      if isActive anchor then m :: filterVisibleOnActiveBranch cycle rest else filterVisibleOnActiveBranch cycle rest
    | none =>
      if isActive m.walSeq then m :: filterVisibleOnActiveBranch m.nextCycle rest
      else filterVisibleOnActiveBranch m.nextCycle rest

end Branch

/-- Within the file `a` decides whether `m` is visible: it is `m` itself, or opens the tool cycle `m` is in. -/
def Governs (file : List ChatMessage) (a m : ChatMessage) : Prop :=
  a = m ∧ m ∈ file ∨ a.opensCycle = true ∧ m.role = .tool ∧
    ∃ results, (∀ r ∈ results, r.role = .tool) ∧ a :: results ++ [m] <:+: file

theorem Governs.mono {file file' : List ChatMessage} {a m : ChatMessage} (h : Governs file a m) (hf : file <:+: file') :
    Governs file' a m := by
  rcases h with ⟨rfl,hm⟩ | ⟨ha,hm,results,hr,hi⟩
  · exact .inl ⟨rfl,hf.subset hm⟩
  · exact .inr ⟨ha,hm,results,hr,hi.trans hf⟩

theorem Governs.mem {file : List ChatMessage} {a m : ChatMessage} (h : Governs file a m) : a ∈ file ∧ m ∈ file := by
  rcases h with ⟨rfl,hm⟩ | ⟨-,-,results,-,hi⟩
  · exact ⟨hm,hm⟩
  · exact ⟨hi.subset (by simp),hi.subset (by simp)⟩

/-- Who governs an entry of the file is decided by what comes before the entry. -/
theorem Governs.of_concat {file : List ChatMessage} {x a m : ChatMessage} (h : Governs (file ++ [x]) a m) (hm : m ≠ x) :
    Governs file a m := by
  rcases h with ⟨rfl,hmem⟩ | ⟨ha,ht,results,hr,hi⟩
  · refine .inl ⟨rfl,?_⟩
    simpa [hm] using hmem
  · refine .inr ⟨ha,ht,results,hr,?_⟩
    rcases List.infix_concat_iff.mp hi with hs | hi
    · obtain ⟨front,hfront⟩ := hs
      have hlast := congrArg List.getLast? hfront
      rw [← List.append_assoc,List.getLast?_concat,List.getLast?_concat] at hlast
      exact absurd (Option.some.inj hlast) hm
    · exact hi

/-- The anchor is that of a cycle the entries in front have opened. -/
def OpenCycle (front : List ChatMessage) (cycle : Option (Option ℕ)) : Prop :=
  ∀ anchor, cycle = some anchor → ∃ earlier a results, front = earlier ++ a :: results ∧ a.opensCycle = true ∧
    a.walSeq = anchor ∧ ∀ r ∈ results, r.role = .tool

namespace OpenCycle
variable {front rest : List ChatMessage} {anchor : Option ℕ} {x : ChatMessage}

theorem none (front : List ChatMessage) : OpenCycle front .none := by rintro anchor ⟨⟩

theorem result (h : OpenCycle front (some anchor)) (hx : x.role = .tool) : OpenCycle (front ++ [x]) (some anchor) := by
  rintro _ ⟨⟩
  obtain ⟨earlier,a,results,rfl,ha,hanchor,hresults⟩ := h anchor rfl
  refine ⟨earlier,a,results ++ [x],by simp,ha,hanchor,?_⟩
  intro r hr
  rcases List.mem_append.mp hr with hr | hr
  · exact hresults r hr
  · rw [List.mem_singleton.mp hr]
    exact hx

theorem next (front : List ChatMessage) (x : ChatMessage) :
    OpenCycle (front ++ [x]) x.nextCycle := by
  intro anchor hopen
  obtain ⟨ha,he⟩ := Option.ite_none_right_eq_some.mp hopen
  exact ⟨front,x,[],rfl,ha,Option.some.inj he,by simp⟩

theorem governs (h : OpenCycle front (some anchor)) (hx : x.role = .tool) :
    ∃ a, Governs (front ++ x :: rest) a x ∧ a.walSeq = anchor := by
  obtain ⟨earlier,a,results,rfl,ha,hanchor,hresults⟩ := h anchor rfl
  exact ⟨a,.inr ⟨ha,hx,results,hresults,earlier,rest,by simp⟩,hanchor⟩

end OpenCycle

section Branch
variable {isActive : Option ℕ → Bool}

theorem filterVisible_sublist (cycle : Option (Option ℕ)) (lines : List ChatMessage) :
    (filterVisibleOnActiveBranch isActive cycle lines).Sublist lines := by
  induction lines generalizing cycle with
  | nil => exact List.Sublist.refl _
  | cons x rest ih =>
    rw [filterVisibleOnActiveBranch]
    split <;> split
    · exact (ih _).cons_cons x
    · exact (ih _).cons x
    · exact (ih _).cons_cons x
    · exact (ih _).cons x

/-- The filter looks at the anchors of its entries, and at that of the open cycle. -/
theorem filterVisible_congr {isActive' : Option ℕ → Bool} {cycle : Option (Option ℕ)} {lines : List ChatMessage}
    (hcycle : ∀ anchor, cycle = some anchor → isActive anchor = isActive' anchor)
    (h : ∀ m ∈ lines, isActive m.walSeq = isActive' m.walSeq) :
    filterVisibleOnActiveBranch isActive cycle lines = filterVisibleOnActiveBranch isActive' cycle lines := by
  induction lines generalizing cycle with
  | nil => rfl
  | cons x rest ih =>
    have hrest := fun m hm => h m (List.mem_cons_of_mem _ hm)
    have hx := h x List.mem_cons_self
    rw [filterVisibleOnActiveBranch,filterVisibleOnActiveBranch]
    split
    · rename_i anchor hopen
      obtain ⟨-,rfl⟩ := Option.ite_none_right_eq_some.mp hopen
      rw [hcycle anchor rfl,ih hcycle hrest]
    · rw [hx,ih ?_ hrest]
      intro anchor hnext
      obtain ⟨-,hanchor⟩ := Option.ite_none_right_eq_some.mp hnext
      rw [← Option.some.inj hanchor]
      exact hx

/-- What is visible has an active governor. -/
theorem governs_of_mem_filterVisible {front lines : List ChatMessage} {cycle : Option (Option ℕ)} {m : ChatMessage}
    (hcycle : OpenCycle front cycle) (h : m ∈ filterVisibleOnActiveBranch isActive cycle lines) :
    ∃ a, Governs (front ++ lines) a m ∧ isActive a.walSeq = true := by
  induction lines generalizing front cycle with
  | nil => simp [filterVisibleOnActiveBranch] at h
  | cons x rest ih =>
    rw [filterVisibleOnActiveBranch] at h
    split at h
    · rename_i anchor hopen
      obtain ⟨htool,rfl⟩ := Option.ite_none_right_eq_some.mp hopen
      have hrest := fun h => List.append_cons front x rest ▸ ih (hcycle.result htool) h
      split at h
      · rename_i hact
        rcases List.mem_cons.mp h with rfl | h
        · obtain ⟨a,hgov,rfl⟩ := hcycle.governs htool
          exact ⟨a,hgov,hact⟩
        · exact hrest h
      · exact hrest h
    · have hrest := fun h => List.append_cons front x rest ▸ ih (.next front x) h
      split at h
      · rename_i hact
        rcases List.mem_cons.mp h with rfl | h
        · exact ⟨m,.inl ⟨rfl,by simp⟩,hact⟩
        · exact hrest h
      · exact hrest h

/-- An entry all of whose governors are active is visible. -/
theorem mem_filterVisible_of_governs {front lines : List ChatMessage} {cycle : Option (Option ℕ)} {m : ChatMessage}
    (hcycle : OpenCycle front cycle) (hm : m ∈ lines)
    (h : ∀ a, Governs (front ++ lines) a m → isActive a.walSeq = true) :
    m ∈ filterVisibleOnActiveBranch isActive cycle lines := by
  induction lines generalizing front cycle with
  | nil => cases hm
  | cons x rest ih =>
    rw [filterVisibleOnActiveBranch]
    split
    · rename_i anchor hopen
      obtain ⟨htool,rfl⟩ := Option.ite_none_right_eq_some.mp hopen
      rcases List.mem_cons.mp hm with rfl | hrest
      · obtain ⟨a,hgov,rfl⟩ := hcycle.governs htool
        rw [if_pos (h a hgov)]
        exact List.mem_cons_self
      · have hnext := ih (hcycle.result htool) hrest (List.append_cons front x rest ▸ h)
        split
        · exact List.mem_cons_of_mem _ hnext
        · exact hnext
    · rcases List.mem_cons.mp hm with rfl | hrest
      · rw [if_pos (h m (.inl ⟨rfl,by simp⟩))]
        exact List.mem_cons_self
      · have hnext := ih (.next front x) hrest (List.append_cons front x rest ▸ h)
        split
        · exact List.mem_cons_of_mem _ hnext
        · exact hnext

end Branch
end Reyn
