import Reyn.Lib.Runs
import Reyn.Runtime.Compaction
import Reyn.Runtime.SessionHistory

/-! # A chat session and its history file

The file keeps every entry ever appended; the resident history is a final part of
it, cut by eviction and extended backward on demand. Appends, compaction passes,
recovery folds, entries of the write-ahead log and restarts, in any order.
-/
namespace Reyn
open Py TimeTravel Transition

/-- What is fixed for the life of a session. `weight` is what an entry costs while it is
resident, `lineBytes` the length of its line. -/
structure HistoryConfig where
  key : SessionKey
  weight : ChatMessage → ℕ
  maxBytes : ℕ
  lineBytes : ChatMessage → ℕ

def historyHydrateMinLines : ℕ := 200

def compactionBatchMaxBytes : ℕ := 8 * 1024 * 1024

/-- A persisted fold: its summary, and the entries the summarizer read, as they are or as
the previews of their spill records. -/
structure Fold where
  summary : ChatMessage
  inputs : List ChatMessage
  previews : List ChatMessage

/-- `folds` accounts for the summaries of the file; the session itself does not keep it. -/
structure ChatSession where
  file : List ChatMessage
  history : List ChatMessage
  nextSeq : ℕ
  stateLog : Option Wal
  untrustedTaintActive : Bool
  inFlightUntrusted : Bool
  maxEvictedUntrustedSeq : ℕ
  loadTruncatedUnsafe : Bool
  folds : List Fold

/-- What one call of the summarizer comes to: a summary, an overflow after which entries may
be spilled, or a failure the pass does not survive. -/
inductive CompactAttempt where
  | summarized
  | overflowed (edited : Bool) (records : List ChatMessage)
  | failed

inductive ChatAction where
  | append (msg : ChatMessage)
  /-- A new entry of the write-ahead log: a rewind, or anything else. -/
  | logged (l : WalLine)
  | markInFlight
  | startTurn
  | loadOlder (minLines : ℕ)
  | forceCompact (budgets : CompactionBudgets) (selection : Selection) (protectSeqGte : Option ℕ)
      (attempts : List CompactAttempt) (content : Json)
  | persistRecovery (folded spilled : List ChatMessage) (content : Json)
  | restart

namespace ChatSession

def start (stateLog : Option Wal) : ChatSession := ⟨[],[],1,stateLog,false,false,0,false,[]⟩

/-- Whether an anchor is on the active branch. -/
def anchorActive (stateLog : Option Wal) (key : SessionKey) : Option ℕ → Bool
  | none => true
  | some a => stateLog.all fun w => w.isActive (some key) a

section Session
variable (c : HistoryConfig)

def activeBranch (s : ChatSession) (lines : List ChatMessage) : List ChatMessage :=
  filterVisibleOnActiveBranch (anchorActive s.stateLog c.key) none lines

/-- `_active_branch_history`, without its backward extension: that is a `loadOlder`. -/
def activeBranchHistory (s : ChatSession) : List ChatMessage := s.activeBranch c s.history

/-! ## Appending -/

/-- The coordinates an entry gets when it is appended. -/
def stamp (s : ChatSession) (msg : ChatMessage) : ChatMessage :=
  { msg with
    seq := if msg.seq = 0 then s.nextSeq else msg.seq
    walSeq := msg.walSeq.or (s.stateLog.map (·.head)) }

/-- `_evict_oldest_resident_entries`: how many entries go; the newest one never does. -/
def evictCount : List ChatMessage → ℕ
  | [] => 0
  | [_] => 0
  | m :: m' :: rest => if c.maxBytes < ((m :: m' :: rest).map c.weight).sum then evictCount (m' :: rest) + 1 else 0

def latchEvicted (latch : ℕ) (evicted : List ChatMessage) : ℕ :=
  evicted.foldl (fun latch m => if m.untrusted then max latch m.seq else latch) latch

/-- `_recompute_untrusted_taint_active` -/
def recomputeTaint (history : List ChatMessage) : Bool := (history.filter (stillActive history)).any (·.untrusted)

/-- The resident entries after an append. -/
def resident (history : List ChatMessage) : List ChatMessage := history.drop (evictCount c history)

/-- `_append_history` with its write, its eviction and its taint update. -/
def appendHistory (s : ChatSession) (msg : ChatMessage) : ChatSession :=
  { s with
    file := s.file ++ [s.stamp msg]
    history := resident c (s.history ++ [s.stamp msg])
    nextSeq := if msg.seq = 0 then s.nextSeq + 1 else s.nextSeq
    maxEvictedUntrustedSeq := latchEvicted s.maxEvictedUntrustedSeq
      ((s.history ++ [s.stamp msg]).take (evictCount c (s.history ++ [s.stamp msg])))
    untrustedTaintActive := if msg.role = .summary then recomputeTaint (resident c (s.history ++ [s.stamp msg]))
      else s.untrustedTaintActive || msg.untrusted }

def appendAll (s : ChatSession) (records : List ChatMessage) : ChatSession := records.foldl (appendHistory c) s

def recordFold (s : ChatSession) (f : Fold) : ChatSession := { s with folds := s.folds ++ [f] }

/-- `_make_summary_message` -/
def summaryMessage (content : Json) (coversFrom coversThrough : ℕ) : ChatMessage :=
  { role := .summary, content := content, seq := 0, toolCalls := false, disclosure := none, walSeq := none,
    untrusted := false, coversFromSeq := some coversFrom, coversThroughSeq := coversThrough, spillTarget := none }

/-- A summary is appended, and accounted for. -/
def persistSummary (s : ChatSession) (msg : ChatMessage) (inputs previews : List ChatMessage) : ChatSession :=
  (s.appendHistory c msg).recordFold ⟨s.stamp msg,inputs,previews⟩

/-! ## Reading the file -/

/-- A batch of lines: the first one whatever its length. -/
def takeBatch (started : Bool) (total : ℕ) : List ChatMessage → List ChatMessage
  | [] => []
  | m :: rest =>
    if started && compactionBatchMaxBytes < total + c.lineBytes m then []
    else m :: takeBatch true (total + c.lineBytes m) rest

/-- `read_history_after_segmented` -/
def readHistoryAfter (file : List ChatMessage) (afterSeq : ℕ) : List ChatMessage :=
  takeBatch c false 0 (file.filter fun m => m.seq = 0 || afterSeq < m.seq)

/-- `read_history_before_segmented` -/
def readHistoryBefore (file : List ChatMessage) (beforeSeq minLines : ℕ) : List ChatMessage :=
  ((file.filter fun m => m.seq < beforeSeq).reverse.take (max minLines 1)).reverse

/-- `read_history_tail_with_byte_budget_segmented` on the lines from the last one, and
whether it stopped before a summary. -/
def collectTail (count bytes : ℕ) (seenSummary : Bool) : List ChatMessage → List ChatMessage × Bool
  | [] => ([],false)
  | m :: rest =>
    if historyHydrateMinLines ≤ count + 1 && (seenSummary || m.role == .summary) then ([m],false)
    else if c.maxBytes ≤ bytes + c.lineBytes m then ([m],!(seenSummary || m.role == .summary))
    else
      (m :: (collectTail (count + 1) (bytes + c.lineBytes m) (seenSummary || m.role == .summary) rest).1,
        (collectTail (count + 1) (bytes + c.lineBytes m) (seenSummary || m.role == .summary) rest).2)

/-- The entries a new process hydrates, and whether the read was cut before a summary. -/
def hydrated (file : List ChatMessage) : List ChatMessage × Bool :=
  if (file.getLast?.map (·.seq)).getD 0 = 0 then (file,false)
  else ((collectTail c 0 0 false file.reverse).1.reverse,(collectTail c 0 0 false file.reverse).2)

/-- The counter of a new process: behind the last line, or the highest of all. -/
def nextSeqAfterLoad (file : List ChatMessage) : ℕ :=
  if (file.getLast?.map (·.seq)).getD 0 = 0 then (file.map (·.seq)).foldl max 0 + 1
  else (file.getLast?.map (·.seq)).getD 0 + 1

/-- A new process after `load_history` -/
def restarted (s : ChatSession) : ChatSession :=
  { s with
    history := (hydrated c s.file).1
    nextSeq := nextSeqAfterLoad s.file
    untrustedTaintActive := recomputeTaint (hydrated c s.file).1
    inFlightUntrusted := false
    maxEvictedUntrustedSeq := 0
    loadTruncatedUnsafe := (hydrated c s.file).2 }

/-- `_load_older_entries` -/
def loadOlderEntries (s : ChatSession) (minLines : ℕ) : ChatSession :=
  { s with history := readHistoryBefore s.file ((s.history.head?.map (·.seq)).getD 0) minLines ++ s.history }

/-! ## Folding -/

/-- How far the latest summary in memory reaches. -/
def prevCover (s : ChatSession) : ℕ := compactionWatermark s.history

/-- The input of a pass: `_durable_active_history_after`, and of it what is eligible. -/
def eligibleMessages (s : ChatSession) : List ChatMessage :=
  (s.activeBranch c (readHistoryAfter c s.file s.prevCover)).filter (·.isCompactionEligible)

/-- The entries do not start right behind the previous summary. -/
def inputGap (s : ChatSession) : Bool :=
  match ((s.eligibleMessages c).filter (0 < ·.seq)).map (·.seq) with
  | [] => false
  | first :: rest => s.prevCover + 1 < rest.foldl min first

/-- Whether `force_compact_now` gets as far as its selection. -/
def selects (s : ChatSession) : Bool :=
  !((latestSummary s.history).isNone && s.loadTruncatedUnsafe) && !(s.inputGap c)

/-- The loop of `_run_compaction` over the outcomes of its calls: the session with the spill
records of its attempts, and how many candidates the call that succeeded was offered. -/
def runCompaction (previous : ℕ) (s : ChatSession) (attemptLen : ℕ) : List CompactAttempt → ChatSession × Option ℕ
  | [] => (s,none)
  | .summarized :: _ => (s,some (attemptLen - previous))
  | .failed :: _ => (s,none)
  | .overflowed edited records :: rest =>
    if edited then runCompaction previous (s.appendAll c records) attemptLen rest
    else if attemptLen ≤ 1 then (s.appendAll c records,none)
    else runCompaction previous (s.appendAll c records) (max (attemptLen / 2) 1) rest

/-- The range a pass records: up to the last candidate offered, or the first one where none was. -/
def coversThrough (first : ChatMessage) (candidates : List ChatMessage) (offered : ℕ) : ℕ :=
  ((candidates.take offered).getLast?.map (·.seq)).getD first.seq

def candidates (s : ChatSession) (budgets : CompactionBudgets) (selection : Selection) (protectSeqGte : Option ℕ) :
    List ChatMessage :=
  if s.selects c then Compaction.measureAndSelect budgets (s.eligibleMessages c) s.prevCover selection protectSeqGte else []

/-- `force_compact_now` -/
def forceCompactNow (s : ChatSession) (budgets : CompactionBudgets) (selection : Selection) (protectSeqGte : Option ℕ)
    (attempts : List CompactAttempt) (content : Json) : ChatSession :=
  match s.candidates c budgets selection protectSeqGte with
  | [] => s
  | first :: rest =>
    match runCompaction c (latestSummary s.history).toList.length s
        ((latestSummary s.history).toList.length + (first :: rest).length) attempts with
    | (s',none) => s'
    | (s',some offered) =>
      s'.persistSummary c (summaryMessage content first.seq (coversThrough first (first :: rest) offered))
        ((latestSummary s.history).toList ++ (first :: rest).take offered) []

/-- `_persist_recovery_fold`: how far the turns folded as they are reach. A spilled turn has
lost its coordinate, and a summary has none to contribute. -/
def recoveryCoversThrough (folded : List ChatMessage) : ℕ :=
  ((folded.filter fun m => m.role ≠ .summary).map (·.seq)).foldl max 0

/-- `persist_recovery_summary` -/
def persistRecoverySummary (s : ChatSession) (folded spilled : List ChatMessage) (content : Json) : ChatSession :=
  if recoveryCoversThrough folded ≤ s.prevCover then s
  else s.persistSummary c (summaryMessage content (s.prevCover + 1) (recoveryCoversThrough folded)) folded spilled

/-! ## Runs -/

/-- An entry as its producer hands it over. -/
def Fresh (msg : ChatMessage) : Prop := msg.seq = 0 ∧ msg.walSeq = none ∧ msg.role ≠ .summary

instance (msg : ChatMessage) : Decidable (Fresh msg) := inferInstanceAs (Decidable (_ ∧ _ ∧ _))

/-- The spill records of an attempt are fresh entries too. -/
def FreshAttempt : CompactAttempt → Prop
  | .overflowed _ records => ∀ r ∈ records, r.role = .spillRecord ∧ Fresh r
  | _ => True

instance (a : CompactAttempt) : Decidable (FreshAttempt a) :=
  match a with
  | .overflowed _ records => inferInstanceAs (Decidable (∀ r ∈ records, r.role = .spillRecord ∧ Fresh r))
  | .summarized => inferInstanceAs (Decidable True)
  | .failed => inferInstanceAs (Decidable True)

/-- What a recovery folds: turns of its decomposition, so entries of the file, those
spilled on the way with the later record that stands for them. -/
def Recoverable (s : ChatSession) (folded spilled : List ChatMessage) : Prop :=
  (∀ m ∈ folded ++ spilled, m ∈ s.file ∧ m.isCompactionEligibleIncludingSummary = true) ∧
    ∀ m ∈ spilled, ∃ r ∈ s.activeBranchHistory c, r.supersedes m = true ∧ m.seq < r.seq

instance (s : ChatSession) (folded spilled : List ChatMessage) : Decidable (s.Recoverable c folded spilled) :=
  inferInstanceAs (Decidable (_ ∧ _))

def withLog (s : ChatSession) (w : Wal) : ChatSession := { s with stateLog := some w }

def step (s : ChatSession) : ChatAction → Option ChatSession
  | .append msg => if Fresh msg then some (s.appendHistory c msg) else none
  | .logged l => s.stateLog.bind fun w => if h : w.head < l.seq then some (s.withLog (w.snoc l h)) else none
  | .markInFlight => some { s with inFlightUntrusted := true }
  | .startTurn => some { s with inFlightUntrusted := false }
  | .loadOlder minLines => some (s.loadOlderEntries minLines)
  | .forceCompact budgets selection protectSeqGte attempts content =>
    if ∀ a ∈ attempts, FreshAttempt a then some (s.forceCompactNow c budgets selection protectSeqGte attempts content)
    else none
  | .persistRecovery folded spilled content =>
    if s.Recoverable c folded spilled then some (s.persistRecoverySummary c folded spilled content) else none
  | .restart => some (s.restarted c)

end Session

section Lemmas
variable {c : HistoryConfig} {s t : ChatSession} {msg : ChatMessage}

theorem resident_suffix (history : List ChatMessage) : resident c history <:+ history := List.drop_suffix _ _

theorem evictCount_lt {history : List ChatMessage} (h : history ≠ []) : evictCount c history < history.length := by
  induction history with
  | nil => exact absurd rfl h
  | cons m rest ih =>
    cases rest with
    | nil => exact Nat.one_pos
    | cons m' rest =>
      rw [evictCount]
      split
      · have := ih (List.cons_ne_nil m' rest)
        simp only [List.length_cons] at this ⊢
        omega
      · exact Nat.succ_pos _

/-- The newest entry stays. -/
theorem resident_concat (history : List ChatMessage) (m : ChatMessage) :
    ∃ kept, kept <:+ history ∧ resident c (history ++ [m]) = kept ++ [m] := by
  have hlt := evictCount_lt (c := c) (List.append_ne_nil_of_right_ne_nil history (List.cons_ne_nil m []))
  rw [List.length_append,List.length_singleton] at hlt
  refine ⟨history.drop (evictCount c (history ++ [m])),List.drop_suffix _ _,?_⟩
  rw [resident,List.drop_append_of_le_length (by omega)]

theorem takeBatch_isPrefix (started : Bool) (total : ℕ) (lines : List ChatMessage) : takeBatch c started total lines <+: lines := by
  induction lines generalizing started total with
  | nil => exact List.prefix_rfl
  | cons m rest ih =>
    rw [takeBatch]
    split
    · exact List.nil_prefix
    · exact List.cons_prefix_cons.mpr ⟨rfl,ih _ _⟩

theorem collectTail_isPrefix (count bytes : ℕ) (seenSummary : Bool) (lines : List ChatMessage) :
    (collectTail c count bytes seenSummary lines).1 <+: lines := by
  induction lines generalizing count bytes seenSummary with
  | nil => exact List.prefix_rfl
  | cons m rest ih =>
    rw [collectTail]
    split
    · exact List.prefix_append [m] rest
    · split
      · exact List.prefix_append [m] rest
      · exact List.cons_prefix_cons.mpr ⟨rfl,ih _ _ _⟩

theorem hydrated_suffix (file : List ChatMessage) : (hydrated c file).1 <:+ file := by
  rw [hydrated]
  split
  · exact List.suffix_rfl
  · have h := List.reverse_suffix.mpr (collectTail_isPrefix (c := c) 0 0 false file.reverse)
    rwa [List.reverse_reverse] at h

/-- A pass appends nothing but spill records before its summary. -/
theorem runCompaction_appends (previous : ℕ) (attempts : List CompactAttempt) (s : ChatSession) (attemptLen : ℕ) :
    ∃ records : List ChatMessage, (runCompaction c previous s attemptLen attempts).1 = s.appendAll c records ∧
      ((∀ a ∈ attempts, FreshAttempt a) → ∀ r ∈ records, r.role = .spillRecord ∧ Fresh r) := by
  induction attempts generalizing s attemptLen with
  | nil => exact ⟨[],rfl,by simp⟩
  | cons a rest ih =>
    cases a with
    | summarized => exact ⟨[],rfl,by simp⟩
    | failed => exact ⟨[],rfl,by simp⟩
    | overflowed edited records =>
      have hlater : ∀ len, ∃ records' : List ChatMessage,
          (runCompaction c previous (s.appendAll c records) len rest).1 = s.appendAll c records' ∧
          ((∀ a ∈ CompactAttempt.overflowed edited records :: rest, FreshAttempt a) →
            ∀ r ∈ records', r.role = .spillRecord ∧ Fresh r) := by
        intro len
        obtain ⟨more,hmore,hfresh⟩ := ih (s.appendAll c records) len
        refine ⟨records ++ more,?_,fun h r hr => ?_⟩
        · rw [hmore,appendAll,appendAll,appendAll,List.foldl_append]
        · rcases List.mem_append.mp hr with hr | hr
          · exact h _ List.mem_cons_self r hr
          · exact hfresh (fun a ha => h a (List.mem_cons_of_mem _ ha)) r hr
      rw [runCompaction]
      split
      · exact hlater attemptLen
      · split
        · exact ⟨records,rfl,fun h => h _ List.mem_cons_self⟩
        · exact hlater _

end Lemmas
end ChatSession
end Reyn
