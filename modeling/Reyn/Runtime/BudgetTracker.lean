import Reyn.Lib.Dict
import Reyn.Lib.Runs
import Reyn.Runtime.BudgetLedger

/-! # The budget tracker and its files

The ledger holds every call; the checkpoint holds the totals at a position of the ledger,
pinned by a hash of the line that ends there and of the first line. A start reads the
tail of the ledger when the position still holds, and otherwise the whole ledger. Costs
are sums of floating-point numbers and are left out.
-/
namespace Reyn
open Py

/-- `hashlib.sha256(b).hexdigest()`, the local time zone, and `int` of a floating-point value;
`none` for an infinity and for no number. -/
structure Host where
  sha256 : Bytes → String
  zone : ℤ → ℤ
  truncate : FloatLit → Option ℤ

/-- A `defaultdict(int)` -/
abbrev Counter := Dict String ℤ

namespace Counter
variable (d : Counter) (a : String)

def total : ℤ := (d.get? a).getD 0

def add (n : ℤ) : Counter := d.set a (Counter.total d a + n)

/-- Raise every counter to at least the floor's. -/
def floorMerge (floor : Counter) : Counter :=
  floor.items.foldl (fun d p => if Counter.total d p.1 < p.2 then d.set p.1 p.2 else d) d

/-- The merge of `load_state`. -/
def loadState (saved : Counter) : Counter :=
  saved.items.foldl (fun d p => d.set p.1 (max (Counter.total d p.1) p.2)) d

end Counter

inductive AnchorStatus where
  | valid
  | truncated
  | missing
  | identityAbsent
  | invalid
  deriving DecidableEq

def AnchorStatus.floors : AnchorStatus → Bool
  | .truncated | .missing | .identityAbsent => true
  | .valid | .invalid => false

structure BudgetCheckpoint where
  agentTokens : Counter
  dayKey : Option String
  dailyTokens : ℤ
  monthKey : Option String
  monthlyTokens : ℤ
  anchorByteOffset : ℕ
  anchorLineLen : ℕ
  anchorLineSha256 : String
  floorReason : Option AnchorStatus
  ledgerIdentitySha256 : Option String

/-- The ledger still ends a line as it did where the checkpoint was written. -/
def BudgetCheckpoint.anchorOk (host : Host) (cp : BudgetCheckpoint) (b : Bytes) : Bool :=
  let buf := (b.drop (cp.anchorByteOffset - cp.anchorLineLen)).take cp.anchorLineLen
  decide (0 < cp.anchorLineLen ∧ cp.anchorLineLen ≤ cp.anchorByteOffset ∧ cp.anchorByteOffset ≤ b.length) &&
    (buf.length == cp.anchorLineLen && host.sha256 buf == cp.anchorLineSha256)

def verifyAnchor (host : Host) (cp : BudgetCheckpoint) (file : Option Bytes) : AnchorStatus :=
  match file with
  | none | some [] => .missing
  | some b =>
    if cp.anchorOk host b then .valid
    else match cp.ledgerIdentitySha256,BudgetLedger.leadingBoundary (some b) with
      | some identity,some leading => if host.sha256 leading = identity then .truncated else .invalid
      | _,_ => .identityAbsent

/-- What a scan adds up for a day and a month. -/
structure Totals where
  agentTokens : Counter
  dailyTokens : ℤ
  monthlyTokens : ℤ

/-- `none` for an error of `int(tokens)` -/
def tokensOf (host : Host) (record : List (String × Json)) : Option ℤ :=
  match (record.lookup "tokens").getD (.int 0) with
  | .int i => some i
  | .bool b => some (if b then 1 else 0)
  | .float f => host.truncate f
  | _ => some 0

def Totals.add (t : Totals) (agent : Option String) (tokens : ℤ) (today thisMonth : Bool) : Totals where
  agentTokens := match agent with
    | some a => Counter.add t.agentTokens a tokens
    | none => t.agentTokens
  dailyTokens := if today then t.dailyTokens + tokens else t.dailyTokens
  monthlyTokens := if thisMonth then t.monthlyTokens + tokens else t.monthlyTokens

/-- One record of a scan; a record without a readable timestamp is skipped. -/
def countRecord (host : Host) (day month : String) (t : Totals) (record : List (String × Json)) : Option Totals :=
  match ((record.lookup "ts").bind Json.asStr).bind parseIsoTs with
  | none => some t
  | some ts => (tokensOf host record).map fun tokens =>
    t.add ((record.lookup "agent").bind Json.asStr) tokens (dayKey host.zone ts == day) (monthKey host.zone ts == month)

structure BudgetTracker where
  agentTokens : Counter
  dailyTokens : ℤ
  monthlyTokens : ℤ
  dayKey : Option String
  monthKey : Option String
  floorReason : Option AnchorStatus

namespace BudgetTracker
variable (host : Host)

def ofTotals (t : Totals) (day month : String) (reason : Option AnchorStatus) : BudgetTracker :=
  ⟨t.agentTokens,t.dailyTokens,t.monthlyTokens,some day,some month,reason⟩

/-- The totals a start begins with where the anchor holds. -/
def seed (cp : BudgetCheckpoint) (day month : String) : Totals where
  agentTokens := cp.agentTokens
  dailyTokens := if cp.dayKey = some day then cp.dailyTokens else 0
  monthlyTokens := if cp.monthKey = some month then cp.monthlyTokens else 0

def tailScan (cp : BudgetCheckpoint) (file : Option Bytes) (day month : String) : Option Totals :=
  (BudgetLedger.iterRecordsFrom file cp.anchorByteOffset).foldlM (countRecord host day month) (seed cp day month)

def fullScan (file : Option Bytes) (day month : String) : Option Totals :=
  (BudgetLedger.iterRecords file).bind fun records => records.foldlM (countRecord host day month) ⟨.empty,0,0⟩

def withFloor (t : Totals) (cp : BudgetCheckpoint) : Totals where
  agentTokens := Counter.floorMerge t.agentTokens cp.agentTokens
  dailyTokens := t.dailyTokens
  monthlyTokens := t.monthlyTokens

/-- The counters of a start, before the checkpoint is refreshed; `none` when the start fails. -/
def hydrate (checkpoint : Option BudgetCheckpoint) (file : Option Bytes) (now : ℤ) : Option BudgetTracker :=
  let day := Reyn.dayKey host.zone now
  let month := Reyn.monthKey host.zone now
  match checkpoint with
  | none => (fullScan host file day month).map fun t => ofTotals t day month none
  | some cp =>
    let status := verifyAnchor host cp file
    if status = .valid then (tailScan host cp file day month).map fun t => ofTotals t day month none
    else if status.floors then
      (fullScan host file day month).map fun t => ofTotals (withFloor t cp) day month (some status)
    else (fullScan host file day month).map fun t => ofTotals t day month none

variable (t : BudgetTracker)

/-- `_roll_period_if_needed` -/
def roll (now : ℤ) : BudgetTracker where
  agentTokens := t.agentTokens
  dailyTokens := if t.dayKey = some (Reyn.dayKey host.zone now) then t.dailyTokens else 0
  monthlyTokens := if t.monthKey = some (Reyn.monthKey host.zone now) then t.monthlyTokens else 0
  dayKey := some (Reyn.dayKey host.zone now)
  monthKey := some (Reyn.monthKey host.zone now)
  floorReason := t.floorReason

/-- The counters after `record_llm`: the agent's, then the period's. -/
def count (c : LlmCall) (now : ℤ) : BudgetTracker :=
  let r := t.roll host now
  { r with
    agentTokens := match c.agent with
      | some a => Counter.add r.agentTokens a c.totalTokens
      | none => r.agentTokens
    dailyTokens := r.dailyTokens + c.totalTokens
    monthlyTokens := r.monthlyTokens + c.totalTokens }

def resetAll : BudgetTracker := { t with agentTokens := .empty }

def loadState (saved : Option Counter) : BudgetTracker :=
  match saved with
  | none => t
  | some s => { t with agentTokens := Counter.loadState t.agentTokens s }

/-- What `write_checkpoint` writes; nothing while the ledger is missing or empty. -/
def writeCheckpoint (file : Option Bytes) (reason : Option AnchorStatus) : Option BudgetCheckpoint :=
  (BudgetLedger.tailBoundary file).map fun boundary =>
    { agentTokens := t.agentTokens
      dayKey := t.dayKey
      dailyTokens := t.dailyTokens
      monthKey := t.monthKey
      monthlyTokens := t.monthlyTokens
      anchorByteOffset := boundary.1
      anchorLineLen := boundary.2.length
      anchorLineSha256 := host.sha256 boundary.2
      floorReason := reason
      ledgerIdentitySha256 := (BudgetLedger.leadingBoundary file).map host.sha256 }

end BudgetTracker

/-! ## Runs -/

/-- The files and the running process, if there is one. Of the past the world keeps every checkpoint that
was written, every call whose append came to its end, with the timestamp in its line, and the day and
the month the clock was last read in. -/
structure BudgetWorld where
  ledger : Option Bytes
  checkpoint : Option BudgetCheckpoint
  state : Option Counter
  tracker : Option BudgetTracker
  written : List BudgetCheckpoint
  acked : List (LlmCall × String)
  period : Option (String × String)

/-- How far the save after a call gets: throttled or without a state path, cut off after
`save_state`, or complete. -/
inductive AutoSave where
  | skipped
  | state
  | checkpoint
  deriving DecidableEq

inductive BudgetAction where
  /-- `record_llm`; the clock is read for the period counters and again for the line. -/
  | record (call : LlmCall) (roll stamp : ℤ) (save : AutoSave)
  /-- `record_llm` of a process that dies when `n` bytes of the line are written. -/
  | tear (call : LlmCall) (roll stamp : ℤ) (n : ℕ)
  /-- The roll of `check_pre_llm`. -/
  | check (now : ℤ)
  | reset
  | crash
  /-- A new tracker, hydrated; `refresh` when its checkpoint could be written, `load` when the state file is read. -/
  | restart (now : ℤ) (refresh load : Bool)
  /-- The ledger is cut to `n` bytes, or deleted, while no process runs. -/
  | cut (n : ℕ)
  | deleteLedger
  | deleteCheckpoint
  /-- The checkpoint file is the one of an earlier point. -/
  | restoreCheckpoint (i : ℕ)

namespace BudgetWorld
variable (host : Host)

def init : BudgetWorld := ⟨none,none,none,none,[],[],none⟩

def appended (w : BudgetWorld) (b : Bytes) : BudgetWorld := { w with ledger := some (w.ledger.getD [] ++ b) }

def withTracker (w : BudgetWorld) (t : Option BudgetTracker) : BudgetWorld := { w with tracker := t }

def withCheckpoint (w : BudgetWorld) : Option BudgetCheckpoint → BudgetWorld
  | none => w
  | some cp => { w with checkpoint := some cp, written := w.written ++ [cp] }

def saveState (w : BudgetWorld) (t : BudgetTracker) : BudgetWorld := { w with state := some t.agentTokens }

def autoSave (w : BudgetWorld) (t : BudgetTracker) : AutoSave → BudgetWorld
  | .skipped => w
  | .state => w.saveState t
  | .checkpoint => (w.saveState t).withCheckpoint (t.writeCheckpoint host w.ledger none)

def read (w : BudgetWorld) (now : ℤ) : BudgetWorld :=
  { w with period := some (dayKey host.zone now,monthKey host.zone now) }

def ack (w : BudgetWorld) (c : LlmCall) (ts : String) : BudgetWorld := { w with acked := w.acked ++ [(c,ts)] }

def record (w : BudgetWorld) (t : BudgetTracker) (c : LlmCall) (now stamp : ℤ) (save : AutoSave) : BudgetWorld :=
  let ts := nowIso host.zone stamp
  let t := t.count host c now
  ((((w.read host now).appended (c.line ts)).ack c ts).withTracker (some t)).autoSave host t save

/-- A start: hydrate, refresh the checkpoint, merge the state file. -/
def restart (w : BudgetWorld) (t : BudgetTracker) (now : ℤ) (refresh load : Bool) : BudgetWorld :=
  let saved := if refresh then t.writeCheckpoint host w.ledger t.floorReason else none
  ((w.read host now).withCheckpoint saved).withTracker (some (if load then t.loadState w.state else t))

def step (w : BudgetWorld) : BudgetAction → Option BudgetWorld
  | .record c now stamp save => w.tracker.map fun t => w.record host t c now stamp save
  | .tear c _ stamp n =>
    let line := c.line (nowIso host.zone stamp)
    if w.tracker.isSome ∧ n < line.length then some ((w.appended (line.take n)).withTracker none) else none
  | .check now => w.tracker.map fun t => (w.read host now).withTracker (some (t.roll host now))
  | .reset => w.tracker.map fun t => w.withTracker (some t.resetAll)
  | .crash => some (w.withTracker none)
  | .restart now refresh load =>
    if w.tracker.isNone then
      (BudgetTracker.hydrate host w.checkpoint w.ledger now).map fun t => w.restart host t now refresh load
    else none
  | .cut n => if w.tracker.isNone then some { w with ledger := w.ledger.map (·.take n) } else none
  | .deleteLedger => if w.tracker.isNone then some { w with ledger := none } else none
  | .deleteCheckpoint => some { w with checkpoint := none }
  | .restoreCheckpoint i => (w.written[i]?).map fun cp => { w with checkpoint := some cp }

end BudgetWorld

/-! ## A host to run on -/

/-- UTC, and the bytes themselves for their digest. -/
def sampleHost : Host where
  sha256 b := String.ofList (b.map fun x => Char.ofNat x.toNat)
  zone _ := 0
  truncate _ := none

def sampleCall (agent : String) (tokens : ℕ) : LlmCall :=
  ⟨some agent,"m",tokens,0,⟨"0.0".toList,.inl (by decide)⟩,none,none,.provider⟩

end Reyn
