import Reyn.Lib.Calendar
import Reyn.Lib.TextFile

/-! # The budget ledger

One line of JSON for each LLM call, appended without a look at the end of the file. A full
scan reads the file as text and refuses what is no UTF-8; a scan from an offset reads it
as bytes and replaces it.
-/
namespace Reyn
open Py

/-! ## Periods and timestamps -/

/-- `_period_key(ts, "day")[1]` -/
def dayKey (zone : ℤ → ℤ) (ts : ℤ) : String := String.ofList (isoDate (localtime zone ts).date)

/-- `_period_key(ts, "month")[1]` -/
def monthKey (zone : ℤ → ℤ) (ts : ℤ) : String :=
  String.ofList (pad 4 (localtime zone ts).date.year ++ '-' :: pad 2 (localtime zone ts).date.month)

def nowIso (zone : ℤ → ℤ) (now : ℤ) : String := String.ofList (isoformat (localtime zone now))

/-- `none` for a `ValueError` -/
def parseIsoTs (s : String) : Option ℤ := (fromisoformat s.toList).map timestamp

/-- In a zone of whole minutes a timestamp reads back, from year one to year 9999. -/
theorem parseIsoTs_nowIso {zone : ℤ → ℤ} {now : ℤ} (hz : (zone now).natAbs < 86400) (hm : zone now % 60 = 0)
    (h : 1 ≤ (now + zone now) / 86400 + epochOrdinal) (ht : (now + zone now) / 86400 + epochOrdinal ≤ 3652059) :
    parseIsoTs (nowIso zone now) = some now := by
  obtain ⟨hv,hy⟩ := localtime_valid zone hz h ht
  have hread := fromisoformat_isoformat hv hy hm
  rw [parseIsoTs,nowIso,String.toList_ofList,hread,Option.map_some,timestamp_localtime zone h]

/-! ## Records -/

inductive UsageSource where
  | provider
  | estimated
  | unknown
  deriving DecidableEq

/-- What a provenance other than `UNKNOWN` is written as. -/
def UsageSource.value? : UsageSource → Option String
  | .provider => some "provider"
  | .estimated => some "estimated"
  | .unknown => none

/-- The arguments of one `record_llm`, with the price of the call. -/
structure LlmCall where
  agent : Option String
  model : String
  promptTokens : ℕ
  completionTokens : ℕ
  costUsd : FloatLit
  purpose : Option String
  chainId : Option String
  source : UsageSource

namespace LlmCall

def totalTokens (c : LlmCall) : ℕ := c.promptTokens + c.completionTokens

def optional (k : String) (v : Option String) : List (String × Json) := v.toList.map fun s => (k,.str s)

/-- The record of `BudgetLedger.append`. -/
def record (c : LlmCall) (ts : String) : List (String × Json) :=
  [("ts",.str ts),("agent",.ofStr? c.agent),("model",.str c.model),("tokens",.int c.totalTokens),
    ("cost_usd",.float c.costUsd)] ++
  optional "purpose" c.purpose ++ optional "chain_id" c.chainId ++ optional "usage_source" c.source.value?

/-- The line of `_write_record`. -/
def line (c : LlmCall) (ts : String) : Bytes := jsonLine (.obj (c.record ts))

theorem record_wf (c : LlmCall) (ts : String) : (Json.obj (c.record ts)).wf = true := by
  obtain ⟨agent,model,prompt,completion,cost,purpose,chain,source⟩ := c
  cases agent <;> cases purpose <;> cases chain <;> cases source <;>
    simp [record,optional,Json.ofStr?,UsageSource.value?,Json.wf,Json.wfFields]

end LlmCall

/-! ## The file -/

namespace BudgetLedger

def asDict : Json → Option (List (String × Json))
  | .obj fields => some fields
  | _ => none

/-- `none` for a `UnicodeDecodeError`; a missing file has no records. -/
def iterRecords : Option Bytes → Option (List (List (String × Json)))
  | none => some []
  | some b => (textValues b).map (·.filterMap asDict)

def iterRecordsFrom (file : Option Bytes) (byteOffset : ℕ) : List (List (String × Json)) :=
  match file with
  | none => []
  | some b => (byteValues (b.drop byteOffset)).filterMap asDict

/-- Where the last line begins: after the last newline that is not the final byte. -/
def lastLineStart (b : Bytes) : ℕ :=
  let searched := if b.getLast? = some 10 then b.dropLast else b
  searched.length - (searched.reverse.takeWhile (· ≠ 10)).length

/-- The size of the file and the bytes of its last line. -/
def tailBoundary (file : Option Bytes) : Option (ℕ × Bytes) :=
  match file with
  | none | some [] => none
  | some b => some (b.length,b.drop (lastLineStart b))

/-- The bytes of the first complete line. -/
def leadingBoundary (file : Option Bytes) : Option Bytes :=
  match file with
  | none => none
  | some b => if (10 : UInt8) ∈ b then some (b.takeWhile (· ≠ 10) ++ [10]) else none

end BudgetLedger
end Reyn
