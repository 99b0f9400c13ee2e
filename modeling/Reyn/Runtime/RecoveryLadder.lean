import Reyn.Lib.Json
import Reyn.Lib.Runs

/-! # The ladder of an overflow recovery

Head, middle and tail of a conversation that does not fit. The middle is folded slice by
slice into a summary at the end of the head; a call that overflows spills or halves the
slice, moves turns of the windows into the middle, or halves the room. The ladder calls
the model with head and tail whenever the middle is empty.
-/
namespace Reyn
open Py Transition

/-- A turn on the wire: whether its role is that of a summary, and the rest of it. -/
structure WireTurn where
  isSummary : Bool
  content : Json
  deriving DecidableEq

/-- What an entry stands for: the turn of the initial payload at an index, or for a fresh
summary the indices its fold has read, itself or through an earlier summary. -/
inductive TurnOrigin where
  | initial (index : ℕ)
  | fold (reads : List ℕ)
  deriving DecidableEq

namespace TurnOrigin

def stands : TurnOrigin → List ℕ
  | initial index => [index]
  | fold reads => reads

def index? : TurnOrigin → Option ℕ
  | initial index => some index
  | fold _ => none

end TurnOrigin

/-- A turn with the account of where it comes from, which the ladder does not keep. -/
structure LadderEntry where
  turn : WireTurn
  origin : TurnOrigin
  deriving DecidableEq

structure RetryPayload where
  head : List WireTurn
  rawMiddle : List WireTurn
  tail : List WireTurn

def RetryPayload.total (payload : RetryPayload) : ℕ := payload.head.length + payload.rawMiddle.length + payload.tail.length

/-- The sizes the ladder is built from; `headShare` is the head's part of a room. -/
structure LadderConfig where
  estimateTokens : WireTurn → ℕ
  spTokensFloor : ℕ
  newMsgTokensFloor : ℕ
  maxInputTokens : ℕ
  headBudget : ℤ
  tailBudget : ℤ
  headShare : ℕ → ℤ

structure RecoveryLadder where
  head : List LadderEntry
  rawMiddle : List LadderEntry
  tail : List LadderEntry
  compactAttemptLen : Option ℕ
  tMaxOverride : Option ℕ
  headTokensFloor : ℤ
  tailTokensFloor : ℤ

/-- How the call of an iteration ends: with the middle not empty it is that of `compact`, else
`main_call`. An overflow with a middle comes with the edits of `spill_fn`. -/
inductive LadderAction where
  | summarized (content : Json)
  | overflowed (edits : List (ℕ × WireTurn))

namespace RecoveryLadder

/-- `_split_off_non_summary` from the start: the first `count` turns that are no summary, and the rest. -/
def splitOffFront : ℕ → List LadderEntry → List LadderEntry × List LadderEntry
  | 0, items => ([],items)
  | _ + 1, [] => ([],[])
  | count + 1, e :: rest =>
    if e.turn.isSummary then ((splitOffFront (count + 1) rest).1,e :: (splitOffFront (count + 1) rest).2)
    else (e :: (splitOffFront count rest).1,(splitOffFront count rest).2)

def splitOffNonSummary (items : List LadderEntry) (count : ℕ) (fromEnd : Bool) : List LadderEntry × List LadderEntry :=
  if fromEnd then ((splitOffFront count items.reverse).1.reverse,(splitOffFront count items.reverse).2.reverse)
  else splitOffFront count items

def hasNonSummary (items : List LadderEntry) : Bool := items.any fun e => !e.turn.isSummary

def nonSummaryCount (items : List LadderEntry) : ℕ := items.countP fun e => !e.turn.isSummary

/-- Half of the turns that are no summary, at least one. -/
def refillChunk (items : List LadderEntry) : ℕ := max (nonSummaryCount items / 2) 1

/-- The edits of a spill, each in its place. -/
def applyEdits (pool : List LadderEntry) (edits : List (ℕ × WireTurn)) : List LadderEntry :=
  edits.foldl (fun pool edit => pool.modify edit.1 fun e => { e with turn := edit.2 }) pool

/-- `wrap_summary_as_message`, for a fold of the turns offered. -/
def wrapSummary (content : Json) (offered : List LadderEntry) : LadderEntry :=
  ⟨⟨true,content⟩,.fold (offered.flatMap (·.origin.stands))⟩

section Ladder
variable (c : LadderConfig)

def estimateTokensList (items : List LadderEntry) : ℕ := (items.map fun e => c.estimateTokens e.turn).sum

def summaryTokensIn (items : List LadderEntry) : ℕ := estimateTokensList c (items.filter (·.turn.isSummary))

def numbered (first : ℕ) (turns : List WireTurn) : List LadderEntry :=
  (turns.zipIdx first).map fun p => ⟨p.1,.initial p.2⟩

def start (payload : RetryPayload) : RecoveryLadder :=
  ⟨numbered 0 payload.head,numbered payload.head.length payload.rawMiddle,
    numbered (payload.head.length + payload.rawMiddle.length) payload.tail,none,none,c.headBudget,c.tailBudget⟩

/-- How many turns of the middle a fold offers. -/
def attemptLen (s : RecoveryLadder) : ℕ := s.compactAttemptLen.getD s.rawMiddle.length

def offered (s : RecoveryLadder) : List LadderEntry := s.rawMiddle.take s.attemptLen

/-- `_advance_state_after_fold` -/
def advanceStateAfterFold (s : RecoveryLadder) (content : Json) : RecoveryLadder :=
  { s with
    head := s.head.filter (fun e => !e.turn.isSummary) ++ [wrapSummary content s.offered]
    rawMiddle := s.rawMiddle.drop s.attemptLen
    compactAttemptLen :=
      if s.rawMiddle.drop s.attemptLen = [] then s.compactAttemptLen
      else some (min (s.attemptLen * 2) (s.rawMiddle.drop s.attemptLen).length) }

/-- `_stage_refill_phase1`: the first half of the tail goes behind the middle. -/
def stageRefillPhase1 (s : RecoveryLadder) : Option RecoveryLadder :=
  if s.tailTokensFloor < estimateTokensList c s.tail && hasNonSummary s.tail then
    some { s with
      rawMiddle := s.rawMiddle ++ (splitOffNonSummary s.tail (refillChunk s.tail) false).1
      tail := (splitOffNonSummary s.tail (refillChunk s.tail) false).2 }
  else none

/-- `_stage_refill_phase2`: the last half of the head goes in front of the middle. -/
def stageRefillPhase2 (s : RecoveryLadder) : Option RecoveryLadder :=
  if s.headTokensFloor < estimateTokensList c s.head && hasNonSummary s.head then
    some { s with
      rawMiddle := (splitOffNonSummary s.head (refillChunk s.head) true).1 ++ s.rawMiddle
      head := (splitOffNonSummary s.head (refillChunk s.head) true).2
      compactAttemptLen := none }
  else none

def halvedRoom (s : RecoveryLadder) : ℕ := s.tMaxOverride.getD c.maxInputTokens / 2

def reserved (s : RecoveryLadder) : ℕ := c.spTokensFloor + c.newMsgTokensFloor + summaryTokensIn c (s.head ++ s.tail)

/-- The ladder with the floors of the halved room. -/
def lowered (s : RecoveryLadder) : RecoveryLadder :=
  { s with
    tMaxOverride := some (halvedRoom c s)
    headTokensFloor := c.headShare (halvedRoom c s - reserved c s)
    tailTokensFloor := (halvedRoom c s - reserved c s : ℕ) - c.headShare (halvedRoom c s - reserved c s) }

/-- `_stage_halve_room`, which raises when nothing is left but what is reserved. -/
def stageHalveRoom (s : RecoveryLadder) : Option RecoveryLadder :=
  if halvedRoom c s ≤ reserved c s then none
  else some (((stageRefillPhase1 c (lowered c s)).or (stageRefillPhase2 c (lowered c s))).getD (lowered c s))

/-- The pool split into the offered part of the middle, the rest of which follows, and the tail. -/
def resplit (s : RecoveryLadder) (pool : List LadderEntry) (compactAttemptLen : ℕ) : RecoveryLadder :=
  { s with
    rawMiddle := pool.take s.attemptLen ++ s.rawMiddle.drop s.attemptLen
    tail := pool.drop s.attemptLen
    compactAttemptLen := some compactAttemptLen }

/-- `shrink_pool_after_overflow` on the offered turns and the tail: it spills, or halves. An
edit out of range raises, and so does a single turn that was offered. -/
def shrinkPoolAfterOverflow (s : RecoveryLadder) (edits : List (ℕ × WireTurn)) : Option RecoveryLadder :=
  if edits = [] then
    if s.attemptLen ≤ 1 then none
    else some (s.resplit (s.offered ++ s.tail) (max (s.attemptLen / 2) 1))
  else if edits.all fun edit => edit.1 < (s.offered ++ s.tail).length then
    some (s.resplit (applyEdits (s.offered ++ s.tail) edits) s.attemptLen)
  else none

/-- One call of the ladder and what it does about its outcome. -/
def step (s : RecoveryLadder) : LadderAction → Option RecoveryLadder
  | .summarized content => if s.rawMiddle = [] then none else some (s.advanceStateAfterFold content)
  | .overflowed edits =>
    if s.rawMiddle = [] then (stageRefillPhase1 c s).or ((stageRefillPhase2 c s).or (stageHalveRoom c s))
    else s.shrinkPoolAfterOverflow edits

end Ladder
end RecoveryLadder
end Reyn
