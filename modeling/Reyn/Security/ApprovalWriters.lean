import Reyn.Lib.Runs
import Reyn.Security.ApprovalLedger

/-! # Writers of one approval ledger

Any number of processes append to the file and migrate the legacy snapshot, one system call
at a time; a crash may cut the last append of its process at any byte.
-/
namespace Reyn
open Py Transition

namespace ApprovalLedger

/-- Where a process stands in `migrate_legacy_snapshot`. -/
inductive Pc where
  | idle
  /-- The ledger existed. -/
  | found
  /-- There was no ledger, but a snapshot. -/
  | absent
  /-- The last byte was no line break. -/
  | broken
  | dead
  deriving DecidableEq

/-- `base` and `real` keep the migrated rows and the decisions whose append completed, in order. -/
structure World where
  file : Option Bytes
  legacy : Option (List (String × Value))
  pc : ℕ → Pc
  base : List (ApprovalEntry × String)
  real : List (ApprovalEntry × String)

inductive Action where
  | create (p : ℕ)
  | append (p : ℕ) (e : ApprovalEntry) (ts : String)
  | tear (p : ℕ) (e : ApprovalEntry) (ts : String) (n : ℕ)
  | crash (p : ℕ)
  | lookup (p : ℕ)
  | inspect (p : ℕ)
  | repair (p : ℕ)
  | publish (p : ℕ) (ts : String)
  | giveUp (p : ℕ)

def init (legacy : Option (List (String × Value))) : World := ⟨none,legacy,fun _ => .idle,[],[]⟩

def World.goto (w : World) (p : ℕ) (pc : Pc) : World := { w with pc := Function.update w.pc p pc }

/-- Bytes at the end of the file. -/
def World.write (w : World) (bytes : Bytes) : World := { w with file := some (w.file.getD [] ++ bytes) }

/-- The bytes of records. -/
def linesOf (entries : List (ApprovalEntry × String)) : Bytes := entries.flatMap fun e => e.1.line e.2

section Step
variable (floatOf : ℤ → FloatLit)

def migrated (w : World) (ts : String) : List (ApprovalEntry × String) :=
  (legacyEntries floatOf (w.legacy.getD [])).map fun e => (e,ts)

def step (w : World) : Action → Option World
  -- `open("a")` makes the file before anything is written
  | .create p => if w.pc p = .idle then some (w.write []) else none
  | .append p e ts =>
    if w.pc p = .idle then some (({ w with real := w.real ++ [(e,ts)] } : World).write (e.line ts)) else none
  | .tear p e ts n =>
    if w.pc p = .idle ∧ n < (e.line ts).length then some ((w.goto p .dead).write ((e.line ts).take n)) else none
  | .crash p => some (w.goto p .dead)
  | .lookup p =>
    if w.pc p = .idle then
      some (w.goto p (if w.file.isSome then .found else if w.legacy.isSome then .absent else .idle))
    else none
  | .inspect p =>
    if w.pc p = .found then
      some (w.goto p (if (w.file.getD []).getLast?.all (· == 10) then .idle else .broken))
    else none
  | .repair p => if w.pc p = .broken then some ((w.goto p .idle).write [10]) else none
  -- `os.link` publishes the whole content, or finds the ledger there
  | .publish p ts =>
    if w.pc p = .absent then
      if w.file.isSome ∨ migrated floatOf w ts = [] then some (w.goto p .idle)
      else some (({ w with base := migrated floatOf w ts } : World).goto p .idle |>.write (linesOf (migrated floatOf w ts)))
    else none
  | .giveUp p => if w.pc p = .dead then none else some (w.goto p .idle)

/-- An append begins on a line of its own; a tear falls between two characters and leaves no record. -/
def Regular (w : World) : Action → Prop
  | .append _ _ _ => EndsLine (w.file.getD [])
  | .tear _ e ts n => ∃ k, (e.line ts).take n = encode ((Json.obj (e.record ts)).text.take k) ∧
      ∀ lines tail, Lined (w.file.getD []) lines tail → lineObject (tail ++ (Json.obj (e.record ts)).text.take k) = none
  | _ => True

end Step

/-- The lines of the file hold the migrated rows and then the completed decisions. -/
structure Inv (floatOf : ℤ → FloatLit) (w : World) (lines : List (List Char)) (tail : List Char) : Prop where
  lined : Lined (w.file.getD []) lines tail
  records : lines.filterMap lineObject = (w.base ++ w.real).map fun e => e.1.record e.2
  unfinished : lineObject tail = none
  fresh : w.file = none → w.base = [] ∧ w.real = []
  base : w.base = [] ∨ ∃ ts, w.base = migrated floatOf w ts

section Invariant
variable {floatOf : ℤ → FloatLit} {w w' : World} {lines : List (List Char)} {tail : List Char}

theorem Inv.init (legacy : Option (List (String × Value))) : Inv floatOf (init legacy) [] [] where
  lined := .nil
  records := rfl
  unfinished := lineObject_nil
  fresh := fun _ => ⟨rfl,rfl⟩
  base := .inl rfl

/-- Moving a process changes nothing else. -/
theorem Inv.goto (h : Inv floatOf w lines tail) (p : ℕ) (pc : Pc) : Inv floatOf (w.goto p pc) lines tail :=
  ⟨h.lined,h.records,h.unfinished,h.fresh,h.base⟩

theorem lined_linesOf (entries : List (ApprovalEntry × String)) :
    Lined (linesOf entries) (entries.map fun e => (Json.obj (e.1.record e.2)).text) [] := by
  induction entries using List.reverseRecOn with
  | nil => exact .nil
  | append_singleton entries e ih =>
    have hline := ih.append_line (unbroken_text (.obj (e.1.record e.2)))
    rw [linesOf,List.flatMap_append,List.map_append,List.flatMap_singleton]
    exact hline

theorem records_linesOf (entries : List (ApprovalEntry × String)) :
    (entries.map fun e => (Json.obj (e.1.record e.2)).text).filterMap lineObject = entries.map fun e => e.1.record e.2 := by
  have hline : (lineObject ∘ fun e : ApprovalEntry × String => (Json.obj (e.1.record e.2)).text) = fun e => some (e.1.record e.2) := by
    funext e
    exact lineObject_obj (e.1.record_wf e.2)
  rw [List.filterMap_map,hline]
  exact congrFun List.filterMap_eq_map entries

theorem Inv.append (h : Inv floatOf w lines tail) (hc : EndsLine (w.file.getD [])) (e : ApprovalEntry) (ts : String) :
    Inv floatOf (({ w with real := w.real ++ [(e,ts)] } : World).write (e.line ts))
      (lines ++ [(Json.obj (e.record ts)).text]) [] := by
  obtain rfl := h.lined.tail_nil hc
  constructor
  · exact h.lined.append_line (unbroken_text (.obj (e.record ts)))
  · show _ = (w.base ++ (w.real ++ [(e,ts)])).map _
    rw [List.filterMap_append,h.records,← List.append_assoc,List.map_append]
    simp [lineObject_obj (e.record_wf ts)]
  · exact lineObject_nil
  · exact nofun
  · exact h.base

theorem Inv.tear (h : Inv floatOf w lines tail) {part : List Char} (hp : Unbroken part) (hn : lineObject (tail ++ part) = none) :
    Inv floatOf (w.write (encode part)) lines (tail ++ part) where
  lined := h.lined.append_part hp
  records := h.records
  unfinished := hn
  fresh := nofun
  base := h.base

theorem Inv.repair (h : Inv floatOf w lines tail) :
    Inv floatOf (w.write [10]) (lines ++ [tail]) [] where
  lined := h.lined.append_newline
  records := by
    rw [List.filterMap_append,h.records]
    simp [h.unfinished,World.write]
  unfinished := lineObject_nil
  fresh := nofun
  base := h.base

theorem Inv.publish (h : Inv floatOf w lines tail) (hf : w.file = none) (ts : String) :
    Inv floatOf (({ w with base := migrated floatOf w ts } : World).write (linesOf (migrated floatOf w ts)))
      ((migrated floatOf w ts).map fun e => (Json.obj (e.1.record e.2)).text) [] := by
  obtain ⟨-,hreal⟩ := h.fresh hf
  constructor
  · have hempty : w.file.getD [] = [] := by rw [hf]; rfl
    show Lined (w.file.getD [] ++ _) _ _
    rw [hempty]
    exact lined_linesOf _
  · show _ = (migrated floatOf w ts ++ w.real).map _
    rw [records_linesOf,hreal,List.append_nil]
  · exact lineObject_nil
  · exact nofun
  · exact .inr ⟨ts,rfl⟩

theorem Inv.step (h : Inv floatOf w lines tail) {a : Action} (hg : Regular w a) (hs : step floatOf w a = some w') :
    ∃ lines tail, Inv floatOf w' lines tail := by
  cases a with
  | create p =>
    obtain ⟨-,hs⟩ := Option.ite_none_right_eq_some.mp hs
    cases hs
    have hsame : Lined ((w.write []).file.getD []) lines tail := by
      show Lined (w.file.getD [] ++ []) lines tail
      rw [List.append_nil]
      exact h.lined
    exact ⟨lines,tail,hsame,h.records,h.unfinished,nofun,h.base⟩
  | append p e ts =>
    obtain ⟨-,hs⟩ := Option.ite_none_right_eq_some.mp hs
    cases hs
    exact ⟨_,_,h.append hg e ts⟩
  | tear p e ts n =>
    obtain ⟨-,hs⟩ := Option.ite_none_right_eq_some.mp hs
    cases hs
    obtain ⟨k,hk,hnone⟩ := hg
    have hunbroken : Unbroken ((Json.obj (e.record ts)).text.take k) :=
      fun c hc => unbroken_text _ c (List.mem_of_mem_take hc)
    rw [hk]
    exact ⟨_,_,(h.goto p .dead).tear hunbroken (hnone lines tail h.lined)⟩
  | crash p =>
    cases hs
    exact ⟨_,_,h.goto p .dead⟩
  | lookup p =>
    obtain ⟨-,hs⟩ := Option.ite_none_right_eq_some.mp hs
    cases hs
    exact ⟨_,_,h.goto p _⟩
  | inspect p =>
    obtain ⟨-,hs⟩ := Option.ite_none_right_eq_some.mp hs
    cases hs
    exact ⟨_,_,h.goto p _⟩
  | repair p =>
    obtain ⟨-,hs⟩ := Option.ite_none_right_eq_some.mp hs
    cases hs
    exact ⟨_,_,(h.goto p .idle).repair⟩
  | publish p ts =>
    obtain ⟨-,hs⟩ := Option.ite_none_right_eq_some.mp hs
    split at hs
    · cases hs
      exact ⟨_,_,h.goto p .idle⟩
    · rename_i hfile
      cases hs
      have hnone : w.file = none := by simpa using (not_or.mp hfile).1
      exact ⟨_,_,(h.publish hnone ts).goto p .idle⟩
  | giveUp p =>
    obtain ⟨-,hs⟩ := Option.ite_none_left_eq_some.mp hs
    cases hs
    exact ⟨_,_,h.goto p .idle⟩

theorem inv_run {legacy : Option (List (String × Value))} (h : Runs (step floatOf) Regular (init legacy) w) :
    ∃ lines tail, Inv floatOf w lines tail := by
  apply h.invariant (I := fun w => ∃ lines tail, Inv floatOf w lines tail)
  · exact ⟨_,_,Inv.init legacy⟩
  · rintro s a t ⟨lines,tail,hinv⟩ hg hs
    exact hinv.step hg hs

theorem Inv.fold (h : Inv floatOf w lines tail) :
    fold floatOf w.file = some (((w.base ++ w.real).map fun e => e.1.record e.2).foldl (foldRecord floatOf) empty) := by
  cases hf : w.file with
  | none =>
    obtain ⟨hbase,hreal⟩ := h.fresh hf
    rw [hbase,hreal]
    rfl
  | some b =>
    have hb : Lined b lines tail := by
      have hlined := h.lined
      rw [hf] at hlined
      exact hlined
    have hobjects := hb.objects
    have htail : [tail].filterMap lineObject = [] := by simp [h.unfinished]
    rw [List.filterMap_append,h.records,htail,List.append_nil] at hobjects
    rw [ApprovalLedger.fold,iterRecords,hobjects]
    rfl

end Invariant

/-- In every regular run the fold succeeds and finds the last completed decision on each key, a migrated one
only before all of them. -/
theorem fold_completed {floatOf : ℤ → FloatLit} {legacy : Option (List (String × Value))} {w : World}
    (h : Runs (step floatOf) Regular (init legacy) w) :
    ∃ maps, fold floatOf w.file = some maps ∧ (w.base = [] ∨ ∃ ts, w.base = migrated floatOf w ts) ∧
      ∀ key, maps.approvals.get? key = (lastDecision ((w.base ++ w.real).map Prod.fst) key).map Prod.fst ∧
        maps.scopes.get? key = (lastDecision ((w.base ++ w.real).map Prod.fst) key).map Prod.snd := by
  obtain ⟨lines,tail,hinv⟩ := inv_run h
  refine ⟨_,hinv.fold,hinv.base,?_⟩
  intro key
  exact foldl_lastDecision (w.base ++ w.real) key

/-! ## One torn line -/

section Sample

def grantEntry : ApprovalEntry := .approval "k" true none

def revokeEntry : ApprovalEntry := .approval "k" false none

/-- The first process grants, the second is cut off after one byte. -/
def tornWorld : World :=
  (({ init none with real := [(grantEntry,"")] } : World).write (grantEntry.line "")).goto 1 .dead |>.write [123]

/-- A third process looks at the file and ends the line. -/
def repairedWorld : World := ((tornWorld.goto 2 .found).goto 2 .broken).goto 2 .idle |>.write [10]

/-- The first process revokes. -/
def revokedWorld (w : World) : World := ({ w with real := w.real ++ [(revokeEntry,"")] } : World).write (revokeEntry.line "")

variable (floatOf : ℤ → FloatLit)

/-- The world after the first grant. -/
def grantedWorld : World := ({ init none with real := [(grantEntry,"")] } : World).write (grantEntry.line "")

theorem granted_lined : Lined (grantedWorld.file.getD []) [(Json.obj (grantEntry.record "")).text] [] :=
  Lined.nil.append_line (unbroken_text (.obj (grantEntry.record "")))

theorem torn_lined : Lined (tornWorld.file.getD []) [(Json.obj (grantEntry.record "")).text] ['{'] := by
  have hbrace : Unbroken ['{'] := by
    intro c hc
    rw [List.mem_singleton.mp hc]
    rfl
  exact granted_lined.append_part hbrace

theorem endsLine_append_newline (b : Bytes) : EndsLine (b ++ [10]) := .inr List.getLast?_concat

/-- The first two steps, whatever the guard. -/
theorem step_torn : step floatOf (init none) (.append 0 grantEntry "") = some grantedWorld ∧
    step floatOf grantedWorld (.tear 1 grantEntry "" 1) = some tornWorld := by
  have hlen : 1 < (grantEntry.line "").length := by decide_cbv
  constructor
  · rfl
  · exact if_pos (c := grantedWorld.pc 1 = .idle ∧ 1 < (grantEntry.line "").length) (e := none) ⟨rfl,hlen⟩

/-- Somebody ends the torn line before the next decision. -/
theorem repaired_run : Runs (step floatOf) Regular (init none) (revokedWorld repairedWorld) := by
  have hgranted : Runs (step floatOf) Regular (init none) grantedWorld :=
    .single (a := .append 0 grantEntry "") (.inl rfl) (step_torn floatOf).1
  have htorn : Runs (step floatOf) Regular (init none) tornWorld := by
    apply hgranted.step (a := .tear 1 grantEntry "" 1) ?_ (step_torn floatOf).2
    refine ⟨1,rfl,?_⟩
    intro lines tail hlined
    have hends : EndsLine (grantedWorld.file.getD []) := by
      have hline : grantedWorld.file.getD [] = encode (Json.obj (grantEntry.record "")).text ++ [10] := encode_append _ _
      rw [hline]
      exact endsLine_append_newline _
    obtain rfl := hlined.tail_nil hends
    decide_cbv
  have hlast : (tornWorld.file.getD []).getLast?.all (· == 10) = false := by
    have hfile : tornWorld.file.getD [] = grantedWorld.file.getD [] ++ [123] := rfl
    rw [hfile,List.getLast?_concat]
    rfl
  have hfound : Runs (step floatOf) Regular (init none) (tornWorld.goto 2 .found) :=
    htorn.step (show Regular tornWorld (.lookup 2) from trivial) rfl
  have hbroken : Runs (step floatOf) Regular (init none) ((tornWorld.goto 2 .found).goto 2 .broken) := by
    apply hfound.step (show Regular _ (.inspect 2) from trivial)
    have hinspect : step floatOf (tornWorld.goto 2 .found) (.inspect 2) = some ((tornWorld.goto 2 .found).goto 2
      (if (tornWorld.file.getD []).getLast?.all (· == 10) then .idle else .broken)) := rfl
    rw [hinspect,hlast]
    rfl
  have hrepaired : Runs (step floatOf) Regular (init none) repairedWorld :=
    hbroken.step (show Regular _ (.repair 2) from trivial) rfl
  exact hrepaired.step (a := .append 0 revokeEntry "") (endsLine_append_newline _) rfl

theorem nan_wf : isReal "NaN".toList ∨ "NaN".toList = "NaN".toList ∨ "NaN".toList = "Infinity".toList ∨
    "NaN".toList = "-Infinity".toList := .inr (.inl rfl)

def sampleFloat (_ : ℤ) : FloatLit := ⟨"NaN".toList,nan_wf⟩

theorem fold_completed_repaired : ∃ maps, fold sampleFloat (revokedWorld repairedWorld).file = some maps ∧
    maps.approvals.get? "k" = some false := by
  obtain ⟨maps,hmaps,-,hlast⟩ := fold_completed (repaired_run sampleFloat)
  exact ⟨maps,hmaps,(hlast "k").1⟩

/-- A live process writes onto the torn line: its completed revoke is lost behind the grant. -/
theorem torn_line_loses_revoke : ∃ w, Runs (step sampleFloat) (fun _ _ => True) (init none) w ∧
    lastDecision ((w.base ++ w.real).map Prod.fst) "k" = some (false,scopeLegacyWorkspace) ∧
      ∃ maps, fold sampleFloat w.file = some maps ∧ maps.approvals.get? "k" = some true := by
  refine ⟨revokedWorld tornWorld,?_,rfl,?_⟩
  · have hgranted : Runs (step sampleFloat) (fun _ _ => True) (init none) grantedWorld :=
      .step (.refl _) trivial (step_torn sampleFloat).1
    have htorn : Runs (step sampleFloat) (fun _ _ => True) (init none) tornWorld :=
      hgranted.step trivial (step_torn sampleFloat).2
    exact htorn.step (a := .append 0 revokeEntry "") trivial rfl
  · have hlined := torn_lined.append_line (unbroken_text (.obj (revokeEntry.record "")))
    have hlost : lineObject (['{'] ++ (Json.obj (revokeEntry.record "")).text) = none := by decide_cbv
    have hgrant : lineObject (Json.obj (grantEntry.record "")).text = some (grantEntry.record "") :=
      lineObject_obj (grantEntry.record_wf "")
    have hobjects : textObjects (tornWorld.file.getD [] ++ revokeEntry.line "") = some [grantEntry.record ""] := by
      rw [ApprovalEntry.line,hlined.objects,List.filterMap_append,List.filterMap_append,List.filterMap_cons_some hgrant,
        List.filterMap_cons_none hlost,List.filterMap_cons_none lineObject_nil]
      rfl
    refine ⟨foldRecord sampleFloat empty (grantEntry.record ""),?_,rfl⟩
    show (textObjects (tornWorld.file.getD [] ++ revokeEntry.line "")).map _ = _
    rw [hobjects]
    rfl

end Sample

end ApprovalLedger
end Reyn
