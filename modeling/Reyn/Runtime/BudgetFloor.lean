import Reyn.Lib.JsonScanWrite
import Reyn.Runtime.BudgetScan

/-! # The floor under the totals of an agent

A start merges the checkpoint in as a floor unless the ledger is proven to be another one.
The proof needs that no stretch of a ledger that was cut and appended to reads as a
record with a negative count.
-/
namespace Reyn
open Py Transition

namespace Counter
variable {c d e : Counter} {a b : String}

def AtLeast (c d : Counter) : Prop := ∀ a, Counter.total d a ≤ Counter.total c a

theorem AtLeast.refl (c : Counter) : AtLeast c c := fun _ => le_rfl

theorem AtLeast.trans (h : AtLeast c d) (h' : AtLeast d e) : AtLeast c e := fun a => (h' a).trans (h a)

theorem add_atLeast {n : ℤ} (h : 0 ≤ n) : AtLeast (Counter.add d a n) d := by
  intro b
  rw [total_add]
  split
  · omega
  · omega

/-- Setting counters one by one, each to no less than it was. -/
theorem foldl_atLeast {A : Type} {step : Counter → A → Counter} (h : ∀ d x, AtLeast (step d x) d) (l : List A) (d : Counter) :
    AtLeast (l.foldl step d) d := by
  induction l generalizing d with
  | nil => exact .refl d
  | cons x l ih => exact (ih (step d x)).trans (h d x)

theorem floorStep_atLeast (d : Counter) (p : String × ℤ) :
    AtLeast (if Counter.total d p.1 < p.2 then d.set p.1 p.2 else d) d := by
  intro b
  split
  · rename_i h
    rw [total_set]
    split
    · rename_i hb
      rw [hb]
      exact h.le
    · exact le_rfl
  · exact le_rfl

theorem loadState_atLeast (d saved : Counter) : AtLeast (Counter.loadState d saved) d := by
  refine foldl_atLeast (fun d p b => ?_) saved.items d
  rw [total_set]
  split
  · rename_i hb
    rw [hb]
    exact le_max_left _ _
  · exact le_rfl

theorem floorMerge_atLeast (d floor : Counter) : AtLeast (Counter.floorMerge d floor) d :=
  foldl_atLeast floorStep_atLeast floor.items d

theorem floorMerge_floor (d floor : Counter) (h : ∀ a, 0 ≤ Counter.total d a) : AtLeast (Counter.floorMerge d floor) floor := by
  have hitem : ∀ (l : List (String × ℤ)) (d : Counter) (a : String) (n : ℤ), (a,n) ∈ l →
      n ≤ Counter.total (l.foldl (fun d p => if Counter.total d p.1 < p.2 then d.set p.1 p.2 else d) d) a := by
    intro l
    induction l with
    | nil => exact nofun
    | cons p l ih =>
      intro d a n hmem
      rcases List.mem_cons.mp hmem with rfl | hmem
      · refine le_trans ?_ (foldl_atLeast floorStep_atLeast l _ a)
        show n ≤ Counter.total (if Counter.total d a < n then d.set a n else d) a
        split
        · rw [total_set,if_pos rfl]
        · omega
      · exact ih _ a n hmem
  intro a
  cases hg : floor.get? a with
  | none =>
    have hzero : Counter.total floor a = 0 := by rw [Counter.total,hg]; rfl
    rw [hzero]
    exact (h a).trans (floorMerge_atLeast d floor a)
  | some n =>
    have htotal : Counter.total floor a = n := by rw [Counter.total,hg]; rfl
    rw [htotal]
    exact hitem floor.items d a n (Dict.mem_of_get? hg)

end Counter

/-! ## Counts that are read -/

def tokensName : Json.Name := ⟨"tokens".toList,by decide,List.all_eq_true.mp (by decide)⟩

theorem LlmCall.record_flat (c : LlmCall) (ts : String) : ∀ p ∈ c.record ts, Json.Flat tokensName p := by
  have hoptional : ∀ {k : String} {v : Option String}, ∀ p ∈ optional k v, Json.Flat tokensName p := by
    intro k v p hp
    obtain ⟨s,-,rfl⟩ := List.mem_map.mp hp
    exact .str k s
  intro p hp
  simp only [LlmCall.record,List.mem_append,List.mem_cons,List.not_mem_nil,or_false] at hp
  rcases hp with ((((rfl | rfl | rfl | rfl | rfl) | hp) | hp) | hp)
  · exact .str _ _
  · cases c.agent with
    | none => exact .null _
    | some a => exact .str _ _
  · exact .str _ _
  · exact .nat _ _
  · refine .float _ _ ?_ (by decide)
    have hplain : ("cost_usd".toList.all fun c => Json.escChar c == [c]) = true := by decide
    simpa using List.all_eq_true.mp hplain
  · exact hoptional p hp
  · exact hoptional p hp
  · exact hoptional p hp

def CleanLedger (b : Bytes) : Prop := Json.clean tokensName false (Json.asciiBytes b) = true

theorem CleanLedger.append {b : Bytes} (h : CleanLedger b) (c : LlmCall) (ts : String) : CleanLedger (b ++ c.line ts) := by
  obtain ⟨t,ht,hclean⟩ := Json.clean_jsonLine tokensName (c.record_flat ts)
  rw [CleanLedger,Json.asciiBytes_append]
  have hline : Json.asciiBytes (c.line ts) = '{' :: t := ht
  rw [hline]
  exact Json.clean_join h hclean

theorem CleanLedger.take {b : Bytes} (h : CleanLedger b) (n : ℕ) : CleanLedger (b.take n) := by
  rw [CleanLedger,← List.take_append_drop n b,Json.asciiBytes_append] at h
  exact Json.clean_front h

section Scan
variable {host : Host} {day month : String} {t t' : Totals} {record : List (String × Json)}

theorem tokensOf_nonneg {n : ℤ} (hk : Json.Kept tokensName record) (h : tokensOf host record = some n) : 0 ≤ n := by
  have hvalue : ∀ v, record.lookup "tokens" = some v → Json.natural v = true := by
    intro v hv
    obtain ⟨l₁,l₂,hl,-⟩ := List.lookup_eq_some_iff.mp hv
    exact hk v (hl ▸ by simp [tokensName])
  unfold tokensOf at h
  cases hv : record.lookup "tokens" with
  | none =>
    rw [hv] at h
    cases h
    exact le_rfl
  | some v =>
    have hnat := hvalue v hv
    rw [hv] at h
    cases v with
    | int i =>
      cases h
      exact of_decide_eq_true hnat
    | bool b =>
      cases b <;> cases h <;> decide
    | float f => cases hnat
    | _ =>
      cases h
      exact le_rfl

theorem countRecord_atLeast (hk : Json.Kept tokensName record) (h : countRecord host day month t record = some t') :
    Counter.AtLeast t'.agentTokens t.agentTokens := by
  unfold countRecord at h
  split at h
  · cases h
    exact .refl _
  · obtain ⟨n,hn,rfl⟩ := Option.map_eq_some_iff.mp h
    have hpos := tokensOf_nonneg hk hn
    unfold Totals.add
    simp only
    split
    · exact Counter.add_atLeast hpos
    · exact .refl _

theorem scan_atLeast {records : List (List (String × Json))} (hk : ∀ r ∈ records, Json.Kept tokensName r)
    (h : records.foldlM (countRecord host day month) t = some t') : Counter.AtLeast t'.agentTokens t.agentTokens := by
  induction records generalizing t with
  | nil =>
    cases h
    exact .refl _
  | cons r rest ih =>
    rw [List.foldlM_cons] at h
    obtain ⟨u,hu,hrest⟩ := Option.bind_eq_some_iff.mp h
    exact (ih (fun r hr => hk r (List.mem_cons_of_mem _ hr)) hrest).trans (countRecord_atLeast (hk r List.mem_cons_self) hu)

theorem mem_asDict {vs : List Json} (h : record ∈ vs.filterMap BudgetLedger.asDict) : Json.obj record ∈ vs := by
  obtain ⟨v,hv,he⟩ := List.mem_filterMap.mp h
  cases v with
  | obj fields =>
    cases he
    exact hv
  | _ => cases he

theorem tailScan_atLeast {cp : BudgetCheckpoint} {file : Option Bytes} (hc : CleanLedger (file.getD []))
    (h : BudgetTracker.tailScan host cp file day month = some t) : Counter.AtLeast t.agentTokens cp.agentTokens := by
  have hk : ∀ r ∈ BudgetLedger.iterRecordsFrom file cp.anchorByteOffset, Json.Kept tokensName r := by
    intro r hr
    cases file with
    | none => cases hr
    | some b => exact Json.kept_byteValues hc _ (mem_asDict hr)
  exact scan_atLeast hk h

theorem fullScan_nonneg {file : Option Bytes} (hc : CleanLedger (file.getD []))
    (h : BudgetTracker.fullScan host file day month = some t) (a : String) : 0 ≤ Counter.total t.agentTokens a := by
  obtain ⟨records,hrecords,h⟩ := Option.bind_eq_some_iff.mp h
  have hk : ∀ r ∈ records, Json.Kept tokensName r := by
    intro r hr
    cases file with
    | none =>
      cases hrecords
      cases hr
    | some b =>
      obtain ⟨vs,hvs,rfl⟩ := Option.map_eq_some_iff.mp hrecords
      exact Json.kept_textValues hc hvs (mem_asDict hr)
  exact scan_atLeast hk h a

/-- A start does not go below a checkpoint unless the ledger is another one. -/
theorem hydrate_atLeast {cp : BudgetCheckpoint} {file : Option Bytes} {now : ℤ} {tracker : BudgetTracker}
    (hc : CleanLedger (file.getD [])) (hv : verifyAnchor host cp file ≠ .invalid)
    (h : BudgetTracker.hydrate host (some cp) file now = some tracker) :
    Counter.AtLeast tracker.agentTokens cp.agentTokens := by
  simp only [BudgetTracker.hydrate] at h
  split at h
  · obtain ⟨t,ht,rfl⟩ := Option.map_eq_some_iff.mp h
    exact tailScan_atLeast hc ht
  rename_i hvalid
  split at h
  · obtain ⟨t,ht,rfl⟩ := Option.map_eq_some_iff.mp h
    exact Counter.floorMerge_floor _ _ (fullScan_nonneg hc ht)
  · rename_i hfloors
    cases hs : verifyAnchor host cp file with
    | valid => exact absurd hs hvalid
    | invalid => exact absurd hs hv
    | _ => rw [hs] at hfloors; exact absurd rfl hfloors

end Scan

/-! ## Runs -/

namespace BudgetWorld
variable {host : Host} {w w' : BudgetWorld}

/-- The ledger may be cut or deleted; the checkpoint stays in place, and no reset is asked for. -/
def LedgerAlone : BudgetAction → Prop
  | .reset | .deleteCheckpoint | .restoreCheckpoint _ => False
  | _ => True

/-- No start finds a ledger with another first line. -/
def SameLedger (host : Host) (w : BudgetWorld) (a : BudgetAction) : Prop :=
  LedgerAlone a ∧ match a with
    | .restart _ _ _ => ∀ cp ∈ w.checkpoint, verifyAnchor host cp w.ledger ≠ .invalid
    | _ => True

/-- Neither the checkpoint on disk nor the running process is below any checkpoint written so far. -/
structure Floored (w : BudgetWorld) : Prop where
  clean : CleanLedger (w.ledger.getD [])
  disk : ∀ c ∈ w.written, ∃ cp ∈ w.checkpoint, Counter.AtLeast cp.agentTokens c.agentTokens
  memory : ∀ t ∈ w.tracker, ∀ c ∈ w.written, Counter.AtLeast t.agentTokens c.agentTokens

namespace Floored

theorem init : (BudgetWorld.init).Floored := ⟨rfl,nofun,nofun⟩

theorem withTracker (h : w.Floored) {t : Option BudgetTracker}
    (ht : ∀ u ∈ t, ∀ c ∈ w.written, Counter.AtLeast u.agentTokens c.agentTokens) : (w.withTracker t).Floored :=
  ⟨h.clean,h.disk,ht⟩

theorem read (h : w.Floored) (now : ℤ) : (w.read host now).Floored := ⟨h.clean,h.disk,h.memory⟩

theorem stopped (h : w.Floored) : (w.withTracker none).Floored := h.withTracker nofun

/-- A checkpoint of counters that are above every earlier one. -/
theorem withCheckpoint (h : w.Floored) {saved : Option BudgetCheckpoint}
    (hs : ∀ cp ∈ saved, ∀ c ∈ w.written, Counter.AtLeast cp.agentTokens c.agentTokens)
    (hm : ∀ cp ∈ saved, ∀ t ∈ w.tracker, Counter.AtLeast t.agentTokens cp.agentTokens) : (w.withCheckpoint saved).Floored := by
  cases saved with
  | none => exact h
  | some cp =>
    refine ⟨h.clean,fun c hc => ?_,fun t ht c hc => ?_⟩
    · refine ⟨cp,rfl,?_⟩
      rcases List.mem_append.mp hc with hc | hc
      · exact hs cp rfl c hc
      · rw [List.mem_singleton.mp hc]
        exact .refl _
    · rcases List.mem_append.mp hc with hc | hc
      · exact h.memory t ht c hc
      · rw [List.mem_singleton.mp hc]
        exact hm cp rfl t ht

theorem appended (h : w.Floored) {b : Bytes} (hb : CleanLedger (w.ledger.getD [] ++ b)) : (w.appended b).Floored :=
  ⟨hb,h.disk,h.memory⟩

theorem record (h : w.Floored) {t : BudgetTracker} (ht : w.tracker = some t) (c : LlmCall) (now stamp : ℤ) (save : AutoSave) :
    (w.record host t c now stamp save).Floored := by
  have hmore : Counter.AtLeast (t.count host c now).agentTokens t.agentTokens := by
    rw [BudgetTracker.count]
    simp only
    split
    · exact Counter.add_atLeast (Int.natCast_nonneg _)
    · exact .refl _
  have hmemory : ∀ d ∈ w.written, Counter.AtLeast (t.count host c now).agentTokens d.agentTokens := fun d hd =>
    hmore.trans (h.memory t ht d hd)
  have hline : CleanLedger (w.ledger.getD [] ++ c.line (nowIso host.zone stamp)) := h.clean.append c _
  have hcounted : ((((w.read host now).appended (c.line (nowIso host.zone stamp))).ack c (nowIso host.zone stamp)).withTracker
      (some (t.count host c now))).Floored := by
    refine ⟨hline,h.disk,?_⟩
    rintro u ⟨⟩ d hd
    exact hmemory d hd
  rw [BudgetWorld.record]
  cases save with
  | skipped => exact hcounted
  | state => exact ⟨hcounted.clean,hcounted.disk,hcounted.memory⟩
  | checkpoint =>
    have hsaved : (((((w.read host now).appended (c.line (nowIso host.zone stamp))).ack c (nowIso host.zone stamp)).withTracker
        (some (t.count host c now))).saveState (t.count host c now)).Floored :=
      ⟨hcounted.clean,hcounted.disk,hcounted.memory⟩
    rw [BudgetWorld.autoSave]
    refine hsaved.withCheckpoint ?_ ?_
    · intro cp hcp d hd
      obtain ⟨_,-,rfl⟩ := Option.map_eq_some_iff.mp hcp
      exact hmemory d hd
    · rintro cp hcp u ⟨⟩
      obtain ⟨_,-,rfl⟩ := Option.map_eq_some_iff.mp hcp
      exact .refl _

theorem hydrated (h : w.Floored) {now : ℤ} {t : BudgetTracker} (hv : ∀ cp ∈ w.checkpoint, verifyAnchor host cp w.ledger ≠ .invalid)
    (ht : BudgetTracker.hydrate host w.checkpoint w.ledger now = some t) :
    ∀ c ∈ w.written, Counter.AtLeast t.agentTokens c.agentTokens := by
  intro c hc
  obtain ⟨cp,hcp,hle⟩ := h.disk c hc
  have hcp' : w.checkpoint = some cp := hcp
  rw [hcp'] at ht
  exact (hydrate_atLeast h.clean (hv cp hcp) ht).trans hle

theorem restart (h : w.Floored) {t : BudgetTracker} (ht : ∀ c ∈ w.written, Counter.AtLeast t.agentTokens c.agentTokens)
    (hw : w.tracker = none) (now : ℤ) (refresh load : Bool) : (w.restart host t now refresh load).Floored := by
  have hload : Counter.AtLeast (if load then t.loadState w.state else t).agentTokens t.agentTokens := by
    split
    · unfold BudgetTracker.loadState
      split
      · exact .refl _
      · exact Counter.loadState_atLeast _ _
    · exact .refl _
  have hsaved : ∀ cp ∈ (if refresh then t.writeCheckpoint host w.ledger t.floorReason else none),
      cp.agentTokens = t.agentTokens := by
    intro cp hcp
    split at hcp
    · obtain ⟨_,-,rfl⟩ := Option.map_eq_some_iff.mp hcp
      rfl
    · cases hcp
  rw [BudgetWorld.restart]
  generalize hs : (if refresh then t.writeCheckpoint host w.ledger t.floorReason else none) = saved at hsaved
  refine withTracker ((h.read now).withCheckpoint (fun cp hcp c hc => ?_) fun cp hcp u hu => ?_) ?_
  · rw [hsaved cp hcp]
    exact ht c hc
  · have hnone : (w.read host now).tracker = none := hw
    rw [hnone] at hu
    cases hu
  · rintro u ⟨⟩ c hc
    cases saved with
    | none => exact hload.trans (ht c hc)
    | some cp =>
      rcases List.mem_append.mp hc with hc | hc
      · exact hload.trans (ht c hc)
      · rw [List.mem_singleton.mp hc,hsaved cp rfl]
        exact hload

theorem step {a : BudgetAction} (h : w.Floored) (hg : SameLedger host w a) (hw : BudgetWorld.step host w a = some w') :
    w'.Floored := by
  cases a with
  | record c now stamp save =>
    obtain ⟨t,ht,rfl⟩ := Option.map_eq_some_iff.mp hw
    exact h.record ht c now stamp save
  | tear c now stamp n =>
    obtain ⟨-,hw⟩ := Option.ite_none_right_eq_some.mp hw
    cases hw
    refine stopped (h.appended ?_)
    have hline : CleanLedger (w.ledger.getD [] ++ c.line (nowIso host.zone stamp)) := h.clean.append c _
    have htake := hline.take ((w.ledger.getD []).length + n)
    rwa [List.take_length_add_append] at htake
  | check now =>
    obtain ⟨t,ht,rfl⟩ := Option.map_eq_some_iff.mp hw
    refine (h.read now).withTracker ?_
    rintro u ⟨⟩ c hc
    exact h.memory t ht c hc
  | reset => exact hg.1.elim
  | crash =>
    cases hw
    exact h.stopped
  | restart now refresh load =>
    obtain ⟨hnone,hw⟩ := Option.ite_none_right_eq_some.mp hw
    obtain ⟨t,ht,rfl⟩ := Option.map_eq_some_iff.mp hw
    exact h.restart (h.hydrated hg.2 ht) (Option.isNone_iff_eq_none.mp hnone) now refresh load
  | cut n =>
    obtain ⟨-,hw⟩ := Option.ite_none_right_eq_some.mp hw
    cases hw
    refine ⟨?_,h.disk,h.memory⟩
    cases hl : w.ledger with
    | none => exact rfl
    | some b =>
      have hclean := h.clean
      rw [hl] at hclean
      exact hclean.take n
  | deleteLedger =>
    obtain ⟨-,hw⟩ := Option.ite_none_right_eq_some.mp hw
    cases hw
    exact ⟨rfl,h.disk,h.memory⟩
  | deleteCheckpoint => exact hg.1.elim
  | restoreCheckpoint i => exact hg.1.elim

end Floored

/-- Every start of such a run is at or above every checkpoint written before it. -/
theorem hydrate_keeps_checkpoints (host : Host) (hr : Runs (BudgetWorld.step host) (SameLedger host) init w) (now : ℤ)
    (hv : ∀ cp ∈ w.checkpoint, verifyAnchor host cp w.ledger ≠ .invalid) {t : BudgetTracker}
    (ht : BudgetTracker.hydrate host w.checkpoint w.ledger now = some t) :
    ∀ cp ∈ w.written, ∀ a, Counter.total cp.agentTokens a ≤ Counter.total t.agentTokens a := by
  have hinv : w.Floored := hr.invariant Floored.init fun _ _ _ h hg hs => h.step hg hs
  exact hinv.hydrated hv ht

def sameLedgerOk (host : Host) (w : BudgetWorld) : BudgetAction → Bool
  | .reset | .deleteCheckpoint | .restoreCheckpoint _ => false
  | .restart _ _ _ => w.checkpoint.all fun cp => verifyAnchor host cp w.ledger != .invalid
  | _ => true

theorem sameLedgerOk_spec (host : Host) (w : BudgetWorld) (a : BudgetAction) (h : sameLedgerOk host w a = true) :
    SameLedger host w a := by
  cases a with
  | restart now refresh load =>
    refine ⟨trivial,fun cp hcp => ?_⟩
    have hall := (Option.all_eq_true _ _).mp h cp hcp
    simpa using hall
  | reset => cases h
  | deleteCheckpoint => cases h
  | restoreCheckpoint i => cases h
  | _ => exact ⟨trivial,trivial⟩

/-- A process records a call and saves, and the ledger is deleted. -/
def lostLedger : List BudgetAction :=
  [.restart 0 true false,.record (sampleCall "alice" 100) 0 0 .checkpoint,.crash,.deleteLedger]

/-- The floor holds at the first start after the ledger was deleted. -/
theorem hydrate_keeps_checkpoints_lost : ∃ w t,
    Runs (BudgetWorld.step sampleHost) (SameLedger sampleHost) init w ∧ w.ledger = none ∧ w.written ≠ [] ∧
      BudgetTracker.hydrate sampleHost w.checkpoint w.ledger 0 = some t ∧
      ∀ cp ∈ w.written, ∀ a, Counter.total cp.agentTokens a ≤ Counter.total t.agentTokens a := by
  have hview : (runChecked (BudgetWorld.step sampleHost) (sameLedgerOk sampleHost) init lostLedger).map (fun w =>
      w.ledger.isNone && !w.written.isEmpty && w.checkpoint.all (fun cp => verifyAnchor sampleHost cp w.ledger != .invalid) &&
        (BudgetTracker.hydrate sampleHost w.checkpoint w.ledger 0).isSome) = some true := by
    decide_cbv
  obtain ⟨w,hw,hv⟩ := Option.map_eq_some_iff.mp hview
  simp only [Bool.and_eq_true,Option.isNone_iff_eq_none,Bool.not_eq_true',List.isEmpty_eq_false_iff] at hv
  obtain ⟨⟨⟨hledger,hwritten⟩,hanchor⟩,hstart⟩ := hv
  obtain ⟨t,ht⟩ := Option.isSome_iff_exists.mp hstart
  have hr := Runs.of_runChecked (.refl _) (sameLedgerOk_spec sampleHost) hw
  have hok : ∀ cp ∈ w.checkpoint, verifyAnchor sampleHost cp w.ledger ≠ .invalid := fun cp hcp => by
    simpa using (Option.all_eq_true _ _).mp hanchor cp hcp
  exact ⟨w,t,hr,hledger,hwritten,ht,hydrate_keeps_checkpoints sampleHost hr 0 hok ht⟩

/-- On a ledger taken for another one a start counts its lines and nothing else. -/
theorem hydrate_invalid (host : Host) {cp : BudgetCheckpoint} {l : List Entry} (now : ℤ)
    (hi : verifyAnchor host cp (some (linesOf l)) = .invalid) (h : ∀ e ∈ l, ∃ ts, parseIsoTs e.2 = some ts) :
    ∃ t, BudgetTracker.hydrate host (some cp) (some (linesOf l)) now = some t ∧
      ∀ a, Counter.total t.agentTokens a = spent (ofAgent a) l := by
  obtain ⟨u,hscan,hagents⟩ := fullScan_lines host (dayKey host.zone now) (monthKey host.zone now) h
  refine ⟨BudgetTracker.ofTotals u (dayKey host.zone now) (monthKey host.zone now) none,?_,hagents⟩
  simp only [BudgetTracker.hydrate,hi,hscan]
  rfl

/-- The next process starts a ledger of its own and ends before it saves. -/
def newLedger : List BudgetAction :=
  lostLedger ++ [.restart 0 true false,.record (sampleCall "bob" 5) 0 0 .skipped,.crash]

def newLedgerRun : Computed (runAll (BudgetWorld.step sampleHost) init newLedger) (fun w =>
    (w.checkpoint.any fun cp => Counter.total cp.agentTokens "alice" == 100 &&
        verifyAnchor sampleHost cp w.ledger == .invalid) &&
      w.ledger == some (linesOf (w.acked.drop 1)) && (w.acked.drop 1).all (fun e => (parseIsoTs e.2).isSome) &&
      spent (ofAgent "alice") (w.acked.drop 1) == 0) :=
  .of _ _ (by decide +kernel)

/-- The start after that takes the ledger for another one and drops the floor. -/
theorem new_ledger_drops_floor : ¬ ∀ (host : Host) (w : BudgetWorld) (now : ℤ) (t : BudgetTracker),
    Runs (BudgetWorld.step host) (fun _ a => LedgerAlone a) init w →
    BudgetTracker.hydrate host w.checkpoint w.ledger now = some t →
    ∀ cp ∈ w.checkpoint, ∀ a, Counter.total cp.agentTokens a ≤ Counter.total t.agentTokens a := by
  intro hall
  obtain ⟨w,hw,hv⟩ := newLedgerRun
  simp only [Bool.and_eq_true,Option.any_eq_true,beq_iff_eq,List.all_eq_true,Option.isSome_iff_exists] at hv
  obtain ⟨⟨⟨⟨cp,hcp,hhundred,hinvalid⟩,hledger⟩,hstamps⟩,hspent⟩ := hv
  rw [hledger] at hinvalid
  obtain ⟨t,ht,hagents⟩ := hydrate_invalid sampleHost 0 hinvalid hstamps
  rw [← hledger,← hcp] at ht
  have hactions : ∀ a ∈ newLedger, ∀ w : BudgetWorld, LedgerAlone a := by
    intro a ha _
    simp only [newLedger,lostLedger,List.cons_append,List.nil_append,List.mem_cons,List.not_mem_nil,or_false] at ha
    rcases ha with rfl | rfl | rfl | rfl | rfl | rfl | rfl <;> trivial
  have hle := hall sampleHost w 0 t (.of_runAll (.refl _) hactions hw) ht cp hcp "alice"
  rw [hhundred,hagents,hspent] at hle
  exact absurd hle (by decide)

end BudgetWorld
end Reyn
