import Reyn.Runtime.BudgetFloor

/-! # The acknowledged spend

On a ledger of whole lines the prefix that a checkpoint sums up and the tail after it are
the whole ledger, so the fast start and the full scan agree with the calls recorded.
-/
namespace Reyn
open Py Transition

/-! ## Positions in the ledger -/

section Positions
variable {host : Host} {b : Bytes} {t : BudgetTracker}

theorem lastLineStart_lt (h : b ≠ []) : BudgetLedger.lastLineStart b < b.length := by
  have hpos : 0 < b.length := List.length_pos_iff.mpr h
  rw [BudgetLedger.lastLineStart]
  by_cases hlast : b.getLast? = some 10
  · simp only [if_pos hlast,List.length_dropLast]
    omega
  · simp only [if_neg hlast]
    obtain ⟨init,x,rfl⟩ : ∃ init x, b = init ++ [x] := ⟨b.dropLast,b.getLast h,(List.dropLast_append_getLast h).symm⟩
    have hx : x ≠ 10 := by
      rintro rfl
      exact hlast (by simp)
    have htake : 1 ≤ ((init ++ [x]).reverse.takeWhile (· ≠ 10)).length := by
      rw [List.reverse_append,List.reverse_singleton,List.singleton_append,List.takeWhile_cons_of_pos (by simpa using hx)]
      simp
    omega

/-- A checkpoint is anchored where it is written. -/
theorem writeCheckpoint_spec {reason : Option AnchorStatus} {cp : BudgetCheckpoint}
    (h : t.writeCheckpoint host (some b) reason = some cp) : cp.agentTokens = t.agentTokens ∧ cp.dayKey = t.dayKey ∧
      cp.dailyTokens = t.dailyTokens ∧ cp.monthKey = t.monthKey ∧ cp.monthlyTokens = t.monthlyTokens ∧
      cp.anchorByteOffset = b.length ∧ cp.anchorOk host b = true := by
  cases b with
  | nil => cases h
  | cons x xs =>
    have hlt := lastLineStart_lt (List.cons_ne_nil x xs)
    cases h
    refine ⟨rfl,rfl,rfl,rfl,rfl,rfl,?_⟩
    have hback : (x :: xs).length - ((x :: xs).drop (BudgetLedger.lastLineStart (x :: xs))).length =
        BudgetLedger.lastLineStart (x :: xs) := by
      rw [List.length_drop]
      omega
    simp only [BudgetCheckpoint.anchorOk,hback,List.take_length,Bool.and_eq_true,decide_eq_true_eq,beq_self_eq_true,
      and_true]
    rw [List.length_drop]
    omega

/-- An anchor holds while the ledger only grows. -/
theorem anchorOk_append {cp : BudgetCheckpoint} (h : cp.anchorOk host b = true) (more : Bytes) :
    cp.anchorOk host (b ++ more) = true := by
  simp only [BudgetCheckpoint.anchorOk,Bool.and_eq_true,decide_eq_true_eq] at h ⊢
  obtain ⟨⟨hpos,hle,hlen⟩,hbuf⟩ := h
  refine ⟨⟨hpos,hle,?_⟩,?_⟩
  · rw [List.length_append]
    omega
  · rw [List.drop_append_of_le_length (by omega),List.take_append_of_le_length (by rw [List.length_drop]; omega)]
    exact hbuf

theorem anchorOk_ne_nil {cp : BudgetCheckpoint} (h : cp.anchorOk host b = true) : b ≠ [] := by
  rintro rfl
  simp only [BudgetCheckpoint.anchorOk,Bool.and_eq_true,decide_eq_true_eq,List.length_nil] at h
  omega

theorem anchorOk_le {cp : BudgetCheckpoint} (h : cp.anchorOk host b = true) : cp.anchorByteOffset ≤ b.length := by
  simp only [BudgetCheckpoint.anchorOk,Bool.and_eq_true,decide_eq_true_eq] at h
  exact h.1.2.2

theorem verifyAnchor_valid {cp : BudgetCheckpoint} (h : cp.anchorOk host b = true) :
    verifyAnchor host cp (some b) = .valid := by
  cases b with
  | nil => exact absurd rfl (anchorOk_ne_nil h)
  | cons x xs => exact if_pos h

/-- The ledger ends with a whole line, or is empty. -/
def EndsClean (file : Option Bytes) : Prop := ∀ b ∈ file, b = [] ∨ b.getLast? = some 10

theorem line_getLast? (c : LlmCall) (ts : String) : (c.line ts).getLast? = some 10 := by
  have hline : c.line ts = encode (Json.obj (c.record ts)).text ++ [10] := by
    rw [LlmCall.line,jsonLine,encode_append]
    rfl
  rw [hline]
  simp

end Positions

/-! ## Runs -/

namespace BudgetWorld
variable {host : Host} {w w' : BudgetWorld}

/-- The keys of a time are the ones the clock gave last, or no call has been recorded under them. -/
structure Forward (host : Host) (w : BudgetWorld) (now : ℤ) : Prop where
  day : w.period.map Prod.fst = some (dayKey host.zone now) ∨ ∀ e ∈ w.acked, onDay host.zone (dayKey host.zone now) e = false
  month : w.period.map Prod.snd = some (monthKey host.zone now) ∨
    ∀ e ∈ w.acked, inMonth host.zone (monthKey host.zone now) e = false

/-- The timestamp of the line reads back in the day and the month of the period counters. -/
def SamePeriod (host : Host) (now stamp : ℤ) : Prop := ∃ ts, parseIsoTs (nowIso host.zone stamp) = some ts ∧
  dayKey host.zone ts = dayKey host.zone now ∧ monthKey host.zone ts = monthKey host.zone now

/-- The text after the last newline of the ledger. -/
def tornTail (b : Bytes) : Bytes := (b.reverse.takeWhile (· ≠ 10)).reverse

/-- What crashes left of lines reads as nothing, from its beginning and from an anchor inside of it. -/
structure TornUnread (file : Option Bytes) (cp : Option BudgetCheckpoint) : Prop where
  whole : Unread (tornTail (file.getD []))
  inside : ∀ c ∈ cp, (file.getD []).length - (tornTail (file.getD [])).length < c.anchorByteOffset →
    BudgetLedger.iterRecordsFrom file c.anchorByteOffset = []

/-- Nothing is reset, no file is edited, every append that comes to its end begins on a new line, what
crashes left of lines reads as nothing at a start, and the clock neither goes back nor passes midnight
within a call. -/
def Regular (host : Host) (w : BudgetWorld) : BudgetAction → Prop
  | .record _ now stamp _ => EndsClean w.ledger ∧ Forward host w now ∧ SamePeriod host now stamp
  | .check now => Forward host w now
  | .restart now _ _ => Forward host w now ∧ TornUnread w.ledger w.checkpoint
  | .reset | .cut _ | .deleteLedger => False
  | .tear _ _ _ _ | .crash | .deleteCheckpoint | .restoreCheckpoint _ => True

/-- A checkpoint sums up the calls up to its anchor. -/
structure Anchored (host : Host) (w : BudgetWorld) (cp : BudgetCheckpoint) (front back : List Entry) : Prop where
  split : w.acked = front ++ back
  agents : ∀ a, Counter.total cp.agentTokens a = spent (ofAgent a) front
  daily : ∃ day, cp.dayKey = some day ∧ cp.dailyTokens = spent (onDay host.zone day) front ∧
    ∀ d, w.period.map Prod.fst = some d → d ≠ day → ∀ e ∈ front, onDay host.zone d e = false
  monthly : ∃ month, cp.monthKey = some month ∧ cp.monthlyTokens = spent (inMonth host.zone month) front ∧
    ∀ m, w.period.map Prod.snd = some m → m ≠ month → ∀ e ∈ front, inMonth host.zone m e = false
  offset : cp.anchorByteOffset = (linesOf front).length ∨ (back = [] ∧ (linesOf front).length < cp.anchorByteOffset)
  anchor : cp.anchorOk host (w.ledger.getD []) = true

/-- The process holds the sums over all calls. -/
structure Holds (host : Host) (w : BudgetWorld) (t : BudgetTracker) : Prop where
  agents : ∀ a, Counter.total t.agentTokens a = spent (ofAgent a) w.acked
  daily : ∃ day, w.period.map Prod.fst = some day ∧ t.dayKey = some day ∧ t.dailyTokens = spent (onDay host.zone day) w.acked
  monthly : ∃ month, w.period.map Prod.snd = some month ∧ t.monthKey = some month ∧
    t.monthlyTokens = spent (inMonth host.zone month) w.acked

structure Booked (host : Host) (w : BudgetWorld) : Prop where
  lines : ∃ torn, w.ledger.getD [] = linesOf w.acked ++ torn ∧ (10 : UInt8) ∉ torn
  stamps : ∀ e ∈ w.acked, ∃ ts, parseIsoTs e.2 = some ts
  written : ∀ cp ∈ w.written, ∃ front back, Anchored host w cp front back
  disk : ∀ cp ∈ w.checkpoint, cp ∈ w.written
  memory : ∀ t ∈ w.tracker, Holds host w t
  state : ∀ s ∈ w.state, ∀ a, Counter.total s a ≤ spent (ofAgent a) w.acked

section Ends
variable {l : List Entry} {torn : Bytes}

theorem linesOf_ends (h : l ≠ []) : (linesOf l).getLast? = some 10 := by
  obtain ⟨init,e,rfl⟩ : ∃ init e, l = init ++ [e] := ⟨l.dropLast,l.getLast h,(List.dropLast_append_getLast h).symm⟩
  have hone : linesOf [e] = e.1.line e.2 := List.flatMap_singleton _ _
  rw [linesOf_append,hone,List.getLast?_append,line_getLast?]
  rfl

theorem linesOf_eq_nil (h : linesOf l = []) : l = [] := by
  by_contra hne
  have hlast := linesOf_ends hne
  rw [h] at hlast
  cases hlast

theorem tornTail_lines (h : (10 : UInt8) ∉ torn) : tornTail (linesOf l ++ torn) = torn := by
  have hall : ∀ x ∈ torn.reverse, decide (x ≠ 10) = true := by
    intro x hx
    rw [decide_eq_true_eq]
    rintro rfl
    exact h (List.mem_reverse.mp hx)
  rw [tornTail,List.reverse_append,List.takeWhile_append_of_pos hall]
  have hstop : (linesOf l).reverse.takeWhile (· ≠ 10) = [] := by
    cases l with
    | nil => rfl
    | cons e l =>
      have hlast := linesOf_ends (List.cons_ne_nil e l)
      rw [List.getLast?_eq_head?_reverse] at hlast
      obtain ⟨rest,hrest⟩ := List.head?_eq_some_iff.mp hlast
      rw [hrest]
      rfl
  rw [hstop,List.append_nil,List.reverse_reverse]

/-- On a new line there is no torn text. -/
theorem torn_of_endsClean {file : Option Bytes} (hc : EndsClean file) (hb : file.getD [] = linesOf l ++ torn)
    (h : (10 : UInt8) ∉ torn) : torn = [] := by
  by_contra hne
  have hlast : (linesOf l ++ torn).getLast? ≠ some 10 := by
    rw [List.getLast?_append_of_ne_nil _ hne]
    intro hsome
    exact h (List.mem_of_getLast? hsome)
  cases file with
  | none =>
    have hnil : linesOf l ++ torn = [] := hb.symm
    exact hne (List.append_eq_nil_iff.mp hnil).2
  | some b =>
    have hb : b = linesOf l ++ torn := hb
    rcases hc b rfl with hnil | hsome
    · rw [hb] at hnil
      exact hne (List.append_eq_nil_iff.mp hnil).2
    · rw [hb] at hsome
      exact hlast hsome

end Ends

namespace Booked
variable {t : BudgetTracker} {now : ℤ}

theorem init : Booked host BudgetWorld.init := ⟨⟨[],rfl,by simp⟩,nofun,nofun,nofun,nofun,nofun⟩

/-- The records of the whole ledger. -/
theorem fullScan (h : Booked host w) (hu : Unread (tornTail (w.ledger.getD []))) :
    BudgetLedger.iterRecords w.ledger = some (w.acked.map fun e => e.1.record e.2) := by
  obtain ⟨torn,hb,ht⟩ := h.lines
  rw [hb,tornTail_lines ht] at hu
  cases hl : w.ledger with
  | none =>
    rw [hl] at hb
    have hnil : linesOf w.acked ++ torn = [] := hb.symm
    rw [linesOf_eq_nil (List.append_eq_nil_iff.mp hnil).1]
    rfl
  | some b =>
    rw [hl] at hb
    have hb : b = linesOf w.acked ++ torn := hb
    rw [hb]
    exact iterRecords_lines hu w.acked

/-- The records after an anchor. -/
theorem tailScan (h : Booked host w) {cp : BudgetCheckpoint} (hu : TornUnread w.ledger (some cp)) {front back : List Entry}
    (ha : Anchored host w cp front back) :
    BudgetLedger.iterRecordsFrom w.ledger cp.anchorByteOffset = back.map fun e => e.1.record e.2 := by
  obtain ⟨torn,hb,ht⟩ := h.lines
  obtain ⟨hwhole,hinside⟩ := hu
  rw [hb,tornTail_lines ht] at hwhole hinside
  have hdrop : ∀ b n, BudgetLedger.iterRecordsFrom (some b) n = BudgetLedger.iterRecordsFrom (some (b.drop n)) 0 :=
    fun _ _ => rfl
  cases hl : w.ledger with
  | none =>
    have hok := ha.anchor
    rw [hl] at hok
    exact absurd rfl (anchorOk_ne_nil hok)
  | some b =>
    rw [hl] at hb hinside
    have hb : b = linesOf w.acked ++ torn := hb
    rcases ha.offset with ho | ⟨rfl,ho⟩
    · rw [hdrop,ho,hb,ha.split,linesOf_append,List.append_assoc,List.drop_left]
      exact iterRecordsFrom_lines hwhole back
    · refine hinside cp rfl ?_
      rw [ha.split,List.append_nil,List.length_append]
      omega

/-- What a start finds, with a checkpoint of any earlier point or without one. -/
theorem hydrate (h : Booked host w) (hf : Forward host w now) {cp : Option BudgetCheckpoint}
    (hu : TornUnread w.ledger cp) (hcp : ∀ c ∈ cp, c ∈ w.written) :
    ∃ t, BudgetTracker.hydrate host cp w.ledger now = some t ∧ Holds host (w.read host now) t := by
  -- the totals of the two scans
  have hholds : ∀ (totals : Totals), (∀ a, Counter.total totals.agentTokens a = spent (ofAgent a) w.acked) →
      totals.dailyTokens = spent (onDay host.zone (dayKey host.zone now)) w.acked →
      totals.monthlyTokens = spent (inMonth host.zone (monthKey host.zone now)) w.acked →
      Holds host (w.read host now)
        (BudgetTracker.ofTotals totals (dayKey host.zone now) (monthKey host.zone now) none) :=
    fun totals hagents hdaily hmonthly => ⟨hagents,⟨_,rfl,rfl,hdaily⟩,⟨_,rfl,rfl,hmonthly⟩⟩
  cases cp with
  | none =>
    obtain ⟨u,hscan,hagents,hdaily,hmonthly⟩ := scan_lines host (dayKey host.zone now)
      (monthKey host.zone now) h.stamps ⟨.empty,0,0⟩
    have hfull : BudgetTracker.fullScan host w.ledger (dayKey host.zone now) (monthKey host.zone now) = some u := by
      rw [BudgetTracker.fullScan,h.fullScan hu.whole,Option.bind_some,hscan]
    refine ⟨_,congrArg (Option.map _) hfull,hholds u (fun a => ?_) ?_ ?_⟩
    · rw [hagents]
      exact zero_add _
    · rw [hdaily]
      exact zero_add _
    · rw [hmonthly]
      exact zero_add _
  | some cp =>
    obtain ⟨front,back,ha⟩ := h.written cp (hcp cp rfl)
    have hstamps : ∀ e ∈ back, ∃ ts, parseIsoTs e.2 = some ts := fun e he =>
      h.stamps e (ha.split ▸ List.mem_append_right _ he)
    obtain ⟨u,hscan,hagents,hdaily,hmonthly⟩ := scan_lines host (dayKey host.zone now)
      (monthKey host.zone now) hstamps (BudgetTracker.seed cp (dayKey host.zone now) (monthKey host.zone now))
    have htail : BudgetTracker.tailScan host cp w.ledger (dayKey host.zone now) (monthKey host.zone now) = some u := by
      rw [BudgetTracker.tailScan,h.tailScan hu ha,hscan]
    have hvalid : verifyAnchor host cp w.ledger = .valid := by
      have hok := ha.anchor
      cases hl : w.ledger with
      | none =>
        rw [hl] at hok
        exact absurd rfl (anchorOk_ne_nil hok)
      | some b =>
        rw [hl] at hok
        exact verifyAnchor_valid hok
    have hstart : BudgetTracker.hydrate host (some cp) w.ledger now =
        some (BudgetTracker.ofTotals u (dayKey host.zone now) (monthKey host.zone now) none) := by
      simp only [BudgetTracker.hydrate,hvalid,if_true,htail,Option.map_some]
    -- the period totals of the checkpoint are those of its calls in the current period
    have hseedDaily : (BudgetTracker.seed cp (dayKey host.zone now) (monthKey host.zone now)).dailyTokens =
        spent (onDay host.zone (dayKey host.zone now)) front := by
      obtain ⟨day,hkey,hsum,hother⟩ := ha.daily
      rw [BudgetTracker.seed,hkey]
      by_cases hday : day = dayKey host.zone now
      · rw [if_pos (congrArg some hday),hsum,hday]
      · rw [if_neg fun he => hday (Option.some.inj he)]
        refine (spent_zero fun e he => ?_).symm
        rcases hf.day with hd | hd
        · exact hother _ hd (Ne.symm hday) e he
        · exact hd e (ha.split ▸ List.mem_append_left _ he)
    have hseedMonthly : (BudgetTracker.seed cp (dayKey host.zone now) (monthKey host.zone now)).monthlyTokens =
        spent (inMonth host.zone (monthKey host.zone now)) front := by
      obtain ⟨month,hkey,hsum,hother⟩ := ha.monthly
      rw [BudgetTracker.seed,hkey]
      by_cases hmonth : month = monthKey host.zone now
      · rw [if_pos (congrArg some hmonth),hsum,hmonth]
      · rw [if_neg fun he => hmonth (Option.some.inj he)]
        refine (spent_zero fun e he => ?_).symm
        rcases hf.month with hm | hm
        · exact hother _ hm (Ne.symm hmonth) e he
        · exact hm e (ha.split ▸ List.mem_append_left _ he)
    refine ⟨_,hstart,hholds u (fun a => ?_) ?_ ?_⟩
    · rw [hagents,ha.split,spent_append,← ha.agents]
      rfl
    · rw [hdaily,hseedDaily,ha.split,spent_append]
    · rw [hmonthly,hseedMonthly,ha.split,spent_append]

/-- The clock goes on to another period. -/
theorem read (h : Booked host w) (now : ℤ) (hf : Forward host w now) (ht : w.tracker = none) :
    Booked host (w.read host now) := by
  refine ⟨h.lines,h.stamps,fun cp hcp => ?_,h.disk,?_,h.state⟩
  · obtain ⟨front,back,ha⟩ := h.written cp hcp
    obtain ⟨day,hkey,hsum,hother⟩ := ha.daily
    obtain ⟨month,hkey',hsum',hother'⟩ := ha.monthly
    refine ⟨front,back,ha.split,ha.agents,⟨day,hkey,hsum,?_⟩,⟨month,hkey',hsum',?_⟩,ha.offset,ha.anchor⟩
    · rintro d ⟨⟩ hne e he
      rcases hf.day with hd | hd
      · exact hother _ hd hne e he
      · exact hd e (ha.split ▸ List.mem_append_left _ he)
    · rintro m ⟨⟩ hne e he
      rcases hf.month with hm | hm
      · exact hother' _ hm hne e he
      · exact hm e (ha.split ▸ List.mem_append_left _ he)
  · intro t ht'
    have hnone : (w.read host now).tracker = none := ht
    rw [hnone] at ht'
    cases ht'

theorem withTracker (h : Booked host w) {t : Option BudgetTracker} (ht : ∀ u ∈ t, Holds host w u) : Booked host (w.withTracker t) := by
  refine ⟨h.lines,h.stamps,fun cp hcp => ?_,h.disk,fun u hu => ?_,h.state⟩
  · obtain ⟨front,back,ha⟩ := h.written cp hcp
    exact ⟨front,back,ha.split,ha.agents,ha.daily,ha.monthly,ha.offset,ha.anchor⟩
  · have hholds := ht u hu
    exact ⟨hholds.agents,hholds.daily,hholds.monthly⟩

theorem stopped (h : Booked host w) : Booked host (w.withTracker none) := h.withTracker nofun

/-- The counters after a roll are those of the new period. -/
theorem holds_roll (h : Holds host w t) (hf : Forward host w now) : Holds host (w.read host now) (t.roll host now) := by
  refine ⟨h.agents,⟨_,rfl,rfl,?_⟩,⟨_,rfl,rfl,?_⟩⟩
  · obtain ⟨day,hperiod,hkey,hsum⟩ := h.daily
    show (if t.dayKey = some (dayKey host.zone now) then t.dailyTokens else 0) = _
    by_cases hday : day = dayKey host.zone now
    · rw [hkey,if_pos (congrArg some hday),hsum,hday]
      rfl
    · rw [hkey,if_neg fun he => hday (Option.some.inj he)]
      refine (spent_zero fun e he => ?_).symm
      rcases hf.day with hd | hd
      · exact absurd (Option.some.inj (hperiod.symm.trans hd)) hday
      · exact hd e he
  · obtain ⟨month,hperiod,hkey,hsum⟩ := h.monthly
    show (if t.monthKey = some (monthKey host.zone now) then t.monthlyTokens else 0) = _
    by_cases hmonth : month = monthKey host.zone now
    · rw [hkey,if_pos (congrArg some hmonth),hsum,hmonth]
      rfl
    · rw [hkey,if_neg fun he => hmonth (Option.some.inj he)]
      refine (spent_zero fun e he => ?_).symm
      rcases hf.month with hm | hm
      · exact absurd (Option.some.inj (hperiod.symm.trans hm)) hmonth
      · exact hm e he

/-- A whole line at the end of a ledger of whole lines. -/
theorem acknowledge (h : Booked host w) (ht : w.tracker = none) (hc : EndsClean w.ledger) {c : LlmCall} {stamp : String}
    (hts : ∃ ts, parseIsoTs stamp = some ts) : Booked host ((w.appended (c.line stamp)).ack c stamp) := by
  obtain ⟨old,hb,hold⟩ := h.lines
  obtain rfl := torn_of_endsClean hc hb hold
  have hone : linesOf [(c,stamp)] = c.line stamp := List.flatMap_singleton _ _
  rw [List.append_nil] at hb
  refine ⟨⟨[],?_,by simp⟩,?_,fun cp hcp => ?_,h.disk,?_,fun s hs a => ?_⟩
  · show w.ledger.getD [] ++ c.line stamp = linesOf (w.acked ++ [(c,stamp)]) ++ []
    rw [hb,linesOf_append,hone,List.append_nil]
  · intro e he
    rcases List.mem_append.mp he with he | he
    · exact h.stamps e he
    · rw [List.mem_singleton.mp he]
      exact hts
  · obtain ⟨front,back,ha⟩ := h.written cp hcp
    refine ⟨front,back ++ [(c,stamp)],?_,ha.agents,ha.daily,ha.monthly,.inl ?_,anchorOk_append ha.anchor _⟩
    · show w.acked ++ [(c,stamp)] = _
      rw [ha.split,List.append_assoc]
    · rcases ha.offset with ho | ⟨rfl,ho⟩
      · exact ho
      · have hle := anchorOk_le ha.anchor
        rw [hb,ha.split,List.append_nil] at hle
        omega
  · intro t ht'
    have ht' : w.tracker = some t := ht'
    rw [ht] at ht'
    cases ht'
  · have hle := h.state s hs a
    have hpos : 0 ≤ spent (ofAgent a) [(c,stamp)] := spent_nonneg
    show Counter.total s a ≤ spent (ofAgent a) (w.acked ++ [(c,stamp)])
    rw [spent_append]
    omega

/-- What a crash leaves of a line, wherever the ledger ends. -/
theorem torn (h : Booked host w) (ht : w.tracker = none) {part : Bytes} (hp : (10 : UInt8) ∉ part) :
    Booked host (w.appended part) := by
  obtain ⟨old,hb,hold⟩ := h.lines
  refine ⟨⟨old ++ part,?_,?_⟩,h.stamps,fun cp hcp => ?_,h.disk,?_,h.state⟩
  · show w.ledger.getD [] ++ part = _
    rw [hb]
    exact List.append_assoc _ _ _
  · intro hmem
    exact (List.mem_append.mp hmem).elim hold hp
  · obtain ⟨front,back,ha⟩ := h.written cp hcp
    exact ⟨front,back,ha.split,ha.agents,ha.daily,ha.monthly,ha.offset,anchorOk_append ha.anchor part⟩
  · intro t ht'
    have ht' : w.tracker = some t := ht'
    rw [ht] at ht'
    cases ht'

/-- The counters after a call. -/
theorem holds_count (h : Holds host w t) (hf : Forward host w now) {stamp : ℤ} (hp : SamePeriod host now stamp) (c : LlmCall)
    (b : Bytes) : Holds host (((w.read host now).appended b).ack c (nowIso host.zone stamp)) (t.count host c now) := by
  have hroll := holds_roll h hf
  obtain ⟨ts,hts,hday,hmonth⟩ := hp
  have hone : ∀ p : Entry → Bool, spent p [(c,nowIso host.zone stamp)] =
      if p (c,nowIso host.zone stamp) then (c.totalTokens : ℤ) else 0 := by
    intro p
    rw [spent_cons,spent_nil,add_zero]
  refine ⟨fun a => ?_,⟨_,rfl,rfl,?_⟩,⟨_,rfl,rfl,?_⟩⟩
  · show _ = spent (ofAgent a) (w.acked ++ [(c,nowIso host.zone stamp)])
    have hadd := add_agentTokens ⟨(t.roll host now).agentTokens,0,0⟩ c.agent c.totalTokens false false a
    have hbefore : spent (ofAgent a) w.acked = Counter.total (t.roll host now).agentTokens a := (hroll.agents a).symm
    rw [spent_append,hone,hbefore]
    exact hadd
  · show (t.roll host now).dailyTokens + _ = spent _ (w.acked ++ [(c,nowIso host.zone stamp)])
    obtain ⟨day,hperiod,-,hsum⟩ := hroll.daily
    cases hperiod
    have hon : onDay host.zone (dayKey host.zone now) (c,nowIso host.zone stamp) = true := by
      simp [onDay,hts,hday]
    rw [spent_append,hone,hon,hsum]
    rfl
  · show (t.roll host now).monthlyTokens + _ = spent _ (w.acked ++ [(c,nowIso host.zone stamp)])
    obtain ⟨month,hperiod,-,hsum⟩ := hroll.monthly
    cases hperiod
    have hin : inMonth host.zone (monthKey host.zone now) (c,nowIso host.zone stamp) = true := by
      simp [inMonth,hts,hmonth]
    rw [spent_append,hone,hin,hsum]
    rfl

theorem saveState (h : Booked host w) (ht : Holds host w t) : Booked host (w.saveState t) := by
  refine ⟨h.lines,h.stamps,fun cp hcp => ?_,h.disk,fun u hu => ?_,?_⟩
  · obtain ⟨front,back,ha⟩ := h.written cp hcp
    exact ⟨front,back,ha.split,ha.agents,ha.daily,ha.monthly,ha.offset,ha.anchor⟩
  · have hholds := h.memory u hu
    exact ⟨hholds.agents,hholds.daily,hholds.monthly⟩
  · rintro s ⟨⟩ a
    exact (ht.agents a).le

/-- A checkpoint of the sums over all calls, at the end of the ledger. -/
theorem withCheckpoint (h : Booked host w) (ht : Holds host w t) (reason : Option AnchorStatus) :
    Booked host (w.withCheckpoint (t.writeCheckpoint host w.ledger reason)) := by
  cases hs : t.writeCheckpoint host w.ledger reason with
  | none => exact h
  | some cp =>
    have hnew : Anchored host w cp w.acked [] := by
      cases hl : w.ledger with
      | none =>
        rw [hl] at hs
        cases hs
      | some b =>
        rw [hl] at hs
        obtain ⟨hagents,hdayKey,hdaily,hmonthKey,hmonthly,hoffset,hok⟩ := writeCheckpoint_spec hs
        obtain ⟨day,hperiod,hkey,hsum⟩ := ht.daily
        obtain ⟨month,hperiod',hkey',hsum'⟩ := ht.monthly
        refine ⟨(List.append_nil _).symm,fun a => ?_,⟨day,hdayKey.trans hkey,hdaily.trans hsum,?_⟩,
          ⟨month,hmonthKey.trans hkey',hmonthly.trans hsum',?_⟩,?_,?_⟩
        · rw [hagents]
          exact ht.agents a
        · intro d hd hne
          exact absurd (Option.some.inj (hd.symm.trans hperiod)) hne
        · intro m hm hne
          exact absurd (Option.some.inj (hm.symm.trans hperiod')) hne
        · obtain ⟨torn,hb,-⟩ := h.lines
          rw [hl] at hb
          have hb : b = linesOf w.acked ++ torn := hb
          rw [hoffset,hb,List.length_append]
          rcases Nat.eq_zero_or_pos torn.length with hz | hpos
          · left
            omega
          · right
            exact ⟨rfl,by omega⟩
        · rw [hl]
          exact hok
    refine ⟨h.lines,h.stamps,fun c hc => ?_,?_,fun u hu => ?_,h.state⟩
    · rcases List.mem_append.mp hc with hc | hc
      · obtain ⟨front,back,ha⟩ := h.written c hc
        exact ⟨front,back,ha.split,ha.agents,ha.daily,ha.monthly,ha.offset,ha.anchor⟩
      · rw [List.mem_singleton.mp hc]
        exact ⟨w.acked,[],hnew.split,hnew.agents,hnew.daily,hnew.monthly,hnew.offset,hnew.anchor⟩
    · rintro c ⟨⟩
      exact List.mem_append_right _ List.mem_cons_self
    · have hholds := h.memory u hu
      exact ⟨hholds.agents,hholds.daily,hholds.monthly⟩

theorem holds_withCheckpoint (h : Holds host w t) (saved : Option BudgetCheckpoint) : Holds host (w.withCheckpoint saved) t := by
  cases saved with
  | none => exact h
  | some cp => exact ⟨h.agents,h.daily,h.monthly⟩

/-- Any earlier checkpoint, or none, may lie on disk. -/
theorem withDisk (h : Booked host w) {disk : Option BudgetCheckpoint} (hd : ∀ c ∈ disk, c ∈ w.written) :
    Booked host { w with checkpoint := disk } := by
  refine ⟨h.lines,h.stamps,fun cp hcp => ?_,hd,fun u hu => ?_,h.state⟩
  · obtain ⟨front,back,ha⟩ := h.written cp hcp
    exact ⟨front,back,ha.split,ha.agents,ha.daily,ha.monthly,ha.offset,ha.anchor⟩
  · have hholds := h.memory u hu
    exact ⟨hholds.agents,hholds.daily,hholds.monthly⟩

theorem loadState_total {d saved : Counter} (h : ∀ a, Counter.total saved a ≤ Counter.total d a) (a : String) :
    Counter.total (Counter.loadState d saved) a = Counter.total d a := by
  have hfold : ∀ (l : List (String × ℤ)) (d : Counter), (∀ p ∈ l, p.2 ≤ Counter.total d p.1) →
      Counter.total (l.foldl (fun d p => d.set p.1 (max (Counter.total d p.1) p.2)) d) a = Counter.total d a := by
    intro l
    induction l with
    | nil => exact fun _ _ => rfl
    | cons p l ih =>
      intro d hl
      have hsame : ∀ b, Counter.total (d.set p.1 (max (Counter.total d p.1) p.2)) b = Counter.total d b := by
        intro b
        rw [Counter.total_set,max_eq_left (hl p List.mem_cons_self)]
        split
        · rename_i hb
          rw [hb]
        · rfl
      rw [List.foldl_cons,ih _ fun q hq => (hl q (List.mem_cons_of_mem _ hq)).trans (hsame q.1).ge]
      exact hsame a
  refine hfold saved.items d fun p hp => ?_
  have hget : saved.get? p.1 = some p.2 := Dict.get?_of_mem hp
  have hp' := h p.1
  rw [Counter.total,hget] at hp'
  exact hp'

/-- The state file has nothing to add. -/
theorem holds_loadState (h : Booked host w) (ht : Holds host w t) : Holds host w (t.loadState w.state) := by
  cases hs : w.state with
  | none => exact ht
  | some s =>
    refine ⟨fun a => ?_,ht.daily,ht.monthly⟩
    rw [← ht.agents]
    refine loadState_total (fun b => ?_) a
    rw [ht.agents]
    exact h.state s hs b

theorem step {a : BudgetAction} (h : Booked host w) (hg : Regular host w a) (hw : BudgetWorld.step host w a = some w') :
    Booked host w' := by
  cases a with
  | record c now stamp save =>
    obtain ⟨t,ht,rfl⟩ := Option.map_eq_some_iff.mp hw
    obtain ⟨hc,hf,hp⟩ := hg
    have hts : ∃ ts, parseIsoTs (nowIso host.zone stamp) = some ts := by
      obtain ⟨ts,hts,-⟩ := hp
      exact ⟨ts,hts⟩
    have hfile := (h.stopped.read now ⟨hf.day,hf.month⟩ rfl).acknowledge rfl hc (c := c) hts
    have hcount := holds_count (h.memory t ht) hf hp c (c.line (nowIso host.zone stamp))
    have hbook : Booked host ((((w.read host now).appended (c.line (nowIso host.zone stamp))).ack c
        (nowIso host.zone stamp)).withTracker (some (t.count host c now))) := by
      refine hfile.withTracker ?_
      rintro u ⟨⟩
      exact ⟨hcount.agents,hcount.daily,hcount.monthly⟩
    have hholds := hbook.memory _ rfl
    rw [BudgetWorld.record]
    cases save with
    | skipped => exact hbook
    | state => exact hbook.saveState hholds
    | checkpoint =>
      rw [autoSave]
      exact (hbook.saveState hholds).withCheckpoint ⟨hholds.agents,hholds.daily,hholds.monthly⟩ none
  | tear c now stamp n =>
    obtain ⟨⟨-,hn⟩,hw⟩ := Option.ite_none_right_eq_some.mp hw
    cases hw
    have hline : c.line (nowIso host.zone stamp) = encode (Json.obj (c.record (nowIso host.zone stamp))).text ++ [10] := by
      rw [LlmCall.line,jsonLine,encode_append]
      rfl
    have htorn : (10 : UInt8) ∉ (c.line (nowIso host.zone stamp)).take n := by
      rw [hline] at hn ⊢
      rw [List.length_append,List.length_singleton] at hn
      rw [List.take_append_of_le_length (by omega)]
      intro hmem
      refine newline_notMem_encode (fun hnl => ?_) (List.mem_of_mem_take hmem)
      cases Json.text_noNewline _ _ hnl
    exact h.stopped.torn rfl htorn
  | check now =>
    obtain ⟨t,ht,rfl⟩ := Option.map_eq_some_iff.mp hw
    have hholds := holds_roll (h.memory t ht) hg
    refine (h.stopped.read now ⟨hg.day,hg.month⟩ rfl).withTracker ?_
    rintro u ⟨⟩
    exact ⟨hholds.agents,hholds.daily,hholds.monthly⟩
  | reset => exact hg.elim
  | crash =>
    cases hw
    exact h.stopped
  | restart now refresh load =>
    obtain ⟨hnone,hw⟩ := Option.ite_none_right_eq_some.mp hw
    obtain ⟨t,ht,rfl⟩ := Option.map_eq_some_iff.mp hw
    obtain ⟨hf,hu⟩ := hg
    obtain ⟨u,hstart,hholds⟩ := h.hydrate hf hu h.disk
    obtain rfl := Option.some.inj (ht.symm.trans hstart)
    have hread := h.read now hf (Option.isNone_iff_eq_none.mp hnone)
    have hsaved : Booked host ((w.read host now).withCheckpoint
        (if refresh then t.writeCheckpoint host w.ledger t.floorReason else none)) := by
      split
      · exact hread.withCheckpoint hholds t.floorReason
      · exact hread
    rw [BudgetWorld.restart]
    refine hsaved.withTracker ?_
    rintro v ⟨⟩
    refine holds_withCheckpoint ?_ _
    split
    · exact hread.holds_loadState hholds
    · exact hholds
  | cut n => exact hg.elim
  | deleteLedger => exact hg.elim
  | deleteCheckpoint =>
    cases hw
    apply h.withDisk
    intro c hc
    cases hc
  | restoreCheckpoint i =>
    obtain ⟨cp,hcp,rfl⟩ := Option.map_eq_some_iff.mp hw
    refine h.withDisk ?_
    rintro c ⟨⟩
    exact List.mem_of_getElem? hcp

end Booked

/-- After every such run a start finds the sums over the acknowledged calls, whatever checkpoint it finds, and
the state file does not change them. -/
theorem hydrate_counts_acked (host : Host) (hr : Runs (BudgetWorld.step host) (Regular host) BudgetWorld.init w) {now : ℤ}
    (hf : Forward host w now) (cp : Option BudgetCheckpoint) (hcp : ∀ c ∈ cp, c ∈ w.written)
    (hu : TornUnread w.ledger cp) :
    ∃ t, BudgetTracker.hydrate host cp w.ledger now = some t ∧
      (∀ a, Counter.total t.agentTokens a = spent (ofAgent a) w.acked) ∧
      (∀ a, Counter.total (t.loadState w.state).agentTokens a = spent (ofAgent a) w.acked) ∧
      t.dailyTokens = spent (onDay host.zone (dayKey host.zone now)) w.acked ∧
      t.monthlyTokens = spent (inMonth host.zone (monthKey host.zone now)) w.acked := by
  have hbook : Booked host w := hr.invariant Booked.init fun _ _ _ h hg hs => h.step hg hs
  obtain ⟨t,ht,hholds⟩ := hbook.hydrate hf hu hcp
  obtain ⟨day,hday,-,hdaily⟩ := hholds.daily
  obtain ⟨month,hmonth,-,hmonthly⟩ := hholds.monthly
  cases hday
  cases hmonth
  have hload : ∀ a, Counter.total (t.loadState w.state).agentTokens a = spent (ofAgent a) w.acked := by
    intro a
    cases hs : w.state with
    | none => exact hholds.agents a
    | some s =>
      have hsame : Counter.total (Counter.loadState t.agentTokens s) a = Counter.total t.agentTokens a :=
        Booked.loadState_total (fun b => (hbook.state s hs b).trans (hholds.agents b).ge) a
      exact hsame.trans (hholds.agents a)
  exact ⟨t,ht,hholds.agents,hload,hdaily,hmonthly⟩

/-- In a zone of whole minutes a line is in the period of the counters when both readings of the clock are. -/
theorem samePeriod_iff {now stamp : ℤ} (hz : (host.zone stamp).natAbs < 86400) (hm : host.zone stamp % 60 = 0)
    (h : 1 ≤ (stamp + host.zone stamp) / 86400 + epochOrdinal)
    (ht : (stamp + host.zone stamp) / 86400 + epochOrdinal ≤ 3652059) :
    SamePeriod host now stamp ↔
      dayKey host.zone stamp = dayKey host.zone now ∧ monthKey host.zone stamp = monthKey host.zone now := by
  have hread := parseIsoTs_nowIso hz hm h ht
  constructor
  · rintro ⟨ts,hts,hday,hmonth⟩
    obtain rfl := Option.some.inj (hread.symm.trans hts)
    exact ⟨hday,hmonth⟩
  · rintro ⟨hday,hmonth⟩
    exact ⟨stamp,hread,hday,hmonth⟩

/-! ### A run -/

def endsCleanOk (file : Option Bytes) : Bool := file.all fun b => b == [] || b.getLast? == some 10

def forwardOk (host : Host) (w : BudgetWorld) (now : ℤ) : Bool :=
  (w.period.map Prod.fst == some (dayKey host.zone now) || w.acked.all fun e => !onDay host.zone (dayKey host.zone now) e) &&
    (w.period.map Prod.snd == some (monthKey host.zone now) ||
      w.acked.all fun e => !inMonth host.zone (monthKey host.zone now) e)

def samePeriodOk (host : Host) (now stamp : ℤ) : Bool :=
  (parseIsoTs (nowIso host.zone stamp)).any fun ts =>
    dayKey host.zone ts == dayKey host.zone now && monthKey host.zone ts == monthKey host.zone now

def tornUnreadOk (file : Option Bytes) (cp : Option BudgetCheckpoint) : Bool :=
  let torn := tornTail (file.getD [])
  (BudgetLedger.iterRecords (some torn)).any List.isEmpty && (BudgetLedger.iterRecordsFrom (some torn) 0).isEmpty &&
    cp.all fun c => decide (c.anchorByteOffset ≤ (file.getD []).length - torn.length) ||
      (BudgetLedger.iterRecordsFrom file c.anchorByteOffset).isEmpty

def regularOk (host : Host) (w : BudgetWorld) : BudgetAction → Bool
  | .record _ now stamp _ => endsCleanOk w.ledger && forwardOk host w now && samePeriodOk host now stamp
  | .check now => forwardOk host w now
  | .restart now _ _ => forwardOk host w now && tornUnreadOk w.ledger w.checkpoint
  | .reset | .cut _ | .deleteLedger => false
  | .tear _ _ _ _ | .crash | .deleteCheckpoint | .restoreCheckpoint _ => true

theorem forwardOk_spec {now : ℤ} (h : forwardOk host w now = true) : Forward host w now := by
  simp only [forwardOk,Bool.and_eq_true,Bool.or_eq_true,beq_iff_eq,List.all_eq_true,Bool.not_eq_true'] at h
  exact ⟨h.1,h.2⟩

theorem tornUnreadOk_spec {file : Option Bytes} {cp : Option BudgetCheckpoint} (h : tornUnreadOk file cp = true) :
    TornUnread file cp := by
  simp only [tornUnreadOk,Bool.and_eq_true,Option.any_eq_true,Option.all_eq_true,Bool.or_eq_true,decide_eq_true_eq,
    List.isEmpty_iff] at h
  obtain ⟨⟨⟨records,hrecords,hnil⟩,hfrom⟩,hinside⟩ := h
  refine ⟨⟨?_,hfrom⟩,fun c hc hlt => ?_⟩
  · rw [hrecords,hnil]
  · rcases hinside c hc with hle | hempty
    · omega
    · exact hempty

theorem regularOk_spec (host : Host) (w : BudgetWorld) (a : BudgetAction) (h : regularOk host w a = true) :
    Regular host w a := by
  cases a with
  | record c now stamp save =>
    simp only [regularOk,Bool.and_eq_true] at h
    obtain ⟨⟨hclean,hforward⟩,hsame⟩ := h
    refine ⟨fun b hb => ?_,forwardOk_spec hforward,?_⟩
    · simpa using (Option.all_eq_true _ _).mp hclean b hb
    · obtain ⟨ts,hts,hkeys⟩ := (Option.any_eq_true _ _).mp hsame
      rw [Bool.and_eq_true,beq_iff_eq,beq_iff_eq] at hkeys
      exact ⟨ts,hts,hkeys.1,hkeys.2⟩
  | check now => exact forwardOk_spec h
  | restart now refresh load =>
    rw [regularOk,Bool.and_eq_true] at h
    exact ⟨forwardOk_spec h.1,tornUnreadOk_spec h.2⟩
  | reset => cases h
  | cut n => cases h
  | deleteLedger => cases h
  | _ => trivial

/-- A process dies in the middle of its second line, after a checkpoint; the checkpoint is deleted. -/
def tornRun : List BudgetAction :=
  [.restart 0 true false,.record (sampleCall "alice" 100) 0 0 .checkpoint,.tear (sampleCall "bob" 7) 0 0 5,
    .deleteCheckpoint]

theorem hydrate_counts_acked_torn : ∃ w t cp,
    Runs (BudgetWorld.step sampleHost) (Regular sampleHost) init w ∧ w.checkpoint = none ∧ cp ∈ w.written ∧
      BudgetTracker.hydrate sampleHost (some cp) w.ledger 0 = some t ∧
      Counter.total t.agentTokens "alice" = spent (ofAgent "alice") w.acked ∧ w.acked ≠ [] := by
  have hview : (runChecked (BudgetWorld.step sampleHost) (regularOk sampleHost) init tornRun).map (fun w =>
      w.checkpoint.isNone && !w.acked.isEmpty && forwardOk sampleHost w 0 &&
        w.written.head?.any fun cp => tornUnreadOk w.ledger (some cp)) = some true := by
    decide_cbv
  obtain ⟨w,hw,hv⟩ := Option.map_eq_some_iff.mp hview
  simp only [Bool.and_eq_true,Option.isNone_iff_eq_none,Bool.not_eq_true',List.isEmpty_eq_false_iff,Option.any_eq_true] at hv
  obtain ⟨⟨⟨hnone,hacked⟩,hforward⟩,cp,hhead,htorn⟩ := hv
  have hr := Runs.of_runChecked (.refl _) (regularOk_spec sampleHost) hw
  have hwritten : cp ∈ w.written := List.mem_of_head? hhead
  obtain ⟨t,ht,hagents,-⟩ := hydrate_counts_acked sampleHost hr (forwardOk_spec hforward) (some cp)
    (fun c hc => Option.some.inj hc ▸ hwritten) (tornUnreadOk_spec htorn)
  exact ⟨w,t,cp,hr,hnone,hwritten,ht,hagents "alice",hacked⟩

/-- No ledger is cut or deleted. -/
def LedgerKept : BudgetAction → Prop
  | .cut _ | .deleteLedger => False
  | _ => True

/-- Without a checkpoint a start sums up all lines. -/
theorem hydrate_lines (host : Host) {l : List Entry} (now : ℤ) (h : ∀ e ∈ l, ∃ ts, parseIsoTs e.2 = some ts) :
    ∃ t, BudgetTracker.hydrate host none (some (linesOf l)) now = some t ∧
      ∀ a, Counter.total t.agentTokens a = spent (ofAgent a) l := by
  obtain ⟨u,hscan,hagents⟩ := fullScan_lines host (dayKey host.zone now) (monthKey host.zone now) h
  exact ⟨_,congrArg (Option.map _) hscan,hagents⟩

/-- Two calls with a reset between them. -/
def resetRun : List BudgetAction :=
  [.restart 0 true false,.record (sampleCall "alice" 100) 0 0 .skipped,.reset,
    .record (sampleCall "alice" 5) 0 0 .checkpoint,.crash]

/-- The checkpoint keeps the reset, the full scan does not. -/
theorem reset_splits_totals : ¬ ∀ (host : Host) (w : BudgetWorld) (now : ℤ) (cp : BudgetCheckpoint) (t t' : BudgetTracker),
    Runs (BudgetWorld.step host) (fun _ a => LedgerKept a) init w → cp ∈ w.written →
    BudgetTracker.hydrate host (some cp) w.ledger now = some t → BudgetTracker.hydrate host none w.ledger now = some t' →
    ∀ a, Counter.total t.agentTokens a = Counter.total t'.agentTokens a := by
  intro hall
  have hview : (runAll (BudgetWorld.step sampleHost) init resetRun).map (fun w =>
      (w.written.head?.any fun cp => (BudgetTracker.hydrate sampleHost (some cp) w.ledger 0).any fun t =>
        Counter.total t.agentTokens "alice" == 5) && w.ledger == some (linesOf w.acked) &&
        w.acked.all (fun e => (parseIsoTs e.2).isSome) && spent (ofAgent "alice") w.acked == 105) = some true := by
    set_option maxRecDepth 20000 in decide_cbv
  obtain ⟨w,hw,hv⟩ := Option.map_eq_some_iff.mp hview
  simp only [Bool.and_eq_true,Option.any_eq_true,beq_iff_eq,List.all_eq_true,Option.isSome_iff_exists] at hv
  obtain ⟨⟨⟨⟨cp,hhead,t,ht,hfive⟩,hledger⟩,hstamps⟩,hspent⟩ := hv
  obtain ⟨t',ht',hagents⟩ := hydrate_lines sampleHost 0 hstamps
  rw [← hledger] at ht'
  have hactions : ∀ a ∈ resetRun, ∀ _ : BudgetWorld, LedgerKept a := by
    intro a ha _
    simp only [resetRun,List.mem_cons,List.not_mem_nil,or_false] at ha
    rcases ha with rfl | rfl | rfl | rfl | rfl <;> trivial
  have heq := hall sampleHost w 0 cp t t' (.of_runAll (.refl _) hactions hw) (List.mem_of_head? hhead) ht ht' "alice"
  rw [hfive,hagents,hspent] at heq
  exact absurd heq (by decide)

end BudgetWorld
end Reyn
