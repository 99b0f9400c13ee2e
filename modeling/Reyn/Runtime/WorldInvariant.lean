import Reyn.Runtime.DurableQueue
import Reyn.Runtime.Coverage

/-! # What every run keeps

The log of a run is sound, the file keeps every reset-record, and every session is
where its history on the current lineage puts it: its live snapshot up to what still
waits at the worker, and its generations at the positions they were cut at. A rewind
keeps this as long as it rewinds each session to a position the session is covered at.
-/
namespace Reyn
open Py TimeTravel

/-- A session against the history. -/
structure Tracked (w : World) (key : SessionKey) (s : Session) : Prop where
  live : ∃ t, w.hist.fold key w.hist.head = .ok t ∧ Tracks key w.queue t s.journal.snapshot
  store : SoundStore w.hist key s.store

structure World.Inv (w : World) : Prop where
  sound : w.hist.Sound
  kept : Kept w.hist w.wal
  jobs : ∀ job ∈ w.queue, job.Sound
  owned : ∀ job ∈ w.queue, ∀ key, job.owner = some key → (w.sessions.get? key).isSome
  routed : ∀ l ∈ w.hist.lines, ∀ key, l.routes key = true → (w.sessions.get? key).isSome
  tracked : ∀ key s, w.sessions.get? key = some s → Tracked w key s

/-- The rewinds of a run reach back only to positions the rewound sessions are covered at. -/
def World.CoveredCheckout (w : World) : Action → Prop
  | .checkout _ => ∀ target scope, w.admitted = some (target,scope) →
      ∀ key s, w.sessions.get? key = some s → World.rewinds scope key = true →
        Covered w.hist w.wal key s.store target
  | _ => True

def Action.isCheckout : Action → Bool
  | .checkout _ => true
  | _ => false

theorem World.CoveredCheckout.of_not_checkout {w : World} {a : Action} (h : a.isCheckout = false) :
    w.CoveredCheckout a := by
  cases a with
  | checkout ts => cases h
  | _ => exact trivial

theorem World.Inv.init : World.init.Inv := by
  refine ⟨nofun,Kept.refl _,nofun,nofun,nofun,fun key s h => ?_⟩
  cases h

section Session
variable {w : World} {key : SessionKey} {s : Session}

theorem Tracked.snapshot_key (h : Tracked w key s) (hw : w.hist.Sound) : s.journal.snapshot.key = key := by
  obtain ⟨t,ht,htr⟩ := h.live
  obtain ⟨t',ht',hk⟩ := Wal.fold_ok hw key w.hist.head
  rw [ht] at ht'
  cases ht'
  have hkeep : ∀ {queue : List Job} {u live : AgentSnapshot}, Tracks key queue u live → live.key = u.key := by
    intro queue u live htr
    induction htr with
    | done hu => exact hu.key.symm
    | @append rest u live s m r hk hr _ ih =>
      obtain ⟨t,-,habs⟩ := m.replays s u 0 "" hr
      exact ih.trans ((habs.agree u (Agree.refl u)).key.trans (Prod.ext habs.routed.1 habs.routed.2))
    | snapshot _ _ ih => exact ih
    | generation _ _ ih => exact ih
    | other _ _ ih => exact ih
  exact (hkeep htr).trans hk

theorem SoundStore.snoc {hist : Wal} {store : SnapshotGenerationStore} (h : SoundStore hist key store)
    {l : WalLine} (hl : hist.head < l.seq) : SoundStore (hist.snoc l hl) key store := by
  intro g p hg
  obtain ⟨happ,hle,t,ht,ha⟩ := h g p hg
  refine ⟨happ,?_,t,(Wal.fold_snoc_of_le hl hle).trans ht,ha⟩
  rw [Wal.snoc_head]
  omega

theorem SoundStore.prune {hist : Wal} {store : SnapshotGenerationStore} (h : SoundStore hist key store)
    (floor : ℕ) : SoundStore hist key (store.pruneBelow floor) :=
  fun g p hg => h g p (List.mem_of_mem_filter hg)

/-- Cutting a generation of what the log holds now. -/
theorem SoundStore.recordPayload {hist : Wal} {store : SnapshotGenerationStore} {payload t : AgentSnapshot}
    (h : SoundStore hist key store) (ht : hist.fold key hist.head = .ok t) (ha : Agree payload t) :
    SoundStore hist key (store.recordPayload payload hist.head) := by
  intro g p hg
  rcases SnapshotGenerationStore.insertGen_mem hg with he | hold
  · obtain ⟨rfl,rfl⟩ := Prod.mk.inj he
    exact ⟨rfl,le_rfl,t,ht,⟨ha.1,ha.2,ha.3,ha.4,ha.5,ha.6,ha.7⟩⟩
  · exact h g p hold

end Session

section Ordinary
variable {w : World} {ts kind : String} {fields : WalFields} {hk : kind ≠ "rewind"} {key : SessionKey}

theorem World.lineage_nextLine (w : World) (ts kind : String) (fields : WalFields) (hk : kind ≠ "rewind")
    (scope : Scope) :
    ((w.hist.snoc (w.nextLine ts kind fields hk) (w.lt_nextLine ts kind fields hk)).resets scope).lineage
        (w.nextLine ts kind fields hk).seq =
      insert (w.nextLine ts kind fields hk).seq ((w.hist.resets scope).lineage w.hist.head) := by
  apply Wal.lineage_snoc_ordinary
  · rw [World.nextLine,WalLine.ordinary_record?]
    rfl
  · rfl

/-- Another session's append, or the registry's, leaves the session where it is. -/
theorem World.fold_nextLine_of_not_routes (hw : w.hist.Sound)
    (hr : (w.nextLine ts kind fields hk).routes key = false) :
    (w.hist.snoc (w.nextLine ts kind fields hk) (w.lt_nextLine ts kind fields hk)).fold key
      (w.nextLine ts kind fields hk).seq = w.hist.fold key w.hist.head :=
  Wal.fold_snoc_of_not_routes hw (w.lineage_nextLine ts kind fields hk (some key)) hr

end Ordinary

/-- The invariant after an append, for a session that is left alone or has been dealt with. -/
theorem World.Inv.append {w : World} (h : w.Inv) {ts kind : String} {fields : WalFields} {hk : kind ≠ "rewind"}
    {job : Job} {rest : List Job} (hq : w.queue = job :: rest)
    (hs : Sound (w.nextLine ts kind fields hk))
    (hr : ∀ key, (w.nextLine ts kind fields hk).routes key = true → (w.sessions.get? key).isSome)
    (ht : ∀ key s, w.sessions.get? key = some s →
      ∃ t, (w.hist.snoc (w.nextLine ts kind fields hk) (w.lt_nextLine ts kind fields hk)).fold key
          (w.nextLine ts kind fields hk).seq = .ok t ∧ Tracks key rest t s.journal.snapshot) :
    (w.appendLine (w.nextLine ts kind fields hk) (w.lt_nextLine ts kind fields hk) rest).Inv where
  sound := by
    intro l hl
    rcases List.mem_append.mp hl with hl | hl
    · exact h.sound l hl
    · rw [List.mem_singleton.mp hl]
      exact hs
  kept := h.kept.snoc (w.lt_nextLine ts kind fields hk)
  jobs j hj := h.jobs j (hq ▸ List.mem_cons_of_mem _ hj)
  owned j hj := h.owned j (hq ▸ List.mem_cons_of_mem _ hj)
  routed := by
    intro l hl key hlr
    rcases List.mem_append.mp hl with hl | hl
    · exact h.routed l hl key hlr
    · rw [List.mem_singleton.mp hl] at hlr
      exact hr key hlr
  tracked key s hg := by
    refine ⟨?_,(h.tracked key s hg).store.snoc (w.lt_nextLine ts kind fields hk)⟩
    rw [World.appendLine_head]
    exact ht key s hg

/-- A step that changes neither the log nor the live snapshots, and no store but soundly. -/
theorem World.Inv.of_sessions {w w' : World} (h : w.Inv) (hh : w'.hist = w.hist) (hkept : Kept w.hist w'.wal)
    (hjobs : ∀ job ∈ w'.queue, job.Sound ∧ ∀ key, job.owner = some key → (w.sessions.get? key).isSome)
    (hdom : ∀ key, (w.sessions.get? key).isSome → (w'.sessions.get? key).isSome)
    (ht : ∀ key s', w'.sessions.get? key = some s' → ∃ s, w.sessions.get? key = some s ∧
      (Tracked w key s → SoundStore w.hist key s'.store ∧ ∀ t, w.hist.fold key w.hist.head = .ok t →
        Tracks key w.queue t s.journal.snapshot → Tracks key w'.queue t s'.journal.snapshot)) : w'.Inv where
  sound := hh ▸ h.sound
  kept := hh ▸ hkept
  jobs j hj := (hjobs j hj).1
  owned j hj key ho := hdom key ((hjobs j hj).2 key ho)
  routed l hl key hr := hdom key (h.routed l (hh ▸ hl) key hr)
  tracked key s' hg := by
    obtain ⟨s,hs,hstep⟩ := ht key s' hg
    have htr := h.tracked key s hs
    obtain ⟨hstore,hlive⟩ := hstep htr
    obtain ⟨t,hfold,htracks⟩ := htr.live
    exact ⟨⟨t,hh ▸ hfold,hlive t hfold htracks⟩,hh ▸ hstore⟩

/-- A session that the first job is not for. -/
theorem Tracks.skip {w : World} {job : Job} {rest : List Job} (hq : w.queue = job :: rest) {key : SessionKey}
    {t live : AgentSnapshot} (h : Tracks key w.queue t live) (ho : job.owner ≠ some key) :
    Tracks key rest t live := (hq ▸ h).tail_other ho

theorem doTruncate_kept {hist : Wal} {wal : List WalLine} (h : Kept hist wal) (minKeepSeq : ℕ) :
    Kept hist (doTruncate minKeepSeq wal) :=
  h.filter fun l _ hr => by simp [hr]

section Work
variable {w : World} {rest : List Job} {ts : String}

theorem World.Inv.work_append (h : w.Inv) {key : SessionKey} {kind : String} {fields : WalFields}
    {hk : kind ≠ "rewind"} (hq : w.queue = .append key kind fields :: rest) :
    (w.appendLine (w.nextLine ts kind fields hk) (w.lt_nextLine ts kind fields hk) rest).Inv := by
  have hmem : Job.append key kind fields ∈ w.queue := hq ▸ List.mem_cons_self
  obtain ⟨s₀,m,r,hs₀,hr,rfl,rfl⟩ := h.jobs _ hmem
  have hj : Journaled key (w.nextLine ts r.kind r.fields hk) := ⟨s₀,m,r,ts,hs₀,hr,rfl⟩
  have howned := h.owned _ hmem key rfl
  refine h.append hq (.inr ⟨key,hj⟩) ?_ ?_
  · intro key' hroute
    have he : key' = key := by
      have h1 : AgentSnapshot.eventRouteKey (w.nextLine ts r.kind r.fields hk).event = routeOf key' := by
        simpa [WalLine.routes] using hroute
      exact routeOf_inj (h1.symm.trans hj.route)
    exact he ▸ howned
  · intro key' s hs
    obtain ⟨t,hfold,htr⟩ := (h.tracked key' s hs).live
    rw [hq] at htr
    by_cases he : key' = key
    · subst he
      obtain ⟨s₁,m₁,r₁,hk₁,hr₁,hkind,hfields,htail⟩ := htr.tail_append
      have htk : t.key = key' := by
        obtain ⟨t',ht',hk'⟩ := Wal.fold_ok h.sound key' w.hist.head
        rw [hfold] at ht'
        cases ht'
        exact hk'
      have hevent : (w.nextLine ts r.kind r.fields hk).event =
          walEntry (w.nextLine ts r.kind r.fields hk).seq ts r₁.kind r₁.fields := by
        rw [hkind,hfields]
        rfl
      obtain ⟨t',-,habsorb,habs⟩ := absorb_recorded hr₁ hevent (htk.trans hk₁.symm)
      refine ⟨{ t' with appliedSeq := (w.nextLine ts r.kind r.fields hk).seq },?_,
        htail.congr_left ((habs.agree t (Agree.refl t)).withSeq _)⟩
      rw [Wal.fold_snoc (w.lineage_nextLine ts r.kind r.fields hk (some key')),hfold]
      exact habsorb
    · have hnot : (w.nextLine ts r.kind r.fields hk).routes key' = false := by
        refine Bool.eq_false_iff.mpr fun hroute => he ?_
        have h1 : AgentSnapshot.eventRouteKey (w.nextLine ts r.kind r.fields hk).event = routeOf key' := by
          simpa [WalLine.routes] using hroute
        exact routeOf_inj (h1.symm.trans hj.route)
      refine ⟨t,(World.fold_nextLine_of_not_routes h.sound hnot).trans hfold,htr.tail_other ?_⟩
      intro ho
      exact he (Option.some.inj ho).symm

theorem World.Inv.work_registryAppend (h : w.Inv) {r : RegistryRecord}
    (hq : w.queue = .registryAppend r :: rest) :
    (w.appendLine (w.nextLine ts r.kind r.fields r.ordinary) (w.lt_nextLine ts r.kind r.fields r.ordinary) rest).Inv := by
  have hforeign : Foreign (w.nextLine ts r.kind r.fields r.ordinary) := r.foreign _ _
  refine h.append hq (.inl hforeign) ?_ ?_
  · intro key hroute
    rw [hforeign.not_routes] at hroute
    cases hroute
  · intro key s hs
    obtain ⟨t,hfold,htr⟩ := (h.tracked key s hs).live
    exact ⟨t,(World.fold_nextLine_of_not_routes h.sound (hforeign.not_routes key)).trans hfold,
      htr.skip hq (by simp [Job.owner])⟩

theorem World.Inv.tail_jobs (h : w.Inv) {job : Job} (hq : w.queue = job :: rest) :
    ∀ j ∈ rest, j.Sound ∧ ∀ key, j.owner = some key → (w.sessions.get? key).isSome := by
  intro j hj
  have hmem : j ∈ w.queue := hq ▸ List.mem_cons_of_mem _ hj
  exact ⟨h.jobs j hmem,h.owned j hmem⟩

theorem World.Inv.work (h : w.Inv) {w' : World} (hw : w.work ts = some w') : w'.Inv := by
  unfold World.work at hw
  split at hw
  · cases hw
  · rename_i hq
    split at hw
    · cases hw
      exact h.work_append hq
    · cases hw
  · rename_i hq
    cases hw
    exact h.work_registryAppend hq
  · rename_i key payload rest hq
    cases hw
    refine h.of_sessions rfl h.kept ?_ (fun k => Dict.isSome_modify k) fun k s' hs' => ?_
    · intro j hj
      rcases List.mem_cons.mp hj with rfl | hj
      · exact ⟨trivial,by intro _ ho; cases ho⟩
      · exact h.tail_jobs hq j hj
    · obtain ⟨s,hs,⟨he,rfl⟩ | ⟨hne,rfl⟩⟩ := Dict.modify_cases hs'
      · subst he
        refine ⟨s,hs,fun htr => ⟨htr.store,fun t _ ht => .other (by simp [Job.owner]) ?_⟩⟩
        exact (hq ▸ ht).tail_snapshot.2
      · refine ⟨s',hs,fun htr => ⟨htr.store,fun t _ ht => .other (by simp [Job.owner]) (ht.skip hq ?_)⟩⟩
        intro ho
        exact hne (Option.some.inj ho).symm
  · rename_i key seq rest hq
    cases hw
    refine h.of_sessions rfl h.kept (h.tail_jobs hq) (fun k => Dict.isSome_modify k) fun k s' hs' => ?_
    obtain ⟨s,hs,⟨he,rfl⟩ | ⟨hne,rfl⟩⟩ := Dict.modify_cases hs'
    · refine ⟨s,hs,fun htr => ⟨htr.store,fun t _ ht => ?_⟩⟩
      exact (ht.skip hq (by simp [Job.owner])).congr_right ((Agree.refl _).withSeq seq)
    · exact ⟨s',hs,fun htr => ⟨htr.store,fun t _ ht => ht.skip hq (by simp [Job.owner])⟩⟩
  · rename_i key payload rest hq
    cases hw
    refine h.of_sessions rfl h.kept (h.tail_jobs hq) (fun k => Dict.isSome_modify k) fun k s' hs' => ?_
    obtain ⟨s,hs,⟨he,rfl⟩ | ⟨hne,rfl⟩⟩ := Dict.modify_cases hs'
    · subst he
      refine ⟨s,hs,fun htr => ⟨?_,fun t _ ht => (hq ▸ ht).tail_generation.2⟩⟩
      obtain ⟨t,hfold,ht⟩ := htr.live
      exact htr.store.recordPayload hfold (hq ▸ ht).tail_generation.1
    · refine ⟨s',hs,fun htr => ⟨htr.store,fun t _ ht => ht.skip hq ?_⟩⟩
      intro ho
      exact hne (Option.some.inj ho).symm
  · rename_i minKeepSeq rest hq
    cases hw
    refine h.of_sessions rfl (doTruncate_kept h.kept _) (h.tail_jobs hq) (fun _ hk => hk) fun k s hs => ?_
    exact ⟨s,hs,fun htr => ⟨htr.store,fun t _ ht => ht.skip hq (by simp [Job.owner])⟩⟩

end Work
section Checkout
variable {w : World} {ts : String} {target : ℕ} {scope : Scope} {ht : target < w.lastSeq + 1} {key : SessionKey}

theorem World.foreign_resetLine (w : World) (ts : String) (target : ℕ) (scope : Scope) (ht : target < w.lastSeq + 1) :
    Foreign (w.resetLine ts target scope ht) := checkout_foreign _ _ _ _ _

/-- A rewound session continues the lineage of the target. -/
theorem World.lineage_resetLine_rewinds (ts : String) (ht : target < w.lastSeq + 1)
    (hr : World.rewinds scope key = true) :
    ((w.hist.snoc (w.resetLine ts target scope ht) (w.lt_resetLine ts target scope ht)).resets (some key)).lineage
        (w.resetLine ts target scope ht).seq =
      insert (w.resetLine ts target scope ht).seq ((w.hist.resets (some key)).lineage target) := by
  refine Wal.lineage_snoc_reset (WalLine.reset_record? _ _ _ _ _ _) ?_ (Nat.le_of_lt_succ ht)
  rw [visible_iff_rewinds]
  exact hr

/-- Any other session continues its own lineage. -/
theorem World.lineage_resetLine_stays (hr : World.rewinds scope key = false) :
    ((w.hist.snoc (w.resetLine ts target scope ht) (w.lt_resetLine ts target scope ht)).resets (some key)).lineage
        (w.resetLine ts target scope ht).seq =
      insert (w.resetLine ts target scope ht).seq ((w.hist.resets (some key)).lineage w.hist.head) := by
  refine Wal.lineage_snoc_ordinary ?_ rfl
  rw [World.resetLine,WalLine.reset_record?,Option.filter_some,visible_iff_rewinds,hr]
  rfl

/-- The state of a rewound session at the reset-record is its state at the target. -/
theorem World.fold_resetLine (hw : w.hist.Sound) (hr : World.rewinds scope key = true) :
    (w.hist.snoc (w.resetLine ts target scope ht) (w.lt_resetLine ts target scope ht)).fold key
      (w.resetLine ts target scope ht).seq = w.hist.fold key target :=
  Wal.fold_snoc_of_not_routes hw (World.lineage_resetLine_rewinds ts ht hr)
    ((w.foreign_resetLine ts target scope ht).not_routes key)

theorem World.sound_resetLine (hw : w.hist.Sound) :
    (w.hist.snoc (w.resetLine ts target scope ht) (w.lt_resetLine ts target scope ht)).Sound := by
  intro l hl
  rcases List.mem_append.mp hl with hl | hl
  · exact hw l hl
  · rw [List.mem_singleton.mp hl]
    exact .inl (w.foreign_resetLine ts target scope ht)

/-- What `reconstruct` finds at the reset-record for a session covered at the target. -/
theorem World.Inv.reconstruct (h : w.Inv) (ts : String) (ht : target < w.lastSeq + 1) {s : Session} (hs : w.sessions.get? key = some s)
    (hr : World.rewinds scope key = true) (hc : Covered w.hist w.wal key s.store target) :
    ∃ snap t, Reyn.reconstruct key.1 key.2 s.store
        ((w.wal ++ [w.resetLine ts target scope ht]).map (·.event)) (w.lastSeq + 1) (some key) = .ok snap ∧
      w.hist.fold key target = .ok t ∧ Agree snap t ∧
      (ChainsRenewed w.hist key s.store target → EqUpToSeq snap t) := by
  have hline := World.lineage_resetLine_rewinds ts ht hr
  have hstore := (h.tracked key s hs).store
  have hcov := hc.snoc hline hstore ((w.foreign_resetLine ts target scope ht).not_routes key)
  have hhead : (w.hist.snoc (w.resetLine ts target scope ht) (w.lt_resetLine ts target scope ht)).head =
      w.lastSeq + 1 := Wal.snoc_head
  have hseq : (w.resetLine ts target scope ht).seq = w.lastSeq + 1 := rfl
  obtain ⟨snap,t,hsnap,hfold,-,hoff⟩ := reconstruct_fold (World.sound_resetLine h.sound)
    (h.kept.snoc (w.lt_resetLine ts target scope ht)) (hstore.snoc (w.lt_resetLine ts target scope ht))
    (hhead ▸ hseq ▸ hcov)
  rw [hhead] at hsnap hfold hoff
  refine ⟨snap,t,hsnap,?_,hoff.agree,fun hren => hoff.eqUpToSeq fun id _ => ?_⟩
  · rw [← hfold,← hseq,World.fold_resetLine h.sound hr]
  · have := hren.snoc hline hstore id
    rwa [hseq] at this

/-- A rewound session adopts what `reconstruct` found, pinned to the reset-record. -/
theorem Session.rewind_of_ok {s : Session} {wal : List WalLine} {resetSeq : ℕ} {snap : AgentSnapshot}
    (h : Reyn.reconstruct key.1 key.2 s.store (wal.map (·.event)) resetSeq (some key) = .ok snap) :
    s.rewind key wal resetSeq =
      { s with
        journal := { s.journal with snapshot := { snap with appliedSeq := resetSeq } }
        file := some { snap with appliedSeq := resetSeq } } := by
  rw [Session.rewind,h]

/-- What a checkout does, guards included. -/
structure CheckedOut (w w' : World) (ts : String) (target : ℕ) (scope : Scope) (ht : target < w.lastSeq + 1) :
    Prop where
  admitted : w.admitted = some (target,scope)
  drained : w.queue = []
  hist : w'.hist = w.hist.snoc (w.resetLine ts target scope ht) (w.lt_resetLine ts target scope ht)
  wal : w'.wal = w.wal ++ [w.resetLine ts target scope ht]
  queue : w'.queue = []
  sessions : ∀ key, w'.sessions.get? key = (w.sessions.get? key).map fun s =>
    if World.rewinds scope key then s.rewind key (w.wal ++ [w.resetLine ts target scope ht]) (w.lastSeq + 1) else s

theorem World.checkout_cases {w' : World} (hw : w.checkout ts = some w') :
    ∃ target scope ht, CheckedOut w w' ts target scope ht := by
  unfold World.checkout at hw
  split at hw
  · cases hw
  · rename_i target scope hadm
    split at hw
    · rename_i hq
      cases hw
      exact ⟨target,scope,hq.2,hadm,hq.1,rfl,rfl,rfl,fun key => Dict.get?_mapVal _ _ _⟩
    · cases hw

theorem CheckedOut.head {w' : World} (h : CheckedOut w w' ts target scope ht) : w'.hist.head = w.lastSeq + 1 := by
  rw [h.hist,Wal.snoc_head]
  rfl

/-- A session after a checkout: rewound, or as it was. -/
theorem CheckedOut.session {w' : World} (h : CheckedOut w w' ts target scope ht) {s' : Session}
    (hs' : w'.sessions.get? key = some s') : ∃ s, w.sessions.get? key = some s ∧
      (World.rewinds scope key = true ∧
          s' = s.rewind key (w.wal ++ [w.resetLine ts target scope ht]) (w.lastSeq + 1) ∨
        World.rewinds scope key = false ∧ s' = s) := by
  rw [h.sessions] at hs'
  obtain ⟨s,hs,rfl⟩ := Option.map_eq_some_iff.mp hs'
  refine ⟨s,hs,?_⟩
  cases hr : World.rewinds scope key with
  | true => exact .inl ⟨rfl,if_pos rfl⟩
  | false => exact .inr ⟨rfl,if_neg (by simp)⟩

theorem Session.rewind_store (s : Session) (wal : List WalLine) (resetSeq : ℕ) :
    (s.rewind key wal resetSeq).store = s.store := by
  unfold Session.rewind
  split <;> rfl

theorem World.Inv.checkout (h : w.Inv) {w' : World} (hc : w.CoveredCheckout (.checkout ts))
    (hw : w.checkout ts = some w') : w'.Inv := by
  obtain ⟨target,scope,ht,hco⟩ := World.checkout_cases hw
  have hforeign := w.foreign_resetLine ts target scope ht
  refine ⟨hco.hist ▸ World.sound_resetLine h.sound,?_,?_,?_,?_,?_⟩
  · rw [hco.hist,hco.wal]
    exact h.kept.snoc (w.lt_resetLine ts target scope ht)
  · rw [hco.queue]
    exact nofun
  · rw [hco.queue]
    exact nofun
  · intro l hl key hlr
    rw [hco.hist] at hl
    rw [hco.sessions,Option.isSome_map]
    rcases List.mem_append.mp hl with hl | hl
    · exact h.routed l hl key hlr
    · rw [List.mem_singleton.mp hl,hforeign.not_routes] at hlr
      cases hlr
  · intro key s' hs'
    obtain ⟨s,hs,⟨hr,rfl⟩ | ⟨hr,rfl⟩⟩ := hco.session hs'
    · have htr := h.tracked key s hs
      obtain ⟨snap,t,hsnap,hfold,hagree,-⟩ := h.reconstruct ts ht hs hr
        (hc target scope hco.admitted key s hs hr)
      refine ⟨⟨t,?_,?_⟩,?_⟩
      · rw [hco.head,hco.hist]
        exact (World.fold_resetLine h.sound hr).trans hfold
      · rw [hco.queue,Session.rewind_of_ok hsnap]
        exact .done (hagree.symm.withSeq _)
      · rw [hco.hist,Session.rewind_store]
        exact htr.store.snoc (w.lt_resetLine ts target scope ht)
    · have htr := h.tracked key s' hs
      obtain ⟨t,hfold,hlive⟩ := htr.live
      refine ⟨⟨t,?_,?_⟩,?_⟩
      · rw [hco.head,hco.hist]
        exact (Wal.fold_snoc_of_not_routes h.sound (World.lineage_resetLine_stays hr)
          (hforeign.not_routes key)).trans hfold
      · rw [hco.queue,← hco.drained]
        exact hlive
      · rw [hco.hist]
        exact htr.store.snoc (w.lt_resetLine ts target scope ht)

end Checkout

section Journals
variable {w : World} {key : SessionKey} {s : Session}

/-- A journal of the session changes and hands jobs to the worker. -/
theorem World.Inv.submit (h : w.Inv) (hs : w.sessions.get? key = some s) {j : SnapshotJournal} {jobs : List Job}
    (hsound : ∀ job ∈ jobs, job.Sound) (howner : ∀ job ∈ jobs, job.owner = some key)
    (htracks : ∀ u, Agree u s.journal.snapshot → Tracks key jobs u j.snapshot) :
    ({ w with sessions := w.sessions.set key { s with journal := j }, queue := w.queue ++ jobs } : World).Inv := by
  refine h.of_sessions rfl h.kept ?_ ?_ fun k s' hs' => ?_
  · intro job hj
    rcases List.mem_append.mp hj with hj | hj
    · exact ⟨h.jobs job hj,h.owned job hj⟩
    · refine ⟨hsound job hj,fun k hk => ?_⟩
      rw [howner job hj] at hk
      cases hk
      simp [hs]
  · intro k hk
    rw [Dict.get?_set]
    split
    · rfl
    · exact hk
  · rw [Dict.get?_set] at hs'
    split at hs'
    · rename_i he
      cases hs'
      subst he
      exact ⟨s,hs,fun htr => ⟨htr.store,fun t _ ht => ht.concat htracks⟩⟩
    · rename_i hne
      refine ⟨s',hs',fun htr => ⟨htr.store,fun t _ ht => ht.concat_others fun job hj ho => ?_⟩⟩
      rw [howner job hj] at ho
      exact hne (Option.some.inj ho).symm

theorem World.Inv.load (h : w.Inv) (hs : w.sessions.get? key = none) (snapshotInterval : ℕ) :
    ({ w with sessions := w.sessions.set key (.new key snapshotInterval) } : World).Inv := by
  have hdom : ∀ k, (w.sessions.get? k).isSome →
      ((w.sessions.set key (.new key snapshotInterval)).get? k).isSome := by
    intro k hk
    rw [Dict.get?_set]
    split
    · rfl
    · exact hk
  refine ⟨h.sound,h.kept,h.jobs,fun j hj k ho => hdom k (h.owned j hj k ho),
    fun l hl k hr => hdom k (h.routed l hl k hr),fun k s' hs' => ?_⟩
  rw [Dict.get?_set] at hs'
  split at hs'
  · rename_i he
    cases hs'
    subst he
    -- nothing of the session is in the log or at the worker yet
    have hnone : ∀ l ∈ w.hist.lines, l.routes k = false := by
      intro l hl
      refine Bool.eq_false_iff.mpr fun hr => ?_
      have := h.routed l hl k hr
      simp [hs] at this
    refine ⟨⟨.empty k.1 k.2,Wal.fold_of_no_entry h.sound hnone _,Tracks.others ?_ (Agree.refl _)⟩,?_⟩
    · intro job hj ho
      have := h.owned job hj k ho
      simp [hs] at this
    · exact fun _ _ hg => absurd hg List.not_mem_nil
  · exact ⟨(h.tracked k s' hs').live,(h.tracked k s' hs').store⟩

end Journals

/-- Every step keeps the invariant when rewinds are covered. -/
theorem World.Inv.step {cfg : Config} {w w' : World} {a : Action} (h : w.Inv) (hc : w.CoveredCheckout a)
    (hw : World.step cfg w a = some w') : w'.Inv := by
  have hsame : ∀ j ∈ w.queue, j.Sound ∧ ∀ key, j.owner = some key → (w.sessions.get? key).isSome :=
    fun j hj => ⟨h.jobs j hj,h.owned j hj⟩
  cases a with
  | load key =>
    simp only [World.step] at hw
    split at hw
    · cases hw
    · rename_i hnone
      cases hw
      exact h.load hnone _
  | mutate key m =>
    obtain ⟨s,hs,rfl⟩ := Option.map_eq_some_iff.mp hw
    obtain rfl := (h.tracked key s hs).snapshot_key h.sound
    refine h.submit hs (s.journal.sound_issue m) ?_ fun u hu => s.journal.tracks_issue m hu
    intro job hj
    obtain ⟨sub,-,rfl⟩ := List.mem_map.mp hj
    exact sub.owner_job _
  | cutGeneration key =>
    obtain ⟨s,hs,rfl⟩ := Option.map_eq_some_iff.mp hw
    refine h.of_sessions rfl h.kept ?_ (fun _ hk => hk) fun k s' hs' => ⟨s',hs',fun htr => ⟨htr.store,?_⟩⟩
    · intro job hj
      rcases List.mem_append.mp hj with hj | hj
      · exact hsame job hj
      · rw [List.mem_singleton.mp hj]
        refine ⟨trivial,fun k hk => ?_⟩
        cases hk
        simp [hs]
    · intro t _ ht
      refine ht.concat fun u hu => ?_
      by_cases hk : k = key
      · subst hk
        cases hs.symm.trans hs'
        exact .generation hu.symm (.done hu)
      · refine .other (fun ho => hk (Option.some.inj ho).symm) (.done hu)
  | close key =>
    obtain ⟨s,hs,rfl⟩ := Option.map_eq_some_iff.mp hw
    refine h.submit hs ?_ ?_ fun u hu => .snapshot hu.symm (.done hu)
    · intro job hj
      rw [List.mem_singleton.mp hj]
      exact trivial
    · intro job hj
      rw [List.mem_singleton.mp hj]
      rfl
  | record r =>
    cases hw
    refine h.of_sessions rfl h.kept ?_ (fun _ hk => hk) fun k s' hs' => ⟨s',hs',fun htr => ⟨htr.store,?_⟩⟩
    · intro job hj
      rcases List.mem_append.mp hj with hj | hj
      · exact hsame job hj
      · rw [List.mem_singleton.mp hj]
        exact ⟨trivial,by intro _ ho; cases ho⟩
    · exact fun t _ ht => ht.concat_others (by simp [Job.owner])
  | work ts => exact h.work hw
  | truncateWal =>
    cases hw
    unfold World.truncateWal
    dsimp only
    split
    · exact h
    · refine h.of_sessions rfl h.kept ?_ (fun _ hk => hk) fun k s' hs' => ⟨s',hs',fun htr => ⟨htr.store,?_⟩⟩
      · intro job hj
        rcases List.mem_append.mp hj with hj | hj
        · exact hsame job hj
        · rw [List.mem_singleton.mp hj]
          exact ⟨trivial,by intro _ ho; cases ho⟩
      · exact fun t _ ht => ht.concat_others (by simp [Job.owner])
  | prune =>
    simp only [World.step] at hw
    split at hw
    · cases hw
    · rename_i key floor rest hq
      cases hw
      refine h.of_sessions rfl h.kept hsame (fun k => Dict.isSome_modify k) fun k s' hs' => ?_
      obtain ⟨s,hs,⟨-,rfl⟩ | ⟨-,rfl⟩⟩ := Dict.modify_cases hs'
      · exact ⟨s,hs,fun htr => ⟨htr.store.prune floor,fun t _ ht => ht⟩⟩
      · exact ⟨s',hs,fun htr => ⟨htr.store,fun t _ ht => ht⟩⟩
  | admission target scope =>
    simp only [World.step,World.admission] at hw
    split at hw
    · cases hw
      exact h.of_sessions rfl h.kept hsame (fun _ hk => hk) fun k s' hs' => ⟨s',hs',fun htr => ⟨htr.store,fun t _ ht => ht⟩⟩
    · cases hw
  | checkout ts => exact h.checkout hc hw

/-- Every run whose rewinds are covered keeps the invariant. -/
theorem World.Inv.run {cfg : Config} {w : World}
    (hr : Transition.Runs (World.step cfg) World.CoveredCheckout World.init w) : w.Inv :=
  hr.invariant .init fun _ _ _ h hg hs => h.step hg hs

end Reyn
