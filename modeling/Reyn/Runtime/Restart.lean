import Reyn.Runtime.PersistedPrefix
import Reyn.Runtime.PointInTime

/-! # Restart

`restore_all` loads every snapshot file and replays the rest of the log over it. When
the log holds a reset-record, the sessions of the latest one are first rebuilt from
their generations and what is left of the log, and their files are overwritten with
the result, whatever the files held.
-/
namespace Reyn
open Py TimeTravel Transition

/-- What is left of a session on disk. -/
structure Durable where
  store : SnapshotGenerationStore
  file : Option AgentSnapshot

def Session.durable (s : Session) : Durable := ⟨s.store,s.file⟩

/-- A session the startup scan finds on disk: the main one of every agent, and every other
whose directory is there. -/
def Durable.discovered (d : Durable) (key : SessionKey) (dirs : SessionKey → Bool) : Bool :=
  key.2 = "main" || d.file.isSome || !d.store.gens.isEmpty || dirs key

/-- The sessions `recover_rewind_if_needed` materialises again. -/
def recovers (wal : List Event) (dirs : SessionKey → Bool) (key : SessionKey) (d : Durable) : Bool :=
  match activeRewindTargetWithScope wal with
  | .error _ | .ok none => false
  | .ok (some (_,none)) => d.discovered key dirs
  | .ok (some (_,some scope)) => some scope = Scope.tuple (some key)

/-- The snapshot file after `recover_rewind_if_needed`. -/
def Durable.recover (d : Durable) (key : SessionKey) (wal : List WalLine) (dirs : SessionKey → Bool) :
    Option AgentSnapshot :=
  if recovers (wal.map (·.event)) dirs key d then
    match reconstruct key.1 key.2 d.store (wal.map (·.event)) (highestSeq wal) (some key) with
    | .error _ => d.file
    | .ok snap => some { snap with appliedSeq := highestSeq wal }
  else d.file

/-- The snapshot `restore_all` loads: a session without a file is left out, a main one is empty. -/
def Durable.load (d : Durable) (key : SessionKey) (wal : List WalLine) (dirs : SessionKey → Bool) :
    Option AgentSnapshot :=
  match d.recover key wal dirs with
  | some snap => some snap
  | none => if key.2 = "main" then some (.empty key.1 key.2) else none

/-- The lowest watermark of the loaded snapshots, where the tail of the log begins. -/
def World.minSeq (w : World) (dirs : SessionKey → Bool) : ℕ :=
  ((w.sessions.items.filterMap fun p => p.2.durable.load p.1 w.wal dirs).map (·.appliedSeq)).min?.getD 0

/-- A session's snapshot file is a state on its lineage, everything of the session above it is
on the lineage and in the log, and no waiting truncation reaches above it. -/
structure Restorable (w : World) (key : SessionKey) (s : Session) : Prop where
  fold : ∃ t, w.hist.fold key s.onDisk = .ok t ∧ Agree (s.file.getD (.empty key.1 key.2)) t
  below : w.hist.Below key s.onDisk w.hist.head
  active : ∀ l ∈ w.hist.lines, l.routes key = true → s.onDisk < l.seq →
    l.seq ∈ (w.hist.resets (some key)).lineage w.hist.head
  kept : ∀ l ∈ w.hist.lines, l.routes key = true → s.onDisk < l.seq → l ∈ w.wal
  floors : ∀ floor, Job.truncate floor ∈ w.queue → ∀ l ∈ w.hist.lines, l.routes key = true →
    l.seq < floor → l.seq ≤ s.onDisk

structure World.Restorable (w : World) : Prop where
  session : ∀ key s, w.sessions.get? key = some s → Reyn.Restorable w key s
  floors : ∀ floor, Job.truncate floor ∈ w.queue → floor ≤ w.hist.head + 1
  last : ∀ l ∈ w.hist.lines, l.seq = w.hist.head → l ∈ w.wal

/-- No session that the floor does not count has an entry below it. -/
def World.PinnedTruncation (cfg : Config) (w : World) : Action → Prop
  | .truncateWal => ∀ key s, w.sessions.get? key = some s → s.applied = 0 →
      ∀ l ∈ w.hist.lines, l.routes key = true → computeTruncateFloor cfg w ≤ l.seq
  | _ => True

theorem World.Restorable.init : World.init.Restorable := ⟨fun key s h => (by cases h),nofun,nofun⟩

section Append
variable {w : World} {l : WalLine} {hl : w.hist.head < l.seq} {rest : List Job} {key : SessionKey} {s : Session}

theorem Restorable.congr {w' : World} (h : Restorable w key s) (hh : w'.hist = w.hist) (hwal : w'.wal = w.wal)
    (hq : ∀ floor, Job.truncate floor ∈ w'.queue → Job.truncate floor ∈ w.queue) : Restorable w' key s := by
  obtain ⟨hfold,hbelow,hactive,hkept,hfloors⟩ := h
  exact ⟨hh ▸ hfold,hh ▸ hbelow,hh ▸ hactive,hh ▸ hwal ▸ hkept,fun floor hj => hh ▸ hfloors floor (hq floor hj)⟩

/-- An append that continues the session's lineage. -/
theorem Restorable.append (h : Restorable w key s)
    (hq : ∀ floor, Job.truncate floor ∈ rest → Job.truncate floor ∈ w.queue) (hb : s.onDisk ≤ w.hist.head)
    (hf : ∀ floor, Job.truncate floor ∈ w.queue → floor ≤ w.hist.head + 1)
    (hc : ((w.hist.snoc l hl).resets (some key)).lineage l.seq =
      insert l.seq ((w.hist.resets (some key)).lineage w.hist.head)) :
    Restorable (w.appendLine l hl rest) key s where
  fold := by
    obtain ⟨t,ht,ha⟩ := h.fold
    exact ⟨t,(Wal.fold_snoc_of_le hl hb).trans ht,ha⟩
  below := by
    rw [World.appendLine_head]
    show Wal.Below (w.hist.snoc l hl) key s.onDisk l.seq
    rw [Wal.Below,hc]
    exact h.below.imp id fun hm => Finset.mem_insert_of_mem hm
  active a ha har hlt := by
    rw [World.appendLine_head]
    show a.seq ∈ ((w.hist.snoc l hl).resets (some key)).lineage l.seq
    rw [hc]
    rcases List.mem_append.mp ha with ha | ha
    · exact Finset.mem_insert_of_mem (h.active a ha har hlt)
    · rw [List.mem_singleton.mp ha]
      exact Finset.mem_insert_self _ _
  kept a ha har hlt := by
    rcases List.mem_append.mp ha with ha | ha
    · exact List.mem_append_left _ (h.kept a ha har hlt)
    · exact List.mem_append_right _ ha
  floors floor hj a ha har hlt := by
    have hj' := hq floor hj
    rcases List.mem_append.mp ha with ha | ha
    · exact h.floors floor hj' a ha har hlt
    · rw [List.mem_singleton.mp ha] at hlt
      have := hf floor hj'
      omega

end Append

namespace World.Restorable
variable {w w' : World}

theorem append (h : w.Restorable) (hs : w.Stamped) {ts kind : String} {fields : WalFields} {hk : kind ≠ "rewind"}
    {job : Job} {rest : List Job} (hq : w.queue = job :: rest) :
    (w.appendLine (w.nextLine ts kind fields hk) (w.lt_nextLine ts kind fields hk) rest).Restorable where
  session key s hg := (h.session key s hg).append (fun _ hj => hq ▸ List.mem_cons_of_mem _ hj)
    (hs.memory key s hg).2 h.floors
    (w.lineage_nextLine ts kind fields hk (some key))
  floors floor hj := by
    have := h.floors floor (hq ▸ List.mem_cons_of_mem _ hj)
    rw [World.appendLine_head]
    exact this.trans (Nat.succ_le_succ (w.lt_nextLine ts kind fields hk).le)
  last a ha he := by
    rw [World.appendLine_head] at he
    rcases List.mem_append.mp ha with ha | ha
    · have hle := w.hist.seq_le_head ha
      have hlt := w.lt_nextLine ts kind fields hk
      omega
    · exact List.mem_append_right _ ha

/-- A step that leaves the log alone and hands over no truncation. -/
theorem of_sessions (h : w.Restorable) (hh : w'.hist = w.hist) (hwal : w'.wal = w.wal)
    (hq : ∀ floor, Job.truncate floor ∈ w'.queue → Job.truncate floor ∈ w.queue)
    (hs : ∀ key s', w'.sessions.get? key = some s' → Reyn.Restorable w key s') : w'.Restorable where
  session key s' hg := (hs key s' hg).congr hh hwal hq
  floors floor hj := hh ▸ h.floors floor (hq floor hj)
  last := hh ▸ hwal ▸ h.last

theorem of_file {key : SessionKey} {s s' : Session} (h : Reyn.Restorable w key s) (hf : s'.file = s.file) :
    Reyn.Restorable w key s' := by
  have hdisk : s'.onDisk = s.onDisk := by rw [Session.onDisk,hf,Session.onDisk]
  exact ⟨by rw [hdisk,hf]; exact h.fold,hdisk ▸ h.below,hdisk ▸ h.active,hdisk ▸ h.kept,hdisk ▸ h.floors⟩

theorem of_modify (h : w.Restorable) {key : SessionKey} {f : Session → Session} (hf : ∀ s, (f s).file = s.file) :
    ∀ k s', (w.sessions.modify key f).get? k = some s' → Reyn.Restorable w k s' := by
  intro k s' hs'
  obtain ⟨s,hs,⟨-,rfl⟩ | ⟨-,rfl⟩⟩ := Dict.modify_cases hs'
  · exact of_file (h.session k s hs) (hf s)
  · exact h.session k s' hs

/-- The snapshot just written is the state at the head. -/
theorem of_snapshot {key : SessionKey} {s : Session} {payload t : AgentSnapshot}
    (hfold : w.hist.fold key w.hist.head = .ok t) (ha : Agree payload t) :
    Reyn.Restorable w key { s with file := some { payload with appliedSeq := w.lastSeq } } where
  fold := ⟨t,hfold,⟨ha.1,ha.2,ha.3,ha.4,ha.5,ha.6,ha.7⟩⟩
  below := by
    show w.hist.Below key w.hist.head w.hist.head
    rcases Nat.eq_zero_or_pos w.hist.head with h0 | hpos
    · exact .inl h0
    · exact .inr (Resets.self_mem_lineage _ hpos)
  active l hl _ hlt := absurd (w.hist.seq_le_head hl) (Nat.not_le.mpr hlt)
  kept l hl _ hlt := absurd (w.hist.seq_le_head hl) (Nat.not_le.mpr hlt)
  floors _ _ l hl _ _ := w.hist.seq_le_head hl

theorem highestSeq_le {wal : List WalLine} {bound : ℕ} (h : ∀ l ∈ wal, l.seq ≤ bound) : highestSeq wal ≤ bound := by
  induction wal with
  | nil => exact Nat.zero_le _
  | cons l rest ih =>
    exact max_le (h l List.mem_cons_self) (ih fun a ha => h a (List.mem_cons_of_mem _ ha))

theorem mem_doTruncate {wal : List WalLine} {l : WalLine} {floor : ℕ} (h : l ∈ wal) (hle : floor ≤ l.seq) :
    l ∈ doTruncate floor wal := by
  refine List.mem_filter.mpr ⟨h,?_⟩
  have : min floor (highestSeq wal) ≤ l.seq := (min_le_left _ _).trans hle
  simp [this]

theorem work (h : w.Restorable) (hi : w.Inv) (hs : w.Stamped) {ts : String} (hw : w.work ts = some w') :
    w'.Restorable := by
  unfold World.work at hw
  split at hw
  · cases hw
  · rename_i hq
    split at hw
    · cases hw
      exact h.append hs hq
    · cases hw
  · rename_i hq
    cases hw
    exact h.append hs hq
  · rename_i key payload rest hq
    cases hw
    refine h.of_sessions rfl rfl ?_ fun k s' hs' => ?_
    · intro floor hj
      rcases List.mem_cons.mp hj with he | hj
      · cases he
      · exact hq ▸ List.mem_cons_of_mem _ hj
    · obtain ⟨s,hg,⟨he,rfl⟩ | ⟨-,rfl⟩⟩ := Dict.modify_cases hs'
      · subst he
        obtain ⟨t,hfold,htr⟩ := (hi.tracked k s hg).live
        exact of_snapshot hfold (hq ▸ htr).tail_snapshot.1
      · exact h.session k s' hg
  · rename_i key seq rest hq
    cases hw
    exact h.of_sessions rfl rfl (fun _ hj => hq ▸ List.mem_cons_of_mem _ hj) (h.of_modify fun _ => rfl)
  · rename_i key payload rest hq
    cases hw
    exact h.of_sessions rfl rfl (fun _ hj => hq ▸ List.mem_cons_of_mem _ hj) (h.of_modify fun _ => rfl)
  · rename_i floor rest hq
    cases hw
    have hmem : Job.truncate floor ∈ w.queue := hq ▸ List.mem_cons_self
    have hrest : ∀ f, Job.truncate f ∈ rest → Job.truncate f ∈ w.queue := fun _ hj => hq ▸ List.mem_cons_of_mem _ hj
    refine ⟨fun k s hg => ?_,fun f hj => h.floors f (hrest f hj),fun l hl he => ?_⟩
    · obtain ⟨hfold,hbelow,hactive,hkept,hfloors⟩ := h.session k s hg
      refine ⟨hfold,hbelow,hactive,fun l hl hr hlt => ?_,fun f hj => hfloors f (hrest f hj)⟩
      refine mem_doTruncate (hkept l hl hr hlt) ?_
      by_contra hlow
      have := hfloors floor hmem l hl hr (Nat.not_le.mp hlow)
      omega
    · have hhigh : highestSeq w.wal ≤ w.hist.head :=
        highestSeq_le fun a ha => w.hist.seq_le_head (hi.kept.sub.subset ha)
      refine List.mem_filter.mpr ⟨h.last l hl he,?_⟩
      have : min floor (highestSeq w.wal) ≤ l.seq := (min_le_right _ _).trans (he ▸ hhigh)
      simp [this]

/-- The floor is one above a watermark in memory, and not above any other. -/
theorem computeLiveFloor_spec (w : World) (h : w.computeLiveFloor ≠ 0) :
    (∀ key s, w.sessions.get? key = some s → 0 < s.applied → w.computeLiveFloor ≤ s.applied + 1) ∧
      ∃ key s, w.sessions.get? key = some s ∧ w.computeLiveFloor = s.applied + 1 := by
  unfold World.computeLiveFloor at h ⊢
  cases hm : ((w.sessions.items.map fun p => p.2.applied).filter (0 < ·)).min? with
  | none => simp [hm] at h
  | some low =>
    obtain ⟨hmem,hmin⟩ := List.min?_eq_some_iff.mp hm
    refine ⟨fun key s hs hpos => ?_,?_⟩
    · have hin : s.applied ∈ (w.sessions.items.map fun p => p.2.applied).filter (0 < ·) :=
        List.mem_filter.mpr ⟨List.mem_map_of_mem (f := fun p => p.2.applied) (Dict.mem_of_get? hs),by simpa using hpos⟩
      exact Nat.succ_le_succ (hmin _ hin)
    · obtain ⟨⟨key,s⟩,hitem,rfl⟩ := List.mem_map.mp (List.mem_of_mem_filter hmem)
      exact ⟨key,s,Dict.get?_of_mem hitem,rfl⟩

theorem computeTruncateFloor_le (cfg : Config) (w : World) : computeTruncateFloor cfg w ≤ w.computeLiveFloor := by
  unfold World.computeTruncateFloor computeRetentionFloor
  split
  · exact le_rfl
  · split
    · exact le_rfl
    · split
      · exact le_rfl
      · exact min_le_left _ _

theorem truncateWal (h : w.Restorable) (hs : w.Stamped) {cfg : Config} (hp : w.PinnedTruncation cfg .truncateWal) :
    (truncateWal cfg w).Restorable := by
  unfold World.truncateWal
  dsimp only
  split
  · exact h
  · rename_i hne
    have hle := computeTruncateFloor_le cfg w
    have hlive : w.computeLiveFloor ≠ 0 := by omega
    obtain ⟨hmin,key₀,s₀,hs₀,heq⟩ := computeLiveFloor_spec w hlive
    refine ⟨fun key s hg => ?_,fun floor hj => ?_,h.last⟩
    · obtain ⟨hfold,hbelow,hactive,hkept,hfloors⟩ := h.session key s hg
      refine ⟨hfold,hbelow,hactive,hkept,fun floor hj l hl hr hlt => ?_⟩
      rcases List.mem_append.mp hj with hj | hj
      · exact hfloors floor hj l hl hr hlt
      · cases List.mem_singleton.mp hj
        rcases Nat.eq_zero_or_pos s.applied with h0 | hpos
        · have := hp key s hg h0 l hl hr
          omega
        · have h1 := hmin key s hg hpos
          have h2 := (hs.memory key s hg).1
          omega
    · rcases List.mem_append.mp hj with hj | hj
      · exact h.floors floor hj
      · cases List.mem_singleton.mp hj
        obtain ⟨h1,h2⟩ := hs.memory key₀ s₀ hs₀
        show computeTruncateFloor cfg w ≤ w.hist.head + 1
        omega

theorem checkout (h : w.Restorable) (hi : w.Inv) (hs : w.Stamped) {ts : String}
    (hc : w.CoveredCheckout (.checkout ts)) (hw : w.checkout ts = some w') : w'.Restorable := by
  obtain ⟨target,scope,ht,hco⟩ := World.checkout_cases hw
  have hlt := w.lt_resetLine ts target scope ht
  have hforeign := w.foreign_resetLine ts target scope ht
  refine ⟨fun key s' hs' => ?_,?_,?_⟩
  · obtain ⟨s,hg,⟨hr,rfl⟩ | ⟨hr,rfl⟩⟩ := hco.session hs'
    · obtain ⟨snap,t,hsnap,hfold,hagree,-⟩ := hi.reconstruct ts ht hg hr
        (hc target scope hco.admitted key s hg hr)
      have hdisk : (s.rewind key (w.wal ++ [w.resetLine ts target scope ht]) (w.lastSeq + 1)).onDisk =
          w.lastSeq + 1 := by rw [Session.rewind_of_ok hsnap]; rfl
      have hall : ∀ l ∈ w'.hist.lines, ¬ w.lastSeq + 1 < l.seq := by
        intro l hl
        have := w'.hist.seq_le_head hl
        rw [hco.head] at this
        omega
      refine ⟨⟨t,?_,?_⟩,.inr ?_,?_,?_,?_⟩
      · rw [hdisk,hco.hist]
        exact (World.fold_resetLine hi.sound hr).trans hfold
      · rw [Session.rewind_of_ok hsnap]
        exact ⟨hagree.1,hagree.2,hagree.3,hagree.4,hagree.5,hagree.6,hagree.7⟩
      · rw [hdisk,hco.head]
        exact Resets.self_mem_lineage _ (Nat.succ_pos _)
      · exact fun l hl _ hgt => absurd (hdisk ▸ hgt) (hall l hl)
      · exact fun l hl _ hgt => absurd (hdisk ▸ hgt) (hall l hl)
      · rw [hco.queue]
        exact nofun
    · have hsame : Reyn.Restorable (w.appendLine (w.resetLine ts target scope ht) hlt []) key s' :=
        (h.session key s' hg).append nofun (hs.memory key s' hg).2 h.floors (World.lineage_resetLine_stays hr)
      refine hsame.congr hco.hist hco.wal fun floor hj => ?_
      rw [hco.queue] at hj
      cases hj
  · rw [hco.queue]
    exact nofun
  · intro l hl he
    rw [hco.head] at he
    rw [hco.hist] at hl
    rw [hco.wal]
    rcases List.mem_append.mp hl with hl | hl
    · have := w.hist.seq_le_head hl
      rw [World.lastSeq] at he
      omega
    · exact List.mem_append_right _ hl

theorem step (h : w.Restorable) (hi : w.Inv) (hs : w.Stamped) {cfg : Config} {a : Action}
    (hc : w.CoveredCheckout a) (hp : w.PinnedTruncation cfg a) (hw : World.step cfg w a = some w') :
    w'.Restorable := by
  have hjobs : ∀ {jobs : List Job}, (∀ floor, Job.truncate floor ∉ jobs) → ∀ floor,
      Job.truncate floor ∈ w.queue ++ jobs → Job.truncate floor ∈ w.queue := by
    intro jobs hno floor hj
    rcases List.mem_append.mp hj with hj | hj
    · exact hj
    · exact absurd hj (hno floor)
  have hsubs : ∀ (key : SessionKey) (subs : List Submission) (floor : ℕ),
      Job.truncate floor ∉ subs.map (·.job key) := by
    intro key subs floor hj
    obtain ⟨sub,-,he⟩ := List.mem_map.mp hj
    cases sub <;> cases he
  have hjournal : ∀ {key s j}, w.sessions.get? key = some s → ∀ k s',
      (w.sessions.set key { s with journal := j }).get? k = some s' → Reyn.Restorable w k s' := by
    intro key s j hg k s' hg'
    rw [Dict.get?_set] at hg'
    split at hg'
    · rename_i he
      cases hg'
      subst he
      exact of_file (h.session k s hg) rfl
    · exact h.session k s' hg'
  cases a with
  | load key =>
    simp only [World.step] at hw
    split at hw
    · cases hw
    · rename_i hnone
      cases hw
      refine h.of_sessions rfl rfl (fun _ hj => hj) fun k s' hg => ?_
      rw [Dict.get?_set] at hg
      split at hg
      · rename_i he
        cases hg
        subst he
        have hno : ∀ l ∈ w.hist.lines, ¬ l.routes k = true := by
          intro l hl hr
          have := hi.routed l hl k hr
          simp [hnone] at this
        refine ⟨⟨.empty k.1 k.2,?_,Agree.refl _⟩,.inl rfl,fun l hl hr => absurd hr (hno l hl),
          fun l hl hr => absurd hr (hno l hl),fun _ _ l hl hr => absurd hr (hno l hl)⟩
        exact Wal.fold_of_no_entry hi.sound (fun l hl => Bool.eq_false_iff.mpr (hno l hl)) _
      · exact h.session k s' hg
  | mutate key m =>
    obtain ⟨s,hg,rfl⟩ := Option.map_eq_some_iff.mp hw
    exact h.of_sessions rfl rfl (hjobs (hsubs key _)) (hjournal hg)
  | cutGeneration key =>
    obtain ⟨s,hg,rfl⟩ := Option.map_eq_some_iff.mp hw
    exact h.of_sessions rfl rfl (hjobs (by simp)) h.session
  | close key =>
    obtain ⟨s,hg,rfl⟩ := Option.map_eq_some_iff.mp hw
    exact h.of_sessions rfl rfl (hjobs (hsubs key _)) (hjournal hg)
  | record r =>
    cases hw
    exact h.of_sessions rfl rfl (hjobs (by simp)) h.session
  | work ts => exact h.work hi hs hw
  | truncateWal =>
    cases hw
    exact h.truncateWal hs hp
  | prune =>
    simp only [World.step] at hw
    split at hw
    · cases hw
    · cases hw
      exact h.of_sessions rfl rfl (fun _ hj => hj) (h.of_modify fun _ => rfl)
  | admission target scope =>
    simp only [World.step,World.admission] at hw
    split at hw
    · cases hw
      exact h.of_sessions rfl rfl (fun _ hj => hj) h.session
    · cases hw
  | checkout ts => exact h.checkout hi hs hc hw

/-- Along every run whose rewinds are covered and whose truncations are pinned. -/
theorem run {cfg : Config} {w : World} (hr : Runs (World.step cfg)
    (fun v a => v.CoveredCheckout a ∧ v.PinnedTruncation cfg a) World.init w) :
    w.Inv ∧ w.Stamped ∧ w.Restorable :=
  hr.invariant (I := fun w => w.Inv ∧ w.Stamped ∧ w.Restorable) ⟨.init,.init,.init⟩
    fun _ _ _ h hg hs => ⟨h.1.step hg.1 hs,h.2.1.step h.1 hs,h.2.2.step h.1 h.2.1 hg.1 hg.2 hs⟩

end World.Restorable
section Replay
variable {s : AgentSnapshot} {ls : List WalLine}

end Replay

section Crash
variable {w : World} {dirs : SessionKey → Bool} {key : SessionKey} {s : Session}

/-- The snapshot file and the log, for a session that is not materialised again. -/
theorem Restorable.replay (hr : Restorable w key s) (hw : w.hist.Sound) (hk : Kept w.hist w.wal)
    {snap : AgentSnapshot} (hsnap : s.file.getD (.empty key.1 key.2) = snap) (happ : snap.appliedSeq = s.onDisk) :
    ∃ snap' t, snap.absorbAll (w.wal.filter fun l => l.routes key && snap.appliedSeq < l.seq) = .ok snap' ∧
      w.hist.fold key w.hist.head = .ok t ∧
      AgreeOff (Stale key snap (w.hist.branchAbove key w.hist.head s.onDisk)) snap' t := by
  obtain ⟨t₀,ht₀,hagree⟩ := hr.fold
  rw [hsnap] at hagree
  have hkey : snap.key = key := by
    obtain ⟨t',ht',hk'⟩ := Wal.fold_ok hw key s.onDisk
    rw [ht₀] at ht'
    cases ht'
    exact hagree.key.trans hk'
  have hsound : ∀ l ∈ w.hist.branchAbove key w.hist.head s.onDisk, Sound l :=
    fun l hl => hw l (List.mem_of_mem_filter hl)
  -- the file has every entry of the session above the watermark, and all of them are active
  have htail : w.wal.filter (fun l => l.routes key && snap.appliedSeq < l.seq) =
      (w.hist.branchAbove key w.hist.head s.onDisk).filter (·.routes snap.key) := by
    rw [KeyedLog.filter_of_sublist hk.sub w.hist.increasing,Wal.branchAbove,List.filter_filter,hkey,happ]
    · refine List.filter_congr fun l hl => ?_
      by_cases hroute : l.routes key = true
      · by_cases hlt : s.onDisk < l.seq
        · simp [hroute,hlt,hr.active l hl hroute hlt]
        · simp [hlt]
      · simp [hroute]
    · intro l hl hp
      simp only [Bool.and_eq_true,decide_eq_true_eq,happ] at hp
      exact hr.kept l hl hp.1 hp.2
  obtain ⟨snap',t,hsnap',ht,-,hoff⟩ := hagree.off.absorbAll hsound
  refine ⟨snap',t,?_,?_,?_⟩
  · rw [htail,← absorbAll_filter_routes hsound]
    exact hsnap'
  · rw [Wal.fold_split hr.below,ht₀]
    exact ht
  · rw [hkey] at hoff
    exact hoff

end Crash

/-- What a crash leaves of a session is enough. Where the session is materialised again: every
entry of it on the current lineage is in the log or under the newest generation of the lineage.
Where it is not: a spawned session with entries has its snapshot file. In both cases every chain
pending in the base is settled or registered anew by a later entry of the lineage. -/
def Recoverable (w : World) (dirs : SessionKey → Bool) (key : SessionKey) (s : Session) : Prop :=
  if recovers (w.wal.map (·.event)) dirs key s.durable then
    Covered w.hist w.wal key s.store w.hist.head ∧ ChainsRenewed w.hist key s.store w.hist.head
  else (s.file = none → key.2 ≠ "main" → ∀ l ∈ w.hist.lines, l.routes key = false) ∧
    ∀ id, ¬ Stale key (s.file.getD (.empty key.1 key.2)) (w.hist.branchAbove key w.hist.head s.onDisk) id

end Reyn
