import Reyn.Runtime.SessionHistory

/-! # When a reconstruction is the whole history

`reconstruct` replays what is left of the log over the newest generation on the
lineage. It rebuilds the state of the session when every entry of the session on
the lineage above that generation is still in the file, up to the contents of the
chains that were pending in the generation and that no later entry renews.
-/
namespace Reyn
open Py TimeTravel

/-- Each generation agrees with the state of its session at the position it was cut at. -/
def SoundStore (w : Wal) (k : SessionKey) (store : SnapshotGenerationStore) : Prop :=
  ∀ g p, (g,p) ∈ store.gens → p.appliedSeq = g ∧ g ≤ w.head ∧ ∃ t, w.fold k g = .ok t ∧ Agree p t

instance (w : Wal) (k : SessionKey) (g h : ℕ) : Decidable (w.Below k g h) := instDecidableOr

/-- The newest generation on the lineage of a position. -/
def baseAt (w : Wal) (k : SessionKey) (store : SnapshotGenerationStore) (h : ℕ) : Option ℕ :=
  store.seqs.reverse.find? fun s => w.Below k s h

def baseFloor (w : Wal) (k : SessionKey) (store : SnapshotGenerationStore) (h : ℕ) : ℕ :=
  (baseAt w k store h).getD 0

/-- Every entry of the session on the lineage is at or below the newest generation of the
lineage, or still in the file. -/
def Covered (w : Wal) (kept : List WalLine) (k : SessionKey) (store : SnapshotGenerationStore) (h : ℕ) : Prop :=
  ∀ l ∈ w.branchAbove k h (baseFloor w k store h), l.routes k = true → l ∈ kept

/-- A chain pending in the snapshot that no entry of the list settles or registers anew. -/
def Stale (k : SessionKey) (base : AgentSnapshot) (ls : List WalLine) (id : String) : Prop :=
  id ∈ base.pendingChains.keys ∧ ∀ l ∈ ls, ¬ (l.routes k = true ∧ l.event.renews id = true)

/-- Every chain pending in the newest generation of the lineage is settled or registered
anew by a later entry of the lineage. -/
def ChainsRenewed (w : Wal) (k : SessionKey) (store : SnapshotGenerationStore) (h : ℕ) : Prop :=
  ∀ id, ¬ Stale k (baseSnapshot k.1 k.2 store (baseAt w k store h)) (w.branchAbove k h (baseFloor w k store h)) id

section Base
variable {w : Wal} {k : SessionKey} {store : SnapshotGenerationStore}

theorem isActive_zero (w : Wal) (scope : Scope) : w.isActive scope 0 = true := by
  simp [Wal.isActive,makeIsActive,isInside]

/-- The base `reconstruct` chooses at the head. -/
theorem baseSeq_eq_baseAt (w : Wal) (k : SessionKey) (store : SnapshotGenerationStore) :
    baseSeq store (w.isActive (some k)) w.head = baseAt w k store w.head := by
  unfold baseSeq baseAt
  congr 1
  funext s
  rcases Nat.eq_zero_or_pos s with rfl | hpos
  · simp [isActive_zero,Wal.Below]
  · by_cases hle : s ≤ w.head
    · have hiff := w.isActive_iff (some k) hpos hle
      have hne : s ≠ 0 := hpos.ne'
      simp only [hle,decide_true,Bool.true_and,Wal.Below,hne,false_or]
      exact Bool.eq_iff_iff.mpr (hiff.trans (by simp))
    · have hnot : ¬ w.Below k s w.head := fun hb => hle hb.le
      simp [hle,hnot]

theorem load?_mem {g : ℕ} (h : g ∈ store.seqs) : ∃ p, store.load? g = some p ∧ (g,p) ∈ store.gens := by
  obtain ⟨store,hsorted⟩ := store
  simp only [SnapshotGenerationStore.seqs,SnapshotGenerationStore.load?] at h ⊢
  induction store with
  | nil => cases h
  | cons x rest ih =>
    obtain ⟨a,p⟩ := x
    rw [Dict.lookup_cons]
    by_cases hg : g = a
    · subst hg
      exact ⟨p,by simp,List.mem_cons_self⟩
    · rw [if_neg hg]
      have hrest : g ∈ rest.map Prod.fst := by simpa [hg] using h
      obtain ⟨q,hq,hmem⟩ := ih (List.pairwise_cons.mp hsorted).2 hrest
      exact ⟨q,hq,List.mem_cons_of_mem _ hmem⟩

/-- The base snapshot stands at a position below the head and agrees with the state there. -/
theorem baseSnapshot_spec (hs : SoundStore w k store) (h : ℕ) :
    (baseSnapshot k.1 k.2 store (baseAt w k store h)).appliedSeq = baseFloor w k store h ∧
      w.Below k (baseFloor w k store h) h ∧ ∃ t, w.fold k (baseFloor w k store h) = .ok t ∧
        Agree (baseSnapshot k.1 k.2 store (baseAt w k store h)) t := by
  unfold baseFloor
  cases hb : baseAt w k store h with
  | none =>
    refine ⟨rfl,.inl rfl,.empty k.1 k.2,?_,Agree.refl _⟩
    simp [Wal.fold,Wal.branch_zero,AgentSnapshot.absorbAll]
    rfl
  | some g =>
    have hmem : g ∈ store.seqs := List.mem_reverse.mp (List.mem_of_find?_eq_some hb)
    have hbelow : w.Below k g h := by simpa using List.find?_some hb
    obtain ⟨p,hp,hgen⟩ := load?_mem hmem
    obtain ⟨happ,-,t,ht,hagree⟩ := hs g p hgen
    simp only [baseSnapshot,Option.bind_some,hp,Option.getD_some]
    exact ⟨happ,hbelow,t,ht,hagree⟩

end Base

/-- Reading the lines of a lineage from after a sequence number. -/
theorem filter_lineage (w : Wal) (k : SessionKey) (covered : ℕ) {ls : List WalLine} (hls : ∀ l ∈ ls, l ∈ w.lines) :
    ((iterFrom (ls.map (·.event)) (covered + 1)).filter fun e => match e.seq? with
      | some i => i ≤ w.head && w.isActive (some k) i.toNat
      | none => false) =
    (ls.filter fun l => l.seq ∈ (w.resets (some k)).lineage w.head && covered < l.seq).map (·.event) := by
  simp only [iterFrom,List.filter_map,List.filter_filter]
  congr 1
  refine List.filter_congr fun l hl => ?_
  have hle := w.seq_le_head (hls l hl)
  have hactive := w.isActive_iff (some k) l.pos hle
  have hlow : ((covered + 1 : ℕ) : Int) ≤ (l.seq : Int) ↔ covered < l.seq := by omega
  rw [Bool.eq_iff_iff]
  simp only [Function.comp,l.stamped,Int.toNat_natCast,Bool.and_eq_true,decide_eq_true_eq,
    Int.ofNat_le,hle,true_and,hlow,hactive]

/-- The entries `reconstruct` replays at the head are those above its base, active and kept. -/
theorem reconstruct_eq_absorbAll {w : Wal} {kept : List WalLine} (hk : Kept w kept) (k : SessionKey)
    (store : SnapshotGenerationStore) :
    reconstruct k.1 k.2 store (kept.map (·.event)) w.head (some k) =
      (baseSnapshot k.1 k.2 store (baseAt w k store w.head)).absorbAll
        (kept.filter fun l => l.seq ∈ (w.resets (some k)).lineage w.head &&
          (baseSnapshot k.1 k.2 store (baseAt w k store w.head)).appliedSeq < l.seq) := by
  generalize hbase : baseSnapshot k.1 k.2 store (baseAt w k store w.head) = base
  rw [reconstruct,hk.buildActivePredicate,← AgentSnapshot.applyEvents_lines]
  · rw [← filter_lineage w k _ fun l hl => hk.sub.subset hl,← hbase,← baseSeq_eq_baseAt]
    rfl
  · exact hk.increasing.sublist List.filter_sublist
  · intro l hl
    have hp := (List.mem_filter.mp hl).2
    simp only [Bool.and_eq_true,decide_eq_true_eq] at hp
    exact hp.2

/-- Where the session is covered, `reconstruct` at the head is the state of the session up
to the chains that are stale in the base. -/
theorem reconstruct_fold {w : Wal} {kept : List WalLine} {k : SessionKey} {store : SnapshotGenerationStore}
    (hw : w.Sound) (hk : Kept w kept) (hs : SoundStore w k store) (hc : Covered w kept k store w.head) :
    ∃ s t, reconstruct k.1 k.2 store (kept.map (·.event)) w.head (some k) = .ok s ∧
      w.fold k w.head = .ok t ∧ s.key = k ∧
      AgreeOff (Stale k (baseSnapshot k.1 k.2 store (baseAt w k store w.head))
        (w.branchAbove k w.head (baseFloor w k store w.head))) s t := by
  obtain ⟨happ,hbelow,t₀,ht₀,hagree⟩ := baseSnapshot_spec hs w.head
  have hkey : (baseSnapshot k.1 k.2 store (baseAt w k store w.head)).key = k := by
    obtain ⟨t',ht',hk'⟩ := Wal.fold_ok hw k (baseFloor w k store w.head)
    rw [ht₀] at ht'
    cases ht'
    exact hagree.key.trans hk'
  rw [reconstruct_eq_absorbAll hk,Wal.fold_split hbelow,ht₀,happ]
  generalize baseSnapshot k.1 k.2 store (baseAt w k store w.head) = base at hagree hkey
  have hsound : ∀ l ∈ w.branchAbove k w.head (baseFloor w k store w.head), Sound l :=
    fun l hl => hw l (List.mem_of_mem_filter hl)
  -- only the session's own entries matter, and those are all in the file
  have hkept : base.absorbAll (kept.filter fun l => l.seq ∈ (w.resets (some k)).lineage w.head &&
      baseFloor w k store w.head < l.seq) = base.absorbAll (w.branchAbove k w.head (baseFloor w k store w.head)) := by
    rw [absorbAll_filter_routes fun l hl => hw l (hk.sub.subset (List.mem_of_mem_filter hl)),
      absorbAll_filter_routes hsound,hkey,Wal.branchAbove,List.filter_filter,List.filter_filter,
      KeyedLog.filter_of_sublist hk.sub w.increasing]
    intro l hl hp
    rw [Bool.and_eq_true] at hp
    exact hc l (List.mem_filter.mpr ⟨hl,hp.2⟩) hp.1
  obtain ⟨s,t,hs',ht',hsk,hoff⟩ := hagree.off.absorbAll hsound
  refine ⟨s,t,hkept.trans hs',ht',hsk.trans hkey,?_⟩
  rw [hkey] at hoff
  exact hoff

section Snoc
variable {w : Wal} {kept : List WalLine} {k : SessionKey} {store : SnapshotGenerationStore} {l : WalLine}
variable {hl : w.head < l.seq} {n : ℕ}
variable (hc : ((w.snoc l hl).resets (some k)).lineage l.seq = insert l.seq ((w.resets (some k)).lineage n))
include hc

/-- A new head that continues a lineage has the base of that lineage. -/
theorem baseAt_snoc (hs : SoundStore w k store) : baseAt (w.snoc l hl) k store l.seq = baseAt w k store n := by
  refine List.find?_congr fun g hg => ?_
  obtain ⟨p,-,hgen⟩ := load?_mem (List.mem_reverse.mp hg)
  have hle := (hs g p hgen).2.1
  have hne : g ≠ l.seq := by omega
  have hiff : (w.snoc l hl).Below k g l.seq ↔ w.Below k g n := by simp [Wal.Below,hc,hne]
  exact decide_eq_decide.mpr hiff

theorem branchAbove_snoc (g : ℕ) {a : WalLine} (ha : a ∈ (w.snoc l hl).branchAbove k l.seq g) :
    a = l ∨ a ∈ w.branchAbove k n g := by
  obtain ⟨hmem,hp⟩ := List.mem_filter.mp ha
  rcases List.mem_append.mp hmem with hmem | hmem
  · right
    have hle := w.seq_le_head hmem
    have hne : a.seq ≠ l.seq := by omega
    simp only [hc,Finset.mem_insert,hne,false_or] at hp
    exact List.mem_filter.mpr ⟨hmem,hp⟩
  · exact .inl (List.mem_singleton.mp hmem)

theorem branchAbove_subset_snoc (g : ℕ) {a : WalLine} (ha : a ∈ w.branchAbove k n g) :
    a ∈ (w.snoc l hl).branchAbove k l.seq g := by
  obtain ⟨hmem,hp⟩ := List.mem_filter.mp ha
  simp only [Bool.and_eq_true,decide_eq_true_eq] at hp
  refine List.mem_filter.mpr ⟨List.mem_append_left _ hmem,?_⟩
  simp [hc,hp.1,hp.2]

theorem Covered.snoc (h : Covered w kept k store n) (hs : SoundStore w k store) (hr : l.routes k = false) :
    Covered (w.snoc l hl) (kept ++ [l]) k store l.seq := by
  intro a ha har
  rw [baseFloor,baseAt_snoc hc hs] at ha
  rcases branchAbove_snoc hc _ ha with rfl | ha
  · exact List.mem_append_right _ (List.mem_singleton_self _)
  · exact List.mem_append_left _ (h a ha har)

theorem ChainsRenewed.snoc (h : ChainsRenewed w k store n) (hs : SoundStore w k store) :
    ChainsRenewed (w.snoc l hl) k store l.seq := by
  intro id hstale
  rw [baseFloor,baseAt_snoc hc hs] at hstale
  exact h id ⟨hstale.1,fun a ha => hstale.2 a (branchAbove_subset_snoc hc _ ha)⟩

end Snoc
end Reyn
