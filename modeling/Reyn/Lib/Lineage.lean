import Mathlib

/-! # Time travel over an append-only history

Positions are numbered from one. A position either continues its predecessor or
resets the head to an earlier one, and the lineage of a head is the chain of
positions reached by going back from it.
-/
namespace TimeTravel

/-- Which positions reset the head, and to what; a reset goes strictly back. -/
structure Resets where
  target : ℕ → Option ℕ
  earlier : ∀ r n, target r = some n → n < r

namespace Resets
variable (R S : Resets)

/-- The position before `s` on every lineage through `s`. -/
def parent (s : ℕ) : ℕ := (R.target s).getD (s - 1)

theorem parent_lt {s : ℕ} (h : 0 < s) : R.parent s < s := by
  unfold parent
  cases ht : R.target s with
  | none => simp only [Option.getD_none]; omega
  | some n => exact R.earlier s n ht

/-- The lineage of a head: an ordinary position adds itself to the lineage of its
predecessor, a reset adds itself to the lineage of its target as it was then. -/
def lineage : ℕ → Finset ℕ
  | 0 => ∅
  | s + 1 =>
    match h : R.target (s + 1) with
    | none => insert (s + 1) (lineage s)
    | some n => insert (s + 1) (lineage n)
termination_by s => s
decreasing_by
  · exact Nat.lt_succ_self s
  · exact R.earlier (s + 1) n h

@[simp] theorem lineage_zero : R.lineage 0 = ∅ := by rw [lineage]

theorem lineage_ordinary {s : ℕ} (h : R.target (s + 1) = none) :
    R.lineage (s + 1) = insert (s + 1) (R.lineage s) := by
  rw [lineage]
  split
  · rfl
  · simp_all

theorem lineage_reset {s n : ℕ} (hs : 0 < s) (h : R.target s = some n) :
    R.lineage s = insert s (R.lineage n) := by
  obtain ⟨s,rfl⟩ := Nat.exists_eq_succ_of_ne_zero hs.ne'
  rw [lineage]
  split
  · simp_all
  · rename_i n' h'
    cases h.symm.trans h'
    rfl

theorem lineage_eq {s : ℕ} (h : 0 < s) : R.lineage s = insert s (R.lineage (R.parent s)) := by
  cases ht : R.target s with
  | none =>
    obtain ⟨s,rfl⟩ := Nat.exists_eq_succ_of_ne_zero h.ne'
    simp [R.lineage_ordinary ht,parent,ht]
  | some n => simp [R.lineage_reset h ht,parent,ht]

theorem mem_lineage_bounds {s h : ℕ} (hs : s ∈ R.lineage h) : 0 < s ∧ s ≤ h := by
  induction h using Nat.strong_induction_on with
  | _ h ih =>
    rcases Nat.eq_zero_or_pos h with rfl | hpos
    · simp at hs
    · rw [R.lineage_eq hpos,Finset.mem_insert] at hs
      rcases hs with rfl | hs
      · exact ⟨hpos,le_rfl⟩
      · obtain ⟨h1,h2⟩ := ih _ (R.parent_lt hpos) hs
        exact ⟨h1,h2.trans (R.parent_lt hpos).le⟩

theorem self_mem_lineage {h : ℕ} (hpos : 0 < h) : h ∈ R.lineage h := by
  rw [R.lineage_eq hpos]
  exact Finset.mem_insert_self _ _

/-- Below a position of a lineage, the lineage is that of the position. -/
theorem mem_lineage_of_mem {r h s : ℕ} (hr : r ∈ R.lineage h) (hs : s ≤ r) :
    s ∈ R.lineage h ↔ s ∈ R.lineage r := by
  induction h using Nat.strong_induction_on with
  | _ h ih =>
    rcases Nat.eq_zero_or_pos h with rfl | hpos
    · simp at hr
    · have hlt := R.parent_lt hpos
      rw [R.lineage_eq hpos,Finset.mem_insert] at hr
      rcases hr with rfl | hr
      · rfl
      · have hrp := (R.mem_lineage_bounds hr).2
        have hne : s ≠ h := by omega
        rw [R.lineage_eq hpos,Finset.mem_insert,or_iff_right hne]
        exact ih _ hlt hr

/-- A position is on the lineage exactly when no reset of the lineage jumps over it. -/
theorem mem_lineage_iff {h s : ℕ} (hs : 0 < s) (hsh : s ≤ h) :
    s ∈ R.lineage h ↔ ∀ r ∈ R.lineage h, ∀ n, R.target r = some n → ¬ (n < s ∧ s < r) := by
  constructor
  · rintro hmem r hr n hn ⟨hlo,hhi⟩
    have hsr := (R.mem_lineage_of_mem hr hhi.le).mp hmem
    rw [R.lineage_reset (hs.trans hhi) hn,Finset.mem_insert] at hsr
    rcases hsr with rfl | hsr
    · exact lt_irrefl _ hhi
    · exact absurd (R.mem_lineage_bounds hsr).2 (Nat.not_le.mpr hlo)
  · intro hjump
    induction h using Nat.strong_induction_on with
    | _ h ih =>
      have hpos : 0 < h := hs.trans_le hsh
      have hlt := R.parent_lt hpos
      rw [R.lineage_eq hpos,Finset.mem_insert]
      rcases Nat.eq_or_lt_of_le hsh with rfl | hlts
      · exact .inl rfl
      · right
        have hle : s ≤ R.parent h := by
          cases ht : R.target h with
          | none => simp only [parent,ht,Option.getD_none]; omega
          | some n =>
            have := hjump h (R.self_mem_lineage hpos) n ht
            simp only [parent,ht,Option.getD_some]
            omega
        refine ih _ hlt hle fun r hr => hjump r ?_
        rw [R.lineage_eq hpos]
        exact Finset.mem_insert_of_mem hr

/-- The lineage of a head depends on the resets up to the head only. -/
theorem lineage_congr {h : ℕ} (he : ∀ s ≤ h, R.target s = S.target s) : R.lineage h = S.lineage h := by
  induction h using Nat.strong_induction_on with
  | _ h ih =>
    rcases Nat.eq_zero_or_pos h with rfl | hpos
    · simp
    · have hp : R.parent h = S.parent h := by rw [parent,parent,he h le_rfl]
      have hlt := R.parent_lt hpos
      rw [R.lineage_eq hpos,S.lineage_eq hpos,← hp,ih _ hlt fun s hs => he s (hs.trans hlt.le)]

end Resets
end TimeTravel
