import Mathlib

/-! # Increasing lists

The last element that passes a test is the greatest one.
-/
namespace Increasing
variable {A : Type} [LinearOrder A] {l : List A}

theorem getLast?_iff (h : l.Pairwise (· < ·)) {a : A} : l.getLast? = some a ↔ a ∈ l ∧ ∀ b ∈ l, b ≤ a := by
  constructor
  · intro ha
    obtain ⟨front,rfl⟩ := List.getLast?_eq_some_iff.mp ha
    refine ⟨List.mem_append_right _ (List.mem_singleton_self _),fun b hb => ?_⟩
    rcases List.mem_append.mp hb with hb | hb
    · exact ((List.pairwise_append.mp h).2.2 b hb a (List.mem_singleton_self _)).le
    · exact (List.mem_singleton.mp hb).le
  · rintro ⟨hmem,hmax⟩
    obtain ⟨front,last,rfl⟩ := (List.eq_nil_or_concat l).resolve_left (List.ne_nil_of_mem hmem)
    rw [List.concat_eq_append] at h hmem hmax ⊢
    have hle := hmax last (List.mem_append_right _ (List.mem_singleton_self _))
    rcases List.mem_append.mp hmem with hfront | hlast
    · exact absurd ((List.pairwise_append.mp h).2.2 a hfront last (List.mem_singleton_self _)) (not_lt.mpr hle)
    · rw [List.mem_singleton.mp hlast,List.getLast?_concat]

theorem getLast?_filter_iff (h : l.Pairwise (· < ·)) {p : A → Bool} {a : A} :
    (l.filter p).getLast? = some a ↔ a ∈ l ∧ p a = true ∧ ∀ b ∈ l, p b = true → b ≤ a := by
  rw [getLast?_iff (h.sublist List.filter_sublist),List.mem_filter,and_assoc]
  simp only [List.mem_filter,and_imp]

theorem mem_dropLast_iff (h : l.Pairwise (· < ·)) {a : A} : a ∈ l.dropLast ↔ a ∈ l ∧ ∃ b ∈ l, a < b := by
  rcases List.eq_nil_or_concat l with rfl | ⟨front,last,rfl⟩
  · simp
  · rw [List.concat_eq_append] at h ⊢
    have hlast := (List.pairwise_append.mp h).2.2
    rw [List.dropLast_concat]
    constructor
    · intro ha
      exact ⟨List.mem_append_left _ ha,last,List.mem_append_right _ (List.mem_singleton_self _),
        hlast a ha last (List.mem_singleton_self _)⟩
    · rintro ⟨ha,b,hb,hlt⟩
      rcases List.mem_append.mp ha with ha | ha
      · exact ha
      · rw [List.mem_singleton] at ha
        subst ha
        rcases List.mem_append.mp hb with hb | hb
        · exact absurd (hlast b hb _ (List.mem_singleton_self _)) hlt.asymm
        · exact absurd (List.mem_singleton.mp hb).symm hlt.ne

/-- Leaving out elements below another does not change the greatest one that is left. -/
theorem getLast?_filter_eq {l' : List A} (h : l.Pairwise (· < ·)) (h' : l'.Pairwise (· < ·)) {p : A → Bool}
    (hsub : ∀ a ∈ l', a ∈ l) (hkeep : ∀ a, (l.filter p).getLast? = some a → a ∈ l') :
    (l'.filter p).getLast? = (l.filter p).getLast? := by
  cases hlast : (l.filter p).getLast? with
  | none =>
    rw [List.getLast?_eq_none_iff,List.filter_eq_nil_iff] at hlast ⊢
    exact fun a ha => hlast a (hsub a ha)
  | some a =>
    obtain ⟨-,hp,hmax⟩ := (getLast?_filter_iff h).mp hlast
    exact (getLast?_filter_iff h').mpr ⟨hkeep a hlast,hp,fun b hb hpb => hmax b (hsub b hb) hpb⟩

end Increasing
