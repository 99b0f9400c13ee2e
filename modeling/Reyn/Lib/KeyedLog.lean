import Mathlib

/-! # Logs in increasing order of a key

A selection of such a log splits at any key, and the replay of a log is a fold in
an error monad: entries that change nothing can be left out.
-/
namespace KeyedLog
variable {α σ ε : Type} {key : α → ℕ}

/-- A selection is its part up to `g` followed by its part above `g`. -/
theorem filter_split {l : List α} (h : l.Pairwise (key · < key ·)) (p : α → Bool) (g : ℕ) :
    l.filter p = l.filter (fun a => p a && key a ≤ g) ++ l.filter (fun a => p a && g < key a) := by
  induction l with
  | nil => rfl
  | cons a rest ih =>
    obtain ⟨ha,hrest⟩ := List.pairwise_cons.mp h
    by_cases hp : p a
    · by_cases hg : key a ≤ g
      · have hn : ¬ g < key a := by omega
        simp [hp,hg,hn,ih hrest]
      · have hlow : rest.filter (fun b => p b && key b ≤ g) = [] := by
          apply List.filter_eq_nil_iff.mpr
          intro b hb
          have := ha b hb
          have hbg : ¬ key b ≤ g := by omega
          simp [hbg]
        have hn : g < key a := by omega
        rw [hlow] at ih
        simp [hp,hg,hn,hlow,ih hrest]
    · simp [hp,ih hrest]

/-- A selection of a log does not need the entries that were left out, when it selects none of them. -/
theorem filter_of_sublist {xs ys : List α} (hsub : xs.Sublist ys) (hp : ys.Pairwise (key · < key ·))
    {p : α → Bool} (h : ∀ a ∈ ys, p a = true → a ∈ xs) : xs.filter p = ys.filter p := by
  induction hsub with
  | slnil => rfl
  | @cons xs ys a hsub ih =>
    obtain ⟨ha,hrest⟩ := List.pairwise_cons.mp hp
    have hnot : ¬ p a = true := by
      intro hpa
      exact Nat.lt_irrefl _ (ha a (hsub.subset (h a List.mem_cons_self hpa)))
    rw [List.filter_cons_of_neg hnot]
    exact ih hrest fun b hb => h b (List.mem_cons_of_mem _ hb)
  | @cons_cons xs ys a hsub ih =>
    obtain ⟨ha,hrest⟩ := List.pairwise_cons.mp hp
    have htail := ih hrest fun b hb hpb => by
      rcases List.mem_cons.mp (h b (List.mem_cons_of_mem _ hb) hpb) with rfl | hmem
      · exact absurd (ha _ hb) (Nat.lt_irrefl _)
      · exact hmem
    simp only [List.filter_cons,htail]

/-- The last of a log has the highest key. -/
theorem eq_or_lt_getLast {l : List α} (h : l.Pairwise (key · < key ·)) {x : α} (hx : l.getLast? = some x) {a : α}
    (ha : a ∈ l) : a = x ∨ key a < key x := by
  obtain ⟨front,rfl⟩ := List.getLast?_eq_some_iff.mp hx
  rcases List.mem_append.mp ha with ha | ha
  · exact .inr ((List.pairwise_append.mp h).2.2 a ha x (List.mem_singleton_self x))
  · exact .inl (List.mem_singleton.mp ha)

/-- Of the entries of a kind the latest stands whenever one does. -/
def Collapses (l : List α) (p stands : α → Bool) : Prop :=
  ∀ a ∈ l, p a = true → stands a = true → ∃ x, (l.filter p).getLast? = some x ∧ stands x = true

theorem Collapses.exists_iff {l : List α} {p stands : α → Bool} (h : Collapses l p stands) :
    (∃ a ∈ l, p a = true ∧ stands a = true) ↔ ∃ x, (l.filter p).getLast? = some x ∧ stands x = true := by
  constructor
  · rintro ⟨a,ha,hp,hs⟩
    exact h a ha hp hs
  · rintro ⟨x,hx,hs⟩
    obtain ⟨hmem,hp⟩ := List.mem_filter.mp (List.mem_of_getLast? hx)
    exact ⟨x,hmem,hp,hs⟩

theorem Collapses.of_length_le_one {l : List α} {p : α → Bool} (h : (l.filter p).length ≤ 1) (stands : α → Bool) :
    Collapses l p stands := by
  intro a ha hp hs
  have hmem : a ∈ l.filter p := List.mem_filter.mpr ⟨ha,hp⟩
  match hl : l.filter p with
  | [] => rw [hl] at hmem; cases hmem
  | [x] =>
    rw [hl,List.mem_singleton] at hmem
    exact ⟨x,rfl,hmem ▸ hs⟩
  | _ :: _ :: _ => rw [hl] at h; simp at h

/-- The last standing entry creates, exactly when the latest creation stands and no removal does,
provided no creation comes after a standing removal. -/
theorem last_standing_iff {l : List α} (h : l.Pairwise (key · < key ·)) {create remove stands : α → Bool}
    (hdisj : ∀ a ∈ l, create a = true → remove a = false)
    (hreuse : ∀ c ∈ l, create c = true → ∀ r ∈ l, remove r = true → stands r = true → ¬ key r < key c)
    (hc : Collapses l create stands) :
    (∃ x, (l.filter fun a => (create a || remove a) && stands a).getLast? = some x ∧ create x = true) ↔
      (∃ x, (l.filter create).getLast? = some x ∧ stands x = true) ∧ ∀ r ∈ l, remove r = true → stands r = false := by
  constructor
  · rintro ⟨x,hx,hcx⟩
    obtain ⟨hmem,hp⟩ := List.mem_filter.mp (List.mem_of_getLast? hx)
    simp only [Bool.and_eq_true] at hp
    refine ⟨hc x hmem hcx hp.2,fun r hr hrem => ?_⟩
    by_contra hstands
    rw [Bool.not_eq_false] at hstands
    have hin : r ∈ l.filter fun a => (create a || remove a) && stands a :=
      List.mem_filter.mpr ⟨hr,by simp [hrem,hstands]⟩
    rcases eq_or_lt_getLast (h.sublist List.filter_sublist) hx hin with rfl | hlt
    · rw [hdisj r hr hcx] at hrem
      cases hrem
    · exact hreuse x hmem hcx r hr hrem hstands hlt
  · rintro ⟨⟨x,hx,hstands⟩,hno⟩
    obtain ⟨hmem,hcx⟩ := List.mem_filter.mp (List.mem_of_getLast? hx)
    have hin : x ∈ l.filter fun a => (create a || remove a) && stands a :=
      List.mem_filter.mpr ⟨hmem,by simp [hcx,hstands]⟩
    cases hy : (l.filter fun a => (create a || remove a) && stands a).getLast? with
    | none =>
      rw [List.getLast?_eq_none_iff.mp hy] at hin
      cases hin
    | some y =>
      obtain ⟨hymem,hyp⟩ := List.mem_filter.mp (List.mem_of_getLast? hy)
      simp only [Bool.and_eq_true,Bool.or_eq_true] at hyp
      refine ⟨y,rfl,hyp.1.resolve_right fun hrem => ?_⟩
      rw [hno y hymem hrem] at hyp
      cases hyp.2

/-- The part of a log above a key is a final part. -/
theorem filter_lt_suffix {l : List α} (h : l.Pairwise (key · < key ·)) (g : ℕ) : l.filter (fun a => g < key a) <:+ l := by
  induction l with
  | nil => exact List.suffix_rfl
  | cons a rest ih =>
    obtain ⟨ha,hrest⟩ := List.pairwise_cons.mp h
    by_cases hg : g < key a
    · have hall : ∀ b ∈ a :: rest, decide (g < key b) = true := by
        intro b hb
        rcases List.mem_cons.mp hb with rfl | hb
        · exact decide_eq_true hg
        · exact decide_eq_true (Nat.lt_trans hg (ha b hb))
      exact ⟨[],List.filter_eq_self.mpr hall⟩
    · rw [List.filter_cons_of_neg (by simpa using hg)]
      exact (ih hrest).trans (List.suffix_cons a rest)

/-- The part of a log before an entry's key is what stands in front of the entry. -/
theorem filter_gt_eq {front back : List α} {a : α} (h : (front ++ a :: back).Pairwise (key · < key ·)) :
    (front ++ a :: back).filter (fun b => key b < key a) = front := by
  obtain ⟨-,hback,hfront⟩ := List.pairwise_append.mp h
  have hlow : ∀ b ∈ front, decide (key b < key a) = true := fun b hb =>
    decide_eq_true (hfront b hb a List.mem_cons_self)
  have hhigh : (a :: back).filter (fun b => key b < key a) = [] := by
    refine List.filter_eq_nil_iff.mpr fun b hb => ?_
    rcases List.mem_cons.mp hb with rfl | hb
    · simp
    · simpa using Nat.le_of_lt ((List.pairwise_cons.mp hback).1 b hb)
  rw [List.filter_append,List.filter_eq_self.mpr hlow,hhigh,List.append_nil]

/-- An initial part of a log has what lies below one of its entries. -/
theorem mem_of_prefix {part l : List α} (h : l.Pairwise (key · < key ·)) (hp : part <+: l) {a b : α} (hb : b ∈ part)
    (ha : a ∈ l) (hle : key a ≤ key b) : a ∈ part := by
  obtain ⟨rest,rfl⟩ := hp
  rcases List.mem_append.mp ha with ha | ha
  · exact ha
  · exact absurd ((List.pairwise_append.mp h).2.2 b hb a ha) (Nat.not_lt.mpr hle)

/-- A final part of a log has what lies above one of its entries. -/
theorem mem_of_suffix {part l : List α} (h : l.Pairwise (key · < key ·)) (hp : part <:+ l) {a b : α} (hb : b ∈ part)
    (ha : a ∈ l) (hle : key b ≤ key a) : a ∈ part := by
  obtain ⟨rest,rfl⟩ := hp
  rcases List.mem_append.mp ha with ha | ha
  · exact absurd ((List.pairwise_append.mp h).2.2 a ha b hb) (Nat.not_lt.mpr hle)
  · exact ha

/-! ## Parts without holes -/

/-- What lies between two entries of the part is in the part. -/
def Convex (key : α → ℕ) (part log : List α) : Prop :=
  ∀ a ∈ part, ∀ b ∈ part, ∀ m ∈ log, key a ≤ key m → key m ≤ key b → m ∈ part

namespace Convex
variable {part mid log : List α}

theorem of_isInfix (h : log.Pairwise (key · < key ·)) (hi : part <:+: log) : Convex key part log := by
  obtain ⟨front,back,rfl⟩ := hi
  obtain ⟨hfront,-,hback⟩ := List.pairwise_append.mp h
  obtain ⟨-,-,hpart⟩ := List.pairwise_append.mp hfront
  intro a ha b hb m hm hlo hhi
  rcases List.mem_append.mp hm with hm | hm
  · rcases List.mem_append.mp hm with hm | hm
    · exact absurd (hpart m hm a ha) (Nat.not_lt.mpr hlo)
    · exact hm
  · exact absurd (hback b (List.mem_append_right _ hb) m hm) (Nat.not_lt.mpr hhi)

theorem filter (h : Convex key part log) {p : α → Bool}
    (hp : ∀ a b m, p a = true → p b = true → key a ≤ key m → key m ≤ key b → p m = true) :
    Convex key (part.filter p) log := by
  intro a ha b hb m hm hlo hhi
  obtain ⟨ha,hpa⟩ := List.mem_filter.mp ha
  obtain ⟨hb,hpb⟩ := List.mem_filter.mp hb
  exact List.mem_filter.mpr ⟨h a ha b hb m hm hlo hhi,hp a b m hpa hpb hlo hhi⟩

theorem trans (h : Convex key part mid) (hmid : Convex key mid log) (hsub : part ⊆ mid) : Convex key part log :=
  fun a ha b hb m hm hlo hhi => h a ha b hb m (hmid a (hsub ha) b (hsub hb) m hm hlo hhi) hlo hhi

end Convex

theorem bind_eq_ok {β γ : Type} {x : Except ε β} {f : β → Except ε γ} {c : γ} :
    (x >>= f) = .ok c ↔ ∃ b, x = .ok b ∧ f b = .ok c := by
  cases x <;> simp [bind,Except.bind]

variable {f : σ → α → Except ε σ}

/-- Entries that leave every state of an invariant alone can be left out of a replay. -/
theorem foldlM_filter {I : σ → Prop} {q : α → Bool} {l : List α} {s : σ} (hs : I s)
    (hskip : ∀ s, I s → ∀ a ∈ l, q a = false → f s a = .ok s)
    (hkeep : ∀ s, I s → ∀ a ∈ l, ∀ t, f s a = .ok t → I t) :
    l.foldlM f s = (l.filter q).foldlM f s := by
  induction l generalizing s with
  | nil => rfl
  | cons a rest ih =>
    have ih' := fun {s} (hs : I s) => ih hs (fun s hs a ha => hskip s hs a (List.mem_cons_of_mem _ ha))
      (fun s hs a ha => hkeep s hs a (List.mem_cons_of_mem _ ha))
    cases hq : q a with
    | false =>
      rw [List.filter_cons_of_neg (by simp [hq]),List.foldlM_cons,hskip s hs a List.mem_cons_self hq]
      exact ih' hs
    | true =>
      rw [List.filter_cons_of_pos hq,List.foldlM_cons,List.foldlM_cons]
      cases ht : f s a with
      | error e => rfl
      | ok t => exact ih' (hkeep s hs a List.mem_cons_self t ht)

/-- Two replays of one log stay related when every entry keeps the relation. -/
theorem foldlM_related {τ : Type} {g : τ → α → Except ε τ} {R : σ → τ → Prop} {l : List α} {s : σ} {t : τ}
    (h : R s t) (hstep : ∀ s t, R s t → ∀ a ∈ l, ∃ s' t', f s a = .ok s' ∧ g t a = .ok t' ∧ R s' t') :
    ∃ s' t', l.foldlM f s = .ok s' ∧ l.foldlM g t = .ok t' ∧ R s' t' := by
  induction l generalizing s t with
  | nil => exact ⟨s,t,rfl,rfl,h⟩
  | cons a rest ih =>
    obtain ⟨s',t',hs,ht,hr⟩ := hstep s t h a List.mem_cons_self
    obtain ⟨s'',t'',hs',ht',hr'⟩ := ih hr fun s t h a ha => hstep s t h a (List.mem_cons_of_mem _ ha)
    refine ⟨s'',t'',?_,?_,hr'⟩
    · rw [List.foldlM_cons,hs]
      exact hs'
    · rw [List.foldlM_cons,ht]
      exact ht'

/-! ## The largest key -/

theorem le_foldl_max (keys : List ℕ) (acc : ℕ) : acc ≤ keys.foldl max acc ∧ ∀ k ∈ keys, k ≤ keys.foldl max acc := by
  induction keys generalizing acc with
  | nil => exact ⟨le_rfl,by simp⟩
  | cons k rest ih =>
    obtain ⟨hacc,hrest⟩ := ih (max acc k)
    refine ⟨(le_max_left _ _).trans hacc,fun j hj => ?_⟩
    rcases List.mem_cons.mp hj with rfl | hj
    · exact (le_max_right _ _).trans hacc
    · exact hrest j hj

theorem foldl_max_lt {keys : List ℕ} {acc bound : ℕ} (hacc : acc < bound) (hkeys : ∀ k ∈ keys, k < bound) :
    keys.foldl max acc < bound := by
  induction keys generalizing acc with
  | nil => exact hacc
  | cons k rest ih =>
    exact ih (max_lt hacc (hkeys k List.mem_cons_self)) fun j hj => hkeys j (List.mem_cons_of_mem _ hj)

end KeyedLog
