import Reyn.Runtime.LadderProvenance

/-! # The split after a spill

The offered turns of the middle and the tail are one pool while a spill edits them. The pool is
split at the attempt length, which may be left over from a middle that was longer: then the
first turns of the tail go into the middle.
-/
namespace Reyn
open Py Transition

namespace RecoveryLadder

/-- Each entry is the old one or its replacement by an edit of its place. -/
structure Replaced (edits : List (ℕ × WireTurn)) (first : ℕ) (old new : List LadderEntry) : Prop where
  length : new.length = old.length
  entry : ∀ (i : ℕ) (e : LadderEntry), new[i]? = some e → ∃ o, old[i]? = some o ∧
    (e = o ∨ ∃ turn, (first + i,turn) ∈ edits ∧ e = { o with turn := turn })

/-- The middle and the tail have kept their places; in the pool the tail comes after the offered turns. -/
structure InPlace (edits : List (ℕ × WireTurn)) (s t : RecoveryLadder) : Prop where
  middle : Replaced edits 0 s.rawMiddle t.rawMiddle
  tail : Replaced edits s.offered.length s.tail t.tail

/-- Every spill or halving of a run leaves the middle and the tail in place. -/
def RungsInPlace (c : LadderConfig) : RecoveryLadder → List LadderAction → Prop
  | _, [] => True
  | s, a :: rest => ∀ t, step c s a = some t →
    (∀ edits, a = .overflowed edits → s.rawMiddle ≠ [] → InPlace edits s t) ∧ RungsInPlace c t rest

/-- Whenever a run spills or halves, the attempt length is no longer than the middle, or there is no tail. -/
def AttemptsFit (c : LadderConfig) : RecoveryLadder → List LadderAction → Prop
  | _, [] => True
  | s, a :: rest => ∀ t, step c s a = some t →
    (∀ edits, a = .overflowed edits → s.rawMiddle ≠ [] → s.attemptLen ≤ s.rawMiddle.length ∨ s.tail = []) ∧
      AttemptsFit c t rest

section Replacements
variable {edits : List (ℕ × WireTurn)} {first : ℕ} {old new old' new' : List LadderEntry}

theorem Replaced.refl (edits : List (ℕ × WireTurn)) (first : ℕ) (old : List LadderEntry) : Replaced edits first old old :=
  ⟨rfl,fun _ e he => ⟨e,he,.inl rfl⟩⟩

theorem Replaced.take (h : Replaced edits first old new) (n : ℕ) : Replaced edits first (old.take n) (new.take n) := by
  refine ⟨by rw [List.length_take,List.length_take,h.length],fun i e he => ?_⟩
  rw [List.getElem?_take] at he
  split at he
  · rename_i hlt
    obtain ⟨o,ho,heq⟩ := h.entry i e he
    exact ⟨o,by rw [List.getElem?_take_of_lt hlt,ho],heq⟩
  · cases he

theorem Replaced.drop (h : Replaced edits first old new) (n : ℕ) :
    Replaced edits (first + n) (old.drop n) (new.drop n) := by
  refine ⟨by rw [List.length_drop,List.length_drop,h.length],fun i e he => ?_⟩
  rw [List.getElem?_drop] at he
  obtain ⟨o,ho,heq⟩ := h.entry (n + i) e he
  refine ⟨o,by rw [List.getElem?_drop,ho],?_⟩
  rw [Nat.add_assoc]
  exact heq

/-- What comes after the replaced entries is not edited. -/
theorem Replaced.append_right (h : Replaced edits first old new) (rest : List LadderEntry) :
    Replaced edits first (old ++ rest) (new ++ rest) := by
  refine ⟨by rw [List.length_append,List.length_append,h.length],fun i e he => ?_⟩
  by_cases hlt : i < new.length
  · rw [List.getElem?_append_left hlt] at he
    obtain ⟨o,ho,heq⟩ := h.entry i e he
    exact ⟨o,by rw [List.getElem?_append_left (h.length ▸ hlt),ho],heq⟩
  · have hle : new.length ≤ i := Nat.not_lt.mp hlt
    rw [List.getElem?_append_right hle] at he
    exact ⟨e,by rw [List.getElem?_append_right (h.length ▸ hle),← h.length,he],.inl rfl⟩

theorem replaced_applyEdits (pool : List LadderEntry) (edits : List (ℕ × WireTurn)) :
    Replaced edits 0 pool (applyEdits pool edits) := by
  induction edits generalizing pool with
  | nil => exact .refl [] 0 pool
  | cons edit rest ih =>
    have h := ih (pool.modify edit.1 fun e => { e with turn := edit.2 })
    refine ⟨h.length.trans (List.length_modify _ _ _),fun i e he => ?_⟩
    obtain ⟨o',ho',heq⟩ := h.entry i e he
    rw [List.getElem?_modify] at ho'
    obtain ⟨o,ho,rfl⟩ := Option.map_eq_some_iff.mp ho'
    refine ⟨o,ho,?_⟩
    rw [Nat.zero_add] at heq ⊢
    by_cases hi : edit.1 = i
    · rw [if_pos hi] at heq
      rcases heq with rfl | ⟨turn,hturn,rfl⟩
      · exact .inr ⟨edit.2,hi ▸ List.mem_cons_self,rfl⟩
      · exact .inr ⟨turn,List.mem_cons_of_mem _ hturn,rfl⟩
    · rw [if_neg hi] at heq
      exact heq.imp_right fun ⟨turn,hturn,heq⟩ => ⟨turn,List.mem_cons_of_mem _ hturn,heq⟩

end Replacements

section Split
variable {c : LadderConfig} {s t : RecoveryLadder} {edits : List (ℕ × WireTurn)} {pool : List LadderEntry} {k : ℕ}

theorem offered_length (s : RecoveryLadder) : s.offered.length = min s.attemptLen s.rawMiddle.length := List.length_take

/-- A pool edited in its places is split where it was put together. -/
theorem inPlace_resplit (hpool : Replaced edits 0 (s.offered ++ s.tail) pool)
    (hfit : s.attemptLen ≤ s.rawMiddle.length ∨ s.tail = []) : InPlace edits s (s.resplit pool k) := by
  have hlen := offered_length s
  rcases hfit with hle | htail
  · have hoffered : s.offered.length = s.attemptLen := hlen.trans (Nat.min_eq_left hle)
    constructor
    · have h := (hpool.take s.attemptLen).append_right (s.rawMiddle.drop s.attemptLen)
      rw [← hoffered,List.take_left,hoffered,offered,List.take_append_drop] at h
      exact h
    · have h := hpool.drop s.attemptLen
      rw [← hoffered,List.drop_left,Nat.zero_add] at h
      rw [hoffered] at h ⊢
      exact h
  · rw [htail,List.append_nil] at hpool
    have hshort : pool.length ≤ s.attemptLen := by
      rw [hpool.length,hlen]
      exact Nat.min_le_left _ _
    constructor
    · have h := hpool.append_right (s.rawMiddle.drop s.attemptLen)
      rw [offered,List.take_append_drop] at h
      change Replaced edits 0 s.rawMiddle (pool.take s.attemptLen ++ _)
      rw [List.take_of_length_le hshort]
      exact h
    · change Replaced edits _ s.tail (pool.drop s.attemptLen)
      rw [htail,List.drop_of_length_le hshort]
      exact .refl _ _ _

theorem fit_of_inPlace (hlength : pool.length = (s.offered ++ s.tail).length) (h : InPlace edits s (s.resplit pool k)) :
    s.attemptLen ≤ s.rawMiddle.length ∨ s.tail = [] := by
  have htail : (pool.drop s.attemptLen).length = s.tail.length := h.tail.length
  rw [List.length_drop,hlength,List.length_append,offered_length] at htail
  by_cases hle : s.attemptLen ≤ s.rawMiddle.length
  · exact .inl hle
  · exact .inr (List.length_eq_zero_iff.mp (by omega))

/-- A spill or a halving keeps the places just when the attempt length fits the middle or nothing is left in the tail. -/
theorem inPlace_iff (hmiddle : s.rawMiddle ≠ []) (h : step c s (.overflowed edits) = some t) :
    InPlace edits s t ↔ s.attemptLen ≤ s.rawMiddle.length ∨ s.tail = [] := by
  rw [step,if_neg hmiddle,shrinkPoolAfterOverflow] at h
  split at h
  · rename_i hedits
    obtain ⟨-,h⟩ := Option.ite_none_left_eq_some.mp h
    cases h
    exact ⟨fit_of_inPlace rfl,inPlace_resplit (.refl _ _ _)⟩
  · obtain ⟨-,h⟩ := Option.ite_none_right_eq_some.mp h
    cases h
    have hpool := replaced_applyEdits (s.offered ++ s.tail) edits
    exact ⟨fit_of_inPlace hpool.length,inPlace_resplit hpool⟩

theorem rungsInPlace_iff (c : LadderConfig) (s : RecoveryLadder) (actions : List LadderAction) :
    RungsInPlace c s actions ↔ AttemptsFit c s actions := by
  induction actions generalizing s with
  | nil => exact Iff.rfl
  | cons a rest ih =>
    refine forall_congr' fun t => forall_congr' fun ht => and_congr ?_ (ih t)
    refine forall_congr' fun edits => forall_congr' fun ha => forall_congr' fun hmiddle => ?_
    subst ha
    exact inPlace_iff hmiddle ht

end Split

/-- In a run from a payload every spill and halving leaves the middle and the tail in place just when no attempt length is left
over from a longer middle while there is a tail. -/
theorem spill_in_place_iff (c : LadderConfig) (payload : RetryPayload) (actions : List LadderAction) :
    RungsInPlace c (start c payload) actions ↔ AttemptsFit c (start c payload) actions := rungsInPlace_iff c _ actions

/-- The tail may hold one turn besides its summary. -/
def tightTail : LadderConfig := ⟨fun _ => 1,0,0,8,4,1,fun room => room / 2⟩

/-- Four turns are folded in slices of two, then one turn of the tail is refilled and its fold overflows. -/
def leftOverAttempt : List LadderAction :=
  [.overflowed [],.summarized .null,.summarized .null,.overflowed [],.overflowed []]

/-- The summary in the tail goes into the middle. -/
theorem summary_moved : ¬∀ payload actions, RungsInPlace tightTail (start tightTail payload) actions := by
  intro h
  have hrun := h ⟨[],List.replicate 4 plainTurn,[plainTurn,⟨true,.null⟩]⟩ leftOverAttempt
  obtain ⟨-,hrun⟩ := hrun _ rfl
  obtain ⟨-,hrun⟩ := hrun _ rfl
  obtain ⟨-,hrun⟩ := hrun _ rfl
  obtain ⟨-,hrun⟩ := hrun _ rfl
  obtain ⟨hplace,-⟩ := hrun _ rfl
  have hlength := (hplace [] rfl (List.cons_ne_nil _ _)).tail.length
  cases hlength

end RecoveryLadder
end Reyn
