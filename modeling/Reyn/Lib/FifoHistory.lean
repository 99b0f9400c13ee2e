import Reyn.Lib.Dict

/-! # Keyed histories of bounded number

A store keeps, for each of the last keys that came in, the entries since then. A key that
is there gets its entries at its place; the oldest key goes when there are too many. What
a store accumulates for its keys is an image of this history.
-/
namespace Py.Fifo
variable {K A V : Type} [DecidableEq K] (cap : ℕ)

/-- Each key that is in, the oldest first, with its entries since it came in. -/
abbrev History (K A : Type) := Dict K (List A)

/-- The oldest key goes if there are too many. -/
def trim (d : Dict K V) : Dict K V :=
  match d.items with
  | [] => d
  | oldest :: _ => if cap < d.items.length then d.pop oldest.1 else d

def note (h : History K A) (k : K) (a : A) : History K A := trim cap (h.set k ((h.get? k).getD [] ++ [a]))

def replay (entries : List (K × A)) : History K A := entries.foldl (fun h e => note cap h e.1 e.2) .empty

/-- All entries of a key. -/
def entriesOf (entries : List (K × A)) (k : K) : List A := (entries.filter fun e => e.1 = k).map Prod.snd

/-- The entries of a key since it came in; none when it is not in. -/
def since (entries : List (K × A)) (k : K) : List A := ((replay cap entries).get? k).getD []

/-- The entries of a key from before it came in. -/
def lost (entries : List (K × A)) (k : K) : List A :=
  (entriesOf entries k).take ((entriesOf entries k).length - (since cap entries k).length)

variable {cap}

theorem replay_append (entries : List (K × A)) (e : K × A) :
    replay cap (entries ++ [e]) = note cap (replay cap entries) e.1 e.2 := by
  simp [replay]

theorem length_pop_head {d : Dict K V} {oldest : K × V} {rest : List (K × V)} (h : d.items = oldest :: rest) :
    (d.pop oldest.1).items.length < d.items.length := by
  apply List.length_filter_lt_length_iff_exists.mpr
  exact ⟨oldest,h ▸ List.mem_cons_self,by simp⟩

theorem length_trim_le {d : Dict K V} (h : d.items.length ≤ cap + 1) : (trim cap d).items.length ≤ cap := by
  unfold trim
  split
  · rename_i hnil
    rw [hnil]
    exact Nat.zero_le _
  · rename_i oldest rest hitems
    split
    · have hlt := length_pop_head hitems
      omega
    · omega

theorem get?_trim {d : Dict K V} {k : K} {v : V} (h : (trim cap d).get? k = some v) : d.get? k = some v := by
  unfold trim at h
  split at h
  · exact h
  · split at h
    · rw [Dict.get?_pop] at h
      split at h
      · cases h
      · exact h
    · exact h

/-- No more keys are in than the bound. -/
theorem length_replay_le (entries : List (K × A)) : (replay cap entries).items.length ≤ cap := by
  induction entries using List.reverseRecOn with
  | nil => exact Nat.zero_le _
  | append_singleton entries e ih =>
    rw [replay_append]
    exact length_trim_le (Nat.le_trans (Dict.length_set_le _ _ _) (Nat.succ_le_succ ih))

theorem entriesOf_append (entries : List (K × A)) (e : K × A) (k : K) :
    entriesOf (entries ++ [e]) k = if e.1 = k then entriesOf entries k ++ [e.2] else entriesOf entries k := by
  unfold entriesOf
  rw [List.filter_append,List.map_append]
  by_cases h : e.1 = k
  · simp [h]
  · simp [h]

/-- What a key has since it came in are its last entries, one at least. -/
theorem replay_suffix {entries : List (K × A)} {k : K} {kept : List A} (h : (replay cap entries).get? k = some kept) :
    kept ≠ [] ∧ kept <:+ entriesOf entries k := by
  induction entries using List.reverseRecOn generalizing kept with
  | nil => simp [replay] at h
  | append_singleton entries e ih =>
    rw [replay_append] at h
    have hset := get?_trim h
    rw [Dict.get?_set] at hset
    rw [entriesOf_append]
    split at hset
    · rename_i hk
      subst hk
      rw [if_pos rfl]
      obtain rfl := Option.some.inj hset
      refine ⟨by simp,?_⟩
      cases hget : (replay cap entries).get? e.1 with
      | none => exact ⟨entriesOf entries e.1,by simp⟩
      | some old =>
        obtain ⟨front,hfront⟩ := (ih hget).2
        exact ⟨front,by simp [← hfront]⟩
    · rename_i hk
      rw [if_neg (fun he => hk he.symm)]
      exact ih hset

/-- The entries of a key that is in are those that are lost and those since it came in. -/
theorem entriesOf_eq {entries : List (K × A)} {k : K} {kept : List A} (h : (replay cap entries).get? k = some kept) :
    entriesOf entries k = lost cap entries k ++ kept := by
  obtain ⟨-,front,hfront⟩ := replay_suffix h
  rw [lost,since,h,← hfront]
  simp

/-! ## Images -/

/-- A figure of the entries that each new entry brings up to date. -/
structure Figure (f : List A → V) (update : Option V → A → V) : Prop where
  first : ∀ a, f [a] = update none a
  more : ∀ xs a, xs ≠ [] → f (xs ++ [a]) = update (some (f xs)) a

/-- An image of the history is kept up to date without it. -/
theorem set_image {f : List A → V} {update : Option V → A → V} (hf : Figure f update) {h : History K A}
    (hne : ∀ k xs, h.get? k = some xs → xs ≠ []) (k : K) (a : A) :
    (h.mapVal fun _ xs => f xs).set k (update ((h.mapVal fun _ xs => f xs).get? k) a) =
      (h.set k ((h.get? k).getD [] ++ [a])).mapVal fun _ xs => f xs := by
  rw [Dict.set_mapVal,Dict.get?_mapVal]
  congr 1
  cases hget : h.get? k with
  | none => exact (hf.first a).symm
  | some xs => exact (hf.more xs a (hne k xs hget)).symm

end Py.Fifo
