import Mathlib

/-! # Predictive readers

A reader takes a front part of a list of tokens and says what it found, or refuses. It is
sound for a relation when what it takes stands in it, and complete when it takes whatever
stands in it, as far as the next token does not continue it. A repetition with operators
between its items keeps both, and so does one with separators.
-/
namespace Descent
variable {E T A B O : Type}

abbrev Reader (E T A : Type) := List T → Except E (A × List T)

def Sound (p : Reader E T A) (D : A → List T → Prop) : Prop :=
  ∀ ts a rest, p ts = .ok (a,rest) → ∃ used, ts = used ++ rest ∧ D a used

/-- The next token is none of those that continue. -/
def Stops (continues : T → Bool) (rest : List T) : Prop := ∀ t ∈ rest.head?, continues t = false

/-- For what stands in the relation with less than `n` tokens. -/
def Complete (n : ℕ) (continues : T → Bool) (p : Reader E T A) (D : A → List T → Prop) : Prop :=
  ∀ a used rest, used.length < n → D a used → Stops continues rest → p (used ++ rest) = .ok (a,rest)

/-- A result that is not refused in one certain way, and leaves at most `m` tokens. -/
structure CalmAt (bad : E) (m : ℕ) (x : Except E (A × List T)) : Prop where
  avoids : x ≠ .error bad
  shrinks : ∀ a rest, x = .ok (a,rest) → rest.length ≤ m

/-- The results on less than `n` tokens. -/
def Calm (bad : E) (n : ℕ) (p : Reader E T A) : Prop := ∀ ts, ts.length < n → CalmAt bad ts.length (p ts)

/-- A single token that says something. -/
def token (refuse : List T → E) (f : T → Option A) : Reader E T A
  | [] => .error (refuse [])
  | t :: rest => match f t with
    | some a => .ok (a,rest)
    | none => .error (refuse (t :: rest))

def IsToken (f : T → Option A) (a : A) (ts : List T) : Prop := ∃ t, f t = some a ∧ ts = [t]

/-- The loop behind the first item; an iteration takes at least the operator. -/
def chain (op : T → Option O) (node : O → A → A → A) (next : Reader E T A) : ℕ → A → Reader E T A
  | 0, left, ts => .ok (left,ts)
  | _ + 1, left, [] => .ok (left,[])
  | fuel + 1, left, t :: rest =>
    match op t with
    | none => .ok (left,t :: rest)
    | some o => (next rest).bind fun r => chain op node next fuel (node o left r.1) r.2

/-- `next (op next)*` -/
def chained (op : T → Option O) (node : O → A → A → A) (next : Reader E T A) : Reader E T A := fun ts =>
  (next ts).bind fun r => chain op node next r.2.length r.1 r.2

/-- What such a repetition stands for, from the left. -/
inductive Chain (op : T → Option O) (node : O → A → A → A) (D : A → List T → Prop) : A → List T → Prop
  | one {a : A} {ts : List T} : D a ts → Chain op node D a ts
  | more {a b : A} {ts us : List T} {t : T} {o : O} :
    Chain op node D a ts → op t = some o → D b us → Chain op node D (node o a b) (ts ++ t :: us)

/-- A reader of one item, as a list. -/
def single (p : Reader E T A) : Reader E T (List A) := fun ts => (p ts).map fun r => ([r.1],r.2)

inductive Single (D : A → List T → Prop) : List A → List T → Prop
  | mk {a : A} {ts : List T} : D a ts → Single D [a] ts

def between (sep : T → Bool) (t : T) : Option Unit := if sep t then some () else none

/-- `item (sep item)*` -/
def sepBy (sep : T → Bool) (item : Reader E T A) : Reader E T (List A) :=
  chained (between sep) (fun _ front back => front ++ back) (single item)

inductive SepBy (sep : T → Bool) (D : A → List T → Prop) : List A → List T → Prop
  | one {a : A} {ts : List T} : D a ts → SepBy sep D [a] ts
  | more {l : List A} {b : A} {ts us : List T} {t : T} :
    SepBy sep D l ts → sep t = true → D b us → SepBy sep D (l ++ [b]) (ts ++ t :: us)

section Rules
variable {p : Reader E T A} {D : A → List T → Prop} {op : T → Option O} {node : O → A → A → A} {continues continues' : T → Bool}
variable {n : ℕ}

theorem Stops.nil : Stops continues ([] : List T) := by
  intro t ht
  cases ht

theorem stops_cons {t : T} {rest : List T} : Stops continues (t :: rest) ↔ continues t = false := by
  constructor
  · intro h
    exact h t rfl
  · intro h t' ht'
    cases ht'
    exact h

theorem Stops.mono {rest : List T} (h : Stops continues' rest) (hle : ∀ t, continues' t = false → continues t = false) :
    Stops continues rest := fun t ht => hle t (h t ht)

theorem Complete.mono {m : ℕ} (h : Complete n continues p D) (hm : m ≤ n) : Complete m continues p D :=
  fun a used rest hlen hD hstop => h a used rest (by omega) hD hstop

theorem Complete.follow (h : Complete n continues p D) (hle : ∀ t, continues' t = false → continues t = false) :
    Complete n continues' p D :=
  fun a used rest hlen hD hstop => h a used rest hlen hD (hstop.mono hle)

/-- Two readings that end at the same place agree. -/
theorem Complete.unique (h : ∀ n, ∃ p : Reader E T A, Complete n continues p D) {a b : A} {ts : List T} (ha : D a ts)
    (hb : D b ts) : a = b := by
  obtain ⟨p,hp⟩ := h (ts.length + 1)
  have hread := hp a ts [] (Nat.lt_succ_self _) ha .nil
  rw [hp b ts [] (Nat.lt_succ_self _) hb .nil] at hread
  cases hread
  rfl

/-- What every text of a repetition begins with. -/
theorem Chain.starts {P : T → Prop} (h : ∀ a ts, D a ts → ∃ t us, ts = t :: us ∧ P t) {a : A} {ts : List T}
    (hc : Chain op node D a ts) : ∃ t us, ts = t :: us ∧ P t := by
  induction hc with
  | one hD => exact h _ _ hD
  | more _ _ _ ih =>
    obtain ⟨t,us,rfl,ht⟩ := ih
    exact ⟨t,_,rfl,ht⟩

theorem SepBy.starts {P : T → Prop} {sep : T → Bool} (h : ∀ a ts, D a ts → ∃ t us, ts = t :: us ∧ P t) {l : List A} {ts : List T}
    (hs : SepBy sep D l ts) : ∃ t us, ts = t :: us ∧ P t := by
  induction hs with
  | one hD => exact h _ _ hD
  | more _ _ _ ih =>
    obtain ⟨t,us,rfl,ht⟩ := ih
    exact ⟨t,_,rfl,ht⟩

/-- What holds of the items of a repetition and goes over to its nodes holds of the whole. -/
theorem Chain.holds {Q : A → Prop} {a : A} {ts : List T} (hc : Chain op node D a ts)
    (hD : ∀ b us, us.Sublist ts → D b us → Q b) (hnode : ∀ o b c, Q b → Q c → Q (node o b c)) : Q a := by
  induction hc with
  | one h => exact hD _ _ (List.Sublist.refl _) h
  | more _ _ h ih =>
    apply hnode
    · apply ih
      intro b us hus
      exact hD b us (hus.trans (List.sublist_append_left _ _))
    · exact hD _ _ ((List.sublist_cons_self _ _).trans (List.sublist_append_right _ _)) h

theorem SepBy.holds {Q : A → Prop} {sep : T → Bool} {l : List A} {ts : List T} (hs : SepBy sep D l ts)
    (hD : ∀ b us, us.Sublist ts → D b us → Q b) : ∀ a ∈ l, Q a := by
  induction hs with
  | one h =>
    intro a ha
    obtain rfl := List.mem_singleton.mp ha
    exact hD _ _ (List.Sublist.refl _) h
  | more _ _ h ih =>
    intro a ha
    rcases List.mem_append.mp ha with ha | ha
    · refine ih ?_ a ha
      intro b us hus
      exact hD b us (hus.trans (List.sublist_append_left _ _))
    · obtain rfl := List.mem_singleton.mp ha
      exact hD _ _ ((List.sublist_cons_self _ _).trans (List.sublist_append_right _ _)) h

theorem token_sound (refuse : List T → E) (f : T → Option A) : Sound (token refuse f) (IsToken f) := by
  intro ts a rest h
  cases ts with
  | nil => cases h
  | cons t ts =>
    rw [token] at h
    split at h
    · rename_i a' hf
      cases h
      exact ⟨[t],rfl,t,hf,rfl⟩
    · cases h

theorem token_complete (refuse : List T → E) (f : T → Option A) : Complete n (fun _ => false) (token refuse f) (IsToken f) := by
  rintro a used rest - ⟨t,hf,rfl⟩ -
  rw [List.singleton_append,token,hf]

theorem chain_sound (h : Sound p D) {fuel : ℕ} {left a : A} {front ts rest : List T} (hleft : Chain op node D left front)
    (hchain : chain op node p fuel left ts = .ok (a,rest)) : ∃ used, ts = used ++ rest ∧ Chain op node D a (front ++ used) := by
  induction fuel generalizing left front ts with
  | zero =>
    cases hchain
    exact ⟨[],rfl,by rwa [List.append_nil]⟩
  | succ fuel ih =>
    cases ts with
    | nil =>
      cases hchain
      exact ⟨[],rfl,by rwa [List.append_nil]⟩
    | cons t ts =>
      rw [chain] at hchain
      split at hchain
      · cases hchain
        exact ⟨[],rfl,by rwa [List.append_nil]⟩
      · rename_i o ho
        cases hp : p ts with
        | error e =>
          rw [hp] at hchain
          cases hchain
        | ok r =>
          obtain ⟨b,ts'⟩ := r
          rw [hp] at hchain
          obtain ⟨us,rfl,hD⟩ := h ts b ts' hp
          obtain ⟨used,rfl,hused⟩ := ih (hleft.more ho hD) hchain
          refine ⟨t :: (us ++ used),by simp,?_⟩
          simpa using hused

theorem chained_sound (h : Sound p D) : Sound (chained op node p) (Chain op node D) := by
  intro ts a rest hchained
  rw [chained] at hchained
  cases hp : p ts with
  | error e =>
    rw [hp] at hchained
    cases hchained
  | ok r =>
    obtain ⟨b,ts'⟩ := r
    rw [hp] at hchained
    obtain ⟨us,rfl,hD⟩ := h ts b ts' hp
    obtain ⟨used,rfl,hused⟩ := chain_sound h (.one hD) hchained
    exact ⟨us ++ used,(List.append_assoc ..).symm,hused⟩

/-- Reading up to an operator or the end comes to the loop with what was read. -/
theorem chained_reaches (h : Complete n continues p D) (hop : ∀ t o, op t = some o → continues t = false) {a : A} {used : List T}
    (hD : Chain op node D a used) (hlen : used.length < n) {rest : List T} (hstop : Stops continues rest) :
    ∃ fuel, rest.length ≤ fuel ∧ chained op node p (used ++ rest) = chain op node p fuel a rest := by
  induction hD generalizing rest with
  | @one a ts hD =>
    refine ⟨rest.length,Nat.le_refl _,?_⟩
    rw [chained,h a ts rest hlen hD hstop]
    rfl
  | @more a b ts us t o _ ho hD ih =>
    rw [List.length_append,List.length_cons] at hlen
    obtain ⟨fuel,hfuel,hchain⟩ := ih (by omega) (stops_cons.mpr (hop t o ho) : Stops continues (t :: (us ++ rest)))
    rw [List.length_cons,List.length_append] at hfuel
    obtain ⟨fuel,rfl⟩ : ∃ k, fuel = k + 1 := ⟨fuel - 1,by omega⟩
    refine ⟨fuel,by omega,?_⟩
    rw [List.append_assoc,List.cons_append,hchain,chain,ho]
    dsimp only
    rw [h b us rest (by omega) hD hstop]
    rfl

theorem chained_complete (h : Complete n continues p D) (hop : ∀ t o, op t = some o → continues t = false) :
    Complete n (fun t => continues t || (op t).isSome) (chained op node p) (Chain op node D) := by
  intro a used rest hlen hD hstop
  have hnext : Stops continues rest := hstop.mono fun t ht => (Bool.or_eq_false_iff.mp ht).1
  obtain ⟨fuel,hfuel,hchain⟩ := chained_reaches h hop hD hlen hnext
  rw [hchain]
  cases rest with
  | nil => cases fuel <;> rfl
  | cons t rest =>
    obtain ⟨fuel,rfl⟩ : ∃ k, fuel = k + 1 := by
      rw [List.length_cons] at hfuel
      exact ⟨fuel - 1,by omega⟩
    have hnone : op t = none := by
      have hout : (continues t || (op t).isSome) = false := hstop t rfl
      simpa using (Bool.or_eq_false_iff.mp hout).2
    rw [chain,hnone]

theorem single_sound (h : Sound p D) : Sound (single p) (Single D) := by
  intro ts l rest hl
  rw [single] at hl
  cases hp : p ts with
  | error e =>
    rw [hp] at hl
    cases hl
  | ok r =>
    obtain ⟨a,ts'⟩ := r
    rw [hp] at hl
    cases hl
    obtain ⟨used,rfl,hD⟩ := h ts a _ hp
    exact ⟨used,rfl,.mk hD⟩

theorem single_complete (h : Complete n continues p D) : Complete n continues (single p) (Single D) := by
  intro l used rest hlen hD hstop
  cases hD with
  | mk hD =>
    rw [single,h _ used rest hlen hD hstop]
    rfl

theorem isSome_between (sep : T → Bool) (t : T) : (between sep t).isSome = sep t := by
  rw [between]
  cases sep t <;> rfl

/-- Behind a first item of one token there is a separator or nothing. -/
theorem SepBy.second {sep : T → Bool} (h : ∀ a ts, D a ts → ∃ t, ts = [t]) {l : List A} {ts : List T} (hs : SepBy sep D l ts) :
    ∃ t us, ts = t :: us ∧ ∀ s ∈ us.head?, sep s = true := by
  induction hs with
  | one hD =>
    obtain ⟨t,rfl⟩ := h _ _ hD
    refine ⟨t,[],rfl,?_⟩
    intro s hs
    cases hs
  | more _ hsep _ ih =>
    obtain ⟨t,us,rfl,hus⟩ := ih
    refine ⟨t,_,rfl,?_⟩
    cases us with
    | nil =>
      intro s hs
      cases hs
      exact hsep
    | cons u us => exact hus

/-- A list with separators is a repetition whose operator puts lists together. -/
theorem sepBy_iff {sep : T → Bool} {l : List A} {ts : List T} :
    SepBy sep D l ts ↔ Chain (between sep) (fun _ front back => front ++ back) (Single D) l ts := by
  constructor
  · intro h
    induction h with
    | one hD => exact .one (.mk hD)
    | @more l b ts us t _ hsep hD ih =>
      have hop : between sep t = some () := by
        rw [between,if_pos hsep]
      exact ih.more hop (.mk hD)
  · intro h
    induction h with
    | one hD =>
      cases hD with
      | mk hD => exact .one hD
    | @more a b ts us t o _ hop hD ih =>
      cases hD with
      | mk hD =>
        have hsome := isSome_between sep t
        rw [hop] at hsome
        exact ih.more hsome.symm hD

theorem sepBy_sound (sep : T → Bool) (h : Sound p D) : Sound (sepBy sep p) (SepBy sep D) := by
  intro ts l rest hl
  obtain ⟨used,hused,hchain⟩ := chained_sound (single_sound h) ts l rest hl
  exact ⟨used,hused,sepBy_iff.mpr hchain⟩

theorem sepBy_complete {sep : T → Bool} (h : Complete n continues p D) (hsep : ∀ t, sep t = true → continues t = false) :
    Complete n (fun t => continues t || sep t) (sepBy sep p) (SepBy sep D) := by
  have hop : ∀ t o, between sep t = some o → continues t = false := by
    intro t o ho
    apply hsep
    have hsome := isSome_between sep t
    rw [ho] at hsome
    exact hsome.symm
  have hfollow : (fun t => continues t || sep t) = fun t => continues t || (between sep t).isSome := by
    funext t
    rw [isSome_between]
  rw [hfollow]
  intro l used rest hlen hD hstop
  exact chained_complete (single_complete h) hop l used rest hlen (sepBy_iff.mp hD) hstop

end Rules

/-! ## Results that are not refused in one way -/

section Calm
variable {bad : E} {m n : ℕ} {x : Except E (A × List T)} {p : Reader E T A} {op : T → Option O} {node : O → A → A → A}

theorem CalmAt.mono {k : ℕ} (h : CalmAt bad m x) (hk : m ≤ k) : CalmAt bad k x :=
  ⟨h.avoids,fun a rest hx => (h.shrinks a rest hx).trans hk⟩

theorem calm_ok {a : A} {rest : List T} (h : rest.length ≤ m) : CalmAt bad m (.ok (a,rest)) := by
  constructor
  · intro he
    cases he
  · intro a' rest' he
    cases he
    exact h

theorem calm_error {e : E} (h : e ≠ bad) : CalmAt bad m (.error e : Except E (A × List T)) := by
  constructor
  · intro he
    cases he
    exact h rfl
  · intro a rest he
    cases he

theorem calm_bind {f : A × List T → Except E (B × List T)} (hx : CalmAt bad m x)
    (hf : ∀ a rest, rest.length ≤ m → CalmAt bad m (f (a,rest))) : CalmAt bad m (x.bind f) := by
  cases x with
  | error e =>
    apply calm_error
    rintro rfl
    exact hx.avoids rfl
  | ok r => exact hf r.1 r.2 (hx.shrinks r.1 r.2 rfl)

theorem calm_map {f : A × List T → B × List T} (hx : CalmAt bad m x) (hf : ∀ r, (f r).2 = r.2) : CalmAt bad m (x.map f) := by
  cases x with
  | error e =>
    apply calm_error
    rintro rfl
    exact hx.avoids rfl
  | ok r =>
    apply calm_ok
    rw [hf]
    exact hx.shrinks r.1 r.2 rfl

theorem calm_token {refuse : List T → E} {f : T → Option A} (h : ∀ ts, refuse ts ≠ bad) (ts : List T) :
    CalmAt bad ts.length (token refuse f ts) := by
  cases ts with
  | nil => exact calm_error (h [])
  | cons t ts =>
    rw [token]
    split
    · exact calm_ok (Nat.le_succ _)
    · exact calm_error (h _)

theorem calm_chain (h : Calm bad n p) {fuel : ℕ} {left : A} {ts : List T} (hlen : ts.length < n) :
    CalmAt bad ts.length (chain op node p fuel left ts) := by
  induction fuel generalizing left ts with
  | zero => exact calm_ok (Nat.le_refl _)
  | succ fuel ih =>
    cases ts with
    | nil => exact calm_ok (Nat.le_refl _)
    | cons t ts =>
      rw [List.length_cons] at hlen
      have hts : ts.length < n := by omega
      rw [chain]
      split
      · exact calm_ok (Nat.le_refl _)
      · apply calm_bind ((h ts hts).mono (Nat.le_succ _))
        intro b rest hrest
        have hmore : rest.length < n := by omega
        exact (ih hmore).mono hrest

theorem calm_chained (h : Calm bad n p) : Calm bad n (chained op node p) := by
  intro ts hlen
  apply calm_bind (h ts hlen)
  intro a rest hrest
  have hmore : rest.length < n := by omega
  exact (calm_chain h hmore).mono hrest

theorem calm_sepBy (sep : T → Bool) (h : Calm bad n p) : Calm bad n (sepBy sep p) := by
  apply calm_chained
  intro ts hlen
  exact calm_map (h ts hlen) fun _ => rfl

end Calm
end Descent
