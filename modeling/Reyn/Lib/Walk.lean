import Reyn.Lib.Fallible

/-! # Walks that may fail and may stop early

A computation runs over the members of a list, up to the first failure or to the first result
that stops it. The loops of a language that stop at a result are such walks.
-/
namespace Fallible
variable {A B C E : Type}

/-- A computation that ended with an error of a kind. -/
def FailsWith (P : E → Prop) (x : Except E A) : Prop := ∃ e, x = .error e ∧ P e

section Failure
variable {P : E → Prop}

theorem not_failsWith_ok {a : A} : ¬FailsWith P (.ok a : Except E A) := nofun

theorem failsWith_error {e : E} : FailsWith P (.error e : Except E A) ↔ P e := by
  constructor
  · rintro ⟨_,h,he⟩
    cases h
    exact he
  · exact fun he => ⟨e,rfl,he⟩

theorem failsWith_map {x : Except E A} {f : A → B} : FailsWith P (x.map f) ↔ FailsWith P x := by
  cases x with
  | error e => exact Iff.trans failsWith_error failsWith_error.symm
  | ok a => exact iff_of_false not_failsWith_ok not_failsWith_ok

theorem failsWith_bind {x : Except E A} {f : A → Except E B} :
    FailsWith P (x.bind f) ↔ FailsWith P x ∨ ∃ a, x = .ok a ∧ FailsWith P (f a) := by
  cases x with
  | error e =>
    refine Iff.trans (failsWith_error.trans failsWith_error.symm) (or_iff_left ?_).symm
    rintro ⟨a,h,-⟩
    cases h
  | ok a =>
    constructor
    · exact fun h => .inr ⟨a,rfl,h⟩
    · rintro (h | ⟨_,h,hf⟩)
      · exact absurd h not_failsWith_ok
      · cases h
        exact hf

end Failure

theorem bind_ok_iff {x : Except E A} {f : A → Except E B} {b : B} : x.bind f = .ok b ↔ ∃ a, x = .ok a ∧ f a = .ok b := by
  constructor
  · exact bind_ok
  · rintro ⟨a,rfl,h⟩
    exact h

theorem map_eq_ok_iff {x : Except E A} {f : A → B} {b : B} : x.map f = .ok b ↔ ∃ a, x = .ok a ∧ b = f a := by
  constructor
  · exact map_eq_ok
  · rintro ⟨a,rfl,rfl⟩
    rfl

/-- The results up to the first that stops, and that one with its member. -/
def walk (stop : B → Bool) (f : A → Except E B) : List A → Except E (List B × Option (A × B))
  | [] => .ok ([],none)
  | a :: rest => (f a).bind fun b => if stop b then .ok ([],some (a,b)) else (walk stop f rest).map fun p => (b :: p.1,p.2)

/-- The walk comes to the end of these members. -/
def Passes (stop : B → Bool) (f : A → Except E B) (l : List A) (bs : List B) : Prop :=
  List.Forall₂ (fun a b => f a = .ok b) l bs ∧ ∀ b ∈ bs, stop b = false

section Walk
variable {stop : B → Bool} {f : A → Except E B}

theorem Passes.nil : Passes stop f [] [] := ⟨.nil,nofun⟩

theorem passes_cons {a : A} {l : List A} {b : B} {bs : List B} :
    Passes stop f (a :: l) (b :: bs) ↔ f a = .ok b ∧ stop b = false ∧ Passes stop f l bs := by
  rw [Passes,Passes,List.forall₂_cons,List.forall_mem_cons]
  tauto

theorem walk_cons_pass {a : A} {b : B} (h : f a = .ok b) (hstop : stop b = false) (rest : List A) :
    walk stop f (a :: rest) = (walk stop f rest).map fun p => (b :: p.1,p.2) := by
  rw [walk,h]
  change (if stop b then _ else _) = _
  rw [if_neg (by rw [hstop]; nofun)]

theorem walk_append {front : List A} {bs : List B} (h : Passes stop f front bs) (rest : List A) :
    walk stop f (front ++ rest) = (walk stop f rest).map fun p => (bs ++ p.1,p.2) := by
  induction front generalizing bs with
  | nil =>
    cases h.1
    exact (Except.map_id.symm ▸ rfl : walk stop f rest = (walk stop f rest).map id)
  | cons a front ih =>
    cases bs with
    | nil => cases h.1
    | cons b bs =>
      obtain ⟨ha,hb,hrest⟩ := passes_cons.mp h
      rw [List.cons_append,walk_cons_pass ha hb,ih hrest]
      cases walk stop f rest <;> rfl

/-- What a walk came to: its end, a result that stops it, or a failure. -/
theorem walk_cases (stop : B → Bool) (f : A → Except E B) (l : List A) :
    (∃ bs, Passes stop f l bs ∧ walk stop f l = .ok (bs,none)) ∨
      (∃ front a rest bs b, l = front ++ a :: rest ∧ Passes stop f front bs ∧ f a = .ok b ∧ stop b = true ∧
        walk stop f l = .ok (bs,some (a,b))) ∨
      ∃ front a rest bs e, l = front ++ a :: rest ∧ Passes stop f front bs ∧ f a = .error e ∧ walk stop f l = .error e := by
  induction l with
  | nil => exact .inl ⟨[],.nil,rfl⟩
  | cons a rest ih =>
    cases ha : f a with
    | error e => exact .inr (.inr ⟨[],a,rest,[],e,rfl,.nil,ha,by rw [walk,ha]; rfl⟩)
    | ok b =>
      cases hb : stop b with
      | true =>
        refine .inr (.inl ⟨[],a,rest,[],b,rfl,.nil,ha,hb,?_⟩)
        rw [walk,ha]
        change (if stop b then _ else _) = _
        rw [if_pos hb]
      | false =>
        rcases ih with ⟨bs,hpass,h⟩ | ⟨front,a',rest',bs,b',rfl,hpass,hf,hstop,h⟩ | ⟨front,a',rest',bs,e,rfl,hpass,hf,h⟩
        · exact .inl ⟨b :: bs,passes_cons.mpr ⟨ha,hb,hpass⟩,by rw [walk_cons_pass ha hb,h]; rfl⟩
        · exact .inr (.inl ⟨a :: front,a',rest',b :: bs,b',rfl,passes_cons.mpr ⟨ha,hb,hpass⟩,hf,hstop,
            by rw [walk_cons_pass ha hb,h]; rfl⟩)
        · exact .inr (.inr ⟨a :: front,a',rest',b :: bs,e,rfl,passes_cons.mpr ⟨ha,hb,hpass⟩,hf,
            by rw [walk_cons_pass ha hb,h]; rfl⟩)

theorem walk_whole_iff {l : List A} {bs : List B} : walk stop f l = .ok (bs,none) ↔ Passes stop f l bs := by
  constructor
  · intro h
    rcases walk_cases stop f l with ⟨bs',hpass,h'⟩ | ⟨_,_,_,_,_,_,_,_,_,h'⟩ | ⟨_,_,_,_,_,_,_,_,h'⟩
    · rw [h] at h'
      cases h'
      exact hpass
    · rw [h] at h'
      cases h'
    · rw [h] at h'
      cases h'
  · intro h
    have hend := walk_append h []
    rw [List.append_nil] at hend
    rw [hend]
    change Except.ok (bs ++ [],none) = _
    rw [List.append_nil]

theorem walk_stop_iff {l : List A} {bs : List B} {a : A} {b : B} : walk stop f l = .ok (bs,some (a,b)) ↔
    ∃ front rest, l = front ++ a :: rest ∧ Passes stop f front bs ∧ f a = .ok b ∧ stop b = true := by
  constructor
  · intro h
    rcases walk_cases stop f l with ⟨_,_,h'⟩ | ⟨front,_,rest,_,_,hl,hpass,hf,hstop,h'⟩ | ⟨_,_,_,_,_,_,_,_,h'⟩
    · rw [h] at h'
      cases h'
    · rw [h] at h'
      cases h'
      exact ⟨front,rest,hl,hpass,hf,hstop⟩
    · rw [h] at h'
      cases h'
  · rintro ⟨front,rest,rfl,hpass,hf,hstop⟩
    rw [walk_append hpass,walk,hf]
    change (if stop b then _ else _ : Except E _).map _ = _
    rw [if_pos hstop]
    change Except.ok (bs ++ [],some (a,b)) = _
    rw [List.append_nil]

theorem failsWith_walk {P : E → Prop} {l : List A} : FailsWith P (walk stop f l) ↔
    ∃ front a rest bs, l = front ++ a :: rest ∧ Passes stop f front bs ∧ FailsWith P (f a) := by
  constructor
  · rintro ⟨e,h,he⟩
    rcases walk_cases stop f l with ⟨_,_,h'⟩ | ⟨_,_,_,_,_,_,_,_,_,h'⟩ | ⟨front,a,rest,bs,_,hl,hpass,hf,h'⟩
    · rw [h] at h'
      cases h'
    · rw [h] at h'
      cases h'
    · rw [h] at h'
      cases h'
      exact ⟨front,a,rest,bs,hl,hpass,e,hf,he⟩
  · rintro ⟨front,a,rest,bs,rfl,hpass,e,hf,he⟩
    refine ⟨e,?_,he⟩
    rw [walk_append hpass,walk,hf]
    rfl

end Walk

/-! ## The loops that are walks -/

section Loops
variable (f : A → Except E B)

theorem mapM_eq_walk (l : List A) : l.mapM f = (walk (fun _ => false) f l).map Prod.fst := by
  induction l with
  | nil => rfl
  | cons a rest ih =>
    rw [List.mapM_cons,ih,walk]
    cases f a with
    | error e => rfl
    | ok b =>
      change Except.bind (Except.map Prod.fst (walk _ f rest)) _ = Except.map Prod.fst (Except.map _ (walk _ f rest))
      cases walk (fun _ => false) f rest <;> rfl

variable (t : B → Bool)

theorem allM_eq_walk (l : List A) : (l.allM fun a => (f a).map t) = (walk (fun b => !t b) f l).map fun p => p.2.isNone := by
  induction l with
  | nil => rfl
  | cons a rest ih =>
    rw [List.allM,walk]
    cases f a with
    | error e => rfl
    | ok b =>
      cases hb : t b with
      | false =>
        change (match t b with | true => _ | false => _) = Except.map _ (if !t b then _ else _)
        rw [hb]
        rfl
      | true =>
        change (match t b with | true => _ | false => _) = Except.map _ (if !t b then _ else _)
        rw [hb]
        change rest.allM _ = _
        rw [ih]
        cases walk (fun b => !t b) f rest <;> rfl

theorem anyM_eq_walk (l : List A) : (l.anyM fun a => (f a).map t) = (walk t f l).map fun p => p.2.isSome := by
  induction l with
  | nil => rfl
  | cons a rest ih =>
    rw [List.anyM,walk]
    cases f a with
    | error e => rfl
    | ok b =>
      cases hb : t b with
      | true =>
        change (match t b with | true => _ | false => _) = Except.map _ (if t b then _ else _)
        rw [hb]
        rfl
      | false =>
        change (match t b with | true => _ | false => _) = Except.map _ (if t b then _ else _)
        rw [hb]
        change rest.anyM _ = _
        rw [ih]
        cases walk t f rest <;> rfl

theorem findM?_eq_walk (l : List A) : (l.findM? fun a => (f a).map t) = (walk t f l).map fun p => p.2.map Prod.fst := by
  induction l with
  | nil => rfl
  | cons a rest ih =>
    rw [List.findM?,walk]
    cases f a with
    | error e => rfl
    | ok b =>
      cases hb : t b with
      | true =>
        change (match t b with | true => _ | false => _) = Except.map _ (if t b then _ else _)
        rw [hb]
        rfl
      | false =>
        change (match t b with | true => _ | false => _) = Except.map _ (if t b then _ else _)
        rw [hb]
        change rest.findM? _ = _
        rw [ih]
        cases walk t f rest <;> rfl

/-- The members whose results pass a test. -/
def kept (l : List A) (bs : List B) : List A := ((l.zip bs).filter fun p => t p.2).map Prod.fst

theorem filterAuxM_eq_walk (l acc : List A) : (l.filterAuxM (fun a => (f a).map t) acc) =
    (walk (fun _ => false) f l).map fun p => (kept t l p.1).reverse ++ acc := by
  induction l generalizing acc with
  | nil => rfl
  | cons a rest ih =>
    rw [List.filterAuxM,walk]
    cases f a with
    | error e => rfl
    | ok b =>
      change rest.filterAuxM _ (cond (t b) (a :: acc) acc) = Except.map _ (Except.map _ (walk _ f rest))
      rw [ih]
      cases walk (fun _ => false) f rest with
      | error e => rfl
      | ok p => cases hb : t b <;> simp [kept,hb,Except.map]

theorem filterM_eq_walk (l : List A) : (l.filterM fun a => (f a).map t) =
    (walk (fun _ => false) f l).map fun p => kept t l p.1 := by
  rw [List.filterM,filterAuxM_eq_walk]
  cases walk (fun _ => false) f l with
  | error e => rfl
  | ok p =>
    change Except.ok (_ ++ []).reverse = Except.ok _
    rw [List.append_nil,List.reverse_reverse]

end Loops
end Fallible
