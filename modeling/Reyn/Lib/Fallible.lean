import Mathlib

/-! # Computations that may fail

What a composed computation returned comes from its parts.
-/
namespace Fallible
variable {A B E : Type}

theorem bind_ok {x : Except E A} {f : A → Except E B} {b : B} (h : x.bind f = .ok b) :
    ∃ a, x = .ok a ∧ f a = .ok b := by
  cases x with
  | error e => cases h
  | ok a => exact ⟨a,rfl,h⟩

theorem mapM_singleton {f : A → Except E B} (a : A) : [a].mapM f = (f a).map fun b => [b] := by
  rw [List.mapM_cons]
  cases f a <;> rfl

theorem mapM_ok_members {f : A → Except E B} {l : List A} {l' : List B} (h : l.mapM f = .ok l') :
    List.Forall₂ (fun a b => f a = .ok b) l l' := by
  induction l generalizing l' with
  | nil =>
    cases h
    exact .nil
  | cons a l ih =>
    rw [List.mapM_cons] at h
    cases ha : f a with
    | error e =>
      rw [ha] at h
      cases h
    | ok b =>
      cases hl : l.mapM f with
      | error e =>
        rw [ha,hl] at h
        cases h
      | ok bs =>
        rw [ha,hl] at h
        cases h
        exact .cons ha (ih hl)

theorem mapM_ok_mem {f : A → Except E B} {l : List A} {l' : List B} (h : l.mapM f = .ok l') {b : B} (hb : b ∈ l') :
    ∃ a ∈ l, f a = .ok b := by
  have hmembers := mapM_ok_members h
  clear h
  induction hmembers with
  | nil => cases hb
  | @cons a _ rest _ ha _ ih =>
    rcases List.mem_cons.mp hb with rfl | hb
    · exact ⟨a,List.mem_cons_self,ha⟩
    · obtain ⟨a',ha',hf⟩ := ih hb
      exact ⟨a',List.mem_cons_of_mem _ ha',hf⟩

theorem mapM_ok_eq_map {f : A → Except E B} {g : A → B} {l : List A} {l' : List B} (h : l.mapM f = .ok l')
    (hf : ∀ a b, f a = .ok b → b = g a) : l' = l.map g := by
  have hmembers := mapM_ok_members h
  clear h
  induction hmembers with
  | nil => rfl
  | @cons a b rest rest' hb _ ih => rw [ih,List.map_cons,hf a b hb]

theorem mapM_ok_iff {f : A → Except E B} {l : List A} : (∃ l', l.mapM f = .ok l') ↔ ∀ a ∈ l, ∃ b, f a = .ok b := by
  induction l with
  | nil => exact iff_of_true ⟨[],rfl⟩ nofun
  | cons a l ih =>
    rw [List.forall_mem_cons,← ih,List.mapM_cons]
    cases f a with
    | error e => exact iff_of_false (fun ⟨_,h⟩ => nomatch h) (fun ⟨⟨_,h⟩,_⟩ => nomatch h)
    | ok b =>
      cases l.mapM f with
      | error e => exact iff_of_false (fun ⟨_,h⟩ => nomatch h) (fun ⟨_,⟨_,h⟩⟩ => nomatch h)
      | ok bs => exact iff_of_true ⟨_,rfl⟩ ⟨⟨b,rfl⟩,⟨bs,rfl⟩⟩

theorem map_eq_ok {C : Type} {x : Except E B} {f : B → C} {c : C} (h : x.map f = .ok c) : ∃ b, x = .ok b ∧ c = f b := by
  cases x with
  | error e => cases h
  | ok b =>
    cases h
    exact ⟨b,rfl,rfl⟩

theorem map_ok_iff {C : Type} {x : Except E B} {f : B → C} : (∃ c, x.map f = .ok c) ↔ ∃ b, x = .ok b := by
  cases x with
  | error e => exact iff_of_false (fun ⟨_,h⟩ => nomatch h) (fun ⟨_,h⟩ => nomatch h)
  | ok b => exact iff_of_true ⟨_,rfl⟩ ⟨b,rfl⟩

/-- All members report nothing. -/
theorem mapM_flatten_nil_iff {f : A → Except E (List B)} {l : List A} :
    (l.mapM f).map List.flatten = .ok [] ↔ ∀ a ∈ l, f a = .ok [] := by
  induction l with
  | nil => exact iff_of_true rfl nofun
  | cons a l ih =>
    rw [List.forall_mem_cons,← ih,List.mapM_cons]
    cases f a with
    | error e => exact iff_of_false (fun h => nomatch h) (fun h => nomatch h.1)
    | ok bs =>
      cases l.mapM f with
      | error e => exact iff_of_false (fun h => nomatch h) (fun h => nomatch h.2)
      | ok bss =>
        change (Except.ok (bs ++ bss.flatten) : Except E (List B)) = .ok [] ↔ _ ∧ (Except.ok bss.flatten : Except E (List B)) = _
        simp only [Except.ok.injEq,List.append_eq_nil_iff]

theorem mapM_some_members {f : A → Option B} {l : List A} {l' : List B} (h : l.mapM f = some l') :
    List.Forall₂ (fun a b => f a = some b) l l' := by
  induction l generalizing l' with
  | nil =>
    cases h
    exact .nil
  | cons a l ih =>
    simp only [List.mapM_cons,bind,Option.bind_eq_some_iff,pure] at h
    obtain ⟨b,hb,bs,hbs,h⟩ := h
    cases h
    exact .cons hb (ih hbs)

/-- A failing loop fails at one of its members. -/
theorem foldlM_error {f : B → A → Except E B} {l : List A} {b : B} {e : E} (h : l.foldlM f b = .error e) :
    ∃ a ∈ l, ∃ b', f b' a = .error e := by
  induction l generalizing b with
  | nil => cases h
  | cons a rest ih =>
    rw [List.foldlM_cons] at h
    cases ha : f b a with
    | error e' =>
      rw [ha] at h
      cases h
      exact ⟨a,List.mem_cons_self,b,ha⟩
    | ok b' =>
      rw [ha] at h
      obtain ⟨a',ha',hf⟩ := ih h
      exact ⟨a',List.mem_cons_of_mem _ ha',hf⟩

theorem foldlM_error_iff {f : B → A → Except E B} {l : List A} {b : B} {e : E} :
    l.foldlM f b = .error e ↔
      ∃ front a rest b', l = front ++ a :: rest ∧ front.foldlM f b = .ok b' ∧ f b' a = .error e := by
  constructor
  · intro h
    induction l generalizing b with
    | nil => cases h
    | cons a rest ih =>
      rw [List.foldlM_cons] at h
      cases ha : f b a with
      | error e' =>
        rw [ha] at h
        cases h
        exact ⟨[],a,rest,b,rfl,rfl,ha⟩
      | ok b' =>
        rw [ha] at h
        obtain ⟨front,a',rest',b'',rfl,hfront,hf⟩ := ih h
        refine ⟨a :: front,a',rest',b'',rfl,?_,hf⟩
        rw [List.foldlM_cons,ha]
        exact hfront
  · rintro ⟨front,a,rest,b',rfl,hfront,hf⟩
    rw [List.foldlM_append,hfront]
    change (a :: rest).foldlM f b' = _
    rw [List.foldlM_cons,hf]
    rfl

theorem forM_ok_iff {f : A → Except E Unit} {l : List A} : l.forM f = .ok () ↔ ∀ a ∈ l, f a = .ok () := by
  induction l with
  | nil => exact iff_of_true rfl nofun
  | cons a rest ih =>
    rw [List.forall_mem_cons,← ih]
    change Except.bind (f a) _ = _ ↔ _
    cases f a with
    | error e => exact iff_of_false (fun h => nomatch h) (fun h => nomatch h.1)
    | ok u => exact ⟨fun h => ⟨rfl,h⟩,And.right⟩

theorem forM_map {C : Type} {f : B → Except E Unit} {g : C → B} (l : List C) : (l.map g).forM f = l.forM fun c => f (g c) := by
  induction l with
  | nil => rfl
  | cons c rest ih => exact congrArg (Except.bind (f (g c))) (funext fun _ => ih)

theorem forM_attach {f : A → Except E Unit} (l : List A) : (l.attach.forM fun p => f p.1) = l.forM f := by
  conv_rhs => rw [← List.attach_map_subtype_val l]
  exact (forM_map l.attach).symm

theorem forM_error {f : A → Except E Unit} {l : List A} {e : E} (h : l.forM f = .error e) :
    ∃ front a rest, l = front ++ a :: rest ∧ (∀ b ∈ front, f b = .ok ()) ∧ f a = .error e := by
  induction l with
  | nil => cases h
  | cons a rest ih =>
    change Except.bind (f a) _ = _ at h
    cases ha : f a with
    | error e' =>
      rw [ha] at h
      cases h
      exact ⟨[],a,rest,rfl,nofun,ha⟩
    | ok u =>
      rw [ha] at h
      obtain ⟨front,a',rest',rfl,hfront,hf⟩ := ih h
      exact ⟨a :: front,a',rest',rfl,List.forall_mem_cons.mpr ⟨ha,hfront⟩,hf⟩

/-- A loop whose members fail with other errors. -/
theorem foldlM_mapError {E' : Type} {f : B → A → Except E B} {f' : B → A → Except E' B} {g : E → E'} {l : List A} {b : B}
    (h : ∀ b, ∀ a ∈ l, f' b a = (f b a).mapError g) : l.foldlM f' b = (l.foldlM f b).mapError g := by
  induction l generalizing b with
  | nil => rfl
  | cons a rest ih =>
    rw [List.foldlM_cons,List.foldlM_cons,h b a List.mem_cons_self]
    cases f b a with
    | error e => rfl
    | ok b' => exact ih fun b a ha => h b a (List.mem_cons_of_mem _ ha)

end Fallible
