import Reyn.Lib.Fallible
import Reyn.Pipeline.Parser

/-! # Keys that cannot be sorted

The parser sorts the unknown keys of a mapping for the message of its refusal, which
raises a `TypeError` when they are of different types. Everything else it does not take
it refuses. Which inputs raise is said by the mappings the parser gets to.
-/
namespace Reyn.Parser
open Py Fallible

/-- The computation raises the `TypeError` exactly under a condition, and else it returns or refuses. -/
structure Raises {A : Type} (x : Parse A) (P : Prop) : Prop where
  iff : x = .error .unsortable ↔ P
  total : x ≠ .error .recursion

namespace Raises
variable {A B : Type}

theorem ok (a : A) : Raises (.ok a : Parse A) False := ⟨⟨nofun,nofun⟩,nofun⟩
theorem refuse (message : Message) : Raises (Parser.refuse message : Parse A) False := ⟨⟨nofun,nofun⟩,nofun⟩

theorem congr {x : Parse A} {P Q : Prop} (h : Raises x P) (hPQ : P ↔ Q) : Raises x Q := ⟨h.iff.trans hPQ,h.total⟩

theorem bind {x : Parse A} {f : A → Parse B} {P : Prop} {Q : A → Prop} (hx : Raises x P)
    (hf : ∀ a, x = .ok a → Raises (f a) (Q a)) : Raises (x.bind f) (P ∨ ∃ a, x = .ok a ∧ Q a) := by
  cases x with
  | ok a =>
    refine (hf a rfl).congr ⟨fun h => .inr ⟨a,rfl,h⟩,?_⟩
    rintro (h | ⟨a',ha',h⟩)
    · cases hx.iff.mpr h
    · cases ha'
      exact h
  | error e =>
    refine ⟨⟨fun h => .inl (hx.iff.mp ?_),?_⟩,fun h => hx.total ?_⟩
    · cases h
      rfl
    · rintro (h | ⟨a,ha,-⟩)
      · cases hx.iff.mpr h
        rfl
      · cases ha
    · cases h
      rfl

/-- After a step that never raises. -/
theorem bind_never {x : Parse A} {f : A → Parse B} {Q : A → Prop} (hx : Raises x False)
    (hf : ∀ a, x = .ok a → Raises (f a) (Q a)) : Raises (x.bind f) (∃ a, x = .ok a ∧ Q a) :=
  (hx.bind hf).congr (by rw [false_or])

theorem bind_neither {x : Parse A} {f : A → Parse B} (hx : Raises x False) (hf : ∀ a, x = .ok a → Raises (f a) False) :
    Raises (x.bind f) False :=
  (hx.bind_never hf).congr ⟨fun ⟨_,_,h⟩ => h,False.elim⟩

theorem bind_rest {x : Parse A} {f : A → Parse B} {P : Prop} (hx : Raises x P) (hf : ∀ a, x = .ok a → Raises (f a) False) :
    Raises (x.bind f) P :=
  (hx.bind hf).congr ⟨fun h => h.resolve_right fun ⟨_,_,hfalse⟩ => hfalse,.inl⟩

theorem map {x : Parse A} {f : A → B} {P : Prop} (hx : Raises x P) : Raises (x.map f) P := by
  cases x with
  | ok a => exact ⟨⟨nofun,fun h => nomatch hx.iff.mpr h⟩,nofun⟩
  | error e =>
    refine ⟨⟨fun h => hx.iff.mp ?_,fun h => ?_⟩,fun h => hx.total ?_⟩
    · cases h
      rfl
    · cases hx.iff.mpr h
      rfl
    · cases h
      rfl

/-- The members of a list, one after the other. -/
theorem mapM {f : A → Parse B} {P : A → Prop} {l : List A} (hf : ∀ a ∈ l, Raises (f a) (P a)) :
    Raises (l.mapM f) (∃ front a rest, l = front ++ a :: rest ∧ (∀ x ∈ front, ∃ y, f x = .ok y) ∧ P a) := by
  induction l with
  | nil =>
    refine (ok []).congr ⟨False.elim,fun ⟨front,a,rest,h,_⟩ => ?_⟩
    cases front <;> cases h
  | cons b l ih =>
    rw [List.mapM_cons]
    have hb := hf b List.mem_cons_self
    have hl := ih fun a ha => hf a (List.mem_cons_of_mem _ ha)
    refine (hb.bind fun y _ => hl.bind fun ys _ => ok (y :: ys)).congr ?_
    constructor
    · rintro (h | ⟨y,hy,⟨front,a,rest,rfl,hfront,h⟩ | ⟨_,_,h⟩⟩)
      · exact ⟨[],b,l,rfl,nofun,h⟩
      · refine ⟨b :: front,a,rest,rfl,fun x hx => ?_,h⟩
        rcases List.mem_cons.mp hx with rfl | hx
        · exact ⟨y,hy⟩
        · exact hfront x hx
      · exact h.elim
    · rintro ⟨front,a,rest,heq,hfront,h⟩
      cases front with
      | nil =>
        cases heq
        exact .inl h
      | cons x front =>
        cases heq
        obtain ⟨y,hy⟩ := hfront b List.mem_cons_self
        exact .inr ⟨y,hy,.inl ⟨front,a,rest,rfl,fun x hx => hfront x (List.mem_cons_of_mem _ hx),h⟩⟩

theorem mapM_never {f : A → Parse B} {l : List A} (hf : ∀ a ∈ l, Raises (f a) False) : Raises (l.mapM f) False :=
  (mapM hf).congr ⟨fun ⟨_,_,_,_,_,h⟩ => h,False.elim⟩

end Raises

/-! ## What only refuses -/

def unknownKeys (doc : List (Value × Value)) (allowed : List String) : List Value :=
  (doc.map Prod.fst).filter fun k => !(allowed.any fun a => k == .str a)

/-- The unknown keys of a mapping are of different types. -/
def Mixed (doc : List (Value × Value)) (allowed : List String) : Prop := sortable (unknownKeys doc allowed) = false

theorem rejectUnknownKeys_raises (doc : List (Value × Value)) (allowed : List String) (at_ : Message) :
    Raises (rejectUnknownKeys doc allowed at_) (Mixed doc allowed) := by
  unfold rejectUnknownKeys
  change Raises (if unknownKeys doc allowed = [] then _ else _) _
  split
  · rename_i hnone
    exact (Raises.ok ()).congr ⟨False.elim,fun h => by rw [Mixed,hnone] at h; cases h⟩
  · split
    · rename_i hsortable
      refine (Raises.refuse _).congr ⟨False.elim,fun h => ?_⟩
      exact Bool.false_ne_true (h.symm.trans hsortable)
    · rename_i hsortable
      exact ⟨iff_of_true rfl (Bool.eq_false_iff.mpr hsortable),nofun⟩

theorem rejectUnknownKeys_ok {doc : List (Value × Value)} {allowed : List String} {at_ : Message} :
    rejectUnknownKeys doc allowed at_ = .ok () ↔ unknownKeys doc allowed = [] := by
  unfold rejectUnknownKeys
  change (if unknownKeys doc allowed = [] then _ else _) = _ ↔ _
  split
  · exact iff_of_true rfl ‹_›
  · refine iff_of_false ?_ ‹_›
    split
    · exact nofun
    · exact nofun

section Parser
variable {exprError : String → Option String}

theorem validateExprSource_raises (src : Value) (at_ : Message) : Raises (validateExprSource exprError src at_) False := by
  unfold validateExprSource
  split
  · split
    · exact .ok _
    · exact .refuse _
  · exact .refuse _

/-- The text of an expression. -/
def IsExpr (exprError : String → Option String) (raw : Value) : Prop := ∃ src, raw = .str src ∧ exprError src = none

theorem validateExprSource_ok {raw : Value} {at_ : Message} :
    (∃ src, validateExprSource exprError raw at_ = .ok src) ↔ IsExpr exprError raw := by
  unfold validateExprSource
  constructor
  · rintro ⟨src,h⟩
    split at h
    · split at h
      · exact ⟨_,rfl,‹_›⟩
      · cases h
    · cases h
  · rintro ⟨src,rfl,hsrc⟩
    dsimp only
    rw [hsrc]
    exact ⟨src,rfl⟩

mutual
theorem rejectNestedExprTag_raises : ∀ (v : Value) (at_ : Message), Raises (rejectNestedExprTag v at_) False
  | .other type _ _, at_ => by
    rw [rejectNestedExprTag]
    split
    · exact .refuse _
    · exact .ok _
  | .dict fields, at_ => by
    rw [rejectNestedExprTag]
    exact rejectNestedFields_raises fields at_
  | .list xs, at_ => by
    rw [rejectNestedExprTag]
    exact rejectNestedItems_raises xs 0 at_
  | .none, _ | .bool _, _ | .int _, _ | .float _, _ | .str _, _ | .tuple _, _ => by
    rw [rejectNestedExprTag]
    · exact .ok _
    all_goals exact nofun
theorem rejectNestedFields_raises : ∀ (fields : List (Value × Value)) (at_ : Message),
    Raises (rejectNestedFields fields at_) False
  | [], _ => by
    rw [rejectNestedFields]
    exact .ok _
  | (k,v) :: rest, at_ => by
    rw [rejectNestedFields]
    exact (rejectNestedExprTag_raises v _).bind_neither fun _ _ => rejectNestedFields_raises rest at_
theorem rejectNestedItems_raises : ∀ (xs : List Value) (i : ℕ) (at_ : Message), Raises (rejectNestedItems xs i at_) False
  | [], _, _ => by
    rw [rejectNestedItems]
    exact .ok _
  | x :: rest, i, at_ => by
    rw [rejectNestedItems]
    exact (rejectNestedExprTag_raises x _).bind_neither fun _ _ => rejectNestedItems_raises rest (i + 1) at_
end

theorem resolveArgValue_raises (v : Value) (at_ : Message) : Raises (resolveArgValue exprError v at_) False := by
  unfold resolveArgValue
  split
  · exact (validateExprSource_raises _ _).map
  · exact (rejectNestedExprTag_raises v at_).map

theorem parsePassEntries_raises (rawPass : Value) (at_ : Message) : Raises (parsePassEntries exprError rawPass at_) False := by
  unfold parsePassEntries
  split
  · apply Raises.mapM_never
    intro p _
    split
    · split
      · exact .refuse _
      · exact (validateExprSource_raises _ _).map
    · exact .refuse _
  · exact .refuse _

theorem optString_raises (v : Value) (message : Message) : Raises (optString v message) False := by
  unfold optString
  split
  · exact .ok _
  · exact .ok _
  · exact .refuse _

theorem optOnError_raises (raw : Value) (message : Message) : Raises (optOnError raw message) False := by
  unfold optOnError
  split
  · exact .ok _
  · split
    · exact .ok _
    · exact .refuse _
  · exact .refuse _

theorem parseCapabilities_raises (raw : Value) : Raises (parseCapabilities raw) False := by
  unfold parseCapabilities
  split
  · exact .ok _
  · split
    · exact .refuse _
    · split
      · exact .ok _
      · exact .refuse _
  · exact .refuse _

theorem optPositive_raises (raw : Value) (at_ : String) : Raises (optPositive raw at_) False := by
  unfold optPositive
  split
  · exact .ok _
  · split
    · exact .ok _
    · exact .refuse _
  · exact .refuse _

theorem listItems_raises (body : List (Value × Value)) (kind : String) (over_ : Option String) :
    Raises (match field body "items" with
      | .none => (.ok ⟨over_,none⟩ : Parse ListSource)
      | .list items => (rejectNestedItems items 0 [.text (kind ++ " step 'items'")]).bind fun _ => .ok ⟨over_,some items⟩
      | raw => Parser.refuse [.text (kind ++ " step 'items': expected a list, got " ++ typeName raw)]) False := by
  split
  · exact .ok _
  · exact (rejectNestedItems_raises _ 0 _).bind_neither fun _ _ => .ok _
  · exact .refuse _

theorem parseListSource_raises (body : List (Value × Value)) (kind : String) :
    Raises (parseListSource exprError body kind) False := by
  unfold parseListSource
  split
  · exact .refuse _
  · dsimp only
    split
    · exact (Raises.ok none).bind_neither fun over_ _ => listItems_raises body kind over_
    · exact (validateExprSource_raises _ _).map.bind_neither fun over_ _ => listItems_raises body kind over_

/-! ## The steps -/

def transformKeys : List String := ["value","output"]
def toolKeys : List String := ["name","args","schema","output","on_error"]
def agentKeys : List String := ["prompt","identity","capabilities","schema","model","output"]
def callKeys : List String := ["pipeline","pass","output"]
def matchKeys : List String := ["on","cases","default","output"]
def matchCaseKeys : List String := ["pipeline","pass"]
def foldKeys : List String := ["over","items","init","do","output","max_items"]
def forEachKeys : List String := ["over","items","max_parallel","on_error","do","collect","output"]
def parallelKeys : List String := ["branches","collect","on_error","output"]

def stepKeys : String → Option (List String)
  | "transform" => some transformKeys
  | "tool" => some toolKeys
  | "agent" => some agentKeys
  | "call" => some callKeys
  | "match" => some matchKeys
  | "fold" => some foldKeys
  | "for_each" => some forEachKeys
  | "parallel" => some parallelKeys
  | _ => none

theorem parseTransformStep_raises (body : List (Value × Value)) :
    Raises (parseTransformStep exprError body) (Mixed body transformKeys) := by
  unfold parseTransformStep
  apply (rejectUnknownKeys_raises _ _ _).bind_rest
  intro _ _
  split
  · exact .refuse _
  · exact (validateExprSource_raises _ _).bind_neither fun _ _ => .ok _

theorem parseToolStep_raises (body : List (Value × Value)) : Raises (parseToolStep exprError body) (Mixed body toolKeys) := by
  unfold parseToolStep
  apply (rejectUnknownKeys_raises _ _ _).bind_rest
  intro _ _
  split
  · exact .refuse _
  · split
    · apply Raises.bind_neither
      · exact Raises.mapM_never fun p _ => (resolveArgValue_raises _ _).map
      · exact fun _ _ => (optString_raises _ _).bind_neither fun _ _ => (optOnError_raises _ _).bind_neither fun _ _ => .ok _
    · exact .refuse _
  · exact .refuse _

theorem parseAgentStep_raises (body : List (Value × Value)) : Raises (parseAgentStep body) (Mixed body agentKeys) := by
  unfold parseAgentStep
  apply (rejectUnknownKeys_raises _ _ _).bind_rest
  intro _ _
  split
  · exact .refuse _
  · exact (optString_raises _ _).bind_neither fun _ _ => (parseCapabilities_raises _).bind_neither fun _ _ =>
      (optString_raises _ _).bind_neither fun _ _ => (optString_raises _ _).bind_neither fun _ _ => .ok _
  · exact .refuse _

theorem parseCallStep_raises (body : List (Value × Value)) : Raises (parseCallStep exprError body) (Mixed body callKeys) := by
  unfold parseCallStep
  apply (rejectUnknownKeys_raises _ _ _).bind_rest
  intro _ _
  split
  · exact .refuse _
  · split
    · split
      · exact .refuse _
      · exact (parsePassEntries_raises _ _).bind_neither fun _ _ => (optString_raises _ _).bind_neither fun _ _ => .ok _
    · exact .refuse _

/-- A case of a `match` whose mapping has mixed unknown keys. -/
def MixedCase (case_ : Value) : Prop := ∃ body, case_ = .dict body ∧ Mixed body matchCaseKeys

theorem parseMatchCase_raises (case_ : Value) (at_ : Message) : Raises (parseMatchCase exprError case_ at_) (MixedCase case_) := by
  unfold parseMatchCase
  split
  · rename_i body
    refine (Raises.bind_rest (rejectUnknownKeys_raises body matchCaseKeys at_) ?_).congr ?_
    · intro _ _
      split
      · exact .refuse _
      · split
        · split
          · exact .refuse _
          · exact (parsePassEntries_raises _ _).bind_neither fun _ _ => .ok _
        · exact .refuse _
    · exact ⟨fun h => ⟨body,rfl,h⟩,fun ⟨_,heq,h⟩ => by cases heq; exact h⟩
  · rename_i hne
    exact (Raises.refuse _).congr ⟨False.elim,fun ⟨body,heq,_⟩ => hne body heq⟩

variable (exprError) in
/-- The cases of a `match` that are before a position are taken. -/
def CasesTaken (cases : List (Value × Value)) : Prop :=
  ∀ p ∈ cases, ∃ case_, parseMatchCase exprError p.2 [.text "match step case ",.repr p.1] = .ok case_

variable (exprError) in
/-- The parser gets to a case, or to the default, with mixed unknown keys. -/
inductive MatchMeets (body : List (Value × Value)) : Prop
  | case_ (front : List (Value × Value)) (p : Value × Value) (rest : List (Value × Value))
      (hcases : field body "cases" = .dict (front ++ p :: rest)) (hfront : CasesTaken exprError front) (h : MixedCase p.2)
  | default (c : Value × Value) (cs : List (Value × Value)) (hcases : field body "cases" = .dict (c :: cs))
      (htaken : CasesTaken exprError (c :: cs)) (h : MixedCase (field body "default"))

/-- After the check of the keys. -/
theorem Raises.afterKeys {A : Type} {doc : List (Value × Value)} {allowed : List String} {at_ : Message} {f : Unit → Parse A}
    {Q : Prop} (h : unknownKeys doc allowed = [] → Raises (f ()) Q) :
    Raises ((rejectUnknownKeys doc allowed at_).bind f) (Mixed doc allowed ∨ unknownKeys doc allowed = [] ∧ Q) := by
  refine ((rejectUnknownKeys_raises doc allowed at_).bind fun _ hok => h (rejectUnknownKeys_ok.mp hok)).congr ?_
  apply or_congr_right
  exact ⟨fun ⟨_,hok,hQ⟩ => ⟨rejectUnknownKeys_ok.mp hok,hQ⟩,fun ⟨hnone,hQ⟩ => ⟨(),rejectUnknownKeys_ok.mpr hnone,hQ⟩⟩

theorem Raises.afterExpr {A : Type} {raw : Value} {at_ : Message} {f : String → Parse A} {Q : Prop}
    (h : ∀ src, Raises (f src) Q) : Raises ((validateExprSource exprError raw at_).bind f) (IsExpr exprError raw ∧ Q) := by
  refine ((validateExprSource_raises raw at_).bind_never fun src _ => h src).congr ?_
  rw [← @validateExprSource_ok _ _ at_]
  exact ⟨fun ⟨src,hok,hQ⟩ => ⟨⟨src,hok⟩,hQ⟩,fun ⟨⟨src,hok⟩,hQ⟩ => ⟨src,hok,hQ⟩⟩

/-- A field that must be there is not. -/
theorem Raises.absent {A : Type} {o : Option Value} {message : Message} {Q : Value → Prop} (h : o = none) :
    Raises (Parser.refuse message : Parse A) (∃ raw, o = some raw ∧ Q raw) :=
  (Raises.refuse message).congr ⟨False.elim,fun ⟨raw,hraw,_⟩ => by rw [h] at hraw; cases hraw⟩

theorem Raises.present {A : Type} {o : Option Value} {x : Parse A} {raw : Value} {Q : Value → Prop} (h : o = some raw)
    (hx : Raises x (Q raw)) : Raises x (∃ raw, o = some raw ∧ Q raw) :=
  hx.congr ⟨fun hQ => ⟨raw,h,hQ⟩,fun ⟨raw',hraw',hQ⟩ => by cases h.symm.trans hraw'; exact hQ⟩

theorem matchDefault_raises (body : List (Value × Value)) {f : Option MatchCase → Parse MatchStep}
    (hf : ∀ d, Raises (f d) False) : Raises (match field body "default" with
      | .none => (.ok none : Parse (Option MatchCase)).bind f
      | rawDefault => ((parseMatchCase exprError rawDefault [.text "match step 'default'"]).map some).bind f)
      (MixedCase (field body "default")) := by
  split
  · rename_i hnone
    apply ((Raises.ok _).bind_rest fun d _ => hf d).congr
    apply iff_of_false id
    rintro ⟨_,heq,_⟩
    rw [hnone] at heq
    cases heq
  · exact (parseMatchCase_raises _ _).map.bind_rest fun d _ => hf d

theorem parseMatchStep_raises (body : List (Value × Value)) : Raises (parseMatchStep exprError body)
    (Mixed body matchKeys ∨ unknownKeys body matchKeys = [] ∧
      ∃ raw, Value.get? body "on" = some raw ∧ IsExpr exprError raw ∧ MatchMeets exprError body) := by
  unfold parseMatchStep
  apply Raises.afterKeys
  intro _
  split
  · exact .absent ‹_›
  · rename_i raw hraw
    apply Raises.present hraw
    apply Raises.afterExpr
    intro on
    split
    · rename_i c cs hcases
      have hmap : Raises ((c :: cs).mapM fun p =>
          (parseMatchCase exprError p.2 [.text "match step case ",.repr p.1]).map fun case_ => (p.1,case_)) _ :=
        Raises.mapM fun p _ => (parseMatchCase_raises p.2 _).map
      refine (hmap.bind fun cases _ => matchDefault_raises body fun d => (optString_raises _ _).bind_neither fun _ _ => .ok _).congr ?_
      have htaken : ∀ l : List (Value × Value), (∀ x ∈ l, ∃ y, ((parseMatchCase exprError x.2
          [.text "match step case ",.repr x.1]).map fun case_ => (x.1,case_)) = .ok y) ↔ CasesTaken exprError l :=
        fun l => forall₂_congr fun _ _ => map_ok_iff
      constructor
      · rintro (⟨front,p,rest,heq,hfront,h⟩ | ⟨cases,hok,h⟩)
        · exact .case_ front p rest (hcases.trans (congrArg Value.dict heq)) ((htaken front).mp hfront) h
        · exact .default c cs hcases ((htaken _).mp (mapM_ok_iff.mp ⟨cases,hok⟩)) h
      · rintro (⟨front,p,rest,heq,hfront,h⟩ | ⟨c',cs',heq,hok,h⟩)
        · exact .inl ⟨front,p,rest,Value.dict.inj (hcases.symm.trans heq),(htaken front).mpr hfront,h⟩
        · cases hcases.symm.trans heq
          obtain ⟨cases,hcases'⟩ := mapM_ok_iff.mpr ((htaken _).mpr hok)
          exact .inr ⟨cases,hcases',h⟩
    · rename_i hnot
      refine (Raises.refuse _).congr ⟨False.elim,fun h => ?_⟩
      cases h with
      | case_ front p rest hcases =>
        cases front with
        | nil => exact hnot _ _ hcases
        | cons q front => exact hnot _ _ hcases
      | default c cs hcases => exact hnot _ _ hcases

section Nested
variable {parse : Value → Message → Parse Step} {Meets : Value → Message → Prop}

variable (exprError) in
/-- The parser gets into the `do` of a `fold`. -/
def FoldMeets (Meets : Value → Message → Prop) (body : List (Value × Value)) (index : Message) : Prop :=
  unknownKeys body foldKeys = [] ∧ (∃ source, parseListSource exprError body "fold" = .ok source) ∧
    ∃ rawInit, Value.get? body "init" = some rawInit ∧ IsExpr exprError rawInit ∧
      ∃ rawDo, Value.get? body "do" = some rawDo ∧ Meets rawDo (index ++ [.text " (fold do)"])

theorem Raises.afterSource {A : Type} {body : List (Value × Value)} {kind : String} {f : ListSource → Parse A} {Q : Prop}
    (h : ∀ source, Raises (f source) Q) : Raises ((parseListSource exprError body kind).bind f)
      ((∃ source, parseListSource exprError body kind = .ok source) ∧ Q) :=
  ((parseListSource_raises body kind).bind_never fun source _ => h source).congr
    ⟨fun ⟨source,hok,hQ⟩ => ⟨⟨source,hok⟩,hQ⟩,fun ⟨⟨source,hok⟩,hQ⟩ => ⟨source,hok,hQ⟩⟩

theorem parseFoldStep_raises {body : List (Value × Value)} {index : Message}
    (hparse : ∀ raw, Value.get? body "do" = some raw → ∀ index, Raises (parse raw index) (Meets raw index)) :
    Raises (parseFoldStep exprError parse body index) (Mixed body foldKeys ∨ FoldMeets exprError Meets body index) := by
  unfold parseFoldStep
  apply Raises.afterKeys
  intro _
  apply Raises.afterSource
  intro source
  split
  · exact .absent ‹_›
  · rename_i rawInit hinit
    apply Raises.present hinit
    apply Raises.afterExpr
    intro init
    split
    · exact .absent ‹_›
    · rename_i rawDo hdo
      apply Raises.present hdo
      apply (hparse rawDo hdo _).bind_rest
      intro run _
      split
      · split
        · exact .refuse _
        · exact (optPositive_raises _ _).bind_neither fun _ _ => .ok _
      · exact .refuse _

/-- A policy that is given and accepted. -/
def IsPolicy (raw : Value) : Prop := ∃ policy, raw = .str policy ∧ isOnError policy = true

theorem optOnError_some {raw : Value} {message : Message} :
    (∃ policy, optOnError raw message = .ok (some policy)) ↔ IsPolicy raw := by
  unfold optOnError
  constructor
  · rintro ⟨policy,h⟩
    split at h
    · cases h
    · split at h
      · exact ⟨_,rfl,‹_›⟩
      · cases h
    · cases h
  · rintro ⟨policy,rfl,hpolicy⟩
    exact ⟨policy,if_pos hpolicy⟩

theorem Raises.afterPolicy {A : Type} {raw : Value} {message : Message} {f : Option String → Parse A} {Q : Prop}
    (hnone : Raises (f none) False) (hsome : ∀ policy, Raises (f (some policy)) Q) :
    Raises ((optOnError raw message).bind f) (IsPolicy raw ∧ Q) := by
  refine ((optOnError_raises raw message).bind_never (Q := fun o => o.isSome = true ∧ Q) fun o _ => ?_).congr ?_
  · cases o with
    | none => exact hnone.congr ⟨False.elim,fun h => Bool.false_ne_true h.1⟩
    | some policy => exact (hsome policy).congr ⟨fun h => ⟨rfl,h⟩,And.right⟩
  · rw [← @optOnError_some _ message]
    constructor
    · rintro ⟨o,hok,hsome,hQ⟩
      obtain ⟨policy,rfl⟩ := Option.isSome_iff_exists.mp hsome
      exact ⟨⟨policy,hok⟩,hQ⟩
    · exact fun ⟨⟨policy,hok⟩,hQ⟩ => ⟨some policy,hok,rfl,hQ⟩

variable (exprError) in
/-- The parser gets into the `do` or the `collect` of a `for_each`. -/
def ForEachMeets (parse : Value → Message → Parse Step) (Meets : Value → Message → Prop) (body : List (Value × Value))
    (index : Message) : Prop :=
  unknownKeys body forEachKeys = [] ∧ (∃ source, parseListSource exprError body "for_each" = .ok source) ∧
    IsPolicy (field body "on_error") ∧ ∃ rawDo, Value.get? body "do" = some rawDo ∧ (Meets rawDo (index ++ [.text " (for_each do)"]) ∨
      (∃ run, parse rawDo (index ++ [.text " (for_each do)"]) = .ok run) ∧
        ∃ rawCollect, Value.get? body "collect" = some rawCollect ∧ Meets rawCollect (index ++ [.text " (for_each collect)"]))

theorem parseForEachStep_raises {body : List (Value × Value)} {index : Message}
    (hparse : ∀ key raw, Value.get? body key = some raw → ∀ index, Raises (parse raw index) (Meets raw index)) :
    Raises (parseForEachStep exprError parse body index)
      (Mixed body forEachKeys ∨ ForEachMeets exprError parse Meets body index) := by
  unfold parseForEachStep
  apply Raises.afterKeys
  intro _
  apply Raises.afterSource
  intro source
  apply Raises.afterPolicy
  · exact .refuse _
  · intro policy
    dsimp only
    split
    · exact .absent ‹_›
    · rename_i rawDo hdo
      apply Raises.present hdo
      refine ((hparse "do" rawDo hdo _).bind fun run _ => ?_).congr
        (or_congr_right ⟨fun ⟨run,hrun,hQ⟩ => ⟨⟨run,hrun⟩,hQ⟩,fun ⟨⟨run,hrun⟩,hQ⟩ => ⟨run,hrun,hQ⟩⟩)
      split
      · exact .absent ‹_›
      · rename_i rawCollect hcollect
        apply Raises.present hcollect
        apply (hparse "collect" rawCollect hcollect _).bind_rest
        exact fun _ _ => (optPositive_raises _ _).bind_neither fun _ _ => (optString_raises _ _).bind_neither fun _ _ => .ok _

theorem givenPolicy_ok {raw : Value} {message : Message} :
    (∃ policy, ((optOnError raw message).bind fun
      | none => Parser.refuse message
      | some policy => (.ok policy : Parse String)) = .ok policy) ↔ IsPolicy raw := by
  rw [← @optOnError_some _ message]
  cases optOnError raw message with
  | error e => exact iff_of_false (fun ⟨_,h⟩ => nomatch h) (fun ⟨_,h⟩ => nomatch h)
  | ok o =>
    cases o with
    | none => exact iff_of_false (fun ⟨_,h⟩ => nomatch h) (fun ⟨_,h⟩ => nomatch h)
    | some policy => exact iff_of_true ⟨policy,rfl⟩ ⟨policy,rfl⟩

/-- The branches before a position are taken. -/
def BranchesTaken (parse : Value → Message → Parse Step) (branches : List (Value × Value)) (index : Message) : Prop :=
  ∀ p ∈ branches, ∃ step, parse p.2 (index ++ [.text " (parallel branch ",.repr p.1,.text ")"]) = .ok step

/-- The parser gets into a branch or the `collect` of a `parallel`. -/
def ParallelMeets (parse : Value → Message → Parse Step) (Meets : Value → Message → Prop) (body : List (Value × Value))
    (index : Message) : Prop :=
  unknownKeys body parallelKeys = [] ∧
    ∃ branches, field body "branches" = .dict branches ∧ Value.get? branches branchErrorsKey = none ∧
      ((∃ front p rest, branches = front ++ p :: rest ∧ BranchesTaken parse front index ∧
          Meets p.2 (index ++ [.text " (parallel branch ",.repr p.1,.text ")"])) ∨
        branches ≠ [] ∧ BranchesTaken parse branches index ∧
          (∀ raw, Value.get? body "on_error" = some raw → IsPolicy raw) ∧
          ∃ rawCollect, Value.get? body "collect" = some rawCollect ∧ Meets rawCollect (index ++ [.text " (parallel collect)"]))

theorem collect_raises {body : List (Value × Value)} {index : Message}
    (hparse : ∀ raw, Value.get? body "collect" = some raw → ∀ index, Raises (parse raw index) (Meets raw index))
    (branches : List (Value × Step)) (onError : String) : Raises (match Value.get? body "collect" with
        | none => (Parser.refuse [.text "parallel step: missing required field 'collect'"] : Parse Step)
        | some rawCollect => (parse rawCollect (index ++ [.text " (parallel collect)"])).bind fun collect =>
          (optOutput body "parallel").bind fun output => .ok (.parallel branches collect onError output))
        (∃ rawCollect, Value.get? body "collect" = some rawCollect ∧
          Meets rawCollect (index ++ [.text " (parallel collect)"])) := by
  split
  · exact .absent ‹_›
  · rename_i rawCollect hget
    apply Raises.present hget
    exact (hparse rawCollect hget _).bind_rest fun _ _ => (optString_raises _ _).bind_neither fun _ _ => .ok _

theorem policyGiven_raises (raw : Value) (message : Message) : Raises ((optOnError raw message).bind fun
    | none => Parser.refuse message
    | some policy => (.ok policy : Parse String)) False := by
  apply (optOnError_raises raw message).bind_neither
  intro o _
  cases o with
  | none => exact .refuse _
  | some policy => exact .ok _

theorem parseParallelStep_raises {body : List (Value × Value)} {index : Message}
    (hbranch : ∀ branches, field body "branches" = .dict branches → ∀ p ∈ branches, ∀ index,
      Raises (parse p.2 index) (Meets p.2 index))
    (hparse : ∀ raw, Value.get? body "collect" = some raw → ∀ index, Raises (parse raw index) (Meets raw index)) :
    Raises (parseParallelStep parse body index) (Mixed body parallelKeys ∨ ParallelMeets parse Meets body index) := by
  unfold parseParallelStep
  apply Raises.afterKeys
  intro _
  split
  · rename_i b bs hbranches
    split
    · rename_i hreserved
      refine (Raises.refuse _).congr ⟨False.elim,?_⟩
      rintro ⟨branches,heq,hnone,-⟩
      cases hbranches.symm.trans heq
      rw [hnone] at hreserved
      cases hreserved
    · rename_i hreserved
      rw [Option.not_isSome_iff_eq_none] at hreserved
      have hmap : Raises ((b :: bs).mapM fun p =>
          (parse p.2 (index ++ [.text " (parallel branch ",.repr p.1,.text ")"])).map fun step => (p.1,step)) _ :=
        Raises.mapM fun p hp => (hbranch _ hbranches p hp _).map
      have htaken : ∀ l : List (Value × Value), (∀ x ∈ l, ∃ y, ((parse x.2
          (index ++ [.text " (parallel branch ",.repr x.1,.text ")"])).map fun step => (x.1,step)) = .ok y) ↔
          BranchesTaken parse l index := fun l => forall₂_congr fun _ _ => map_ok_iff
      have hcollect := @collect_raises parse Meets body index hparse
      refine (hmap.bind (Q := fun _ => (∀ raw, Value.get? body "on_error" = some raw → IsPolicy raw) ∧
        ∃ rawCollect, Value.get? body "collect" = some rawCollect ∧
          Meets rawCollect (index ++ [.text " (parallel collect)"])) fun branches _ => ?_).congr ?_
      · dsimp only
        split
        · rename_i hnone
          refine ((Raises.ok "abort").bind_never fun onError _ => hcollect branches onError).congr ⟨?_,?_⟩
          · rintro ⟨_,-,h⟩
            refine ⟨fun raw hraw => ?_,h⟩
            rw [hnone] at hraw
            cases hraw
          · rintro ⟨_,h⟩
            exact ⟨_,rfl,h⟩
        · rename_i raw hraw
          refine ((policyGiven_raises raw _).bind_never fun onError _ => hcollect branches onError).congr ⟨?_,?_⟩
          · rintro ⟨policy,hok,h⟩
            refine ⟨fun raw' hraw' => ?_,h⟩
            cases hraw.symm.trans hraw'
            exact givenPolicy_ok.mp ⟨policy,hok⟩
          · rintro ⟨hpolicy,h⟩
            obtain ⟨policy,hok⟩ := givenPolicy_ok.mpr (hpolicy raw hraw)
            exact ⟨policy,hok,h⟩
      · constructor
        · rintro (⟨front,p,rest,heq,hfront,h⟩ | ⟨branches,hok,h⟩)
          · exact ⟨_,hbranches,hreserved,.inl ⟨front,p,rest,heq,(htaken front).mp hfront,h⟩⟩
          · exact ⟨_,hbranches,hreserved,.inr ⟨List.cons_ne_nil _ _,(htaken _).mp (mapM_ok_iff.mp ⟨branches,hok⟩),h⟩⟩
        · rintro ⟨branches,heq,-,⟨front,p,rest,rfl,hfront,h⟩ | ⟨-,htaken',h⟩⟩
          · exact .inl ⟨front,p,rest,Value.dict.inj (hbranches.symm.trans heq),(htaken front).mpr hfront,h⟩
          · cases hbranches.symm.trans heq
            obtain ⟨branches,hok⟩ := mapM_ok_iff.mpr ((htaken _).mpr htaken')
            exact .inr ⟨branches,hok,h⟩
  · rename_i hnot
    refine (Raises.refuse _).congr ⟨False.elim,?_⟩
    rintro ⟨branches,heq,-,⟨front,p,rest,rfl,-⟩ | ⟨hne,-⟩⟩
    · cases front with
      | nil => exact hnot _ _ heq
      | cons q front => exact hnot _ _ heq
    · obtain ⟨b,bs,rfl⟩ := List.exists_cons_of_ne_nil hne
      exact hnot b bs heq

end Nested

/-! ## Whole steps and documents -/

variable (exprError) in
/-- The parser gets to a mapping with mixed unknown keys: the step's own, or one inside it after what comes before it is
taken. -/
def MeetsMixedKeys : ℕ → Value → Message → Prop
  | 0, _, _ => False
  | fuel + 1, raw, index => ∃ kind body, raw = .dict [(.str kind,.dict body)] ∧
    ((∃ allowed, stepKeys kind = some allowed ∧ Mixed body allowed) ∨
      (kind = "match" ∧ unknownKeys body matchKeys = [] ∧
        ∃ raw, Value.get? body "on" = some raw ∧ IsExpr exprError raw ∧ MatchMeets exprError body) ∨
      (kind = "fold" ∧ FoldMeets exprError (MeetsMixedKeys fuel) body index) ∨
      (kind = "for_each" ∧ ForEachMeets exprError (parseStep exprError fuel) (MeetsMixedKeys fuel) body index) ∨
      (kind = "parallel" ∧ ParallelMeets (parseStep exprError fuel) (MeetsMixedKeys fuel) body index))

theorem get?_depth_lt {fields : List (Value × Value)} {key : String} {v : Value} (h : Value.get? fields key = some v) :
    v.depth < (Value.dict fields).depth := by
  obtain ⟨front,rest,heq,-⟩ := List.lookup_eq_some_iff.mp h
  exact Value.depth_lt_dict (p := (.str key,v)) (by rw [heq]; simp)

/-- Of a mapping with one key, the depth of what the body holds. -/
theorem body_depth_lt {kind : Value} {body : List (Value × Value)} {fuel : ℕ} {v : Value}
    (h : (Value.dict [(kind,.dict body)]).depth < fuel + 1) (hv : v.depth < (Value.dict body).depth) : v.depth < fuel := by
  have hbody : (Value.dict body).depth < (Value.dict [(kind,.dict body)]).depth :=
    Value.depth_lt_dict (p := (kind,.dict body)) (List.mem_singleton_self _)
  omega

theorem Raises.ofBody {A : Type} {body : Value} {message : Message} {f : List (Value × Value) → Parse A}
    {Q : List (Value × Value) → Prop} (h : ∀ fields, body = .dict fields → Raises (f fields) (Q fields)) :
    Raises ((match body with
      | .dict fields => (.ok fields : Parse (List (Value × Value)))
      | _ => Parser.refuse message).bind f) (∃ fields, body = .dict fields ∧ Q fields) := by
  split
  · rename_i fields
    exact (h fields rfl).congr ⟨fun hQ => ⟨fields,rfl,hQ⟩,fun ⟨_,heq,hQ⟩ => by cases heq; exact hQ⟩
  · rename_i hnot
    exact (Raises.refuse message).congr ⟨False.elim,fun ⟨fields,heq,_⟩ => hnot fields heq⟩

theorem meetsMixedKeys_iff {fuel : ℕ} {kind : String} {body : Value} {index : Message} :
    MeetsMixedKeys exprError (fuel + 1) (.dict [(.str kind,body)]) index ↔ ∃ fields, body = .dict fields ∧
      ((∃ allowed, stepKeys kind = some allowed ∧ Mixed fields allowed) ∨
      (kind = "match" ∧ unknownKeys fields matchKeys = [] ∧
        ∃ raw, Value.get? fields "on" = some raw ∧ IsExpr exprError raw ∧ MatchMeets exprError fields) ∨
      (kind = "fold" ∧ FoldMeets exprError (MeetsMixedKeys exprError fuel) fields index) ∨
      (kind = "for_each" ∧ ForEachMeets exprError (parseStep exprError fuel) (MeetsMixedKeys exprError fuel) fields index) ∨
      (kind = "parallel" ∧ ParallelMeets (parseStep exprError fuel) (MeetsMixedKeys exprError fuel) fields index)) := by
  rw [MeetsMixedKeys]
  constructor
  · rintro ⟨kind',fields,heq,h⟩
    cases heq
    exact ⟨fields,rfl,h⟩
  · rintro ⟨fields,rfl,h⟩
    exact ⟨kind,fields,rfl,h⟩

theorem parseStep_raises {fuel : ℕ} {raw : Value} (hdepth : raw.depth < fuel) (index : Message) :
    Raises (parseStep exprError fuel raw index) (MeetsMixedKeys exprError fuel raw index) := by
  induction fuel generalizing raw index with
  | zero => exact absurd hdepth (Nat.not_lt_zero _)
  | succ fuel ih =>
    unfold parseStep
    split
    · rename_i kind body
      have hinside : ∀ {fields v}, body = .dict fields → v.depth < (Value.dict fields).depth → ∀ index,
          Raises (parseStep exprError fuel v index) (MeetsMixedKeys exprError fuel v index) := by
        intro fields v hbody hv index
        subst hbody
        exact ih (body_depth_lt hdepth hv) index
      dsimp only
      split
      · refine (Raises.ofBody fun fields hfields => parseFoldStep_raises fun raw hraw index =>
          hinside hfields (get?_depth_lt hraw) index).congr ?_
        rw [meetsMixedKeys_iff]
        simp [stepKeys]
      · refine (Raises.ofBody fun fields hfields => parseForEachStep_raises fun key raw hraw index =>
          hinside hfields (get?_depth_lt hraw) index).congr ?_
        rw [meetsMixedKeys_iff]
        simp [stepKeys]
      · refine (Raises.ofBody fun fields hfields => parseParallelStep_raises ?_ fun raw hraw index =>
          hinside hfields (get?_depth_lt hraw) index).congr ?_
        · intro branches hbranches p hp index
          apply hinside hfields
          have hfield : field fields "branches" ≠ .none := by
            rw [hbranches]
            exact Value.noConfusion
          have hlt := field_depth_lt hfield
          rw [hbranches] at hlt
          exact (Value.depth_lt_dict hp).trans hlt
        · rw [meetsMixedKeys_iff]
          simp [stepKeys]
      · refine (Raises.ofBody fun fields _ => (parseTransformStep_raises fields).map).congr ?_
        rw [meetsMixedKeys_iff]
        simp [stepKeys]
      · refine (Raises.ofBody fun fields _ => (parseToolStep_raises fields).map).congr ?_
        rw [meetsMixedKeys_iff]
        simp [stepKeys]
      · refine (Raises.ofBody fun fields _ => (parseAgentStep_raises fields).map).congr ?_
        rw [meetsMixedKeys_iff]
        simp [stepKeys]
      · refine (Raises.ofBody fun fields _ => (parseCallStep_raises fields).map).congr ?_
        rw [meetsMixedKeys_iff]
        simp [stepKeys]
      · refine (Raises.ofBody fun fields _ => (parseMatchStep_raises fields).map).congr ?_
        rw [meetsMixedKeys_iff]
        simp [stepKeys]
      · rename_i hfold hforEach hparallel htransform htool hagent hcall hmatch
        refine (Raises.refuse _).congr ⟨False.elim,?_⟩
        rintro ⟨kind',fields,heq,h⟩
        cases heq
        rcases h with ⟨allowed,hkeys,-⟩ | ⟨rfl,-⟩ | ⟨rfl,-⟩ | ⟨rfl,-⟩ | ⟨rfl,-⟩
        · rw [stepKeys] at hkeys
          · cases hkeys
          all_goals
            rintro rfl
            simp at *
        · exact hmatch rfl
        · exact hfold rfl
        · exact hforEach rfl
        · exact hparallel rfl
    · rename_i hnot
      refine (Raises.refuse _).congr ⟨False.elim,?_⟩
      rintro ⟨kind,body,rfl,-⟩
      exact hnot _ _ rfl

def pipelineKeys : List String := ["pipeline","description","steps"]

variable (exprError) in
/-- The parser gets to a mapping of a pipeline document with mixed unknown keys. -/
def PipelineMeets (doc : List (Value × Value)) : Prop :=
  Mixed doc pipelineKeys ∨ unknownKeys doc pipelineKeys = [] ∧
    (∃ name, field doc "pipeline" = .str name ∧ name ≠ "" ∧ name.toList.contains '.' = false) ∧
    (∃ description, (Value.get? doc "description").getD (.str "") = .str description) ∧
    ∃ steps, field doc "steps" = .list steps ∧ ∃ front p rest, steps.zipIdx = front ++ p :: rest ∧
      (∀ q ∈ front, ∃ step, parseStep exprError (Value.list steps).depth q.1 [.text (toString q.2)] = .ok step) ∧
      MeetsMixedKeys exprError (Value.list steps).depth p.1 [.text (toString p.2)]

theorem parsePipelineDoc_raises (doc : List (Value × Value)) :
    Raises (parsePipelineDoc exprError doc) (PipelineMeets exprError doc) := by
  unfold parsePipelineDoc
  apply Raises.afterKeys
  intro _
  split
  · rename_i name hname
    split
    · rename_i hempty
      refine (Raises.refuse _).congr ⟨False.elim,?_⟩
      rintro ⟨⟨name',heq,hne,-⟩,-⟩
      cases hname.symm.trans heq
      exact hne hempty
    · rename_i hne
      split
      · rename_i hdot
        refine (Raises.refuse _).congr ⟨False.elim,?_⟩
        rintro ⟨⟨name',heq,-,hnot⟩,-⟩
        cases hname.symm.trans heq
        rw [hdot] at hnot
        cases hnot
      · rename_i hdot
        split
        · rename_i description hdescription
          split
          · rename_i s ss hsteps
            have hdepth : ∀ p ∈ (s :: ss).zipIdx, p.1.depth < (Value.list (s :: ss)).depth := fun p hp =>
              Value.depth_lt_list (List.fst_mem_of_mem_zipIdx hp)
            have hmap := Raises.mapM (l := (s :: ss).zipIdx) fun p hp =>
              @parseStep_raises exprError _ _ (hdepth p hp) [.text (toString p.2)]
            refine (hmap.bind_rest fun _ _ => .ok _).congr ⟨fun h => ?_,?_⟩
            · exact ⟨⟨name,hname,hne,Bool.eq_false_iff.mpr hdot⟩,⟨description,hdescription⟩,_,hsteps,h⟩
            · rintro ⟨-,-,steps,heq,h⟩
              cases hsteps.symm.trans heq
              exact h
          · rename_i hnot
            refine (Raises.refuse _).congr ⟨False.elim,?_⟩
            rintro ⟨-,-,steps,heq,front,p,rest,hzip,-⟩
            cases steps with
            | nil => cases front <;> cases hzip
            | cons s ss => exact hnot s ss heq
        · rename_i hnot
          refine (Raises.refuse _).congr ⟨False.elim,?_⟩
          rintro ⟨-,⟨description,heq⟩,-⟩
          exact hnot description heq
  · rename_i hnot
    refine (Raises.refuse _).congr ⟨False.elim,?_⟩
    rintro ⟨⟨name,heq,-⟩,-⟩
    exact hnot name heq

end Parser
end Reyn.Parser
