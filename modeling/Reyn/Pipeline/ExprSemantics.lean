import Reyn.Lib.Walk
import Reyn.Pipeline.ExprEval

/-! # What an expression means

The value of an expression in a context, and the expressions whose evaluation comes to an
operation on numbers that are too large. The evaluator returns the value, and it raises
nothing but its own error unless such an operation is reached.
-/
namespace Reyn.Expr
open Py Reyn.Parser Fallible

/-- The lambda of the combinator need not see the items after this result. -/
def LambdaCombinator.stopsAt : LambdaCombinator → Val → Bool
  | .map, _ | .filter, _ => false
  | .all, v => !v.truthy
  | .any, v | .find, v => v.truthy

/-- The value when all items were seen. -/
def LambdaCombinator.whole : LambdaCombinator → List Val → List Val → Val
  | .map, _, vs => .list vs
  | .filter, items, vs => .list (kept Val.truthy items vs)
  | .all, _, _ => .bool true
  | .any, _, _ => .bool false
  | .find, _, _ => .null

/-- The value when the items end at this one. -/
def LambdaCombinator.stopped : LambdaCombinator → Val → Val
  | .map, _ | .filter, _ => .null
  | .all, _ => .bool false
  | .any, _ => .bool true
  | .find, item => item

/-- The outcome of a walk over the items. -/
def LambdaCombinator.outcome (name : LambdaCombinator) (items : List Val) : List Val × Option (Val × Val) → Val
  | (vs,none) => name.whole items vs
  | (_,some (item,_)) => name.stopped item

theorem evalLambda_eq_walk (name : LambdaCombinator) (items : List Val) (body : Val → Eval Val) :
    evalLambda name items body = (walk name.stopsAt body items).map (name.outcome items) := by
  have hnever : ∀ {p}, walk (fun _ => false) body items = .ok p → p.2 = none := by
    rintro ⟨vs,hit⟩ h
    cases hit with
    | none => rfl
    | some hit =>
      obtain ⟨_,_,_,_,_,h⟩ := walk_stop_iff.mp h
      cases h
  cases name with
  | map =>
    change Except.map _ (items.mapM body) = _
    rw [mapM_eq_walk]
    change _ = Except.map _ (walk (fun _ => false) body items)
    cases h : walk (fun _ => false) body items with
    | error e => rfl
    | ok p =>
      obtain ⟨vs,hit⟩ := p
      cases hnever h
      rfl
  | filter =>
    change Except.map _ (items.filterM _) = _
    rw [filterM_eq_walk]
    change _ = Except.map _ (walk (fun _ => false) body items)
    cases h : walk (fun _ => false) body items with
    | error e => rfl
    | ok p =>
      obtain ⟨vs,hit⟩ := p
      cases hnever h
      rfl
  | all =>
    change Except.map _ (items.allM _) = _
    rw [allM_eq_walk]
    change _ = Except.map _ (walk (fun v => !v.truthy) body items)
    cases walk (fun v => !v.truthy) body items with
    | error e => rfl
    | ok p => obtain ⟨vs,hit⟩ := p; cases hit <;> rfl
  | any =>
    change Except.map _ (items.anyM _) = _
    rw [anyM_eq_walk]
    change _ = Except.map _ (walk Val.truthy body items)
    cases walk Val.truthy body items with
    | error e => rfl
    | ok p => obtain ⟨vs,hit⟩ := p; cases hit <;> rfl
  | find =>
    change Except.map _ (items.findM? _) = _
    rw [findM?_eq_walk]
    change _ = Except.map _ (walk Val.truthy body items)
    cases walk Val.truthy body items with
    | error e => rfl
    | ok p => obtain ⟨vs,hit⟩ := p; cases hit <;> rfl

section Semantics
variable (decoderError : String → String)

/-- The value of an expression in a context. -/
inductive Means : Context × ExprNode → Val → Prop
  | literal {context value} : Means (context,.literal value) (.ofLiteral value)
  | path {context first rest v} : resolvePath (first :: rest) context = .ok v → Means (context,.path first rest) v
  | listLit {context items vs} : List.Forall₂ Means (items.map (context,·)) vs → Means (context,.listLit items) (.list vs)
  | objectLit {context fields vs} : List.Forall₂ Means (fields.map fun f => (context,f.2)) vs →
      Means (context,.objectLit fields) (.obj (Dict.ofList ((fields.map Prod.fst).zip vs)).items)
  | unary {context op e a v} : Means (context,e) a → evalUnary op a = .ok v → Means (context,.unary op e) v
  | andFalse {context l r a} : Means (context,l) a → a.truthy = false → Means (context,.binary .and l r) a
  | andTrue {context l r a v} : Means (context,l) a → a.truthy = true → Means (context,r) v →
      Means (context,.binary .and l r) v
  | orTrue {context l r a} : Means (context,l) a → a.truthy = true → Means (context,.binary .or l r) a
  | orFalse {context l r a v} : Means (context,l) a → a.truthy = false → Means (context,r) v →
      Means (context,.binary .or l r) v
  | cmp {context op l r a b v} : Means (context,l) a → Means (context,r) b → evalComparison op a b = .ok v →
      Means (context,.binary (.cmp op) l r) v
  | arith {context op l r a b v} : Means (context,l) a → Means (context,r) b → evalArithmetic op a b = .ok v →
      Means (context,.binary (.arith op) l r) v
  | whole {context name e param body items vs} : Means (context,e) (.list items) →
      List.Forall₂ Means (items.map fun item => ((param,item) :: context,body)) vs → (∀ v ∈ vs, name.stopsAt v = false) →
      Means (context,.lambda name e param body) (name.whole items vs)
  | stopped {context name e param body front item rest vs v} : Means (context,e) (.list (front ++ item :: rest)) →
      List.Forall₂ Means (front.map fun item => ((param,item) :: context,body)) vs → (∀ v ∈ vs, name.stopsAt v = false) →
      Means ((param,item) :: context,body) v → name.stopsAt v = true →
      Means (context,.lambda name e param body) (name.stopped item)
  | plain {context name e a v} : Means (context,e) a → evalPlain decoderError name a = .ok v → Means (context,.plain name e) v
  | join {context e sep items s v} : Means (context,e) (.list items) → Means (context,sep) s → joinItems items s = .ok v →
      Means (context,.join e sep) v
  | get {context e path a} : Means (context,e) a → Means (context,.get e path) (resolvePathSafe .null (splitDots path) a)
  | getOr {context e path default a d} : Means (context,e) a → Means (context,default) d →
      Means (context,.getOr e path default) (resolvePathSafe d (splitDots path) a)

/-- No float is the operand or the quotient that the operation needs. -/
inductive OutOfRange : ArithOp → Val → Val → Prop
  | left {op a y} : floatBound ≤ a.natAbs → ¬(op = .div ∧ Val.isZero y) → OutOfRange op (.int a) (.float y)
  | right {op x b} : floatBound ≤ b.natAbs → OutOfRange op (.float x) (.int b)
  | quotient {a b} : b ≠ 0 → floatBound * b.natAbs ≤ a.natAbs → OutOfRange .div (.int a) (.int b)

/-- Adding the items one after the other comes to a sum that is out of range. -/
inductive SumOutOfRange : Val → List Val → Prop
  | here {total item rest} : OutOfRange .add total item → SumOutOfRange total (item :: rest)
  | later {total total' item rest} : evalArithmetic .add total item = .ok total' → SumOutOfRange total' rest →
      SumOutOfRange total (item :: rest)

/-- The evaluation comes to an operation on a number that is too large, or to the decoding of one. -/
inductive Overflows : Context → ExprNode → Prop
  | item {context front e rest vs} : List.Forall₂ (Means decoderError) (front.map (context,·)) vs → Overflows context e →
      Overflows context (.listLit (front ++ e :: rest))
  | field {context front key e rest vs} : List.Forall₂ (Means decoderError) (front.map fun f => (context,f.2)) vs →
      Overflows context e → Overflows context (.objectLit (front ++ (key,e) :: rest))
  | operand {context op e} : Overflows context e → Overflows context (.unary op e)
  | left {context op l r} : Overflows context l → Overflows context (.binary op l r)
  | andRight {context l r a} : Means decoderError (context,l) a → a.truthy = true → Overflows context r →
      Overflows context (.binary .and l r)
  | orRight {context l r a} : Means decoderError (context,l) a → a.truthy = false → Overflows context r →
      Overflows context (.binary .or l r)
  | cmpRight {context op l r a} : Means decoderError (context,l) a → Overflows context r →
      Overflows context (.binary (.cmp op) l r)
  | arithRight {context op l r a} : Means decoderError (context,l) a → Overflows context r →
      Overflows context (.binary (.arith op) l r)
  | arith {context op l r a b} : Means decoderError (context,l) a → Means decoderError (context,r) b → OutOfRange op a b →
      Overflows context (.binary (.arith op) l r)
  | items {context name e param body} : Overflows context e → Overflows context (.lambda name e param body)
  | body {context name e param body front item rest vs} : Means decoderError (context,e) (.list (front ++ item :: rest)) →
      List.Forall₂ (Means decoderError) (front.map fun item => ((param,item) :: context,body)) vs →
      (∀ v ∈ vs, name.stopsAt v = false) → Overflows ((param,item) :: context) body →
      Overflows context (.lambda name e param body)
  | arg {context name e} : Overflows context e → Overflows context (.plain name e)
  | sum {context e items} : Means decoderError (context,e) (.list items) → SumOutOfRange (.int 0) items →
      Overflows context (.plain .sum e)
  | numeral {context e s} : Means decoderError (context,e) (.str s) → Json.decode s = .error .tooLong →
      Overflows context (.plain .parseJson e)
  | joined {context e sep} : Overflows context e → Overflows context (.join e sep)
  | separator {context e sep items} : Means decoderError (context,e) (.list items) → Overflows context sep →
      Overflows context (.join e sep)
  | getBase {context e path} : Overflows context e → Overflows context (.get e path)
  | getOrBase {context e path default} : Overflows context e → Overflows context (.getOr e path default)
  | default {context e path default a} : Means decoderError (context,e) a → Overflows context default →
      Overflows context (.getOr e path default)

/-! ## The evaluator returns the value -/

theorem requireList_ok_iff {name : String} {v : Val} {items : List Val} : requireList name v = .ok items ↔ v = .list items := by
  constructor
  · intro h
    cases v with
    | list xs =>
      cases h
      rfl
    | _ => cases h
  · rintro rfl
    rfl

theorem evalLambda_ok_iff {name : LambdaCombinator} {items : List Val} {body : Val → Eval Val} {v : Val} :
    evalLambda name items body = .ok v ↔
      (∃ vs, Passes name.stopsAt body items vs ∧ v = name.whole items vs) ∨
        ∃ front item rest vs w, items = front ++ item :: rest ∧ Passes name.stopsAt body front vs ∧ body item = .ok w ∧
          name.stopsAt w = true ∧ v = name.stopped item := by
  rw [evalLambda_eq_walk,map_eq_ok_iff]
  constructor
  · rintro ⟨⟨vs,hit⟩,h,rfl⟩
    cases hit with
    | none => exact .inl ⟨vs,walk_whole_iff.mp h,rfl⟩
    | some hit =>
      obtain ⟨front,rest,hitems,hpass,hbody,hstop⟩ := walk_stop_iff.mp h
      exact .inr ⟨front,hit.1,rest,vs,hit.2,hitems,hpass,hbody,hstop,rfl⟩
  · rintro (⟨vs,hpass,rfl⟩ | ⟨front,item,rest,vs,w,hitems,hpass,hbody,hstop,rfl⟩)
    · exact ⟨(vs,none),walk_whole_iff.mpr hpass,rfl⟩
    · exact ⟨(vs,some (item,w)),walk_stop_iff.mpr ⟨front,rest,hitems,hpass,hbody,hstop⟩,rfl⟩

/-- The items that a lambda is applied to. -/
theorem passes_body_iff {body : ExprNode}
    (hbody : ∀ context v, evaluate decoderError body context = .ok v ↔ Means decoderError (context,body) v)
    (name : LambdaCombinator) (param : String) (context : Context) (items vs : List Val) :
    Passes name.stopsAt (fun item => evaluate decoderError body ((param,item) :: context)) items vs ↔
      List.Forall₂ (Means decoderError) (items.map fun item => ((param,item) :: context,body)) vs ∧
        ∀ v ∈ vs, name.stopsAt v = false := by
  rw [Passes,List.forall₂_map_left_iff]
  simp only [hbody]

mutual
/-- The evaluator returns a value exactly when the expression has it. -/
theorem evaluate_ok_iff : ∀ e context v, evaluate decoderError e context = .ok v ↔ Means decoderError (context,e) v
  | .literal value, context, v => by
    constructor
    · intro h
      cases h
      exact .literal
    · intro h
      cases h
      rfl
  | .path first rest, context, v => by
    constructor
    · exact fun h => .path h
    · intro h
      cases h with
      | path h => exact h
  | .listLit items, context, v => by
    rw [evaluate,map_eq_ok_iff]
    constructor
    · rintro ⟨vs,h,rfl⟩
      exact .listLit ((evaluateItems_ok_iff items context vs).mp h)
    · intro h
      cases h with
      | listLit h => exact ⟨_,(evaluateItems_ok_iff items context _).mpr h,rfl⟩
  | .objectLit fields, context, v => by
    rw [evaluate,map_eq_ok_iff]
    constructor
    · rintro ⟨ps,h,rfl⟩
      obtain ⟨vs,hvs,rfl⟩ := (evaluateFields_ok_iff fields context ps).mp h
      exact .objectLit hvs
    · intro h
      cases h with
      | objectLit h => exact ⟨_,(evaluateFields_ok_iff fields context _).mpr ⟨_,h,rfl⟩,rfl⟩
  | .unary op operand, context, v => by
    rw [evaluate,bind_ok_iff]
    constructor
    · rintro ⟨a,ha,hop⟩
      exact .unary ((evaluate_ok_iff operand context a).mp ha) hop
    · intro h
      cases h with
      | unary ha hop => exact ⟨_,(evaluate_ok_iff operand context _).mpr ha,hop⟩
  | .binary .and left right, context, v => by
    rw [evaluate,bind_ok_iff]
    constructor
    · rintro ⟨a,ha,h⟩
      have hmeans := (evaluate_ok_iff left context a).mp ha
      split at h
      · rename_i htrue
        exact .andTrue hmeans htrue ((evaluate_ok_iff right context v).mp h)
      · rename_i hfalse
        cases h
        exact .andFalse hmeans (Bool.eq_false_iff.mpr hfalse)
    · intro h
      cases h with
      | andFalse ha hfalse => exact ⟨v,(evaluate_ok_iff left context v).mpr ha,by rw [hfalse]; rfl⟩
      | andTrue ha htrue hv =>
        exact ⟨_,(evaluate_ok_iff left context _).mpr ha,by rw [if_pos htrue]; exact (evaluate_ok_iff right context v).mpr hv⟩
  | .binary .or left right, context, v => by
    rw [evaluate,bind_ok_iff]
    constructor
    · rintro ⟨a,ha,h⟩
      have hmeans := (evaluate_ok_iff left context a).mp ha
      split at h
      · rename_i htrue
        cases h
        exact .orTrue hmeans htrue
      · rename_i hfalse
        exact .orFalse hmeans (Bool.eq_false_iff.mpr hfalse) ((evaluate_ok_iff right context v).mp h)
    · intro h
      cases h with
      | orTrue ha htrue => exact ⟨v,(evaluate_ok_iff left context v).mpr ha,by rw [if_pos htrue]⟩
      | orFalse ha hfalse hv =>
        refine ⟨_,(evaluate_ok_iff left context _).mpr ha,?_⟩
        rw [hfalse]
        exact (evaluate_ok_iff right context v).mpr hv
  | .binary (.cmp op) left right, context, v => by
    simp only [evaluate,bind_ok_iff]
    constructor
    · rintro ⟨a,ha,b,hb,h⟩
      exact .cmp ((evaluate_ok_iff left context a).mp ha) ((evaluate_ok_iff right context b).mp hb) h
    · intro h
      cases h with
      | cmp ha hb h => exact ⟨_,(evaluate_ok_iff left context _).mpr ha,_,(evaluate_ok_iff right context _).mpr hb,h⟩
  | .binary (.arith op) left right, context, v => by
    simp only [evaluate,bind_ok_iff]
    constructor
    · rintro ⟨a,ha,b,hb,h⟩
      exact .arith ((evaluate_ok_iff left context a).mp ha) ((evaluate_ok_iff right context b).mp hb) h
    · intro h
      cases h with
      | arith ha hb h => exact ⟨_,(evaluate_ok_iff left context _).mpr ha,_,(evaluate_ok_iff right context _).mpr hb,h⟩
  | .lambda name e param body, context, v => by
    have hbody := passes_body_iff decoderError (evaluate_ok_iff body) name param context
    simp only [evaluate,bind_ok_iff,requireList_ok_iff,evalLambda_ok_iff,hbody]
    constructor
    · rintro ⟨_,ha,items,rfl,⟨vs,⟨hvs,hgo⟩,rfl⟩ | ⟨front,item,rest,vs,w,rfl,⟨hvs,hgo⟩,hw,hstop,rfl⟩⟩
      · exact .whole ((evaluate_ok_iff e context _).mp ha) hvs hgo
      · exact .stopped ((evaluate_ok_iff e context _).mp ha) hvs hgo ((evaluate_ok_iff body _ w).mp hw) hstop
    · intro h
      cases h with
      | whole he hvs hgo => exact ⟨_,(evaluate_ok_iff e context _).mpr he,_,rfl,.inl ⟨_,⟨hvs,hgo⟩,rfl⟩⟩
      | stopped he hvs hgo hw hstop =>
        exact ⟨_,(evaluate_ok_iff e context _).mpr he,_,rfl,
          .inr ⟨_,_,_,_,_,rfl,⟨hvs,hgo⟩,(evaluate_ok_iff body _ _).mpr hw,hstop,rfl⟩⟩
  | .plain name arg, context, v => by
    rw [evaluate,bind_ok_iff]
    constructor
    · rintro ⟨a,ha,h⟩
      exact .plain ((evaluate_ok_iff arg context a).mp ha) h
    · intro h
      cases h with
      | plain ha h => exact ⟨_,(evaluate_ok_iff arg context _).mpr ha,h⟩
  | .join e sep, context, v => by
    simp only [evaluate,bind_ok_iff,requireList_ok_iff]
    constructor
    · rintro ⟨_,ha,items,rfl,s,hs,h⟩
      exact .join ((evaluate_ok_iff e context _).mp ha) ((evaluate_ok_iff sep context s).mp hs) h
    · intro h
      cases h with
      | join he hs h => exact ⟨_,(evaluate_ok_iff e context _).mpr he,_,rfl,_,(evaluate_ok_iff sep context _).mpr hs,h⟩
  | .get base path, context, v => by
    rw [evaluate,map_eq_ok_iff]
    constructor
    · rintro ⟨a,ha,rfl⟩
      exact .get ((evaluate_ok_iff base context a).mp ha)
    · intro h
      cases h with
      | get ha => exact ⟨_,(evaluate_ok_iff base context _).mpr ha,rfl⟩
  | .getOr base path default, context, v => by
    simp only [evaluate,bind_ok_iff,map_eq_ok_iff]
    constructor
    · rintro ⟨a,ha,d,hd,rfl⟩
      exact .getOr ((evaluate_ok_iff base context a).mp ha) ((evaluate_ok_iff default context d).mp hd)
    · intro h
      cases h with
      | getOr ha hd => exact ⟨_,(evaluate_ok_iff base context _).mpr ha,_,(evaluate_ok_iff default context _).mpr hd,rfl⟩
theorem evaluateItems_ok_iff : ∀ items context vs, evaluateItems decoderError items context = .ok vs ↔
    List.Forall₂ (Means decoderError) (items.map (context,·)) vs
  | [], context, vs => by
    constructor
    · intro h
      cases h
      exact .nil
    · intro h
      cases h
      rfl
  | item :: rest, context, vs => by
    rw [evaluateItems,bind_ok_iff,List.map_cons,List.forall₂_cons_left_iff]
    simp only [map_eq_ok_iff,evaluate_ok_iff item context,evaluateItems_ok_iff rest context]
    tauto
theorem evaluateFields_ok_iff : ∀ fields context ps, evaluateFields decoderError fields context = .ok ps ↔
    ∃ vs, List.Forall₂ (Means decoderError) (fields.map fun f => (context,f.2)) vs ∧ ps = (fields.map Prod.fst).zip vs
  | [], context, ps => by
    constructor
    · intro h
      cases h
      exact ⟨[],.nil,rfl⟩
    · rintro ⟨vs,-,rfl⟩
      rfl
  | (key,value) :: rest, context, ps => by
    simp only [evaluateFields,bind_ok_iff,map_eq_ok_iff,evaluate_ok_iff value context,evaluateFields_ok_iff rest context,
      List.map_cons]
    constructor
    · rintro ⟨v,hv,_,⟨vs,hvs,rfl⟩,rfl⟩
      exact ⟨v :: vs,.cons hv hvs,rfl⟩
    · rintro ⟨_,h,rfl⟩
      cases h with
      | cons hv hvs => exact ⟨_,hv,_,⟨_,hvs,rfl⟩,rfl⟩
end

/-! ## What else the evaluator raises -/

/-- Any exception but the evaluator's own error. -/
def Escapes (f : Failure) : Prop := ∀ message, f ≠ .evalError message

theorem not_escapes_fail {A : Type} {message : Message} : ¬FailsWith Escapes (fail message : Eval A) :=
  fun h => failsWith_error.mp h message rfl

theorem escapes_toFloat_iff {i : ℤ} : FailsWith Escapes (toFloat i) ↔ floatBound ≤ i.natAbs := by
  rw [toFloat]
  split
  · rename_i h
    exact iff_of_false not_failsWith_ok (Nat.not_le.mpr h)
  · rename_i h
    exact iff_of_true (failsWith_error.mpr nofun) (Nat.not_lt.mp h)

theorem escapes_trueDivide_iff {a b : ℤ} : FailsWith Escapes (trueDivide a b) ↔ floatBound * b.natAbs ≤ a.natAbs := by
  rw [trueDivide]
  split
  · rename_i h
    exact iff_of_true (failsWith_error.mpr nofun) h
  · rename_i h
    exact iff_of_false not_failsWith_ok h

theorem not_escapes_evalFloats {op : ArithOp} {x y : Float} : ¬FailsWith Escapes (evalFloats op x y) := by
  cases op with
  | div =>
    rw [evalFloats]
    split
    · exact not_escapes_fail
    · exact not_failsWith_ok
  | _ => exact not_failsWith_ok

theorem escapes_evalInts_iff {op : ArithOp} {a b : ℤ} : FailsWith Escapes (evalInts op a b) ↔ OutOfRange op (.int a) (.int b) := by
  cases op with
  | div =>
    rw [evalInts]
    split
    · rename_i hzero
      refine iff_of_false not_escapes_fail ?_
      rintro (_ | _ | ⟨hne,-⟩)
      exact hne hzero
    · rename_i hne
      rw [failsWith_map,escapes_trueDivide_iff]
      constructor
      · exact .quotient hne
      · rintro (_ | _ | ⟨-,h⟩)
        exact h
  | _ => exact iff_of_false not_failsWith_ok nofun

/-- An operation on a float and an integer that is converted. -/
theorem escapes_convert_iff {zero : Prop} [Decidable zero] {i : ℤ} {f : Float → Eval Val} (hf : ∀ x, ¬FailsWith Escapes (f x)) :
    FailsWith Escapes (if zero then divisionByZero else (toFloat i).bind f) ↔ floatBound ≤ i.natAbs ∧ ¬zero := by
  split
  · rename_i h
    exact iff_of_false not_escapes_fail fun hi => hi.2 h
  · rename_i h
    rw [failsWith_bind,escapes_toFloat_iff]
    exact ⟨fun hi => ⟨hi.resolve_right fun ⟨x,_,hx⟩ => hf x hx,h⟩,fun hi => .inl hi.1⟩

theorem pow_le_floatBound : 2 ^ 970 ≤ floatBound := by
  refine Nat.le_sub_of_add_le ?_
  rw [← Nat.mul_two,← Nat.pow_succ]
  exact Nat.pow_le_pow_right (by omega) (by omega)

theorem floatBound_pos : 0 < floatBound := Nat.lt_of_lt_of_le (Nat.pow_pos (by omega)) pow_le_floatBound

theorem escapes_evalArithmetic_iff {op : ArithOp} {a b : Val} :
    FailsWith Escapes (evalArithmetic op a b) ↔ OutOfRange op a b := by
  cases a with
  | int a =>
    cases b with
    | int b => exact escapes_evalInts_iff
    | float y =>
      refine (escapes_convert_iff fun x => not_escapes_evalFloats).trans ?_
      constructor
      · exact fun h => .left h.1 h.2
      · intro h
        cases h with
        | left h hzero => exact ⟨h,hzero⟩
    | _ => exact iff_of_false not_escapes_fail nofun
  | float x =>
    cases b with
    | int b =>
      refine (escapes_convert_iff fun y => not_escapes_evalFloats).trans ?_
      constructor
      · exact fun h => .right h.1
      · intro h
        cases h with
        | right h =>
          refine ⟨h,?_⟩
          rintro ⟨-,rfl⟩
          exact absurd h (Nat.not_le.mpr floatBound_pos)
    | float y => exact iff_of_false not_escapes_evalFloats nofun
    | _ => exact iff_of_false not_escapes_fail nofun
  | str s =>
    cases b with
    | str t =>
      refine iff_of_false ?_ nofun
      rw [evalArithmetic]
      split
      · exact not_failsWith_ok
      · exact not_escapes_fail
    | _ => exact iff_of_false not_escapes_fail nofun
  | list xs =>
    cases b with
    | list ys =>
      refine iff_of_false ?_ nofun
      rw [evalArithmetic]
      split
      · exact not_failsWith_ok
      · exact not_escapes_fail
    | _ => exact iff_of_false not_escapes_fail nofun
  | _ => exact iff_of_false not_escapes_fail nofun

/-- A value that `sum` adds. -/
def Val.Number (v : Val) : Prop := (∃ i, v = .int i) ∨ ∃ x, v = .float x

theorem add_int_float (a : ℤ) (y : Float) :
    evalArithmetic .add (.int a) (.float y) = (toFloat a).bind fun x => evalFloats .add x y := by
  have hdiv : ¬(ArithOp.add = .div ∧ Val.isZero y = true) := fun h => nomatch h.1
  rw [evalArithmetic,if_neg hdiv]

theorem add_float_int (x : Float) (b : ℤ) :
    evalArithmetic .add (.float x) (.int b) = (toFloat b).bind fun y => evalFloats .add x y := by
  have hdiv : ¬(ArithOp.add = .div ∧ b = 0) := fun h => nomatch h.1
  rw [evalArithmetic,if_neg hdiv]

/-- To a number nothing but a number is added, and the sum is one. -/
theorem add_number {total item v : Val} (h : total.Number) (hv : evalArithmetic .add total item = .ok v) :
    item.Number ∧ v.Number := by
  rcases h with ⟨a,rfl⟩ | ⟨x,rfl⟩
  · cases item with
    | int b =>
      cases hv
      exact ⟨.inl ⟨b,rfl⟩,.inl ⟨a + b,rfl⟩⟩
    | float y =>
      rw [add_int_float] at hv
      obtain ⟨x,-,hx⟩ := bind_ok hv
      cases hx
      exact ⟨.inr ⟨y,rfl⟩,.inr ⟨_,rfl⟩⟩
    | _ => cases hv
  · cases item with
    | int b =>
      rw [add_float_int] at hv
      obtain ⟨y,-,hy⟩ := bind_ok hv
      cases hy
      exact ⟨.inl ⟨b,rfl⟩,.inr ⟨_,rfl⟩⟩
    | float y =>
      cases hv
      exact ⟨.inr ⟨y,rfl⟩,.inr ⟨_,rfl⟩⟩
    | _ => cases hv

theorem sumItems_cons_number {item : Val} (h : item.Number) (total : Val) (rest : List Val) :
    sumItems total (item :: rest) = (evalArithmetic .add total item).bind fun total => sumItems total rest := by
  rcases h with ⟨i,rfl⟩ | ⟨x,rfl⟩ <;> rfl

theorem sumItems_cons_other {item : Val} (h : ¬item.Number) (total : Val) (rest : List Val) :
    ¬FailsWith Escapes (sumItems total (item :: rest)) := by
  cases item with
  | int i => exact absurd (.inl ⟨i,rfl⟩) h
  | float x => exact absurd (.inr ⟨x,rfl⟩) h
  | _ => exact not_escapes_fail

theorem escapes_sumItems_iff {items : List Val} {total : Val} (h : total.Number) :
    FailsWith Escapes (sumItems total items) ↔ SumOutOfRange total items := by
  induction items generalizing total with
  | nil => exact iff_of_false not_failsWith_ok nofun
  | cons item rest ih =>
    by_cases hitem : item.Number
    · rw [sumItems_cons_number hitem,failsWith_bind,escapes_evalArithmetic_iff]
      constructor
      · rintro (hhere | ⟨total',htotal,hrest⟩)
        · exact .here hhere
        · exact .later htotal ((ih (add_number h htotal).2).mp hrest)
      · intro hout
        cases hout with
        | here hhere => exact .inl hhere
        | later htotal hrest => exact .inr ⟨_,htotal,(ih (add_number h htotal).2).mpr hrest⟩
    · refine iff_of_false (sumItems_cons_other hitem total rest) ?_
      intro hout
      cases hout with
      | here hhere =>
        cases hhere with
        | left => exact hitem (.inr ⟨_,rfl⟩)
        | right => exact hitem (.inl ⟨_,rfl⟩)
      | later htotal _ => exact hitem (add_number h htotal).1

theorem not_escapes_evalUnary {op : UnaryOp} {v : Val} : ¬FailsWith Escapes (evalUnary op v) := by
  cases op with
  | not => exact not_failsWith_ok
  | neg => cases v <;> first | exact not_failsWith_ok | exact not_escapes_fail

theorem not_escapes_evalOrdering {op : CmpOp} {numbers : Extended → Extended → Bool} {texts : String → String → Bool} {a b : Val} :
    ¬FailsWith Escapes (evalOrdering op numbers texts a b) := by
  unfold evalOrdering
  split
  · exact not_failsWith_ok
  · split
    · exact not_failsWith_ok
    · exact not_escapes_fail

theorem not_escapes_evalComparison {op : CmpOp} {a b : Val} : ¬FailsWith Escapes (evalComparison op a b) := by
  cases op with
  | eq => exact not_failsWith_ok
  | ne => exact not_failsWith_ok
  | _ => exact not_escapes_evalOrdering

theorem not_escapes_resolveParts {parts consumed rest : List String} {v : Val} :
    ¬FailsWith Escapes (resolveParts parts consumed rest v) := by
  induction rest generalizing consumed v with
  | nil => exact not_failsWith_ok
  | cons part rest ih =>
    cases v with
    | obj fields =>
      rw [resolveParts]
      cases fields.lookup part with
      | none => exact not_escapes_fail
      | some v => exact ih
    | _ => exact not_escapes_fail

theorem not_escapes_requireList {name : String} {v : Val} : ¬FailsWith Escapes (requireList name v) := by
  cases v with
  | list items => exact not_failsWith_ok
  | _ => exact not_escapes_fail

theorem not_escapes_requireTexts {items : List Val} : ¬FailsWith Escapes (requireTexts items) := by
  induction items with
  | nil => exact not_failsWith_ok
  | cons item rest ih =>
    cases item with
    | str s =>
      rw [requireTexts,failsWith_map]
      exact ih
    | _ => exact not_escapes_fail

theorem not_escapes_joinItems {items : List Val} {sep : Val} : ¬FailsWith Escapes (joinItems items sep) := by
  cases sep with
  | str s =>
    rw [joinItems,failsWith_map]
    exact not_escapes_requireTexts
  | _ => exact not_escapes_fail

theorem escapes_parseJson_iff {v : Val} :
    FailsWith Escapes (parseJson decoderError v) ↔ ∃ s, v = .str s ∧ Json.decode s = .error .tooLong := by
  cases v with
  | str s =>
    rw [parseJson]
    cases h : Json.decode s with
    | ok j => exact iff_of_false not_failsWith_ok fun ⟨_,heq,hs⟩ => by cases heq; rw [h] at hs; cases hs
    | error e =>
      cases e with
      | malformed => exact iff_of_false not_escapes_fail fun ⟨_,heq,hs⟩ => by cases heq; rw [h] at hs; cases hs
      | tooLong => exact iff_of_true (failsWith_error.mpr nofun) ⟨s,rfl,h⟩
  | _ => exact iff_of_false not_escapes_fail fun ⟨_,heq,_⟩ => nomatch heq

theorem escapes_requireList_bind {A : Type} {name : String} {v : Val} {f : List Val → Eval A} :
    FailsWith Escapes ((requireList name v).bind f) ↔ ∃ items, v = .list items ∧ FailsWith Escapes (f items) := by
  rw [failsWith_bind,or_iff_right not_escapes_requireList]
  simp only [requireList_ok_iff]

theorem escapes_evalLambda_iff {name : LambdaCombinator} {items : List Val} {body : Val → Eval Val} :
    FailsWith Escapes (evalLambda name items body) ↔ ∃ front item rest vs, items = front ++ item :: rest ∧
      Passes name.stopsAt body front vs ∧ FailsWith Escapes (body item) := by
  rw [evalLambda_eq_walk,failsWith_map,failsWith_walk]

mutual
/-- The evaluator raises another exception exactly when a number that is too large is reached. -/
theorem escapes_evaluate_iff : ∀ e context,
    FailsWith Escapes (evaluate decoderError e context) ↔ Overflows decoderError context e
  | .literal value, context => iff_of_false not_failsWith_ok nofun
  | .path first rest, context => iff_of_false not_escapes_resolveParts nofun
  | .listLit items, context => by
    rw [evaluate,failsWith_map,escapes_evaluateItems_iff items context]
    constructor
    · rintro ⟨front,e,rest,vs,rfl,hvs,he⟩
      exact .item hvs he
    · intro h
      cases h with
      | item hvs he => exact ⟨_,_,_,_,rfl,hvs,he⟩
  | .objectLit fields, context => by
    rw [evaluate,failsWith_map,escapes_evaluateFields_iff fields context]
    constructor
    · rintro ⟨front,key,e,rest,vs,rfl,hvs,he⟩
      exact .field hvs he
    · intro h
      cases h with
      | field hvs he => exact ⟨_,_,_,_,_,rfl,hvs,he⟩
  | .unary op operand, context => by
    rw [evaluate,failsWith_bind,escapes_evaluate_iff operand context]
    constructor
    · rintro (h | ⟨_,_,h⟩)
      · exact .operand h
      · exact absurd h not_escapes_evalUnary
    · intro h
      cases h with
      | operand h => exact .inl h
  | .binary .and left right, context => by
    rw [evaluate,failsWith_bind,escapes_evaluate_iff left context]
    simp only [evaluate_ok_iff]
    constructor
    · rintro (h | ⟨a,ha,h⟩)
      · exact .left h
      · split at h
        · rename_i htrue
          exact .andRight ha htrue ((escapes_evaluate_iff right context).mp h)
        · exact absurd h not_failsWith_ok
    · intro h
      cases h with
      | left h => exact .inl h
      | andRight ha htrue h => exact .inr ⟨_,ha,by rw [if_pos htrue]; exact (escapes_evaluate_iff right context).mpr h⟩
  | .binary .or left right, context => by
    rw [evaluate,failsWith_bind,escapes_evaluate_iff left context]
    simp only [evaluate_ok_iff]
    constructor
    · rintro (h | ⟨a,ha,h⟩)
      · exact .left h
      · split at h
        · exact absurd h not_failsWith_ok
        · rename_i hfalse
          exact .orRight ha (Bool.eq_false_iff.mpr hfalse) ((escapes_evaluate_iff right context).mp h)
    · intro h
      cases h with
      | left h => exact .inl h
      | orRight ha hfalse h =>
        refine .inr ⟨_,ha,?_⟩
        rw [hfalse]
        exact (escapes_evaluate_iff right context).mpr h
  | .binary (.cmp op) left right, context => by
    simp only [evaluate,failsWith_bind,escapes_evaluate_iff left context,escapes_evaluate_iff right context,evaluate_ok_iff,
      not_escapes_evalComparison,and_false,exists_false,or_false]
    constructor
    · rintro (h | ⟨a,ha,h⟩)
      · exact .left h
      · exact .cmpRight ha h
    · intro h
      cases h with
      | left h => exact .inl h
      | cmpRight ha h => exact .inr ⟨_,ha,h⟩
  | .binary (.arith op) left right, context => by
    simp only [evaluate,failsWith_bind,escapes_evaluate_iff left context,escapes_evaluate_iff right context,evaluate_ok_iff,
      escapes_evalArithmetic_iff]
    constructor
    · rintro (h | ⟨a,ha,h | ⟨b,hb,h⟩⟩)
      · exact .left h
      · exact .arithRight ha h
      · exact .arith ha hb h
    · intro h
      cases h with
      | left h => exact .inl h
      | arithRight ha h => exact .inr ⟨_,ha,.inl h⟩
      | arith ha hb h => exact .inr ⟨_,ha,.inr ⟨_,hb,h⟩⟩
  | .lambda name e param body, context => by
    have hbody := passes_body_iff decoderError (evaluate_ok_iff decoderError body) name param context
    rw [evaluate,failsWith_bind,escapes_evaluate_iff e context]
    simp only [evaluate_ok_iff decoderError e,escapes_requireList_bind,escapes_evalLambda_iff,hbody,escapes_evaluate_iff body]
    constructor
    · rintro (h | ⟨_,he,_,rfl,front,item,rest,vs,rfl,⟨hvs,hgo⟩,h⟩)
      · exact .items h
      · exact .body he hvs hgo h
    · intro h
      cases h with
      | items h => exact .inl h
      | body he hvs hgo h => exact .inr ⟨_,he,_,rfl,_,_,_,_,rfl,⟨hvs,hgo⟩,h⟩
  | .plain name arg, context => by
    rw [evaluate,failsWith_bind,escapes_evaluate_iff arg context]
    simp only [evaluate_ok_iff]
    constructor
    · rintro (h | ⟨a,ha,h⟩)
      · exact .arg h
      · cases name with
        | count => exact absurd (failsWith_map.mp h) not_escapes_requireList
        | sum =>
          obtain ⟨items,rfl,h⟩ := escapes_requireList_bind.mp h
          exact .sum ha ((escapes_sumItems_iff (.inl ⟨0,rfl⟩)).mp h)
        | parseJson =>
          obtain ⟨s,rfl,hlong⟩ := (escapes_parseJson_iff decoderError).mp h
          exact .numeral ha hlong
    · intro h
      cases h with
      | arg h => exact .inl h
      | sum ha h =>
        refine .inr ⟨_,ha,?_⟩
        rw [evalPlain,escapes_requireList_bind]
        exact ⟨_,rfl,(escapes_sumItems_iff (.inl ⟨0,rfl⟩)).mpr h⟩
      | numeral ha h => exact .inr ⟨_,ha,(escapes_parseJson_iff decoderError).mpr ⟨_,rfl,h⟩⟩
  | .join e sep, context => by
    rw [evaluate,failsWith_bind,escapes_evaluate_iff e context]
    simp only [evaluate_ok_iff,escapes_requireList_bind]
    simp only [failsWith_bind,escapes_evaluate_iff sep context,not_escapes_joinItems,and_false,exists_false,or_false]
    constructor
    · rintro (h | ⟨_,ha,items,rfl,h⟩)
      · exact .joined h
      · exact .separator ha h
    · intro h
      cases h with
      | joined h => exact .inl h
      | separator ha h => exact .inr ⟨_,ha,_,rfl,h⟩
  | .get base path, context => by
    rw [evaluate,failsWith_map,escapes_evaluate_iff base context]
    constructor
    · exact .getBase
    · intro h
      cases h with
      | getBase h => exact h
  | .getOr base path default, context => by
    rw [evaluate,failsWith_bind,escapes_evaluate_iff base context]
    simp only [evaluate_ok_iff,failsWith_map,escapes_evaluate_iff default context]
    constructor
    · rintro (h | ⟨a,ha,h⟩)
      · exact .getOrBase h
      · exact .default ha h
    · intro h
      cases h with
      | getOrBase h => exact .inl h
      | default ha h => exact .inr ⟨_,ha,h⟩
theorem escapes_evaluateItems_iff : ∀ items context, FailsWith Escapes (evaluateItems decoderError items context) ↔
    ∃ front e rest vs, items = front ++ e :: rest ∧ List.Forall₂ (Means decoderError) (front.map (context,·)) vs ∧
      Overflows decoderError context e
  | [], context => iff_of_false not_failsWith_ok fun ⟨front,_,_,_,h,_⟩ => by cases front <;> cases h
  | item :: rest, context => by
    rw [evaluateItems,failsWith_bind,escapes_evaluate_iff item context]
    simp only [evaluate_ok_iff,failsWith_map,escapes_evaluateItems_iff rest context]
    constructor
    · rintro (h | ⟨v,hv,front,e,after,vs,rfl,hvs,h⟩)
      · exact ⟨[],item,rest,[],rfl,.nil,h⟩
      · exact ⟨item :: front,e,after,v :: vs,rfl,.cons hv hvs,h⟩
    · rintro ⟨front,e,after,vs,heq,hvs,h⟩
      cases front with
      | nil =>
        cases heq
        exact .inl h
      | cons item front =>
        cases heq
        cases hvs with
        | cons hv hvs => exact .inr ⟨_,hv,front,e,after,_,rfl,hvs,h⟩
theorem escapes_evaluateFields_iff : ∀ fields context, FailsWith Escapes (evaluateFields decoderError fields context) ↔
    ∃ front key e rest vs, fields = front ++ (key,e) :: rest ∧
      List.Forall₂ (Means decoderError) (front.map fun f => (context,f.2)) vs ∧ Overflows decoderError context e
  | [], context => iff_of_false not_failsWith_ok fun ⟨front,_,_,_,_,h,_⟩ => by cases front <;> cases h
  | (key,value) :: rest, context => by
    rw [evaluateFields,failsWith_bind,escapes_evaluate_iff value context]
    simp only [evaluate_ok_iff,failsWith_map,escapes_evaluateFields_iff rest context]
    constructor
    · rintro (h | ⟨v,hv,front,k,e,after,vs,rfl,hvs,h⟩)
      · exact ⟨[],key,value,rest,[],rfl,.nil,h⟩
      · exact ⟨(key,value) :: front,k,e,after,v :: vs,rfl,.cons hv hvs,h⟩
    · rintro ⟨front,k,e,after,vs,heq,hvs,h⟩
      cases front with
      | nil =>
        cases heq
        exact .inl h
      | cons field front =>
        cases heq
        cases hvs with
        | cons hv hvs => exact .inr ⟨_,hv,front,k,e,after,_,rfl,hvs,h⟩
end

/-- A value or the evaluator's own error. -/
def Settled (r : Eval Val) : Prop := (∃ v, r = .ok v) ∨ ∃ message, r = .error (.evalError message)

theorem settled_iff {r : Eval Val} : Settled r ↔ ¬FailsWith Escapes r := by
  cases r with
  | ok v => exact iff_of_true (.inl ⟨v,rfl⟩) not_failsWith_ok
  | error f =>
    rw [failsWith_error]
    cases f with
    | evalError message => exact iff_of_true (.inr ⟨message,rfl⟩) fun h => h message rfl
    | _ => exact iff_of_false (fun h => by rcases h with ⟨_,h⟩ | ⟨_,h⟩ <;> cases h) fun h => h nofun

/-- A quotient of integers without remainder. -/
theorem evalInts_div {a b : ℤ} (hb : b ≠ 0) (h : b ∣ a) :
    evalInts .div a b = if (a / b).natAbs < floatBound then .ok (.int (a / b)) else .error .overflowError := by
  obtain ⟨q,rfl⟩ := h
  have hpos : 0 < b.natAbs := Int.natAbs_pos.mpr hb
  have hiff : floatBound * b.natAbs ≤ (b * q).natAbs ↔ floatBound ≤ q.natAbs := by
    rw [Int.natAbs_mul,Nat.mul_comm b.natAbs,Nat.mul_le_mul_right_iff hpos]
  rw [evalInts,if_neg hb,Int.mul_ediv_cancel_left q hb,trueDivide]
  by_cases hq : q.natAbs < floatBound
  · rw [if_neg fun hle => Nat.not_le.mpr hq (hiff.mp hle),if_pos hq]
    change Except.ok (if b * q % b = 0 then _ else _) = _
    rw [if_pos (Int.mul_emod_right b q)]
  · rw [if_pos (hiff.mpr (Nat.not_lt.mp hq)),if_neg hq]
    rfl

/-- An expression that divides one value by another. -/
theorem evaluate_div {left right : ExprNode} {context : Context} {a b : ℤ} (ha : evaluate decoderError left context = .ok (.int a))
    (hb : evaluate decoderError right context = .ok (.int b)) :
    evaluate decoderError (.binary (.arith .div) left right) context = evalInts .div a b := by
  rw [evaluate,ha]
  change (evaluate decoderError right context).bind _ = _
  rw [hb]
  rfl

/-- Evaluation ends with a value or its own error unless it comes to a number that is too large, and a quotient without
remainder is exact when a float could be next to it. -/
theorem evaluate_settled_iff :
    (∀ e context, Settled (evaluate decoderError e context) ↔ ¬Overflows decoderError context e) ∧
      ∀ (left right : ExprNode) (context : Context) (a b : ℤ), Means decoderError (context,left) (.int a) →
        Means decoderError (context,right) (.int b) → b ≠ 0 → b ∣ a →
        (evaluate decoderError (.binary (.arith .div) left right) context = .ok (.int (a / b)) ↔ (a / b).natAbs < floatBound) := by
  constructor
  · intro e context
    rw [settled_iff,escapes_evaluate_iff]
  · intro left right context a b hleft hright hb hdvd
    have ha := (evaluate_ok_iff decoderError left context (.int a)).mpr hleft
    have hb' := (evaluate_ok_iff decoderError right context (.int b)).mpr hright
    rw [evaluate_div decoderError ha hb',evalInts_div hb hdvd]
    split
    · rename_i h
      exact iff_of_true rfl h
    · rename_i h
      exact iff_of_false nofun h

end Semantics

/-- `a / b` of two integer literals. -/
def quotient (a b : ℤ) : ExprNode := .binary (.arith .div) (.literal (.int a)) (.literal (.int b))

theorem quotient_exact : evaluate (fun _ => "") (quotient 6 3) [] = .ok (.int 2) := by
  have hpow : 2 ^ 1 < 2 ^ 970 := Nat.pow_lt_pow_right (by decide) (by decide)
  have h := ((evaluate_settled_iff fun _ => "").2 (.literal (.int 6)) (.literal (.int 3)) [] 6 3 .literal .literal
    (by decide) ⟨2,rfl⟩).mpr
  exact h (Nat.lt_of_lt_of_le hpow pow_le_floatBound)

theorem floatBound_le_pow : floatBound ≤ 10 ^ 400 := by
  have hexp : 1024 = 8 * 128 := rfl
  calc floatBound ≤ 2 ^ 1024 := by rw [floatBound]; exact Nat.sub_le _ _
    _ = (2 ^ 8) ^ 128 := by rw [hexp,Nat.pow_mul]
    _ ≤ (10 ^ 3) ^ 128 := Nat.pow_le_pow_left (by decide) 128
    _ = 10 ^ (3 * 128) := (Nat.pow_mul 10 3 128).symm
    _ ≤ 10 ^ 400 := Nat.pow_le_pow_right (by decide) (by decide)

/-- A quotient that is an integer raises when no float is next to it. -/
theorem quotient_overflows :
    ¬((∀ e context, Settled (evaluate (fun _ => "") e context)) ∧ ∀ (left right : ExprNode) (context : Context) (a b : ℤ),
      evaluate (fun _ => "") left context = .ok (.int a) → evaluate (fun _ => "") right context = .ok (.int b) → b ≠ 0 →
      b ∣ a → evaluate (fun _ => "") (.binary (.arith .div) left right) context = .ok (.int (a / b))) := by
  rintro ⟨hsettled,-⟩
  have hdiv : evaluate (fun _ => "") (quotient (10 ^ 400) 1) [] = .error .overflowError := by
    rw [quotient,evaluate_div (fun _ => "") rfl rfl,evalInts_div (by decide) (Int.one_dvd _),Int.ediv_one,Int.natAbs_pow]
    exact if_neg (Nat.not_lt.mpr floatBound_le_pow)
  have h := hsettled (quotient (10 ^ 400) 1) []
  rw [hdiv] at h
  rcases h with ⟨_,h⟩ | ⟨_,h⟩ <;> cases h

end Reyn.Expr
