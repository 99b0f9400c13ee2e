import Reyn.Pipeline.ExprGrammar
import Reyn.Pipeline.ExprTokens

/-! # The trees that have a text

A tree is written down when its names are names, its numbers are what a numeral stands for
and its keywords stay out of the places of names. The parser gives no other tree, and it
gives each of these for some text: one in which every part stands in brackets and a blank
behind every token.
-/
namespace Reyn.Expr
open Descent

inductive Writable (n : Numerals) : ExprNode → Prop
  | number {text : List Char} {value : Literal} : IsNumeral n text → numberLiteral n text = .ok value → Writable n (.literal value)
  | constant {name : String} {value : Literal} : constantOf name = some value → Writable n (.literal value)
  | text (s : String) : Writable n (.literal (.str s))
  | path {first : String} {rest : List String} :
    IsName first → first ∉ keywords → (∀ name ∈ rest, IsName name) → Writable n (.path first rest)
  | list {items : List ExprNode} : (∀ e ∈ items, Writable n e) → Writable n (.listLit items)
  | object {fields : List (String × ExprNode)} :
    (∀ f ∈ fields, IsName f.1) → (∀ f ∈ fields, Writable n f.2) → Writable n (.objectLit fields)
  | unary {op : UnaryOp} {e : ExprNode} : Writable n e → Writable n (.unary op e)
  | binary {op : BinaryOp} {a b : ExprNode} : Writable n a → Writable n b → Writable n (.binary op a b)
  | lambda {combinator : LambdaCombinator} {items body : ExprNode} {param : String} :
    Writable n items → IsName param → param ∉ keywords → Writable n body → Writable n (.lambda combinator items param body)
  | plain {combinator : PlainCombinator} {arg : ExprNode} : Writable n arg → Writable n (.plain combinator arg)
  | join {items sep : ExprNode} : Writable n items → Writable n sep → Writable n (.join items sep)
  | get {base : ExprNode} {path : String} : Writable n base → Writable n (.get base path)
  | getOr {base default : ExprNode} {path : String} : Writable n base → Writable n default → Writable n (.getOr base path default)

/-! ## What is derived from a text's tokens is writable -/

section Written
variable {n : Numerals} {k : ℕ} {e : ExprNode} {ts : List Token}

/-- Of the lists of less than `k` tokens of their forms. -/
def Written (n : Numerals) (k : ℕ) (level : Level) : Prop :=
  ∀ e ts, ts.length < k → (∀ t ∈ ts, Spelled n t.symbol) → Derives n level e ts → Writable n e

theorem name_spelled {t : Token} {name : String} (ht : nameOf t = some name) (h : Spelled n t.symbol) : IsName name := by
  rw [ident_of_nameOf ht] at h
  exact h

theorem field_written (h : Written n k .or) {f : String × ExprNode} (hlen : ts.length < k) (hts : ∀ t ∈ ts, Spelled n t.symbol)
    (hf : Field (Derives n .or) f ts) : IsName f.1 ∧ Writable n f.2 := by
  cases hf with
  | @mk t c key value us ht _ hD =>
    rw [List.length_cons,List.length_cons] at hlen
    refine ⟨name_spelled ht (hts _ List.mem_cons_self),h _ us (by omega) ?_ hD⟩
    intro u hu
    exact hts u (List.mem_cons_of_mem _ (List.mem_cons_of_mem _ hu))

/-- A path begins with the name of its first token. -/
theorem path_first {parts : List String} (hs : SepBy isDot (IsToken nameOf) parts ts) :
    ∃ t us name rest, ts = t :: us ∧ parts = name :: rest ∧ nameOf t = some name := by
  induction hs with
  | one hD =>
    obtain ⟨t,ht,rfl⟩ := hD
    exact ⟨t,[],_,[],rfl,rfl,ht⟩
  | more _ _ _ ih =>
    obtain ⟨t,us,name,rest,rfl,rfl,ht⟩ := ih
    exact ⟨t,_,name,_,rfl,rfl,ht⟩

theorem path_written {parts : List String} {t : Token} {name : String} (ht : nameOf t = some name) (hkey : name ∉ keywords)
    (hts : ∀ u ∈ t :: ts, Spelled n u.symbol) (hs : SepBy isDot (IsToken nameOf) parts (t :: ts)) : Writable n (pathOf parts) := by
  have hnames : ∀ part ∈ parts, IsName part := by
    refine hs.holds (Q := IsName) ?_
    rintro part us hus ⟨u,hu,rfl⟩
    exact name_spelled hu (hts u (hus.subset List.mem_cons_self))
  obtain ⟨t',us,first,rest,hts',rfl,hfirst⟩ := path_first hs
  obtain ⟨rfl,rfl⟩ := List.cons.inj hts'
  obtain rfl : first = name := by
    rw [ht] at hfirst
    exact (Option.some.inj hfirst).symm
  exact .path (hnames first List.mem_cons_self) hkey fun part hpart => hnames part (List.mem_cons_of_mem _ hpart)

theorem primary_written (h : Written n k .or) : Written n (k + 1) .primary := by
  intro e ts hlen hts hD
  -- the parts in brackets are shorter than the whole
  have hpart : ∀ {e us}, (∀ t ∈ us, t ∈ ts) → us.length + 2 ≤ ts.length → Derives n .or e us → Writable n e := by
    intro e us hus hshort hD
    refine h e us (by omega) ?_ hD
    intro t ht
    exact hts t (hus t ht)
  cases hD with
  | @number t text value ht hvalue =>
    have hspelled := hts _ List.mem_cons_self
    rw [ht] at hspelled
    exact .number hspelled hvalue
  | string => exact .text _
  | constant _ hvalue => exact .constant hvalue
  | paren _ hD _ => exact hpart (by simp +contextual) (by simp) hD
  | emptyList => exact .list (List.forall_mem_nil _)
  | @list o c items us _ hitems _ =>
    refine .list (hitems.holds (Q := Writable n) ?_)
    intro e vs hvs hD
    have hle := hvs.length_le
    exact hpart (fun t ht => by simp [hvs.subset ht]) (by simp; omega) hD
  | emptyObject => exact .object (List.forall_mem_nil _) (List.forall_mem_nil _)
  | @object o c fields us _ hfields _ =>
    have hfield : ∀ f ∈ fields, IsName f.1 ∧ Writable n f.2 := by
      refine hfields.holds (Q := fun f => IsName f.1 ∧ Writable n f.2) ?_
      intro f vs hvs hf
      have hle := hvs.length_le
      simp only [List.cons_append,List.length_cons,List.length_append,List.length_nil] at hlen
      refine field_written h (by omega) ?_ hf
      intro t ht
      exact hts t (by simp [hvs.subset ht])
    exact .object (fun f hf => (hfield f hf).1) fun f hf => (hfield f hf).2
  | lambda _ _ _ hitems _ hp hkey _ hbody _ =>
    exact .lambda (hpart (by simp +contextual) (by simp) hitems) (name_spelled hp (hts _ (by simp))) hkey
      (hpart (by simp +contextual) (by simp; omega) hbody)
  | plain _ _ _ harg _ => exact .plain (hpart (by simp +contextual) (by simp) harg)
  | join _ _ _ hitems _ hsep _ => exact .join (hpart (by simp +contextual) (by simp) hitems) (hpart (by simp +contextual) (by simp; omega) hsep)
  | get _ _ _ hbase _ _ _ => exact .get (hpart (by simp +contextual) (by simp) hbase)
  | getOr _ _ _ hbase _ _ _ hdefault _ =>
    exact .getOr (hpart (by simp +contextual) (by simp) hbase) (hpart (by simp +contextual) (by simp; omega) hdefault)
  | path ht hkey hparts => exact path_written ht hkey hts hparts

theorem unary_written (h : Written n k .or) : Written n (k + 1) .unary := by
  intro e ts
  induction ts generalizing e with
  | nil =>
    intro hlen hts hD
    cases hD with
    | unaryPlain hD => exact primary_written h e [] hlen hts hD
  | cons t ts ih =>
    intro hlen hts hD
    cases hD with
    | negate _ hD =>
      rw [List.length_cons] at hlen
      exact .unary (ih _ (by omega) (fun u hu => hts u (List.mem_cons_of_mem _ hu)) hD)
    | unaryPlain hD => exact primary_written h e _ hlen hts hD

/-- A repetition of writable items is writable. -/
theorem Written.chain {level : Level} (h : Written n k level) {op : Token → Option BinaryOp} (hlen : ts.length < k)
    (hts : ∀ t ∈ ts, Spelled n t.symbol) (hc : Descent.Chain op .binary (Derives n level) e ts) : Writable n e := by
  refine hc.holds ?_ fun _ _ _ => .binary
  intro b us hus hD
  exact h b us (Nat.lt_of_le_of_lt hus.length_le hlen) (fun t ht => hts t (hus.subset ht)) hD

theorem additive_written (h : Written n k .or) : Written n (k + 1) .additive := by
  have hmul : Written n (k + 1) .multiplicative := by
    intro e ts hlen hts hD
    cases hD with
    | multiplicative hD => exact (unary_written h).chain hlen hts hD
  intro e ts hlen hts hD
  cases hD with
  | additive hD => exact hmul.chain hlen hts hD

theorem comparison_written (h : Written n k .or) : Written n (k + 1) .comparison := by
  intro e ts hlen hts hD
  cases hD with
  | compare ha _ hb =>
    rw [List.length_append,List.length_cons] at hlen
    apply Writable.binary
    · exact additive_written h _ _ (by omega) (fun t ht => hts t (by simp [ht])) ha
    · exact additive_written h _ _ (by omega) (fun t ht => hts t (by simp [ht])) hb
  | comparePlain hD => exact additive_written h e ts hlen hts hD

theorem not_written (h : Written n k .or) : Written n (k + 1) .not := by
  intro e ts
  induction ts generalizing e with
  | nil =>
    intro hlen hts hD
    cases hD with
    | notPlain hD => exact comparison_written h e [] hlen hts hD
  | cons t ts ih =>
    intro hlen hts hD
    cases hD with
    | notOf _ hD =>
      rw [List.length_cons] at hlen
      exact .unary (ih _ (by omega) (fun u hu => hts u (List.mem_cons_of_mem _ hu)) hD)
    | notPlain hD => exact comparison_written h e _ hlen hts hD

theorem or_written (n : Numerals) (k : ℕ) : Written n k .or := by
  induction k with
  | zero =>
    intro e ts hlen
    omega
  | succ k ih =>
    have hand : Written n (k + 1) .and := by
      intro e ts hlen hts hD
      cases hD with
      | and hD => exact (not_written ih).chain hlen hts hD
    intro e ts hlen hts hD
    cases hD with
    | or hD => exact hand.chain hlen hts hD

end Written

/-! ## A writable tree has a text -/

/-- There are symbols of their forms that stand in the relation wherever they are in a text. -/
def Shown {A : Type} (n : Numerals) (D : A → List Token → Prop) (a : A) : Prop :=
  ∃ symbols, (∀ s ∈ symbols, Spelled n s) ∧ ∀ ts, ts.map Token.symbol = symbols → D a ts

section Parts
variable {A B : Type}

/-- A part behind a token. -/
inductive Behind (first : Symbol) (D : A → List Token → Prop) : A → List Token → Prop
  | mk {a : A} {o : Token} {us : List Token} : o.symbol = first → D a us → Behind first D a (o :: us)

/-- A part between two tokens. -/
inductive Around (first : Symbol) (D : A → List Token → Prop) (last : Symbol) : A → List Token → Prop
  | mk {a : A} {o c : Token} {us : List Token} : o.symbol = first → D a us → c.symbol = last → Around first D last a (o :: us ++ [c])

/-- Two parts with a token between them. -/
inductive Beside (D : A → List Token → Prop) (middle : Symbol) (D' : B → List Token → Prop) : A × B → List Token → Prop
  | mk {a : A} {b : B} {t : Token} {us vs : List Token} : D a us → t.symbol = middle → D' b vs → Beside D middle D' (a,b) (us ++ t :: vs)

end Parts

section Shown
variable {A B : Type} {n : Numerals} {D : A → List Token → Prop} {D' : B → List Token → Prop} {a : A} {b : B}

theorem Shown.mono (h : Shown n D a) (hD : ∀ ts, D a ts → D' b ts) : Shown n D' b := by
  obtain ⟨symbols,hs,hsymbols⟩ := h
  exact ⟨symbols,hs,fun ts hts => hD ts (hsymbols ts hts)⟩

theorem shown_token (s : Symbol) (hs : Spelled n s) (h : ∀ t : Token, t.symbol = s → D a [t]) : Shown n D a := by
  refine ⟨[s],?_,?_⟩
  · intro s' hs'
    obtain rfl := List.mem_singleton.mp hs'
    exact hs
  · intro ts hts
    obtain ⟨t,us,rfl,ht,hus⟩ := List.map_eq_cons_iff.mp hts
    obtain rfl := List.map_eq_nil_iff.mp hus
    exact h t ht

theorem Shown.behind (h : Shown n D a) (first : Symbol) (hfirst : Spelled n first) : Shown n (Behind first D) a := by
  obtain ⟨symbols,hs,hD⟩ := h
  refine ⟨first :: symbols,?_,?_⟩
  · intro s hs'
    rcases List.mem_cons.mp hs' with rfl | hs'
    · exact hfirst
    · exact hs s hs'
  · intro ts hts
    obtain ⟨o,us,rfl,ho,hus⟩ := List.map_eq_cons_iff.mp hts
    exact .mk ho (hD us hus)

theorem Shown.beside (ha : Shown n D a) (middle : Symbol) (hmiddle : Spelled n middle) (hb : Shown n D' b) :
    Shown n (Beside D middle D') (a,b) := by
  obtain ⟨front,hf,hD⟩ := ha
  obtain ⟨back,hk,hD'⟩ := hb
  refine ⟨front ++ middle :: back,?_,?_⟩
  · intro s hs
    rcases List.mem_append.mp hs with hs | hs
    · exact hf s hs
    · rcases List.mem_cons.mp hs with rfl | hs
      · exact hmiddle
      · exact hk s hs
  · intro ts hts
    obtain ⟨us,vs,rfl,hus,hvs⟩ := List.map_eq_append_iff.mp hts
    obtain ⟨t,ws,rfl,ht,hws⟩ := List.map_eq_cons_iff.mp hvs
    exact .mk (hD us hus) ht (hD' ws hws)

theorem around_shows {symbols : List Symbol} {first last : Symbol} (hfirst : Spelled n first) (hlast : Spelled n last)
    (hs : ∀ s ∈ symbols, Spelled n s) (hD : ∀ ts, ts.map Token.symbol = symbols → D a ts) :
    (∀ s ∈ first :: symbols ++ [last], Spelled n s) ∧
      ∀ ts, ts.map Token.symbol = first :: symbols ++ [last] → Around first D last a ts := by
  constructor
  · intro s hs'
    rcases List.mem_append.mp hs' with hs' | hs'
    · rcases List.mem_cons.mp hs' with rfl | hs'
      · exact hfirst
      · exact hs s hs'
    · obtain rfl := List.mem_singleton.mp hs'
      exact hlast
  · intro ts hts
    obtain ⟨us,vs,rfl,hus,hvs⟩ := List.map_eq_append_iff.mp hts
    obtain ⟨o,us,rfl,ho,hus⟩ := List.map_eq_cons_iff.mp hus
    obtain ⟨c,ws,rfl,hc,hws⟩ := List.map_eq_cons_iff.mp hvs
    obtain rfl := List.map_eq_nil_iff.mp hws
    exact .mk ho (hD us hus) hc

theorem Shown.around (h : Shown n D a) (first last : Symbol) (hfirst : Spelled n first) (hlast : Spelled n last) :
    Shown n (Around first D last) a := by
  obtain ⟨symbols,hs,hD⟩ := h
  exact ⟨_,around_shows hfirst hlast hs hD⟩

/-- Items that are shown are shown with separators. -/
theorem shown_sepBy {sep : Token → Bool} (symbol : Symbol) (hspelled : Spelled n symbol)
    (hsep : ∀ t : Token, t.symbol = symbol → sep t = true) {items : List A} (hne : items ≠ []) (h : ∀ a ∈ items, Shown n D a) :
    Shown n (SepBy sep D) items := by
  induction items using List.reverseRecOn with
  | nil => exact absurd rfl hne
  | append_singleton front last ih =>
    have hlast : Shown n D last := h last (List.mem_append_right _ List.mem_cons_self)
    cases front with
    | nil => exact hlast.mono fun _ => .one
    | cons a front =>
      have hfront := ih (List.cons_ne_nil _ _) fun b hb => h b (List.mem_append_left _ hb)
      refine (hfront.beside symbol hspelled hlast).mono ?_
      intro ts hts
      cases hts with
      | mk hfront ht hlast => exact .more hfront (hsep _ ht) hlast

end Shown

/-- A quoted text, with its quotes and backslashes escaped. -/
def escapeChar (c : Char) : List Char := if c = '"' ∨ c = '\\' then ['\\',c] else [c]

def quoteText (s : String) : List Char := '"' :: s.toList.flatMap escapeChar ++ ['"']

section Quote

theorem quotedBody_escapes (cs : List Char) : quotedBody '"' (cs.flatMap escapeChar ++ ['"']) = some (cs.flatMap escapeChar ++ ['"']) := by
  induction cs with
  | nil => exact quotedBody_quote
  | cons c cs ih =>
    rw [List.flatMap_cons,escapeChar]
    split
    · rename_i hc
      have hline : c ≠ '\n' := by
        rcases hc with rfl | rfl <;> decide
      simp only [List.cons_append,List.nil_append]
      rw [quotedBody_escape (by decide),if_neg hline,ih]
      rfl
    · rename_i hc
      obtain ⟨hquote,hslash⟩ := not_or.mp hc
      simp only [List.cons_append,List.nil_append]
      rw [quotedBody_other hquote hslash,ih]
      rfl

theorem unescapeBody_escapes (cs : List Char) : unescapeBody (cs.flatMap escapeChar) = cs := by
  induction cs with
  | nil => rfl
  | cons c cs ih =>
    rw [List.flatMap_cons,escapeChar]
    split
    · rename_i hc
      have hsame : escaped c = c := by
        rcases hc with rfl | rfl <;> rfl
      simp only [List.cons_append,List.nil_append]
      rw [unescapeBody.eq_def]
      simp only [if_true,hsame,ih]
    · rename_i hc
      simp only [List.cons_append,List.nil_append]
      rw [unescapeBody.eq_def]
      dsimp only
      rw [if_neg (not_or.mp hc).2,ih]

/-- Any text can be quoted. -/
theorem quoteText_read (s : String) : IsQuoted (quoteText s) ∧ unescapeString (quoteText s) = s := by
  constructor
  · exact .mk (.inr rfl) (quotedBody_escapes s.toList)
  · rw [unescapeString,quoteText,List.cons_append,List.drop_succ_cons,List.drop_zero,List.dropLast_concat,unescapeBody_escapes,
      String.ofList_toList]

end Quote

section Names

def isNameText : List Char → Bool
  | [] => false
  | c :: cs => isIdentStart c && cs.all isIdentPart

theorem isName_of_text {name : String} (h : isNameText name.toList = true) : IsName name := by
  cases hname : name.toList with
  | nil =>
    rw [hname] at h
    cases h
  | cons c cs =>
    rw [hname,isNameText,Bool.and_eq_true,List.all_eq_true] at h
    constructor <;> rw [hname]
    · exact List.cons_ne_nil _ _
    · intro d hd
      cases hd
      exact h.1
    · intro d hd
      rcases List.mem_cons.mp hd with rfl | hd
      · exact isIdentPart_of_start h.1
      · exact h.2 d hd

theorem constant_isName {name : String} {value : Literal} (h : constantOf name = some value) : IsName name := by
  apply isName_of_text
  rw [constantOf] at h
  split at h
  · rename_i hname
    rw [hname]
    decide
  split at h
  · rename_i hname
    rw [hname]
    decide
  split at h
  · rename_i hname
    rw [hname]
    decide
  · cases h

/-- Every combinator has a name of its own. -/
theorem combinator_isName (combinator : CombinatorName) : ∃ name, IsName name ∧ combinators.lookup name = some combinator := by
  have hnames : ∀ p ∈ combinators, isNameText p.1.toList = true ∧ combinators.lookup p.1 = some p.2 := by decide
  have hall : ∃ p ∈ combinators, p.2 = combinator := by
    cases combinator with
    | lambda name => cases name <;> decide
    | plain name => cases name <;> decide
    | _ => decide
  obtain ⟨p,hp,rfl⟩ := hall
  exact ⟨p.1,isName_of_text (hnames p hp).1,(hnames p hp).2⟩

end Names

section Texts
variable {n : Numerals} {e : ExprNode} {ts : List Token}

theorem additive_of_primary (h : Derives n .primary e ts) : Derives n .additive e ts :=
  .additive (.one (.multiplicative (.one (.unaryPlain h))))

theorem or_of_not (h : Derives n .not e ts) : Derives n .or e ts := .or (.one (.and (.one h)))

theorem or_of_additive (h : Derives n .additive e ts) : Derives n .or e ts := or_of_not (.notPlain (.comparePlain h))

theorem or_of_primary (h : Derives n .primary e ts) : Derives n .or e ts := or_of_additive (additive_of_primary h)

theorem shown_or (h : Shown n (Derives n .primary) e) : Shown n (Derives n .or) e := h.mono fun _ => or_of_primary

/-- What is shown at the top is shown in brackets. -/
theorem shown_paren (h : Shown n (Derives n .or) e) : Shown n (Derives n .primary) e := by
  refine (h.around .lparen .rparen trivial trivial).mono ?_
  intro ts hts
  cases hts with
  | mk ho hD hc => exact .paren ho hD hc

def binarySymbol : BinaryOp → Symbol
  | .and => .ident "and"
  | .or => .ident "or"
  | .cmp op => .cmp op
  | .arith .add => .plus
  | .arith .sub => .minus
  | .arith .mul => .star
  | .arith .div => .slash

theorem binarySymbol_spelled (op : BinaryOp) : Spelled n (binarySymbol op) := by
  cases op with
  | and => exact isName_of_text (by decide)
  | or => exact isName_of_text (by decide)
  | cmp op => trivial
  | arith op => cases op <;> trivial

theorem binary_derives {op : BinaryOp} {a b : ExprNode} {us : List Token} {t : Token} (ht : t.symbol = binarySymbol op)
    (ha : Derives n .primary a ts) (hb : Derives n .primary b us) : Derives n .or (.binary op a b) (ts ++ t :: us) := by
  cases op with
  | and =>
    have hop : isAnd t = some .and := if_pos ht
    exact .or (.one (.and (.more (.one (.notPlain (.comparePlain (additive_of_primary ha)))) hop
      (.notPlain (.comparePlain (additive_of_primary hb))))))
  | or =>
    have hop : isOr t = some .or := if_pos ht
    exact .or (.more (.one (.and (.one (.notPlain (.comparePlain (additive_of_primary ha)))))) hop
      (.and (.one (.notPlain (.comparePlain (additive_of_primary hb))))))
  | cmp op =>
    have hop : isComparison t = some op := by rw [isComparison,ht]; rfl
    exact or_of_not (.notPlain (.compare (additive_of_primary ha) hop (additive_of_primary hb)))
  | arith op =>
    have hmul : ∀ {e ts}, Derives n .primary e ts → Derives n .multiplicative e ts :=
      fun h => .multiplicative (.one (.unaryPlain h))
    apply or_of_additive
    cases op with
    | add =>
      have hop : isAdditive t = some (.arith .add) := by rw [isAdditive,ht]; rfl
      exact .additive (.more (.one (hmul ha)) hop (hmul hb))
    | sub =>
      have hop : isAdditive t = some (.arith .sub) := by rw [isAdditive,ht]; rfl
      exact .additive (.more (.one (hmul ha)) hop (hmul hb))
    | mul =>
      have hop : isMultiplicative t = some (.arith .mul) := by rw [isMultiplicative,ht]; rfl
      exact .additive (.one (.multiplicative (.more (.one (.unaryPlain ha)) hop (.unaryPlain hb))))
    | div =>
      have hop : isMultiplicative t = some (.arith .div) := by rw [isMultiplicative,ht]; rfl
      exact .additive (.one (.multiplicative (.more (.one (.unaryPlain ha)) hop (.unaryPlain hb))))

/-- A combinator's name, and what it takes in brackets. -/
theorem shown_call {A : Type} {D : A → List Token → Prop} {a : A} (combinator : CombinatorName) (h : Shown n D a)
    (hD : ∀ {t o c us name}, nameOf t = some name → combinators.lookup name = some combinator → o.symbol = .lparen → D a us →
      c.symbol = .rparen → Derives n .primary e (t :: o :: us ++ [c])) : Shown n (Derives n .primary) e := by
  obtain ⟨name,hname,hlookup⟩ := combinator_isName combinator
  refine ((h.around .lparen .rparen trivial trivial).behind (.ident name) hname).mono ?_
  intro ts hts
  cases hts with
  | mk ht hrest =>
    cases hrest with
    | mk ho hargs hc => exact hD (nameOf_ident ht) hlookup ho hargs hc

theorem shown_path {first : String} {rest : List String} (hfirst : IsName first) (hkey : first ∉ keywords)
    (hrest : ∀ name ∈ rest, IsName name) : Shown n (Derives n .primary) (.path first rest) := by
  have hparts : Shown n (SepBy isDot (IsToken nameOf)) (first :: rest) := by
    refine shown_sepBy .dot trivial (fun t ht => beq_iff_eq.mpr ht) (List.cons_ne_nil _ _) ?_
    intro name hname
    have hisName : IsName name := by
      rcases List.mem_cons.mp hname with rfl | hname
      · exact hfirst
      · exact hrest name hname
    exact shown_token (.ident name) hisName fun t ht => ⟨t,nameOf_ident ht,rfl⟩
  refine hparts.mono ?_
  intro ts hsep
  obtain ⟨t,us,name,rest',rfl,hparts,ht⟩ := path_first hsep
  obtain ⟨rfl,rfl⟩ := List.cons.inj hparts
  exact .path ht hkey hsep

theorem shown_list {items : List ExprNode} (h : ∀ e ∈ items, Shown n (Derives n .or) e) :
    Shown n (Derives n .primary) (.listLit items) := by
  cases items with
  | nil =>
    have hclose : Shown n (fun (_ : Unit) ts => ∃ c, ts = [c] ∧ c.symbol = .rbracket) () :=
      shown_token .rbracket trivial fun t ht => ⟨t,rfl,ht⟩
    refine (hclose.behind .lbracket trivial).mono ?_
    intro ts hts
    cases hts with
    | mk ho hc =>
      obtain ⟨c,rfl,hc⟩ := hc
      exact .emptyList ho hc
  | cons a items =>
    have hitems := shown_sepBy .comma trivial (fun t ht => isComma_iff.mpr ht) (List.cons_ne_nil _ _) h
    refine (hitems.around .lbracket .rbracket trivial trivial).mono ?_
    intro ts hts
    cases hts with
    | mk ho hD hc => exact .list ho hD hc

theorem shown_field {f : String × ExprNode} (hname : IsName f.1) (h : Shown n (Derives n .or) f.2) :
    Shown n (Field (Derives n .or)) f := by
  have hkey : Shown n (IsToken nameOf) f.1 := shown_token (.ident f.1) hname fun t ht => ⟨t,nameOf_ident ht,rfl⟩
  refine (hkey.beside .colon trivial h).mono ?_
  intro ts hts
  cases hts with
  | mk hk hc hD =>
    obtain ⟨t,ht,rfl⟩ := hk
    exact .mk ht hc hD

theorem shown_object {fields : List (String × ExprNode)} (h : ∀ f ∈ fields, Shown n (Field (Derives n .or)) f) :
    Shown n (Derives n .primary) (.objectLit fields) := by
  cases fields with
  | nil =>
    have hclose : Shown n (fun (_ : Unit) ts => ∃ c, ts = [c] ∧ c.symbol = .rbrace) () :=
      shown_token .rbrace trivial fun t ht => ⟨t,rfl,ht⟩
    refine (hclose.behind .lbrace trivial).mono ?_
    intro ts hts
    cases hts with
    | mk ho hc =>
      obtain ⟨c,rfl,hc⟩ := hc
      exact .emptyObject ho hc
  | cons f fields =>
    have hfields := shown_sepBy .comma trivial (fun t ht => isComma_iff.mpr ht) (List.cons_ne_nil _ _) h
    refine (hfields.around .lbrace .rbrace trivial trivial).mono ?_
    intro ts hts
    cases hts with
    | mk ho hD hc => exact .object ho hD hc

theorem shown_unary {op : UnaryOp} (h : Shown n (Derives n .primary) e) : Shown n (Derives n .primary) (.unary op e) := by
  apply shown_paren
  cases op with
  | not =>
    have hnot : IsName "not" := isName_of_text (by decide)
    refine (h.behind (.ident "not") hnot).mono ?_
    intro ts hts
    cases hts with
    | mk ho hD => exact or_of_not (.notOf ho (.notPlain (.comparePlain (additive_of_primary hD))))
  | neg =>
    refine (h.behind .minus trivial).mono ?_
    intro ts hts
    cases hts with
    | mk ho hD => exact or_of_additive (.additive (.one (.multiplicative (.one (.negate ho (.unaryPlain hD))))))

/-- Every writable tree is shown. -/
theorem writable_shown (h : Writable n e) : Shown n (Derives n .primary) e := by
  induction h with
  | @number text value hnumeral hvalue => exact shown_token (.number text) hnumeral fun t ht => .number ht hvalue
  | @constant name value hvalue =>
    exact shown_token (.ident name) (constant_isName hvalue) fun t ht => .constant (nameOf_ident ht) hvalue
  | text s =>
    obtain ⟨hquoted,hread⟩ := quoteText_read s
    apply shown_token (.string (quoteText s)) hquoted
    intro t ht
    have hD := Derives.string (n := n) ht
    rwa [hread] at hD
  | path hfirst hkey hrest => exact shown_path hfirst hkey hrest
  | list _ ih => exact shown_list fun e he => shown_or (ih e he)
  | object hnames _ ih => exact shown_object fun f hf => shown_field (hnames f hf) (shown_or (ih f hf))
  | unary _ ih => exact shown_unary ih
  | @binary op a b _ _ iha ihb =>
    apply shown_paren
    refine (iha.beside (binarySymbol op) (binarySymbol_spelled op) ihb).mono ?_
    intro ts hts
    cases hts with
    | mk ha ht hb => exact binary_derives ht ha hb
  | @lambda combinator items body param _ hparam hkey _ ihitems ihbody =>
    have hlam := ((shown_or ihbody).behind .arrow trivial).behind (.ident param) hparam
    apply shown_call (.lambda combinator) ((shown_or ihitems).beside .comma trivial hlam)
    intro t o c us name ht hname ho hargs hc
    cases hargs with
    | mk hitems hcomma hrest =>
      cases hrest with
      | mk hp hrest =>
        cases hrest with
        | mk harrow hbody => simpa using Derives.lambda ht hname ho hitems hcomma (nameOf_ident hp) hkey harrow hbody hc
  | @plain combinator arg _ ih =>
    apply shown_call (.plain combinator) (shown_or ih)
    intro t o c us name ht hname ho harg hc
    exact .plain ht hname ho harg hc
  | join _ _ ihitems ihsep =>
    apply shown_call .join ((shown_or ihitems).beside .comma trivial (shown_or ihsep))
    intro t o c us name ht hname ho hargs hc
    cases hargs with
    | mk hitems hcomma hsep => simpa using Derives.join ht hname ho hitems hcomma hsep hc
  | @get base path _ ih =>
    obtain ⟨hquoted,hread⟩ := quoteText_read path
    have hpath : Shown n (IsToken rawOf) (quoteText path) := by
      apply shown_token (.string (quoteText path)) hquoted
      intro t ht
      exact ⟨t,by rw [rawOf,ht],rfl⟩
    apply shown_call .get ((shown_or ih).beside .comma trivial hpath)
    intro t o c us name ht hname ho hargs hc
    cases hargs with
    | mk hbase hcomma hp =>
      obtain ⟨p,hp,rfl⟩ := hp
      have hD := Derives.get ht hname ho hbase hcomma (string_of_rawOf hp) hc
      rw [hread] at hD
      simpa using hD
  | @getOr base default path _ _ ih ihdefault =>
    obtain ⟨hquoted,hread⟩ := quoteText_read path
    have hpath : Shown n (IsToken rawOf) (quoteText path) := by
      apply shown_token (.string (quoteText path)) hquoted
      intro t ht
      exact ⟨t,by rw [rawOf,ht],rfl⟩
    apply shown_call .get ((shown_or ih).beside .comma trivial (hpath.beside .comma trivial (shown_or ihdefault)))
    intro t o c us name ht hname ho hargs hc
    cases hargs with
    | mk hbase hcomma hrest =>
      cases hrest with
      | mk hp hcomma' hdefault =>
        obtain ⟨p,hp,rfl⟩ := hp
        have hD := Derives.getOr ht hname ho hbase hcomma (string_of_rawOf hp) hcomma' hdefault hc
        rw [hread] at hD
        simpa using hD

end Texts

/-- The trees the parser gives are those that can be written down. -/
theorem parse_image (n : Numerals) (hn : n.Ascii) (e : ExprNode) : (∃ src, parse n src = .ok e) ↔ Writable n e := by
  constructor
  · rintro ⟨src,h⟩
    rw [parse] at h
    split at h
    · cases h
    · obtain ⟨tokens,htokens,hprogram⟩ := Fallible.bind_ok h
      have hlaid := (tokenizeLoop_laid (Nat.le_refl _)).1 tokens htokens
      exact or_written n _ e tokens (Nat.lt_succ_self _) (fun t ht => (hlaid.shown t ht).2.2.1) (parseProgram_ok.mp hprogram)
  · intro h
    obtain ⟨symbols,hs,hD⟩ := writable_shown h
    obtain ⟨hspelled,haround⟩ := @around_shows _ n (Derives n .or) e symbols .lparen .rparen trivial trivial hs fun ts hts => or_of_primary (hD ts hts)
    obtain ⟨tokens,htokens,hmap⟩ := tokenize_spaced hn hspelled
    have hprogram : parseProgram n tokens = .ok e := by
      apply parseProgram_ok.mpr
      have harounds := haround tokens hmap
      cases harounds with
      | mk ho hD hc => exact or_of_primary (.paren ho hD hc)
    refine ⟨spaced (.lparen :: symbols ++ [.rparen]),?_⟩
    have hbracket : (spaced (.lparen :: symbols ++ [.rparen])).all Py.isSpace = false := by
      rw [spaced,List.cons_append,List.flatMap_cons]
      rfl
    rw [parse,hbracket,if_neg Bool.false_ne_true,htokens]
    exact hprogram

/-- Numerals of a runtime that knows no digits but `[0-9]` and takes at most 4300 of them. -/
def asciiNumerals : Numerals where
  isDigit c := '0' ≤ c && c ≤ '9'
  int ds := if ds.length ≤ 4300 then some (ds.foldl (fun value d => 10 * value + (d.toNat - 48)) 0) else none
  float text :=
    let digits := text.filter (· != '.')
    Float.ofScientific (digits.foldl (fun value d => 10 * value + (d.toNat - 48)) 0) true (text.dropWhile (· != '.')).tail.length

theorem parse_image_twelve : ∃ src, parse asciiNumerals src = .ok (.unary .neg (.literal (.int 12))) := by
  have hascii : asciiNumerals.Ascii := by
    intro c _
    simp [asciiNumerals]
  have hnumeral : IsNumeral asciiNumerals ['1','2'] := .whole (List.cons_ne_nil _ _) (by simp [asciiNumerals])
  exact (parse_image asciiNumerals hascii _).mpr (.unary (.number hnumeral rfl))

end Reyn.Expr
