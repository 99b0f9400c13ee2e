import Reyn.Lib.Fallible
import Reyn.Pipeline.ExprParser

/-! # The grammar of expressions

The grammar of the manual as a relation between trees and lists of tokens, one level for
each of its rules. The names of the keywords are kept out of the first name of a path and
of the parameter of a lambda, which is how the grammar's terminals are meant. The parser
accepts what the grammar derives, with the tree it gives, and nothing else.
-/
namespace Reyn.Expr
open Descent

inductive Level where
  | or | and | not | comparison | additive | multiplicative | unary | primary
  deriving DecidableEq

/-- `IDENT ":" expr` -/
inductive Field (D : ExprNode → List Token → Prop) : String × ExprNode → List Token → Prop
  | mk {k c : Token} {key : String} {value : ExprNode} {ts : List Token} :
    nameOf k = some key → c.symbol = .colon → D value ts → Field D (key,value) (k :: c :: ts)

inductive Derives (n : Numerals) : Level → ExprNode → List Token → Prop
  | or {e : ExprNode} {ts : List Token} : Descent.Chain isOr .binary (Derives n .and) e ts → Derives n .or e ts
  | and {e : ExprNode} {ts : List Token} : Descent.Chain isAnd .binary (Derives n .not) e ts → Derives n .and e ts
  | notOf {t : Token} {e : ExprNode} {ts : List Token} :
    t.symbol = .ident "not" → Derives n .not e ts → Derives n .not (.unary .not e) (t :: ts)
  | notPlain {e : ExprNode} {ts : List Token} : Derives n .comparison e ts → Derives n .not e ts
  | compare {a b : ExprNode} {ts us : List Token} {t : Token} {op : CmpOp} :
    Derives n .additive a ts → isComparison t = some op → Derives n .additive b us →
      Derives n .comparison (.binary (.cmp op) a b) (ts ++ t :: us)
  | comparePlain {e : ExprNode} {ts : List Token} : Derives n .additive e ts → Derives n .comparison e ts
  | additive {e : ExprNode} {ts : List Token} :
    Descent.Chain isAdditive .binary (Derives n .multiplicative) e ts → Derives n .additive e ts
  | multiplicative {e : ExprNode} {ts : List Token} :
    Descent.Chain isMultiplicative .binary (Derives n .unary) e ts → Derives n .multiplicative e ts
  | negate {t : Token} {e : ExprNode} {ts : List Token} :
    t.symbol = .minus → Derives n .unary e ts → Derives n .unary (.unary .neg e) (t :: ts)
  | unaryPlain {e : ExprNode} {ts : List Token} : Derives n .primary e ts → Derives n .unary e ts
  | number {t : Token} {text : List Char} {value : Literal} :
    t.symbol = .number text → numberLiteral n text = .ok value → Derives n .primary (.literal value) [t]
  | string {t : Token} {raw : List Char} :
    t.symbol = .string raw → Derives n .primary (.literal (.str (unescapeString raw))) [t]
  | constant {t : Token} {name : String} {value : Literal} :
    nameOf t = some name → constantOf name = some value → Derives n .primary (.literal value) [t]
  | paren {o c : Token} {e : ExprNode} {ts : List Token} :
    o.symbol = .lparen → Derives n .or e ts → c.symbol = .rparen → Derives n .primary e (o :: ts ++ [c])
  | emptyList {o c : Token} : o.symbol = .lbracket → c.symbol = .rbracket → Derives n .primary (.listLit []) [o,c]
  | list {o c : Token} {items : List ExprNode} {ts : List Token} :
    o.symbol = .lbracket → SepBy isComma (Derives n .or) items ts → c.symbol = .rbracket →
      Derives n .primary (.listLit items) (o :: ts ++ [c])
  | emptyObject {o c : Token} : o.symbol = .lbrace → c.symbol = .rbrace → Derives n .primary (.objectLit []) [o,c]
  | object {o c : Token} {fields : List (String × ExprNode)} {ts : List Token} :
    o.symbol = .lbrace → SepBy isComma (Field (Derives n .or)) fields ts → c.symbol = .rbrace →
      Derives n .primary (.objectLit fields) (o :: ts ++ [c])
  | lambda {t o s p a c : Token} {name param : String} {combinator : LambdaCombinator} {items body : ExprNode} {ts us : List Token} :
    nameOf t = some name → combinators.lookup name = some (.lambda combinator) → o.symbol = .lparen →
      Derives n .or items ts → s.symbol = .comma → nameOf p = some param → param ∉ keywords → a.symbol = .arrow →
      Derives n .or body us → c.symbol = .rparen →
      Derives n .primary (.lambda combinator items param body) (t :: o :: ts ++ s :: p :: a :: us ++ [c])
  | plain {t o c : Token} {name : String} {combinator : PlainCombinator} {arg : ExprNode} {ts : List Token} :
    nameOf t = some name → combinators.lookup name = some (.plain combinator) → o.symbol = .lparen →
      Derives n .or arg ts → c.symbol = .rparen → Derives n .primary (.plain combinator arg) (t :: o :: ts ++ [c])
  | join {t o s c : Token} {name : String} {items sep : ExprNode} {ts us : List Token} :
    nameOf t = some name → combinators.lookup name = some .join → o.symbol = .lparen →
      Derives n .or items ts → s.symbol = .comma → Derives n .or sep us → c.symbol = .rparen →
      Derives n .primary (.join items sep) (t :: o :: ts ++ s :: us ++ [c])
  | get {t o s p c : Token} {name : String} {raw : List Char} {base : ExprNode} {ts : List Token} :
    nameOf t = some name → combinators.lookup name = some .get → o.symbol = .lparen →
      Derives n .or base ts → s.symbol = .comma → p.symbol = .string raw → c.symbol = .rparen →
      Derives n .primary (.get base (unescapeString raw)) (t :: o :: ts ++ [s,p,c])
  | getOr {t o s p s' c : Token} {name : String} {raw : List Char} {base default : ExprNode} {ts us : List Token} :
    nameOf t = some name → combinators.lookup name = some .get → o.symbol = .lparen →
      Derives n .or base ts → s.symbol = .comma → p.symbol = .string raw → s'.symbol = .comma →
      Derives n .or default us → c.symbol = .rparen →
      Derives n .primary (.getOr base (unescapeString raw) default) (t :: o :: ts ++ s :: p :: s' :: us ++ [c])
  | path {t : Token} {name : String} {parts : List String} {ts : List Token} :
    nameOf t = some name → name ∉ keywords → SepBy isDot (IsToken nameOf) parts (t :: ts) → Derives n .primary (pathOf parts) (t :: ts)

/-! ## What is read is derived -/

section Tokens
variable {what : Expected} {ts rest : List Token} {u : Unit} {t : Token}

/-- The symbols that stand for themselves. -/
def Expected.symbol : Expected → Option Symbol
  | .lparen => some .lparen
  | .rparen => some .rparen
  | .rbrace => some .rbrace
  | .rbracket => some .rbracket
  | .comma => some .comma
  | .colon => some .colon
  | .arrow => some .arrow
  | _ => none

theorem accepts_iff {symbol s : Symbol} (h : what.symbol = some symbol) : what.accepts s = true ↔ s = symbol := by
  cases what <;> cases h <;> cases s <;> simp [Expected.accepts]

theorem expect_ok {symbol : Symbol} (hw : what.symbol = some symbol) (h : expect what ts = .ok (u,rest)) :
    ∃ t, t.symbol = symbol ∧ ts = t :: rest := by
  obtain ⟨used,rfl,t,ht,rfl⟩ := token_sound _ _ ts u rest h
  refine ⟨t,?_,rfl⟩
  dsimp only at ht
  split at ht
  · rename_i hacc
    exact (accepts_iff hw).mp hacc
  · cases ht

theorem expect_read {symbol : Symbol} (hw : what.symbol = some symbol) (ht : t.symbol = symbol) (rest : List Token) :
    expect what (t :: rest) = .ok ((),rest) := by
  rw [expect,token,if_pos ((accepts_iff hw).mpr ht)]

theorem expectName_ok {name : String} (h : expectName ts = .ok (name,rest)) : ∃ t, nameOf t = some name ∧ ts = t :: rest := by
  obtain ⟨used,rfl,t,ht,rfl⟩ := token_sound _ _ ts name rest h
  exact ⟨t,ht,rfl⟩

theorem expectIdent_ok {param : String × ℕ} (h : expectIdent ts = .ok (param,rest)) :
    ∃ t, nameOf t = some param.1 ∧ ts = t :: rest := by
  obtain ⟨used,rfl,t,ht,rfl⟩ := token_sound _ _ ts param rest h
  exact ⟨t,by rw [nameOf,ht]; rfl,rfl⟩

theorem string_of_rawOf {t : Token} {raw : List Char} (h : rawOf t = some raw) : t.symbol = .string raw := by
  rw [rawOf] at h
  split at h
  · rename_i raw' hsym
    cases h
    exact hsym
  · cases h

theorem expectString_ok {raw : List Char} (h : expectString ts = .ok (raw,rest)) : ∃ t, t.symbol = .string raw ∧ ts = t :: rest := by
  obtain ⟨used,rfl,t,ht,rfl⟩ := token_sound _ _ ts raw rest h
  exact ⟨t,string_of_rawOf ht,rfl⟩

theorem nameOf_ident {name : String} (h : t.symbol = .ident name) : nameOf t = some name := by
  rw [nameOf,identOf,h]
  rfl

theorem ident_of_nameOf {name : String} (h : nameOf t = some name) : t.symbol = .ident name := by
  rw [nameOf,identOf] at h
  split at h
  · rename_i name' hsym
    cases h
    exact hsym
  · cases h

theorem isToken_starts (name : String) (ts : List Token) (h : IsToken nameOf name ts) :
    ∃ t us, ts = t :: us ∧ nameOf t = some name := by
  obtain ⟨t,ht,rfl⟩ := h
  exact ⟨t,[],rfl,ht⟩

theorem isComma_iff : isComma t = true ↔ t.symbol = .comma := beq_iff_eq

end Tokens

section Sound
variable {n : Numerals} {expr : ExprReader}

/-- Nothing up to a closing bracket, or items and the bracket. -/
theorem enclosed_ok {A : Type} {items : Reader ParseFailure Token (List A)} {D : List A → List Token → Prop} {closer : Expected}
    {symbol : Symbol} {l : List A} {ts rest : List Token} (hs : Sound items D) (hw : closer.symbol = some symbol)
    (h : enclosed closer items ts = .ok (l,rest)) :
    (l = [] ∧ ∃ c, c.symbol = symbol ∧ ts = c :: rest) ∨ ∃ used c, D l used ∧ c.symbol = symbol ∧ ts = used ++ c :: rest := by
  obtain ⟨r,hr,h⟩ := Fallible.bind_ok h
  obtain ⟨c,hc,he⟩ := Fallible.map_eq_ok h
  cases he
  obtain ⟨t,ht,hrest⟩ := expect_ok hw hc
  split at hr
  · cases hr
    exact .inl ⟨rfl,t,ht,hrest⟩
  · obtain ⟨used,hused,hD⟩ := hs ts r.1 r.2 hr
    exact .inr ⟨used,t,hD,ht,by rw [hused,hrest]⟩

theorem parseObjectField_sound (h : Sound expr (Derives n .or)) : Sound (parseObjectField expr) (Field (Derives n .or)) := by
  intro ts field rest hfield
  obtain ⟨key,hkey,hfield⟩ := Fallible.bind_ok hfield
  obtain ⟨c,hcolon,hfield⟩ := Fallible.bind_ok hfield
  obtain ⟨value,hvalue,he⟩ := Fallible.map_eq_ok hfield
  cases he
  obtain ⟨k,hk,rfl⟩ := expectName_ok hkey
  obtain ⟨t,ht,hrest⟩ := expect_ok rfl hcolon
  obtain ⟨used,hused,hD⟩ := h c.2 value.1 value.2 hvalue
  exact ⟨k :: t :: used,by rw [hrest,hused]; rfl,.mk hk ht hD⟩

theorem parseList_sound (h : Sound expr (Derives n .or)) {o : Token} (ho : o.symbol = .lbracket) {e : ExprNode} {ts rest : List Token}
    (hl : parseList expr ts = .ok (e,rest)) : ∃ used, ts = used ++ rest ∧ Derives n .primary e (o :: used) := by
  obtain ⟨r,hr,he⟩ := Fallible.map_eq_ok hl
  cases he
  rcases enclosed_ok (sepBy_sound isComma h) rfl hr with ⟨hnil,c,hc,hts⟩ | ⟨used,c,hD,hc,hts⟩
  · rw [hnil]
    exact ⟨[c],hts,.emptyList ho hc⟩
  · exact ⟨used ++ [c],by rw [hts]; simp,.list ho hD hc⟩

theorem parseObject_sound (h : Sound expr (Derives n .or)) {o : Token} (ho : o.symbol = .lbrace) {e : ExprNode} {ts rest : List Token}
    (hl : parseObject expr ts = .ok (e,rest)) : ∃ used, ts = used ++ rest ∧ Derives n .primary e (o :: used) := by
  obtain ⟨r,hr,he⟩ := Fallible.map_eq_ok hl
  cases he
  rcases enclosed_ok (sepBy_sound isComma (parseObjectField_sound h)) rfl hr with ⟨hnil,c,hc,hts⟩ | ⟨used,c,hD,hc,hts⟩
  · rw [hnil]
    exact ⟨[c],hts,.emptyObject ho hc⟩
  · exact ⟨used ++ [c],by rw [hts]; simp,.object ho hD hc⟩

/-- The arguments, between the brackets they stand in. -/
theorem parseArgs_sound (h : Sound expr (Derives n .or)) {combinator : CombinatorName} {t o c : Token} {name : String}
    (ht : nameOf t = some name) (hname : combinators.lookup name = some combinator) (ho : o.symbol = .lparen) (hc : c.symbol = .rparen)
    {e : ExprNode} {ts rest : List Token} (hargs : parseArgs expr combinator ts = .ok (e,rest)) :
    ∃ used, ts = used ++ rest ∧ Derives n .primary e (t :: o :: used ++ [c]) := by
  cases combinator with
  | lambda combinator =>
    obtain ⟨items,hitems,hargs⟩ := Fallible.bind_ok hargs
    obtain ⟨s,hs,hargs⟩ := Fallible.bind_ok hargs
    obtain ⟨lam,hlam,he⟩ := Fallible.map_eq_ok hargs
    cases he
    obtain ⟨param,hparam,hlam⟩ := Fallible.bind_ok hlam
    split at hlam
    · cases hlam
    · rename_i hkey
      obtain ⟨a,ha,hlam⟩ := Fallible.bind_ok hlam
      obtain ⟨body,hbody,he⟩ := Fallible.map_eq_ok hlam
      cases he
      obtain ⟨us,hus,hitemsD⟩ := h _ _ _ hitems
      obtain ⟨comma,hcomma,hsrest⟩ := expect_ok rfl hs
      obtain ⟨p,hp,hprest⟩ := expectIdent_ok hparam
      obtain ⟨arrow,harrow,harest⟩ := expect_ok rfl ha
      obtain ⟨vs,hvs,hbodyD⟩ := h _ _ _ hbody
      refine ⟨us ++ comma :: p :: arrow :: vs,?_,?_⟩
      · rw [hus,hsrest,hprest,harest,hvs]
        simp
      · simpa using Derives.lambda ht hname ho hitemsD hcomma hp hkey harrow hbodyD hc
  | plain combinator =>
    obtain ⟨arg,harg,he⟩ := Fallible.map_eq_ok hargs
    cases he
    obtain ⟨us,hus,hargD⟩ := h _ _ _ harg
    exact ⟨us,hus,.plain ht hname ho hargD hc⟩
  | join =>
    obtain ⟨items,hitems,hargs⟩ := Fallible.bind_ok hargs
    obtain ⟨s,hs,hargs⟩ := Fallible.bind_ok hargs
    obtain ⟨sep,hsep,he⟩ := Fallible.map_eq_ok hargs
    cases he
    obtain ⟨us,hus,hitemsD⟩ := h _ _ _ hitems
    obtain ⟨comma,hcomma,hsrest⟩ := expect_ok rfl hs
    obtain ⟨vs,hvs,hsepD⟩ := h _ _ _ hsep
    refine ⟨us ++ comma :: vs,?_,?_⟩
    · rw [hus,hsrest,hvs]
      simp
    · simpa using Derives.join ht hname ho hitemsD hcomma hsepD hc
  | get =>
    obtain ⟨base,hbase,hargs⟩ := Fallible.bind_ok hargs
    obtain ⟨s,hs,hargs⟩ := Fallible.bind_ok hargs
    obtain ⟨path,hpath,hargs⟩ := Fallible.bind_ok hargs
    obtain ⟨us,hus,hbaseD⟩ := h _ _ _ hbase
    obtain ⟨comma,hcomma,hsrest⟩ := expect_ok rfl hs
    obtain ⟨p,hp,hprest⟩ := expectString_ok hpath
    have hplain : ts = us ++ comma :: p :: path.2 := by
      rw [hus,hsrest,hprest]
    have hget : Derives n .primary (.get base.1 (unescapeString path.1)) (t :: o :: (us ++ [comma,p]) ++ [c]) := by
      simpa using Derives.get ht hname ho hbaseD hcomma hp hc
    split at hargs
    · rename_i t' rest' hrest'
      split at hargs
      · rename_i hsep
        obtain ⟨default,hdefault,he⟩ := Fallible.map_eq_ok hargs
        cases he
        obtain ⟨vs,hvs,hdefaultD⟩ := h _ _ _ hdefault
        refine ⟨us ++ comma :: p :: t' :: vs,?_,?_⟩
        · rw [hplain,hrest',hvs]
          simp
        · simpa using Derives.getOr ht hname ho hbaseD hcomma hp (isComma_iff.mp hsep) hdefaultD hc
      · cases hargs
        exact ⟨us ++ [comma,p],by rw [hplain,hrest']; simp,hget⟩
    · rename_i hrest'
      cases hargs
      exact ⟨us ++ [comma,p],by rw [hplain,hrest']; simp,hget⟩

theorem parseIdentLed_sound (h : Sound expr (Derives n .or)) {name : String} {t : Token} (ht : nameOf t = some name) {e : ExprNode}
    {ts rest : List Token} (hled : parseIdentLed expr name t ts = .ok (e,rest)) :
    ∃ used, ts = used ++ rest ∧ Derives n .primary e (t :: used) := by
  rw [parseIdentLed] at hled
  split at hled
  · rename_i value hvalue
    cases hled
    exact ⟨[],rfl,.constant ht hvalue⟩
  split at hled
  · cases hled
  rename_i hkey
  split at hled
  · split at hled
    · rename_i combinator hname
      obtain ⟨o,ho,hled⟩ := Fallible.bind_ok hled
      obtain ⟨args,hargs,hled⟩ := Fallible.bind_ok hled
      obtain ⟨c,hc,he⟩ := Fallible.map_eq_ok hled
      cases he
      obtain ⟨open_,hopen,horest⟩ := expect_ok rfl ho
      obtain ⟨close,hclose,hcrest⟩ := expect_ok rfl hc
      obtain ⟨used,hused,hD⟩ := parseArgs_sound h ht hname hopen hclose hargs
      refine ⟨open_ :: used ++ [close],?_,hD⟩
      rw [horest,hused,hcrest]
      simp
    · cases hled
  · obtain ⟨parts,hparts,he⟩ := Fallible.map_eq_ok hled
    cases he
    obtain ⟨used,hused,hD⟩ := sepBy_sound isDot (token_sound _ _) _ _ _ hparts
    obtain ⟨t',used,rfl,-⟩ := hD.starts (P := fun _ => True) fun name ts hts => (isToken_starts name ts hts).imp fun _ h => h.imp fun _ h => ⟨h.1,trivial⟩
    rw [List.cons_append] at hused
    obtain ⟨rfl,hts⟩ := List.cons.inj hused
    exact ⟨used,hts,.path ht hkey hD⟩

theorem parsePrimary_sound (h : Sound expr (Derives n .or)) : Sound (parsePrimary n expr) (Derives n .primary) := by
  intro ts e rest hread
  cases ts with
  | nil => cases hread
  | cons t ts =>
    rw [parsePrimary] at hread
    split at hread
    · rename_i text hsym
      obtain ⟨value,hvalue,he⟩ := Fallible.map_eq_ok hread
      cases he
      exact ⟨[t],rfl,.number hsym hvalue⟩
    · rename_i raw hsym
      cases hread
      exact ⟨[t],rfl,.string hsym⟩
    · rename_i hsym
      obtain ⟨r,hr,hread⟩ := Fallible.bind_ok hread
      obtain ⟨c,hc,he⟩ := Fallible.map_eq_ok hread
      cases he
      obtain ⟨close,hclose,hcrest⟩ := expect_ok rfl hc
      obtain ⟨used,hused,hD⟩ := h _ _ _ hr
      exact ⟨t :: used ++ [close],by rw [hused,hcrest]; simp,.paren hsym hD hclose⟩
    · rename_i hsym
      obtain ⟨used,hused,hD⟩ := parseList_sound h hsym hread
      exact ⟨t :: used,by rw [hused]; rfl,hD⟩
    · rename_i hsym
      obtain ⟨used,hused,hD⟩ := parseObject_sound h hsym hread
      exact ⟨t :: used,by rw [hused]; rfl,hD⟩
    · rename_i name hsym
      obtain ⟨used,hused,hD⟩ := parseIdentLed_sound h (nameOf_ident hsym) hread
      exact ⟨t :: used,by rw [hused]; rfl,hD⟩
    · cases hread

theorem parseUnary_sound (h : Sound expr (Derives n .or)) : Sound (parseUnary n expr) (Derives n .unary) := by
  intro ts
  induction ts with
  | nil =>
    intro e rest hread
    cases hread
  | cons t ts ih =>
    intro e rest hread
    rw [parseUnary] at hread
    split at hread
    · rename_i hminus
      obtain ⟨r,hr,he⟩ := Fallible.map_eq_ok hread
      cases he
      obtain ⟨used,hused,hD⟩ := ih _ _ hr
      exact ⟨t :: used,by rw [hused]; rfl,.negate hminus hD⟩
    · obtain ⟨used,hused,hD⟩ := parsePrimary_sound h _ _ _ hread
      exact ⟨used,hused,.unaryPlain hD⟩

theorem parseMultiplicative_sound (h : Sound expr (Derives n .or)) : Sound (parseMultiplicative n expr) (Derives n .multiplicative) := by
  intro ts e rest hread
  obtain ⟨used,hused,hD⟩ := chained_sound (parseUnary_sound h) ts e rest hread
  exact ⟨used,hused,.multiplicative hD⟩

theorem parseAdditive_sound (h : Sound expr (Derives n .or)) : Sound (parseAdditive n expr) (Derives n .additive) := by
  intro ts e rest hread
  obtain ⟨used,hused,hD⟩ := chained_sound (parseMultiplicative_sound h) ts e rest hread
  exact ⟨used,hused,.additive hD⟩

theorem parseComparison_sound (h : Sound expr (Derives n .or)) : Sound (parseComparison n expr) (Derives n .comparison) := by
  intro ts e rest hread
  obtain ⟨left,hleft,hread⟩ := Fallible.bind_ok hread
  obtain ⟨us,hus,hD⟩ := parseAdditive_sound h _ _ _ hleft
  split at hread
  · cases hread
    exact ⟨us,hus,.comparePlain hD⟩
  · rename_i t rest' hrest'
    split at hread
    · rename_i op hop
      obtain ⟨right,hright,he⟩ := Fallible.map_eq_ok hread
      cases he
      obtain ⟨vs,hvs,hD'⟩ := parseAdditive_sound h _ _ _ hright
      exact ⟨us ++ t :: vs,by rw [hus,hrest',hvs]; simp,.compare hD hop hD'⟩
    · cases hread
      exact ⟨us,hus,.comparePlain hD⟩

theorem parseNot_sound (h : Sound expr (Derives n .or)) : Sound (parseNot n expr) (Derives n .not) := by
  intro ts
  induction ts with
  | nil =>
    intro e rest hread
    obtain ⟨used,hused,hD⟩ := parseComparison_sound h _ _ _ hread
    exact ⟨used,hused,.notPlain hD⟩
  | cons t ts ih =>
    intro e rest hread
    rw [parseNot] at hread
    split at hread
    · rename_i hnot
      obtain ⟨r,hr,he⟩ := Fallible.map_eq_ok hread
      cases he
      obtain ⟨used,hused,hD⟩ := ih _ _ hr
      exact ⟨t :: used,by rw [hused]; rfl,.notOf hnot hD⟩
    · obtain ⟨used,hused,hD⟩ := parseComparison_sound h _ _ _ hread
      exact ⟨used,hused,.notPlain hD⟩

theorem parseOrOf_sound (h : Sound expr (Derives n .or)) : Sound (parseOrOf n expr) (Derives n .or) := by
  have hand : Sound (parseAnd n expr) (Derives n .and) := by
    intro ts e rest hread
    obtain ⟨used,hused,hD⟩ := chained_sound (parseNot_sound h) ts e rest hread
    exact ⟨used,hused,.and hD⟩
  intro ts e rest hread
  obtain ⟨used,hused,hD⟩ := chained_sound hand ts e rest hread
  exact ⟨used,hused,.or hD⟩

theorem parseOr_sound (n : Numerals) (depth : ℕ) : Sound (parseOr n depth) (Derives n .or) := by
  induction depth with
  | zero =>
    intro ts e rest hread
    cases hread
  | succ depth ih => exact parseOrOf_sound ih

end Sound

/-! ## What is derived is read -/

def continuesPrimary (t : Token) : Bool := isDot t || t.symbol == .lparen

def continuesMultiplicative (t : Token) : Bool := continuesPrimary t || (isMultiplicative t).isSome

def continuesAdditive (t : Token) : Bool := continuesMultiplicative t || (isAdditive t).isSome

def continuesComparison (t : Token) : Bool := continuesAdditive t || (isComparison t).isSome

def continuesAnd (t : Token) : Bool := continuesComparison t || (isAnd t).isSome

/-- The tokens that go on with an expression; those of the lower levels go on with a part of it. -/
def continuesOr (t : Token) : Bool := continuesAnd t || (isOr t).isSome

/-- The tokens that end an expression. -/
def Ends (t : Token) : Prop := t.symbol = .rparen ∨ t.symbol = .rbracket ∨ t.symbol = .rbrace ∨ t.symbol = .comma

theorem continues_of_ends {t : Token} (h : Ends t) : continuesOr t = false := by
  rcases h with h | h | h | h <;>
    simp [continuesOr,continuesAnd,continuesComparison,continuesAdditive,continuesMultiplicative,continuesPrimary,isDot,
      isMultiplicative,isAdditive,isComparison,isAnd,isOr,h]

section Starts
variable {n : Numerals} {e : ExprNode} {ts : List Token}

/-- A keyword among the names is no combinator. -/
theorem combinator_notKeyword {name : String} {combinator : CombinatorName} (h : combinators.lookup name = some combinator) :
    name ∉ keywords := by
  intro hkey
  have hnone : ∀ name ∈ keywords, combinators.lookup name = none := by decide
  rw [hnone name hkey] at h
  cases h

theorem constantOf_none {name : String} (h : name ∉ keywords) : constantOf name = none := by
  simp only [keywords,List.mem_cons,List.not_mem_nil,or_false,not_or] at h
  rw [constantOf,if_neg h.1,if_neg h.2.1,if_neg h.2.2.1]

theorem constantOf_not : constantOf "not" = none := by decide

theorem primary_starts (h : Derives n .primary e ts) :
    ∃ t us, ts = t :: us ∧ t.symbol ≠ .minus ∧ t.symbol ≠ .ident "not" ∧ t.symbol ≠ .rbracket := by
  have hnamed : ∀ {t : Token} {name : String}, nameOf t = some name → name ≠ "not" →
      t.symbol ≠ .minus ∧ t.symbol ≠ .ident "not" ∧ t.symbol ≠ .rbracket := by
    intro t name ht hne
    rw [ident_of_nameOf ht]
    simpa using hne
  have hword : ∀ {name : String}, name ∉ keywords → name ≠ "not" := by
    rintro name hname rfl
    exact hname (by decide)
  cases h with
  | number hsym => exact ⟨_,_,rfl,by simp [hsym]⟩
  | string hsym => exact ⟨_,_,rfl,by simp [hsym]⟩
  | constant ht hc =>
    refine ⟨_,_,rfl,hnamed ht ?_⟩
    rintro rfl
    rw [constantOf_not] at hc
    cases hc
  | paren hsym => exact ⟨_,_,rfl,by simp [hsym]⟩
  | emptyList hsym => exact ⟨_,_,rfl,by simp [hsym]⟩
  | list hsym => exact ⟨_,_,rfl,by simp [hsym]⟩
  | emptyObject hsym => exact ⟨_,_,rfl,by simp [hsym]⟩
  | object hsym => exact ⟨_,_,rfl,by simp [hsym]⟩
  | lambda ht hname => exact ⟨_,_,rfl,hnamed ht (hword (combinator_notKeyword hname))⟩
  | plain ht hname => exact ⟨_,_,rfl,hnamed ht (hword (combinator_notKeyword hname))⟩
  | join ht hname => exact ⟨_,_,rfl,hnamed ht (hword (combinator_notKeyword hname))⟩
  | get ht hname => exact ⟨_,_,rfl,hnamed ht (hword (combinator_notKeyword hname))⟩
  | getOr ht hname => exact ⟨_,_,rfl,hnamed ht (hword (combinator_notKeyword hname))⟩
  | path ht hkey => exact ⟨_,_,rfl,hnamed ht (hword hkey)⟩

theorem comparison_starts (h : Derives n .comparison e ts) :
    ∃ t us, ts = t :: us ∧ t.symbol ≠ .ident "not" ∧ t.symbol ≠ .rbracket := by
  have hunary : ∀ e ts, Derives n .unary e ts → ∃ t us, ts = t :: us ∧ t.symbol ≠ .ident "not" ∧ t.symbol ≠ .rbracket := by
    intro e ts h
    cases h with
    | negate hminus => exact ⟨_,_,rfl,by simp [hminus]⟩
    | unaryPlain h =>
      obtain ⟨t,us,hts,-,ht⟩ := primary_starts h
      exact ⟨t,us,hts,ht⟩
  have hadditive : ∀ {e ts}, Derives n .additive e ts → ∃ t us, ts = t :: us ∧ t.symbol ≠ .ident "not" ∧ t.symbol ≠ .rbracket := by
    intro e ts h
    cases h with
    | additive h =>
      apply h.starts
      intro e ts h
      cases h with
      | multiplicative h => exact h.starts hunary
  cases h with
  | compare ha =>
    obtain ⟨t,us,rfl,ht⟩ := hadditive ha
    exact ⟨t,_,rfl,ht⟩
  | comparePlain h => exact hadditive h

theorem or_starts (h : Derives n .or e ts) : ∃ t us, ts = t :: us ∧ t.symbol ≠ .rbracket := by
  cases h with
  | or h =>
    apply h.starts
    intro e ts h
    cases h with
    | and h =>
      apply h.starts
      intro e ts h
      cases h with
      | notOf hnot => exact ⟨_,_,rfl,by simp [hnot]⟩
      | notPlain h =>
        obtain ⟨t,us,hts,-,ht⟩ := comparison_starts h
        exact ⟨t,us,hts,ht⟩

end Starts

section Complete
variable {n : Numerals} {expr : ExprReader} {k : ℕ}

theorem expr_read (h : Complete k continuesOr expr (Derives n .or)) {e : ExprNode} {used rest : List Token} {t : Token}
    (hD : Derives n .or e used) (hlen : used.length < k) (ht : Ends t) : expr (used ++ t :: rest) = .ok (e,t :: rest) :=
  h e used (t :: rest) hlen hD (stops_cons.mpr (continues_of_ends ht))

theorem enclosed_nil {A : Type} {items : Reader ParseFailure Token (List A)} {closer : Expected} {symbol : Symbol} {c : Token}
    (hw : closer.symbol = some symbol) (hc : c.symbol = symbol) (rest : List Token) :
    enclosed closer items (c :: rest) = .ok ([],rest) := by
  rw [enclosed,List.head?_cons,Option.any_some,if_pos ((accepts_iff hw).mpr hc)]
  change (expect closer (c :: rest)).map _ = _
  rw [expect_read hw hc]
  rfl

theorem enclosed_items {A : Type} {items : Reader ParseFailure Token (List A)} {closer : Expected} {symbol : Symbol} {c t : Token}
    {l : List A} {us ts rest : List Token} (hw : closer.symbol = some symbol) (hts : ts = t :: us) (ht : t.symbol ≠ symbol)
    (hc : c.symbol = symbol) (hitems : items (ts ++ c :: rest) = .ok (l,c :: rest)) :
    enclosed closer items (ts ++ c :: rest) = .ok (l,rest) := by
  have hno : ¬(ts ++ c :: rest).head?.any (fun t => closer.accepts t.symbol) = true := by
    rw [hts,List.cons_append,List.head?_cons,Option.any_some]
    exact fun hacc => ht ((accepts_iff hw).mp hacc)
  rw [enclosed,if_neg hno,hitems]
  change (expect closer (c :: rest)).map _ = _
  rw [expect_read hw hc]
  rfl

theorem expectName_read {t : Token} {name : String} (h : nameOf t = some name) (rest : List Token) :
    expectName (t :: rest) = .ok (name,rest) := by
  rw [expectName,token,h]

theorem expectIdent_read {t : Token} {name : String} (h : nameOf t = some name) (rest : List Token) :
    expectIdent (t :: rest) = .ok ((name,t.pos),rest) := by
  rw [expectIdent,token,identOf,ident_of_nameOf h]

theorem expectString_read {t : Token} {raw : List Char} (h : t.symbol = .string raw) (rest : List Token) :
    expectString (t :: rest) = .ok (raw,rest) := by
  rw [expectString,token,rawOf,h]

theorem parseObjectField_complete (h : Complete k continuesOr expr (Derives n .or)) :
    Complete k continuesOr (parseObjectField expr) (Field (Derives n .or)) := by
  intro field used rest hlen hD hstop
  cases hD with
  | @mk t c key value ts hk hc hvalue =>
    rw [List.length_cons,List.length_cons] at hlen
    have hread := h value ts rest (by omega) hvalue hstop
    rw [List.cons_append,List.cons_append,parseObjectField,expectName_read hk]
    change (expect .colon (c :: (ts ++ rest))).bind _ = _
    rw [expect_read rfl hc]
    change (expr (ts ++ rest)).map _ = _
    rw [hread]
    rfl

/-- Items up to their bracket. -/
theorem items_read {A : Type} {item : Reader ParseFailure Token A} {D : A → List Token → Prop} (h : Complete k continuesOr item D)
    {l : List A} {ts rest : List Token} {c : Token} (hD : SepBy isComma D l ts) (hlen : ts.length < k)
    (hc : Ends c) (hcomma : isComma c = false) : sepBy isComma item (ts ++ c :: rest) = .ok (l,c :: rest) := by
  have hsep : ∀ t, isComma t = true → continuesOr t = false := by
    intro t ht
    exact continues_of_ends (.inr (.inr (.inr (isComma_iff.mp ht))))
  apply sepBy_complete h hsep l ts (c :: rest) hlen hD
  apply stops_cons.mpr
  rw [continues_of_ends hc,hcomma]
  rfl

theorem parseLambda_read (h : Complete k continuesOr expr (Derives n .or)) {p a c : Token} {param : String} {body : ExprNode}
    {us rest : List Token} (hp : nameOf p = some param) (hkey : param ∉ keywords) (ha : a.symbol = .arrow)
    (hbody : Derives n .or body us) (hlen : us.length < k) (hc : c.symbol = .rparen) :
    parseLambda expr (p :: a :: (us ++ c :: rest)) = .ok ((param,body),c :: rest) := by
  rw [parseLambda,expectIdent_read hp]
  change (if param ∈ keywords then _ else _) = _
  rw [if_neg hkey]
  change (expect .arrow (a :: (us ++ c :: rest))).bind _ = _
  rw [expect_read rfl ha]
  change (expr (us ++ c :: rest)).map _ = _
  rw [expr_read h hbody hlen (.inl hc)]
  rfl

/-- At the name of a combinator. -/
theorem combinator_read {t o : Token} {name : String} {combinator : CombinatorName} {e : ExprNode} {rest args : List Token} {c : Token}
    (ht : nameOf t = some name) (hname : combinators.lookup name = some combinator) (ho : o.symbol = .lparen)
    (hargs : parseArgs expr combinator args = .ok (e,c :: rest)) (hc : c.symbol = .rparen) :
    parsePrimary n expr (t :: o :: args) = .ok (e,rest) := by
  have hkey := combinator_notKeyword hname
  have hled : parseIdentLed expr name t (o :: args) = .ok (e,rest) := by
    rw [parseIdentLed,constantOf_none hkey]
    dsimp only
    rw [if_neg hkey,List.head?_cons,Option.any_some,if_pos (beq_iff_eq.mpr ho),hname]
    dsimp only
    rw [parseCombinator,expect_read rfl ho]
    change (parseArgs expr combinator args).bind _ = _
    rw [hargs]
    change (expect .rparen (c :: rest)).map _ = _
    rw [expect_read rfl hc]
    rfl
  rw [parsePrimary,ident_of_nameOf ht]
  exact hled

theorem parsePrimary_complete (h : Complete k continuesOr expr (Derives n .or)) :
    Complete (k + 1) continuesPrimary (parsePrimary n expr) (Derives n .primary) := by
  intro e used rest hlen hD hstop
  cases hD with
  | number hsym hvalue =>
    rw [List.singleton_append,parsePrimary,hsym]
    change (numberLiteral n _).map _ = _
    rw [hvalue]
    rfl
  | string hsym =>
    rw [List.singleton_append,parsePrimary,hsym]
  | @constant t name value ht hvalue =>
    rw [List.singleton_append,parsePrimary,ident_of_nameOf ht]
    change parseIdentLed expr name t rest = _
    rw [parseIdentLed,hvalue]
  | @paren o c e ts ho hD hc =>
    simp only [List.length_cons,List.length_append,List.length_nil] at hlen
    rw [List.cons_append,List.cons_append,List.append_assoc,List.singleton_append,parsePrimary,ho]
    change (expr (ts ++ c :: rest)).bind _ = _
    rw [expr_read h hD (by omega) (.inl hc)]
    change (expect .rparen (c :: rest)).map _ = _
    rw [expect_read rfl hc]
    rfl
  | @emptyList o c ho hc =>
    rw [List.cons_append,List.singleton_append,parsePrimary,ho]
    change (enclosed .rbracket _ (c :: rest)).map _ = _
    rw [enclosed_nil rfl hc]
    rfl
  | @list o c items ts ho hD hc =>
    simp only [List.length_cons,List.length_append,List.length_nil] at hlen
    obtain ⟨t,us,hts,ht⟩ := hD.starts fun _ _ => or_starts
    have hcomma : isComma c = false := by
      rw [isComma,hc]
      rfl
    have hitems : sepBy isComma expr (ts ++ c :: rest) = .ok (items,c :: rest) :=
      items_read h hD (by omega) (.inr (.inl hc)) hcomma
    rw [List.cons_append,List.cons_append,List.append_assoc,List.singleton_append,parsePrimary,ho]
    change (enclosed .rbracket _ (ts ++ c :: rest)).map _ = _
    rw [enclosed_items rfl hts ht hc hitems]
    rfl
  | @emptyObject o c ho hc =>
    rw [List.cons_append,List.singleton_append,parsePrimary,ho]
    change (enclosed .rbrace _ (c :: rest)).map _ = _
    rw [enclosed_nil rfl hc]
    rfl
  | @object o c fields ts ho hD hc =>
    simp only [List.length_cons,List.length_append,List.length_nil] at hlen
    have hfield : ∀ field ts, Field (Derives n .or) field ts → ∃ t us, ts = t :: us ∧ t.symbol ≠ .rbrace := by
      intro field ts hf
      cases hf with
      | mk hk => exact ⟨_,_,rfl,by rw [ident_of_nameOf hk]; exact Symbol.noConfusion⟩
    obtain ⟨t,us,hts,ht⟩ := hD.starts hfield
    have hcomma : isComma c = false := by
      rw [isComma,hc]
      rfl
    have hitems : sepBy isComma (parseObjectField expr) (ts ++ c :: rest) = .ok (fields,c :: rest) :=
      items_read (parseObjectField_complete h) hD (by omega) (.inr (.inr (.inl hc))) hcomma
    rw [List.cons_append,List.cons_append,List.append_assoc,List.singleton_append,parsePrimary,ho]
    change (enclosed .rbrace _ (ts ++ c :: rest)).map _ = _
    rw [enclosed_items rfl hts ht hc hitems]
    rfl
  | @lambda t o s p a c name param combinator items body ts us ht hname ho hitems hs hp hkey ha hbody hc =>
    simp only [List.length_cons,List.length_append,List.length_nil] at hlen
    have hargs : parseArgs expr (.lambda combinator) (ts ++ s :: p :: a :: (us ++ c :: rest)) =
        .ok (.lambda combinator items param body,c :: rest) := by
      rw [parseArgs,expr_read h hitems (by omega) (.inr (.inr (.inr hs)))]
      change (expect .comma (s :: p :: a :: (us ++ c :: rest))).bind _ = _
      rw [expect_read rfl hs]
      change (parseLambda expr (p :: a :: (us ++ c :: rest))).map _ = _
      rw [parseLambda_read h hp hkey ha hbody (by omega) hc]
      rfl
    simpa using combinator_read ht hname ho hargs hc
  | @plain t o c name combinator arg ts ht hname ho harg hc =>
    simp only [List.length_cons,List.length_append,List.length_nil] at hlen
    have hargs : parseArgs expr (.plain combinator) (ts ++ c :: rest) = .ok (.plain combinator arg,c :: rest) := by
      rw [parseArgs,expr_read h harg (by omega) (.inl hc)]
      rfl
    simpa using combinator_read ht hname ho hargs hc
  | @join t o s c name items sep ts us ht hname ho hitems hs hsep hc =>
    simp only [List.length_cons,List.length_append,List.length_nil] at hlen
    have hargs : parseArgs expr .join (ts ++ s :: (us ++ c :: rest)) = .ok (.join items sep,c :: rest) := by
      rw [parseArgs,expr_read h hitems (by omega) (.inr (.inr (.inr hs)))]
      change (expect .comma (s :: (us ++ c :: rest))).bind _ = _
      rw [expect_read rfl hs]
      change (expr (us ++ c :: rest)).map _ = _
      rw [expr_read h hsep (by omega) (.inl hc)]
      rfl
    simpa using combinator_read ht hname ho hargs hc
  | @get t o s p c name raw base ts ht hname ho hbase hs hp hc =>
    simp only [List.length_cons,List.length_append,List.length_nil] at hlen
    have hcomma : isComma c = false := by
      rw [isComma,hc]
      rfl
    have hargs : parseArgs expr .get (ts ++ s :: p :: c :: rest) = .ok (.get base (unescapeString raw),c :: rest) := by
      rw [parseArgs,expr_read h hbase (by omega) (.inr (.inr (.inr hs)))]
      change (expect .comma (s :: p :: c :: rest)).bind _ = _
      rw [expect_read rfl hs]
      change (expectString (p :: c :: rest)).bind _ = _
      rw [expectString_read hp]
      change (if isComma c = true then _ else _) = _
      rw [hcomma,if_neg Bool.false_ne_true]
    simpa using combinator_read ht hname ho hargs hc
  | @getOr t o s p s' c name raw base default ts us ht hname ho hbase hs hp hs' hdefault hc =>
    simp only [List.length_cons,List.length_append,List.length_nil] at hlen
    have hargs : parseArgs expr .get (ts ++ s :: p :: s' :: (us ++ c :: rest)) =
        .ok (.getOr base (unescapeString raw) default,c :: rest) := by
      rw [parseArgs,expr_read h hbase (by omega) (.inr (.inr (.inr hs)))]
      change (expect .comma (s :: p :: s' :: (us ++ c :: rest))).bind _ = _
      rw [expect_read rfl hs]
      change (expectString (p :: s' :: (us ++ c :: rest))).bind _ = _
      rw [expectString_read hp]
      change (if isComma s' = true then (expr (us ++ c :: rest)).map _ else _) = _
      rw [if_pos (isComma_iff.mpr hs'),expr_read h hdefault (by omega) (.inl hc)]
      rfl
    simpa using combinator_read ht hname ho hargs hc
  | @path t name parts ts ht hkey hD =>
    have hone : ∀ a ts, IsToken nameOf a ts → ∃ t, ts = [t] := by
      rintro a ts ⟨t',-,rfl⟩
      exact ⟨t',rfl⟩
    obtain ⟨t',us,hts,hdot⟩ := hD.second hone
    obtain ⟨rfl,rfl⟩ := List.cons.inj hts
    have hnext : ¬(ts ++ rest).head?.any (fun o => o.symbol == .lparen) = true := by
      cases ts with
      | nil =>
        cases rest with
        | nil => exact Bool.false_ne_true
        | cons o rest =>
          have hcont : continuesPrimary o = false := hstop o rfl
          rw [List.nil_append,List.head?_cons,Option.any_some,(Bool.or_eq_false_iff.mp hcont).2]
          exact Bool.false_ne_true
      | cons d ts =>
        have hd : d.symbol = .dot := beq_iff_eq.mp (hdot d rfl)
        rw [List.cons_append,List.head?_cons,Option.any_some,hd]
        decide
    have hdots : Stops (fun t => false || isDot t) rest := hstop.mono fun t ht => (Bool.or_eq_false_iff.mp ht).1
    have hparts := sepBy_complete (token_complete (fun ts => ParseFailure.expected .ident ts.head?) nameOf)
      (fun _ _ => rfl) parts (t :: ts) rest (Nat.lt_succ_self _) hD hdots
    rw [List.cons_append,parsePrimary,ident_of_nameOf ht]
    change parseIdentLed expr name t (ts ++ rest) = _
    rw [parseIdentLed,constantOf_none hkey]
    dsimp only
    rw [if_neg hkey,if_neg hnext]
    change (sepBy isDot expectName (t :: ts ++ rest)).map _ = _
    rw [expectName,hparts]
    rfl

theorem parseUnary_complete (h : Complete k continuesOr expr (Derives n .or)) :
    Complete (k + 1) continuesPrimary (parseUnary n expr) (Derives n .unary) := by
  intro e used
  induction used generalizing e with
  | nil =>
    intro rest _ hD
    cases hD with
    | unaryPlain hD =>
      obtain ⟨t,us,hnil,-⟩ := primary_starts hD
      cases hnil
  | cons t used ih =>
    intro rest hlen hD hstop
    rw [List.cons_append,parseUnary]
    cases hD with
    | negate hminus hD =>
      rw [List.length_cons] at hlen
      rw [if_pos hminus,ih _ rest (by omega) hD hstop]
      rfl
    | unaryPlain hD =>
      obtain ⟨t',us,hts,hminus,-⟩ := primary_starts hD
      obtain ⟨rfl,rfl⟩ := List.cons.inj hts
      rw [if_neg hminus]
      exact parsePrimary_complete h e _ rest hlen hD hstop

theorem parseMultiplicative_complete (h : Complete k continuesOr expr (Derives n .or)) :
    Complete (k + 1) continuesMultiplicative (parseMultiplicative n expr) (Derives n .multiplicative) := by
  have hop : ∀ t o, isMultiplicative t = some o → continuesPrimary t = false := by
    intro t o ho
    rw [isMultiplicative] at ho
    split at ho
    · rename_i hsym
      simp [continuesPrimary,isDot,hsym]
    · rename_i hsym
      simp [continuesPrimary,isDot,hsym]
    · cases ho
  intro e used rest hlen hD hstop
  cases hD with
  | multiplicative hD => exact chained_complete (parseUnary_complete h) hop e used rest hlen hD hstop

theorem parseAdditive_complete (h : Complete k continuesOr expr (Derives n .or)) :
    Complete (k + 1) continuesAdditive (parseAdditive n expr) (Derives n .additive) := by
  have hop : ∀ t o, isAdditive t = some o → continuesMultiplicative t = false := by
    intro t o ho
    rw [isAdditive] at ho
    split at ho
    · rename_i hsym
      simp [continuesMultiplicative,continuesPrimary,isDot,isMultiplicative,hsym]
    · rename_i hsym
      simp [continuesMultiplicative,continuesPrimary,isDot,isMultiplicative,hsym]
    · cases ho
  intro e used rest hlen hD hstop
  cases hD with
  | additive hD => exact chained_complete (parseMultiplicative_complete h) hop e used rest hlen hD hstop

theorem parseComparison_complete (h : Complete k continuesOr expr (Derives n .or)) :
    Complete (k + 1) continuesComparison (parseComparison n expr) (Derives n .comparison) := by
  have hop : ∀ t op, isComparison t = some op → continuesAdditive t = false := by
    intro t op ho
    rw [isComparison] at ho
    split at ho
    · rename_i hsym
      simp [continuesAdditive,continuesMultiplicative,continuesPrimary,isDot,isMultiplicative,isAdditive,hsym]
    · cases ho
  intro e used rest hlen hD hstop
  have hnext : Stops continuesAdditive rest := hstop.mono fun t ht => (Bool.or_eq_false_iff.mp ht).1
  cases hD with
  | @compare a b ts us t op hl ht hr =>
    rw [List.length_append,List.length_cons] at hlen
    have hleft := parseAdditive_complete h a ts (t :: (us ++ rest)) (by omega) hl (stops_cons.mpr (hop t op ht))
    have hright := parseAdditive_complete h b us rest (by omega) hr hnext
    rw [List.append_assoc,List.cons_append,parseComparison,hleft]
    simp only [Except.bind,ht,hright]
    rfl
  | comparePlain hD =>
    rw [parseComparison,parseAdditive_complete h e used rest hlen hD hnext]
    cases rest with
    | nil => rfl
    | cons t rest =>
      have hcont : continuesComparison t = false := hstop t rfl
      have hnone : isComparison t = none := by simpa using (Bool.or_eq_false_iff.mp hcont).2
      simp only [Except.bind,hnone]

theorem parseNot_complete (h : Complete k continuesOr expr (Derives n .or)) :
    Complete (k + 1) continuesComparison (parseNot n expr) (Derives n .not) := by
  intro e used
  induction used generalizing e with
  | nil =>
    intro rest _ hD
    cases hD with
    | notPlain hD =>
      obtain ⟨t,us,hnil,-⟩ := comparison_starts hD
      cases hnil
  | cons t used ih =>
    intro rest hlen hD hstop
    rw [List.cons_append,parseNot]
    cases hD with
    | notOf hnot hD =>
      rw [List.length_cons] at hlen
      rw [if_pos hnot,ih _ rest (by omega) hD hstop]
      rfl
    | notPlain hD =>
      obtain ⟨t',us,hts,hnot,-⟩ := comparison_starts hD
      obtain ⟨rfl,rfl⟩ := List.cons.inj hts
      rw [if_neg hnot]
      exact parseComparison_complete h e _ rest hlen hD hstop

theorem parseOrOf_complete (h : Complete k continuesOr expr (Derives n .or)) :
    Complete (k + 1) continuesOr (parseOrOf n expr) (Derives n .or) := by
  have hplain : ∀ {t : Token} {name : String}, t.symbol = .ident name → continuesComparison t = false := by
    intro t name ht
    simp [continuesComparison,continuesAdditive,continuesMultiplicative,continuesPrimary,isDot,isMultiplicative,isAdditive,
      isComparison,ht]
  have hand : Complete (k + 1) continuesAnd (parseAnd n expr) (Derives n .and) := by
    have hop : ∀ t o, isAnd t = some o → continuesComparison t = false := by
      intro t o ho
      rw [isAnd] at ho
      split at ho
      · rename_i ht
        exact hplain ht
      · cases ho
    intro e used rest hlen hD hstop
    cases hD with
    | and hD => exact chained_complete (parseNot_complete h) hop e used rest hlen hD hstop
  have hop : ∀ t o, isOr t = some o → continuesAnd t = false := by
    intro t o ho
    rw [isOr] at ho
    split at ho
    · rename_i ht
      rw [continuesAnd,hplain ht,isAnd,ht]
      rfl
    · cases ho
  intro e used rest hlen hD hstop
  cases hD with
  | or hD => exact chained_complete hand hop e used rest hlen hD hstop

theorem parseOr_complete (n : Numerals) (depth : ℕ) : Complete depth continuesOr (parseOr n depth) (Derives n .or) := by
  induction depth with
  | zero =>
    intro e used rest hlen
    omega
  | succ depth ih => exact parseOrOf_complete ih

end Complete

/-! ## A refusal is one of the parser's own -/

section Refusals
variable {n : Numerals} {expr : ExprReader} {k : ℕ} {ts : List Token}

theorem expect_calm (what : Expected) (ts : List Token) : CalmAt ParseFailure.tooDeep ts.length (expect what ts) :=
  calm_token (fun _ => ParseFailure.noConfusion) ts

theorem enclosed_calm {A : Type} {items : Reader ParseFailure Token (List A)} (closer : Expected) (h : Calm .tooDeep k items)
    (hlen : ts.length < k) : CalmAt .tooDeep ts.length (enclosed closer items ts) := by
  have hitems : CalmAt ParseFailure.tooDeep ts.length
      (if ts.head?.any (fun t => closer.accepts t.symbol) then .ok ([],ts) else items ts : Except ParseFailure (List A × List Token)) := by
    split
    · exact calm_ok (Nat.le_refl _)
    · exact h ts hlen
  apply calm_bind hitems
  intro l rest hrest
  exact CalmAt.mono (calm_map (expect_calm closer rest) fun _ => rfl) hrest

theorem parseObjectField_calm (h : Calm .tooDeep k expr) : Calm .tooDeep k (parseObjectField expr) := by
  intro ts hlen
  apply calm_bind (calm_token (fun _ => ParseFailure.noConfusion) ts)
  intro key rest hrest
  apply CalmAt.mono _ hrest
  apply calm_bind (expect_calm .colon rest)
  intro u rest' hrest'
  exact CalmAt.mono (calm_map (h rest' (by omega)) fun _ => rfl) hrest'

theorem parseLambda_calm (h : Calm .tooDeep k expr) : Calm .tooDeep k (parseLambda expr) := by
  intro ts hlen
  apply calm_bind (calm_token (fun _ => ParseFailure.noConfusion) ts)
  intro param rest hrest
  apply CalmAt.mono _ hrest
  dsimp only
  split
  · exact calm_error ParseFailure.noConfusion
  · apply calm_bind (expect_calm .arrow rest)
    intro u rest' hrest'
    exact CalmAt.mono (calm_map (h rest' (by omega)) fun _ => rfl) hrest'

theorem parseArgs_calm (h : Calm .tooDeep k expr) (combinator : CombinatorName) (hlen : ts.length < k) :
    CalmAt .tooDeep ts.length (parseArgs expr combinator ts) := by
  cases combinator with
  | lambda name =>
    apply calm_bind (h ts hlen)
    intro items rest hrest
    apply CalmAt.mono _ hrest
    apply calm_bind (expect_calm .comma rest)
    intro u rest' hrest'
    exact CalmAt.mono (calm_map (parseLambda_calm h rest' (by omega)) fun _ => rfl) hrest'
  | plain name => exact calm_map (h ts hlen) fun _ => rfl
  | join =>
    apply calm_bind (h ts hlen)
    intro items rest hrest
    apply CalmAt.mono _ hrest
    apply calm_bind (expect_calm .comma rest)
    intro u rest' hrest'
    exact CalmAt.mono (calm_map (h rest' (by omega)) fun _ => rfl) hrest'
  | get =>
    apply calm_bind (h ts hlen)
    intro base rest hrest
    apply CalmAt.mono _ hrest
    apply calm_bind (expect_calm .comma rest)
    intro u rest' hrest'
    apply CalmAt.mono _ hrest'
    apply calm_bind (calm_token (fun _ => ParseFailure.noConfusion) rest')
    intro path after hafter
    apply CalmAt.mono _ hafter
    cases after with
    | nil => exact calm_ok (Nat.le_refl _)
    | cons t after =>
      rw [List.length_cons] at hafter
      dsimp only
      split
      · exact CalmAt.mono (calm_map (h after (by omega)) fun _ => rfl) (Nat.le_succ _)
      · exact calm_ok (Nat.le_refl _)

theorem parseIdentLed_calm (h : Calm .tooDeep k expr) (name : String) (t : Token) (hlen : ts.length < k) :
    CalmAt .tooDeep (t :: ts).length (parseIdentLed expr name t ts) := by
  rw [parseIdentLed]
  split
  · exact calm_ok (Nat.le_succ _)
  split
  · exact calm_error ParseFailure.noConfusion
  split
  · split
    · rename_i combinator _
      apply CalmAt.mono _ (Nat.le_succ _)
      apply calm_bind (expect_calm .lparen ts)
      intro u rest hrest
      apply CalmAt.mono _ hrest
      apply calm_bind (parseArgs_calm h combinator (by omega))
      intro e rest' hrest'
      exact CalmAt.mono (calm_map (expect_calm .rparen rest') fun _ => rfl) hrest'
    · exact calm_error ParseFailure.noConfusion
  · have hnames : Calm ParseFailure.tooDeep (t :: ts).length.succ expectName :=
      fun us _ => calm_token (fun _ => ParseFailure.noConfusion) us
    exact calm_map (calm_sepBy isDot hnames (t :: ts) (Nat.lt_succ_self _)) fun _ => rfl

theorem parsePrimary_calm (h : Calm .tooDeep k expr) : Calm .tooDeep (k + 1) (parsePrimary n expr) := by
  intro ts hlen
  cases ts with
  | nil => exact calm_error ParseFailure.noConfusion
  | cons t ts =>
    rw [List.length_cons] at hlen
    have hts : ts.length < k := by omega
    rw [parsePrimary]
    split
    · rename_i text _
      rw [numberLiteral]
      split
      · exact calm_ok (Nat.le_succ _)
      · split
        · exact calm_ok (Nat.le_succ _)
        · exact calm_error ParseFailure.noConfusion
    · exact calm_ok (Nat.le_succ _)
    · apply CalmAt.mono _ (Nat.le_succ _)
      apply calm_bind (h ts hts)
      intro e rest hrest
      exact CalmAt.mono (calm_map (expect_calm .rparen rest) fun _ => rfl) hrest
    · apply CalmAt.mono _ (Nat.le_succ _)
      exact calm_map (enclosed_calm .rbracket (calm_sepBy isComma h) hts) fun _ => rfl
    · apply CalmAt.mono _ (Nat.le_succ _)
      exact calm_map (enclosed_calm .rbrace (calm_sepBy isComma (parseObjectField_calm h)) hts) fun _ => rfl
    · rename_i name _
      exact parseIdentLed_calm h name t hts
    · exact calm_error ParseFailure.noConfusion

theorem parseUnary_calm (h : Calm .tooDeep k expr) : Calm .tooDeep (k + 1) (parseUnary n expr) := by
  intro ts
  induction ts with
  | nil => exact parsePrimary_calm h []
  | cons t ts ih =>
    intro hlen
    rw [parseUnary]
    split
    · rw [List.length_cons] at hlen
      exact CalmAt.mono (calm_map (ih (by omega)) fun _ => rfl) (Nat.le_succ _)
    · exact parsePrimary_calm h (t :: ts) hlen

theorem parseComparison_calm (h : Calm .tooDeep k expr) : Calm .tooDeep (k + 1) (parseComparison n expr) := by
  have hadditive : Calm .tooDeep (k + 1) (parseAdditive n expr) := calm_chained (calm_chained (parseUnary_calm h))
  intro ts hlen
  apply calm_bind (hadditive ts hlen)
  intro left rest hrest
  apply CalmAt.mono _ hrest
  cases rest with
  | nil => exact calm_ok (Nat.le_refl _)
  | cons t rest =>
    rw [List.length_cons] at hrest
    dsimp only
    split
    · exact CalmAt.mono (calm_map (hadditive rest (by omega)) fun _ => rfl) (Nat.le_succ _)
    · exact calm_ok (Nat.le_refl _)

theorem parseNot_calm (h : Calm .tooDeep k expr) : Calm .tooDeep (k + 1) (parseNot n expr) := by
  intro ts
  induction ts with
  | nil => exact parseComparison_calm h []
  | cons t ts ih =>
    intro hlen
    rw [parseNot]
    split
    · rw [List.length_cons] at hlen
      exact CalmAt.mono (calm_map (ih (by omega)) fun _ => rfl) (Nat.le_succ _)
    · exact parseComparison_calm h (t :: ts) hlen

theorem parseOr_calm (n : Numerals) (depth : ℕ) : Calm .tooDeep depth (parseOr n depth) := by
  induction depth with
  | zero =>
    intro ts hlen
    omega
  | succ depth ih => exact calm_chained (calm_chained (parseNot_calm ih))

end Refusals

theorem parseProgram_ok {n : Numerals} {tokens : List Token} {e : ExprNode} :
    parseProgram n tokens = .ok e ↔ Derives n .or e tokens := by
  constructor
  · intro h
    obtain ⟨r,hr,h⟩ := Fallible.bind_ok h
    obtain ⟨used,hused,hD⟩ := parseOr_sound n _ tokens r.1 r.2 hr
    split at h
    · rename_i hend
      cases h
      rw [hend,List.append_nil] at hused
      rw [hused]
      exact hD
    · cases h
  · intro hD
    have hread := parseOr_complete n (tokens.length + 1) e tokens [] (Nat.lt_succ_self _) hD .nil
    rw [List.append_nil] at hread
    rw [parseProgram,hread]
    rfl

/-- The parser accepts the token lists that the grammar derives, with the tree the grammar gives, which is the only one; and
what it refuses it refuses for a reason of its own, never for the nesting. -/
theorem parseProgram_grammar (n : Numerals) (tokens : List Token) :
    (∀ e, parseProgram n tokens = .ok e ↔ Derives n .or e tokens) ∧
      (∀ e e', Derives n .or e tokens → Derives n .or e' tokens → e = e') ∧ parseProgram n tokens ≠ .error .tooDeep := by
  refine ⟨fun e => parseProgram_ok,?_,?_⟩
  · intro e e' hD hD'
    have he := parseProgram_ok.mpr hD
    rw [parseProgram_ok.mpr hD'] at he
    exact (Except.ok.inj he).symm
  · have hcalm := parseOr_calm n (tokens.length + 1) tokens (Nat.lt_succ_self _)
    rw [parseProgram]
    cases hr : parseOr n (tokens.length + 1) tokens with
    | error e =>
      intro he
      cases he
      exact hcalm.avoids hr
    | ok r =>
      obtain ⟨e,rest⟩ := r
      cases rest with
      | nil =>
        intro he
        cases he
      | cons t rest =>
        intro he
        cases he

end Reyn.Expr
