import Reyn.Lib.Fallible
import Reyn.Lib.Shlex

/-! # Exec plans

A command line becomes a list of segments, chain operators and redirects. The text passes the syntax tree's gate
first; its tokens are then read a second time. The grammar and its parser are third party, so the tree of a text is
a parameter.
-/
namespace Reyn

/-! ## The gate over the syntax tree -/

inductive SyntaxNode where
  | mk (kind : String) (named : Bool) (startByte endByte : ℕ) (children : List SyntaxNode)

namespace SyntaxNode

def kind : SyntaxNode → String
  | mk kind _ _ _ _ => kind
def named : SyntaxNode → Bool
  | mk _ named _ _ _ => named
def children : SyntaxNode → List SyntaxNode
  | mk _ _ _ _ children => children

mutual
/-- `_walk_nodes` -/
def walk : SyntaxNode → List SyntaxNode
  | mk kind named startByte endByte children => mk kind named startByte endByte children :: walkAll children
def walkAll : List SyntaxNode → List SyntaxNode
  | [] => []
  | node :: rest => walk node ++ walkAll rest
end

end SyntaxNode

/-- Where `_flush_segment` found nothing to flush. -/
inductive FlushContext where
  | before (op : String)
  | atEnd
  deriving DecidableEq

/-- The reasons of a rejection, with what their texts name. -/
inductive ExecPlanRejected where
  | heredoc
  | parseError
  | nodeKind (kind : String) (text : List Char)
  | expansion (leaf hits : List Char)
  | noSeparator
  | topLevel (kind : String)
  | quotedOperator (token : String)
  | arguments (failure : Shlex.Failure)
  | noCommand
  | emptyCommand (context : FlushContext)
  | argumentAfterRedirect (token : String)
  | leadingAssignment (token : String)
  | redirectWithoutCommand (op : String)
  | redirectWithoutTarget (op : String)
  | unsupported (token : String)
  deriving DecidableEq

namespace ExecPlan

/-- In the order of their code points. -/
def expansionLeafChars : List Char := ['!','$','*','?','[',']','{','}','~']

def punctuationChars : List Char := ['(',')',';','<','>','|','&','`']

/-- What `shlex` reads with; it takes `#` for the start of a comment, also inside a word. -/
def shellSyntax (commenters : List Char) : Shlex.Syntax := ⟨punctuationChars.contains,commenters.contains⟩

abbrev Token := String × Bool

def isOperator (token : List Char) : Bool := !token.isEmpty && token.all punctuationChars.contains

def classify (read : List Char × List Char) : Except ExecPlanRejected Token :=
  if isOperator read.1 && read.2.any Shlex.isQuote then .error (.quotedOperator (String.ofList read.1))
  else .ok (String.ofList read.1,isOperator read.1)

/-- `_iter_tokens` -/
def iterTokens (commenters : List Char) (text : List Char) : Except ExecPlanRejected (List Token) :=
  ((Shlex.tokens (shellSyntax commenters) text).1.mapM classify).bind fun tokens =>
    match (Shlex.tokens (shellSyntax commenters) text).2 with
    | none => .ok tokens
    | some failure => .error (.arguments failure)

/-! ## The plan -/

def chainOps : List String := ["|",";","&&","||"]
def redirectOps : List String := [">","<",">>"]

def isNameChar (c : Char) : Bool := c.isAlphanum || c == '_'

/-- The start of the token matches `[A-Za-z_][A-Za-z0-9_]*=`. -/
def looksLikeLeadingAssignment (token : String) : Bool :=
  match token.toList with
  | [] => false
  | c :: rest => (c.isAlpha || c == '_') && (rest.dropWhile isNameChar).head? == some '='

inductive Item where
  | segment (argv : List String)
  | chainOp (op : String)
  | redirect (op path : String)
  deriving DecidableEq

def Item.isRedirect : Item → Bool
  | redirect _ _ => true
  | _ => false

/-- The variables of the loop. -/
structure Pending where
  plan : List Item
  argv : List String
  closed : Bool

/-- `_flush_segment` -/
def Pending.flush (s : Pending) (requireNonempty : Bool) (context : FlushContext) : Except ExecPlanRejected Pending :=
  if s.argv = [] then if requireNonempty then .error (.emptyCommand context) else .ok s
  else .ok ⟨s.plan ++ [.segment s.argv],[],false⟩

inductive ChainOp where
  | pipe
  | and
  | or
  | sequence
  deriving DecidableEq

def ChainOp.text : ChainOp → String
  | pipe => "|"
  | and => "&&"
  | or => "||"
  | sequence => ";"

inductive RedirectOp where
  | truncate
  | append
  | input
  deriving DecidableEq

def RedirectOp.text : RedirectOp → String
  | truncate => ">"
  | append => ">>"
  | input => "<"

/-- A word of the grammar: plain, quoted or both, without a character that is refused, and not one that only looks
like an operator. -/
structure PlanWord where
  pieces : Shlex.Word
  nonempty : pieces ≠ []
  writable : ∀ p ∈ pieces, p.Writable (shellSyntax ['#'])
  permitted : ∀ c ∈ pieces.value, c ∉ expansionLeafChars ∧ c ≠ '\n'
  literal : isOperator pieces.value = false

def PlanWord.value (w : PlanWord) : String := String.ofList w.pieces.value

structure PlanSegment where
  argv : List PlanWord
  redirects : List (RedirectOp × PlanWord)
  nonempty : argv ≠ []
  command : ∀ w rest, argv = w :: rest → looksLikeLeadingAssignment w.value = false

namespace PlanSegment

def printed (s : PlanSegment) : List Shlex.Printed :=
  s.argv.map (fun w => .word w.pieces) ++ s.redirects.flatMap fun r => [.operator r.1.text.toList,.word r.2.pieces]

def items (s : PlanSegment) : List Item :=
  .segment (s.argv.map (·.value)) :: s.redirects.map fun r => .redirect r.1.text r.2.value

end PlanSegment

structure CommandLine where
  first : PlanSegment
  rest : List (ChainOp × PlanSegment)

namespace CommandLine
variable (line : CommandLine)

def segments : List PlanSegment := line.first :: line.rest.map (·.2)

def printed : List Shlex.Printed :=
  line.first.printed ++ line.rest.flatMap fun r => .operator r.1.text.toList :: r.2.printed

def text : List Char := Shlex.Printed.line line.printed

def plan : List Item := line.first.items ++ line.rest.flatMap fun r => .chainOp r.1.text :: r.2.items

/-- No `#` stands outside of quotes. -/
def NoPlainHash : Prop := ∀ t ∈ line.printed, t.Visible (shellSyntax ['#'])

instance : Decidable line.NoPlainHash := inferInstanceAs (Decidable (∀ t ∈ line.printed, _))

end CommandLine

/-! ## The gate on what is printed -/

theorem shellSyntax_proper : (shellSyntax ['#']).Proper where
  punctuation c hc := by
    have hmem : c ∈ punctuationChars := List.contains_iff_mem.mp hc
    have hall : ∀ c ∈ punctuationChars,
        Shlex.isBlank c = false ∧ ['#'].contains c = false ∧ Shlex.isQuote c = false ∧ c ≠ '\\' := by
      simp [punctuationChars,Shlex.isBlank,Shlex.isQuote]
    exact hall c hmem
  commenter c hc := by
    have hmem : c ∈ ['#'] := List.contains_iff_mem.mp hc
    have hall : ∀ c ∈ ['#'], Shlex.isBlank c = false ∧ Shlex.isQuote c = false ∧ c ≠ '\\' := by
      simp [Shlex.isBlank,Shlex.isQuote]
    exact hall c hmem

theorem ChainOp.mem_chainOps (op : ChainOp) : op.text ∈ chainOps := by
  cases op <;> decide

theorem RedirectOp.mem_redirectOps (op : RedirectOp) : op.text ∈ redirectOps := by
  cases op <;> decide

theorem operator_chars {op : String} (h : op ∈ chainOps ++ redirectOps) :
    op.toList ≠ [] ∧ ∀ c ∈ op.toList, c ∈ punctuationChars := by
  have hall : ∀ op ∈ chainOps ++ redirectOps, op.toList ≠ [] ∧ ∀ c ∈ op.toList, c ∈ punctuationChars := by
    simp [chainOps,redirectOps,punctuationChars]
  exact hall op h

/-- What stands in a printed line. -/
inductive Stands : Shlex.Printed → Prop
  | word (w : PlanWord) : Stands (.word w.pieces)
  | operator {op : String} (h : op ∈ chainOps ++ redirectOps) : Stands (.operator op.toList)

theorem PlanSegment.stands {s : PlanSegment} {t : Shlex.Printed} (h : t ∈ s.printed) : Stands t := by
  rcases List.mem_append.mp h with h | h
  · obtain ⟨w,-,rfl⟩ := List.mem_map.mp h
    exact .word w
  · obtain ⟨r,-,h⟩ := List.mem_flatMap.mp h
    rcases List.mem_pair.mp h with rfl | rfl
    · exact .operator (List.mem_append_right _ (RedirectOp.mem_redirectOps _))
    · exact .word _

theorem CommandLine.stands {line : CommandLine} {t : Shlex.Printed} (h : t ∈ line.printed) : Stands t := by
  rcases List.mem_append.mp h with h | h
  · exact PlanSegment.stands h
  · obtain ⟨r,-,h⟩ := List.mem_flatMap.mp h
    rcases List.mem_cons.mp h with rfl | h
    · exact .operator (List.mem_append_left _ (ChainOp.mem_chainOps _))
    · exact PlanSegment.stands h

theorem Stands.writable {t : Shlex.Printed} (h : Stands t) : t.Writable (shellSyntax ['#']) := by
  cases h with
  | word w => exact ⟨w.nonempty,w.writable⟩
  | operator hop =>
    obtain ⟨hne,hchars⟩ := operator_chars hop
    exact ⟨hne,fun c hc => List.contains_iff_mem.mpr (hchars c hc)⟩

/-- No refused character and no newline stands in a printed line. -/
theorem CommandLine.permitted {line : CommandLine} {c : Char} (h : c ∈ line.text) : c ∉ expansionLeafChars ∧ c ≠ '\n' := by
  have hquote : ∀ c, Shlex.isQuote c = true → c ∉ expansionLeafChars ∧ c ≠ '\n' := by
    intro c hc
    rcases Bool.or_eq_true_iff.mp hc with hc | hc <;> rw [beq_iff_eq.mp hc] <;> decide
  rcases Shlex.Printed.mem_line h with rfl | ⟨t,ht,hc⟩
  · decide
  · cases CommandLine.stands ht with
    | word w =>
      rcases Shlex.Word.mem_text hc with hc | hc | rfl
      · exact w.permitted c hc
      · exact hquote c hc
      · decide
    | operator hop =>
      have hmem := (operator_chars hop).2 c hc
      have hall : ∀ c ∈ punctuationChars, c ∉ expansionLeafChars ∧ c ≠ '\n' := by
        simp [punctuationChars,expansionLeafChars]
      exact hall c hmem

def tokenOf (t : Shlex.Printed) : Token := (String.ofList t.value,isOperator t.value)

theorem Stands.classify {t : Shlex.Printed} (h : Stands t) {raw : List Char} (hraw : raw = t.text ∨ raw = t.text ++ [' ']) :
    classify (t.value,raw) = .ok (tokenOf t) := by
  rw [ExecPlan.classify,if_neg]
  · rfl
  · rw [Bool.and_eq_true_iff]
    rintro ⟨hoperator,hquoted⟩
    cases h with
    | word w =>
      have hliteral : isOperator w.pieces.value = true := hoperator
      rw [w.literal] at hliteral
      cases hliteral
    | @operator op hop =>
      obtain ⟨c,hc,hquote⟩ := List.any_eq_true.mp hquoted
      have hmem : c ∈ op.toList ∨ c = ' ' := by
        rcases hraw with rfl | rfl
        · exact .inl hc
        · exact (List.mem_append.mp hc).imp_right List.mem_singleton.mp
      have hplain : ∀ c ∈ ' ' :: punctuationChars, Shlex.isQuote c = false := by
        simp [punctuationChars,Shlex.isQuote]
      have hin : c ∈ ' ' :: punctuationChars := by
        rcases hmem with hmem | rfl
        · exact List.mem_cons_of_mem _ ((operator_chars hop).2 c hmem)
        · exact List.mem_cons_self
      rw [hplain c hin] at hquote
      cases hquote

theorem mapM_classify (ts : List Shlex.Printed) (h : ∀ t ∈ ts, Stands t) :
    (Shlex.Printed.read ts).mapM classify = .ok (ts.map tokenOf) := by
  induction ts with
  | nil => rfl
  | cons t ts ih =>
    obtain ⟨ht,hts⟩ := List.forall_mem_cons.mp h
    cases ts with
    | nil => rw [Shlex.Printed.read,Fallible.mapM_singleton,ht.classify (.inl rfl)]; rfl
    | cons u rest =>
      rw [Shlex.Printed.read,List.mapM_cons,ht.classify (.inr rfl),ih hts]
      · rfl
      · exact List.cons_ne_nil _ _

/-- Where no `#` is plain, the tokens are those that were printed. -/
theorem CommandLine.iterTokens {line : CommandLine} (h : line.NoPlainHash) :
    iterTokens ['#'] line.text = .ok (line.printed.map tokenOf) := by
  have hread := Shlex.tokens_line shellSyntax_proper line.printed fun t ht => ⟨(CommandLine.stands ht).writable,h t ht⟩
  rw [ExecPlan.iterTokens,CommandLine.text,hread,mapM_classify _ fun t ht => CommandLine.stands ht]
  rfl

/-! ## The loop over what is printed -/

def redirectTokens (redirects : List (RedirectOp × PlanWord)) : List Token :=
  redirects.flatMap fun r => [(r.1.text,true),(r.2.value,false)]

def PlanSegment.tokens (s : PlanSegment) : List Token := s.argv.map (fun w => (w.value,false)) ++ redirectTokens s.redirects

/-- What is left to do behind the loop. -/
def conclude (s : Pending) : Except ExecPlanRejected Pending := s.flush (!s.closed) .atEnd

/-- The characters of the tokens. -/
def weight (tokens : List Token) : ℕ := (tokens.map fun t => t.1.length).sum

def Item.weight : Item → ℕ
  | segment argv => (argv.map String.length).sum
  | chainOp op => op.length
  | redirect op path => op.length + path.length

def planWeight (plan : List Item) : ℕ := (plan.map Item.weight).sum

def Pending.weight (s : Pending) : ℕ := planWeight s.plan + (s.argv.map String.length).sum

theorem flush_weight {s t : Pending} {required : Bool} {context : FlushContext} (h : s.flush required context = .ok t) :
    t.weight = s.weight ∧ t.argv = [] := by
  rw [Pending.flush] at h
  split at h
  · rename_i hnil
    split at h
    · cases h
    · cases h
      exact ⟨rfl,hnil⟩
  · cases h
    exact ⟨by simp [Pending.weight,planWeight,Item.weight],rfl⟩

/-- What the loop did on tokens that it took. -/
inductive Took : List Token → Pending → Pending → Prop
  | done (s : Pending) : Took [] s s
  | word {token : String} {rest : List Token} {s t : Pending} (hopen : s.closed = false)
    (hr : Took rest { s with argv := s.argv ++ [token] } t) : Took ((token,false) :: rest) s t
  | chainOp {op : String} {rest : List Token} {s t : Pending} (hop : op ∈ chainOps) (hargv : s.argv ≠ [])
    (hr : Took rest ⟨s.plan ++ [.segment s.argv,.chainOp op],[],false⟩ t) : Took ((op,true) :: rest) s t
  | redirect {op path : String} {rest : List Token} {s t u : Pending} (hop : op ∈ redirectOps) (hchain : op ∉ chainOps)
    (hready : s.argv ≠ [] ∨ s.plan.getLast?.any Item.isRedirect = true) (hflush : s.flush false (.before op) = .ok u)
    (hr : Took rest { u with plan := u.plan ++ [.redirect op path], closed := true } t) :
    Took ((op,true) :: (path,false) :: rest) s t

theorem Took.weight {tokens : List Token} {s t : Pending} (h : Took tokens s t) :
    t.weight = s.weight + ExecPlan.weight tokens := by
  induction h with
  | done s => rfl
  | word hopen _ ih =>
    rw [ih]
    simp [Pending.weight,ExecPlan.weight]
    omega
  | chainOp hop hargv _ ih =>
    rw [ih]
    simp [Pending.weight,ExecPlan.weight,planWeight,Item.weight]
    omega
  | redirect hop hchain hready hflush _ ih =>
    obtain ⟨hsame,hnil⟩ := flush_weight hflush
    rw [ih,← hsame]
    simp [Pending.weight,ExecPlan.weight,planWeight,Item.weight,hnil]
    omega

/-- The first member that a decidable property fails of. -/
theorem first_failing {A : Type} {P : A → Prop} [DecidablePred P] {xs : List A} (h : ¬∀ x ∈ xs, P x) :
    ∃ front x back, xs = front ++ x :: back ∧ (∀ y ∈ front, P y) ∧ ¬P x := by
  push Not at h
  obtain ⟨x,hx,hnot⟩ := h
  cases hfind : xs.find? fun x => !decide (P x) with
  | none => exact absurd (List.find?_eq_none.mp hfind x hx) (by simpa using hnot)
  | some y =>
    obtain ⟨hy,front,back,hsplit,hfront⟩ := List.find?_eq_some_iff_append.mp hfind
    exact ⟨front,y,back,hsplit,by simpa using hfront,by simpa using hy⟩

theorem mapM_classify_weight {reads : List (List Char × List Char)} {tokens : List Token} (h : reads.mapM classify = .ok tokens) :
    weight tokens = (reads.map fun r => r.1.length).sum := by
  have hmembers := Fallible.mapM_ok_members h
  clear h
  induction hmembers with
  | nil => rfl
  | cons hread _ ih =>
    rw [classify] at hread
    split at hread
    · cases hread
    · cases hread
      simp only [weight,List.map_cons,List.sum_cons] at ih ⊢
      rw [ih,String.length_ofList]

/-- A plain `#` takes itself and the rest of the line away. -/
theorem CommandLine.hidden {line : CommandLine} (h : ¬line.NoPlainHash) {tokens : List Token}
    (htokens : ExecPlan.iterTokens ['#'] line.text = .ok tokens) : weight tokens < weight (line.printed.map tokenOf) := by
  obtain ⟨front,t,back,hsplit,hfront,hhides⟩ := first_failing h
  cases t with
  | operator cs => exact absurd trivial hhides
  | word w =>
    obtain ⟨shown,p,rest,hw,hshown,hp⟩ := first_failing hhides
    cases p with
    | single cs => exact absurd trivial hp
    | double cs => exact absurd trivial hp
    | escaped c => exact absurd trivial hp
    | plain c =>
      have hc : (shellSyntax ['#']).commenter c = true := by simpa [Shlex.Piece.Visible] using hp
      have hstands : ∀ t ∈ line.printed, t.Writable (shellSyntax ['#']) := fun t ht => (CommandLine.stands ht).writable
      have hword : (Shlex.Printed.word w).Writable (shellSyntax ['#']) := hstands _ (by simp [hsplit])
      obtain ⟨tail,htail⟩ := @Shlex.tokens_hidden _ shellSyntax_proper front back shown rest c
        (fun t ht => ⟨hstands t (by rw [hsplit]; exact List.mem_append_left _ ht),hfront t ht⟩)
        (fun q hq => ⟨hword.2 q (by rw [hw]; exact List.mem_append_left _ hq),hshown q hq⟩) hc
        (by rw [← hw,← hsplit]; exact fun hmem => (CommandLine.permitted hmem).2 rfl)
      rw [← hw,← hsplit] at htail
      rw [ExecPlan.iterTokens,CommandLine.text,htail] at htokens
      obtain ⟨read,hread,hok⟩ := Fallible.bind_ok htokens
      cases hok
      rw [mapM_classify_weight hread,hsplit,hw]
      by_cases hnil : shown = []
      · simp [hnil,weight,tokenOf,Shlex.Printed.value,Shlex.Word.value,Shlex.Piece.value,Function.comp_def]
      · simp [hnil,weight,tokenOf,Shlex.Printed.value,Shlex.Word.value,Shlex.Piece.value,Function.comp_def]
        omega

/-! ## Operators without a command -/

/-- The words that are not the path of a redirect. -/
def commandWords : List Token → List String
  | [] => []
  | (token,false) :: rest => token :: commandWords rest
  | (op,true) :: (path,false) :: rest => if op ∈ redirectOps then commandWords rest else path :: commandWords rest
  | (_,true) :: rest => commandWords rest

/-- Not a chain operator. -/
def inSegment (t : Token) : Bool := !(t.2 && chainOps.contains t.1)

theorem Took.after {before after : List Token} {op : String} (hop : op ∈ chainOps) {s t : Pending}
    (h : Took (before ++ (op,true) :: after) s t) : ∃ u, Took after u t ∧ u.argv = [] ∧ u.closed = false ∧
      u.plan.getLast?.any Item.isRedirect = false := by
  generalize htokens : before ++ (op,true) :: after = tokens at h
  induction h generalizing before with
  | done s => simp at htokens
  | word hopen hr ih =>
    cases before with
    | nil => cases htokens
    | cons b before =>
      obtain ⟨-,hrest⟩ := List.cons.inj htokens
      exact ih hrest
  | chainOp hop' hargv hr ih =>
    cases before with
    | nil =>
      obtain ⟨-,rfl⟩ := List.cons.inj htokens
      exact ⟨_,hr,rfl,rfl,by simp [Item.isRedirect]⟩
    | cons b before =>
      obtain ⟨-,hrest⟩ := List.cons.inj htokens
      exact ih hrest
  | redirect hop' hchain hready hflush hr ih =>
    cases before with
    | nil =>
      obtain ⟨hsame,-⟩ := List.cons.inj htokens
      obtain ⟨rfl,-⟩ := Prod.mk.inj hsame
      exact absurd hop hchain
    | cons b before =>
      cases before with
      | nil =>
        obtain ⟨-,hrest⟩ := List.cons.inj htokens
        cases (List.cons.inj hrest).1
      | cons c before =>
        obtain ⟨-,hrest⟩ := List.cons.inj htokens
        obtain ⟨-,hrest⟩ := List.cons.inj hrest
        exact ih hrest

/-- Behind an operator the plan goes on with a word. -/
theorem Took.starts {tokens : List Token} {s t v : Pending} (h : Took tokens s t) (hargv : s.argv = []) (hopen : s.closed = false)
    (hlast : s.plan.getLast?.any Item.isRedirect = false) (hend : conclude t = .ok v) :
    ∃ w rest, tokens = (w,false) :: rest := by
  cases h with
  | done s =>
    rw [conclude,Pending.flush,if_pos hargv,hopen] at hend
    cases hend
  | word hopen hr => exact ⟨_,_,rfl⟩
  | chainOp hop hne hr => exact absurd hargv hne
  | redirect hop hchain hready hflush hr =>
    rcases hready with hne | hredirect
    · exact absurd hargv hne
    · rw [hlast] at hredirect
      cases hredirect

theorem rtakeWhile_of_all {A : Type} {p : A → Bool} {xs : List A} (h : ∀ x ∈ xs, p x = true) : xs.rtakeWhile p = xs :=
  List.rtakeWhile_eq_self_iff.mpr h

theorem rtakeWhile_cons_of_not_all {A : Type} {p : A → Bool} {x : A} {xs : List A} (h : ¬∀ y ∈ xs, p y = true) :
    (x :: xs).rtakeWhile p = xs.rtakeWhile p := by
  have hshort : (xs.reverse.takeWhile p).length ≠ xs.reverse.length := by
    intro hlength
    have hall : xs.reverse.takeWhile p = xs.reverse := (List.takeWhile_prefix p).eq_of_length hlength
    apply h
    intro y hy
    have hmem : y ∈ xs.reverse.takeWhile p := by rw [hall]; exact List.mem_reverse.mpr hy
    exact List.mem_takeWhile_imp hmem
  rw [List.rtakeWhile,List.rtakeWhile,List.reverse_cons,List.takeWhile_append,if_neg hshort]

/-- In front of an operator stands a command, or it came before the tokens. -/
theorem Took.before {before after : List Token} {op : String} (hop : op ∈ chainOps) {s t : Pending}
    (h : Took (before ++ (op,true) :: after) s t) :
    (∀ b ∈ before, inSegment b = true) ∧ s.argv ≠ [] ∨ commandWords (before.rtakeWhile inSegment) ≠ [] := by
  generalize htokens : before ++ (op,true) :: after = tokens at h
  induction h generalizing before with
  | done s => simp at htokens
  | @word token rest s t hopen hr ih =>
    cases before with
    | nil => cases htokens
    | cons b before =>
      obtain ⟨rfl,hrest⟩ := List.cons.inj htokens
      by_cases hall : ∀ b ∈ before, inSegment b = true
      · right
        rw [rtakeWhile_of_all (List.forall_mem_cons.mpr ⟨rfl,hall⟩)]
        exact List.cons_ne_nil _ _
      · right
        rw [rtakeWhile_cons_of_not_all hall]
        rcases ih hrest with ⟨hmore,-⟩ | hwords
        · exact absurd hmore hall
        · exact hwords
  | @chainOp op' rest s t hop' hargv hr ih =>
    cases before with
    | nil => exact .inl ⟨List.forall_mem_nil _,hargv⟩
    | cons b before =>
      obtain ⟨rfl,hrest⟩ := List.cons.inj htokens
      right
      have hwords : commandWords (before.rtakeWhile inSegment) ≠ [] := by
        rcases ih hrest with ⟨-,hnil⟩ | hwords
        · exact absurd rfl hnil
        · exact hwords
      by_cases hall : ∀ b ∈ before, inSegment b = true
      · have hchain : inSegment (op',true) = false := by
          rw [inSegment,List.contains_iff_mem.mpr hop']
          rfl
        have hsame : ((op',true) :: before).rtakeWhile inSegment = before := by
          rw [List.rtakeWhile,List.reverse_cons,List.takeWhile_append_of_pos,List.takeWhile_cons_of_neg]
          · simp
          · rw [hchain]
            exact Bool.false_ne_true
          · exact fun y hy => hall y (List.mem_reverse.mp hy)
        rw [hsame]
        rwa [rtakeWhile_of_all hall] at hwords
      · rw [rtakeWhile_cons_of_not_all hall]
        exact hwords
  | @redirect op' path rest s t u hop' hchain hready hflush hr ih =>
    cases before with
    | nil =>
      obtain ⟨hsame,-⟩ := List.cons.inj htokens
      obtain ⟨rfl,-⟩ := Prod.mk.inj hsame
      exact absurd hop hchain
    | cons b before =>
      cases before with
      | nil =>
        obtain ⟨-,hrest⟩ := List.cons.inj htokens
        cases (List.cons.inj hrest).1
      | cons c before =>
        obtain ⟨rfl,htail⟩ := List.cons.inj htokens
        obtain ⟨rfl,hrest⟩ := List.cons.inj htail
        right
        have hwords : commandWords (before.rtakeWhile inSegment) ≠ [] := by
          rcases ih hrest with ⟨-,hnil⟩ | hwords
          · exact absurd (flush_weight hflush).2 hnil
          · exact hwords
        by_cases hall : ∀ b ∈ before, inSegment b = true
        · have hop'' : inSegment (op',true) = true := by
            simpa [inSegment] using hchain
          have hpath : inSegment (path,false) = true := rfl
          rw [rtakeWhile_of_all (List.forall_mem_cons.mpr ⟨hop'',List.forall_mem_cons.mpr ⟨hpath,hall⟩⟩),commandWords,if_pos hop']
          rwa [rtakeWhile_of_all hall] at hwords
        · have hmore : ¬∀ b ∈ (path,false) :: before, inSegment b = true := fun h => hall (List.forall_mem_cons.mp h).2
          rw [rtakeWhile_cons_of_not_all hmore,rtakeWhile_cons_of_not_all hall]
          exact hwords

/-- A character that is a word by itself. -/
structure Letter (c : Char) : Prop where
  writable : (Shlex.Piece.plain c).Writable (shellSyntax ['#'])
  permitted : c ∉ expansionLeafChars ∧ c ≠ '\n'
  visible : c ≠ '#'
  name : isNameChar c = true

namespace Letter
variable {c : Char}

theorem a : Letter 'a' := ⟨by simp [Shlex.Piece.Writable,shellSyntax,punctuationChars,Shlex.isBlank,Shlex.isQuote],
  by simp [expansionLeafChars],by simp,by decide⟩

theorem b : Letter 'b' := ⟨by simp [Shlex.Piece.Writable,shellSyntax,punctuationChars,Shlex.isBlank,Shlex.isQuote],
  by simp [expansionLeafChars],by simp,by decide⟩

theorem f : Letter 'f' := ⟨by simp [Shlex.Piece.Writable,shellSyntax,punctuationChars,Shlex.isBlank,Shlex.isQuote],
  by simp [expansionLeafChars],by simp,by decide⟩

theorem nonempty : [Shlex.Piece.plain c] ≠ [] := List.cons_ne_nil _ _
theorem literal (h : Letter c) : isOperator (Shlex.Word.value [.plain c]) = false := by
  have hpunct : punctuationChars.contains c = false := h.writable.2.2.2
  simp only [isOperator,Shlex.Word.value,Shlex.Piece.value,List.flatMap_singleton,List.all_cons,hpunct]
  rfl

end Letter

end ExecPlan
end Reyn
