import Mathlib

/-! # Splitting a line the way a shell reads it

The POSIX mode of `shlex`, with characters that form tokens of their own and split at blanks. Beside each token
stands what was read from the stream since the token before it; a character that ends a word and starts the next
token has been read with the former.
-/
namespace Shlex

structure Syntax where
  punctuation : Char → Bool
  commenter : Char → Bool

inductive State where
  | blank
  | word
  | punct
  | quote (q : Char)
  /-- After a backslash, inside a quote or not. -/
  | escape (inside : Option Char)
  | comment
  deriving DecidableEq

structure Lexer where
  state : State
  token : List Char
  quoted : Bool
  raw : List Char
  out : List (List Char × List Char)

inductive Failure where
  | noClosingQuotation
  | noEscapedCharacter
  deriving DecidableEq

def isBlank (c : Char) : Bool := c == ' ' || c == '\t' || c == '\r' || c == '\n'
def isQuote (c : Char) : Bool := c == '\'' || c == '"'

namespace Lexer

def start : Lexer := ⟨.blank,[],false,[],[]⟩

def emit (l : Lexer) : Lexer := ⟨.blank,[],false,[],l.out ++ [(l.token,l.raw)]⟩

/-- The end of a token, if there is one. -/
def close (l : Lexer) : Lexer := if l.token ≠ [] ∨ l.quoted = true then l.emit else { l with state := .blank }

variable (syn : Syntax)

/-- A character between tokens. -/
def feedBlank (l : Lexer) (c : Char) : Lexer :=
  if isBlank c then l
  else if syn.commenter c then { l with state := .comment }
  else if c = '\\' then { l with state := .escape none }
  else if syn.punctuation c then { l with state := .punct, token := [c] }
  else if isQuote c then { l with state := .quote c }
  else { l with state := .word, token := [c] }

def feed (l : Lexer) (c : Char) : Lexer :=
  let l := { l with raw := l.raw ++ [c] }
  match l.state with
  | .blank => l.feedBlank syn c
  | .quote q =>
    if c = q then { l with state := .word, quoted := true }
    else if c = '\\' ∧ q = '"' then { l with state := .escape (some q), quoted := true }
    else { l with token := l.token ++ [c], quoted := true }
  | .escape none => { l with state := .word, token := l.token ++ [c] }
  | .escape (some q) =>
    { l with state := .quote q, token := l.token ++ (if c ≠ '\\' ∧ c ≠ q then ['\\',c] else [c]) }
  | .comment => if c = '\n' then l.close else l
  | .word =>
    if isBlank c then l.close
    else if syn.commenter c then { l with state := .comment }
    else if isQuote c then { l with state := .quote c }
    else if c = '\\' then { l with state := .escape none }
    else if syn.punctuation c then l.close.feedBlank syn c
    else { l with token := l.token ++ [c] }
  | .punct =>
    if isBlank c then l.close
    else if syn.commenter c then { l with state := .comment }
    else if syn.punctuation c then { l with token := l.token ++ [c] }
    else l.emit.feedBlank syn c

/-- The tokens at the end of the stream, and what stopped the reading before it. -/
def finish (l : Lexer) : List (List Char × List Char) × Option Failure :=
  match l.state with
  | .blank => (l.out,none)
  | .quote _ => (l.out,some .noClosingQuotation)
  | .escape _ => (l.out,some .noEscapedCharacter)
  | _ => (l.close.out,none)

end Lexer

def tokens (syn : Syntax) (text : List Char) : List (List Char × List Char) × Option Failure :=
  (text.foldl (Lexer.feed syn) .start).finish

/-! ## Printing -/

/-- A part of a word and the way it is written. -/
inductive Piece where
  | plain (c : Char)
  | single (cs : List Char)
  | double (cs : List Char)
  | escaped (c : Char)
  deriving DecidableEq

namespace Piece

def value : Piece → List Char
  | plain c => [c]
  | single cs => cs
  | double cs => cs
  | escaped c => [c]

def inDouble (c : Char) : List Char := if c = '\\' ∨ c = '"' then ['\\',c] else [c]

def text : Piece → List Char
  | plain c => [c]
  | single cs => '\'' :: (cs ++ ['\''])
  | double cs => '"' :: (cs.flatMap inDouble ++ ['"'])
  | escaped c => ['\\',c]

def quotes : Piece → Bool
  | single _ => true
  | double _ => true
  | _ => false

/-- The piece can be written this way. -/
def Writable (syn : Syntax) : Piece → Prop
  | plain c => isBlank c = false ∧ isQuote c = false ∧ c ≠ '\\' ∧ syn.punctuation c = false
  | single cs => '\'' ∉ cs
  | double _ => True
  | escaped _ => True

/-- No character of the piece starts a comment. -/
def Visible (syn : Syntax) : Piece → Prop
  | plain c => syn.commenter c = false
  | _ => True

instance (syn : Syntax) : (p : Piece) → Decidable (p.Visible syn)
  | plain c => inferInstanceAs (Decidable (syn.commenter c = false))
  | single _ => .isTrue trivial
  | double _ => .isTrue trivial
  | escaped _ => .isTrue trivial

end Piece

/-- Some pieces, written one behind the other. -/
abbrev Word := List Piece

namespace Word

def value (w : Word) : List Char := w.flatMap Piece.value
def text (w : Word) : List Char := w.flatMap Piece.text

end Word

inductive Printed where
  | word (w : Word)
  | operator (cs : List Char)

namespace Printed

def value : Printed → List Char
  | word w => w.value
  | operator cs => cs

def text : Printed → List Char
  | word w => w.text
  | operator cs => cs

def Writable (syn : Syntax) : Printed → Prop
  | word w => w ≠ [] ∧ ∀ p ∈ w, p.Writable syn
  | operator cs => cs ≠ [] ∧ ∀ c ∈ cs, syn.punctuation c = true

def Visible (syn : Syntax) : Printed → Prop
  | word w => ∀ p ∈ w, p.Visible syn
  | operator _ => True

instance (syn : Syntax) : (t : Printed) → Decidable (t.Visible syn)
  | word w => inferInstanceAs (Decidable (∀ p ∈ w, p.Visible syn))
  | operator _ => .isTrue trivial

/-- With a blank in between. -/
def line : List Printed → List Char
  | [] => []
  | [t] => t.text
  | t :: rest => t.text ++ ' ' :: line rest

/-- What the reading makes of it. -/
def read : List Printed → List (List Char × List Char)
  | [] => []
  | [t] => [(t.value,t.text)]
  | t :: rest => (t.value,t.text ++ [' ']) :: read rest

end Printed

/-! ## The reading of what was printed -/

/-- The characters that form tokens, those that start comments and those that end or quote words are apart. -/
structure Syntax.Proper (syn : Syntax) : Prop where
  punctuation : ∀ c, syn.punctuation c = true → isBlank c = false ∧ syn.commenter c = false ∧ isQuote c = false ∧ c ≠ '\\'
  commenter : ∀ c, syn.commenter c = true → isBlank c = false ∧ isQuote c = false ∧ c ≠ '\\'

variable {syn : Syntax} {l : Lexer}

/-- A word starts or goes on. -/
def Lexer.Ready (l : Lexer) : Prop := l.state = .word ∨ l.state = .blank ∧ l.token = []

def Lexer.after (l : Lexer) (p : Piece) : Lexer :=
  { l with state := .word, token := l.token ++ p.value, quoted := l.quoted || p.quotes, raw := l.raw ++ p.text }

theorem feed_single {q : Char} (cs : List Char) (hq : q ∉ cs) (hquote : q ≠ '"') (h : l.state = .quote q) :
    cs.foldl (Lexer.feed syn) l = { l with token := l.token ++ cs, quoted := l.quoted || !cs.isEmpty, raw := l.raw ++ cs } := by
  induction cs generalizing l with
  | nil => simp
  | cons c cs ih =>
    obtain ⟨hc,hcs⟩ := not_or.mp (List.mem_cons.not.mp hq)
    have hstep : l.feed syn c = { l with token := l.token ++ [c], quoted := true, raw := l.raw ++ [c] } := by
      simp only [Lexer.feed,h]
      rw [if_neg (Ne.symm hc),if_neg fun hboth => hquote hboth.2]
    have hrest := ih (l := { l with token := l.token ++ [c], quoted := true, raw := l.raw ++ [c] }) hcs h
    rw [List.foldl_cons,hstep,hrest]
    simp

theorem feed_double (cs : List Char) (h : l.state = .quote '"') :
    (cs.flatMap Piece.inDouble).foldl (Lexer.feed syn) l =
      { l with token := l.token ++ cs, quoted := l.quoted || !cs.isEmpty, raw := l.raw ++ cs.flatMap Piece.inDouble } := by
  induction cs generalizing l with
  | nil => simp
  | cons c cs ih =>
    have hrest := ih (l := { l with token := l.token ++ [c], quoted := true, raw := l.raw ++ Piece.inDouble c }) h
    rw [List.flatMap_cons,List.foldl_append]
    by_cases hc : c = '\\' ∨ c = '"'
    · have hstep : (Piece.inDouble c).foldl (Lexer.feed syn) l =
          { l with token := l.token ++ [c], quoted := true, raw := l.raw ++ Piece.inDouble c } := by
        rw [Piece.inDouble,if_pos hc]
        rcases hc with rfl | rfl <;> simp [Lexer.feed,h]
      rw [hstep,hrest]
      simp
    · have hstep : (Piece.inDouble c).foldl (Lexer.feed syn) l =
          { l with token := l.token ++ [c], quoted := true, raw := l.raw ++ Piece.inDouble c } := by
        obtain ⟨hback,hquote⟩ := not_or.mp hc
        rw [Piece.inDouble,if_neg hc]
        simp [Lexer.feed,h,hback,hquote]
      rw [hstep,hrest]
      simp

/-- In front of a word that starts or goes on, a character is read alike. -/
theorem feed_ready (h : l.Ready) {c : Char} (hblank : isBlank c = false) (hpunct : syn.punctuation c = false)
    (hcomment : syn.commenter c = false) : l.feed syn c =
      if isQuote c then { l with state := .quote c, raw := l.raw ++ [c] }
      else if c = '\\' then { l with state := .escape none, raw := l.raw ++ [c] }
      else { l with state := .word, token := l.token ++ [c], raw := l.raw ++ [c] } := by
  rcases h with h | ⟨h,htoken⟩
  · simp [Lexer.feed,h,hblank,hpunct,hcomment]
  · by_cases hquote : isQuote c = true
    · have hback : c ≠ '\\' := by
        rintro rfl
        cases hquote
      simp [Lexer.feed,Lexer.feedBlank,h,hblank,hpunct,hcomment,hquote,hback]
    · simp [Lexer.feed,Lexer.feedBlank,h,hblank,hpunct,hcomment,hquote,htoken]

theorem feed_piece (hsyn : syn.Proper) (h : l.Ready) {p : Piece} (hp : p.Writable syn) (hv : p.Visible syn) :
    p.text.foldl (Lexer.feed syn) l = l.after p := by
  have hsingle : syn.punctuation '\'' = false ∧ syn.commenter '\'' = false := by
    constructor <;> rw [Bool.eq_false_iff] <;> intro hc
    · exact absurd (hsyn.punctuation _ hc).2.2.1 (by decide)
    · exact absurd (hsyn.commenter _ hc).2.1 (by decide)
  have hdouble : syn.punctuation '"' = false ∧ syn.commenter '"' = false := by
    constructor <;> rw [Bool.eq_false_iff] <;> intro hc
    · exact absurd (hsyn.punctuation _ hc).2.2.1 (by decide)
    · exact absurd (hsyn.commenter _ hc).2.1 (by decide)
  have hback : syn.punctuation '\\' = false ∧ syn.commenter '\\' = false := by
    constructor <;> rw [Bool.eq_false_iff] <;> intro hc
    · exact absurd rfl (hsyn.punctuation _ hc).2.2.2
    · exact absurd rfl (hsyn.commenter _ hc).2.2
  cases p with
  | plain c =>
    obtain ⟨hblank,hquote,hescape,hpunct⟩ := hp
    rw [Piece.text,List.foldl_cons,List.foldl_nil,feed_ready h hblank hpunct hv,if_neg (by rw [hquote]; decide),if_neg hescape]
    simp [Lexer.after,Piece.value,Piece.quotes,Piece.text]
  | single cs =>
    rw [Piece.text,List.foldl_cons,feed_ready h (by decide) hsingle.1 hsingle.2,if_pos (by decide),List.foldl_append,
      feed_single cs hp (by decide) rfl]
    simp [Lexer.feed,Lexer.after,Piece.value,Piece.quotes,Piece.text]
  | double cs =>
    rw [Piece.text,List.foldl_cons,feed_ready h (by decide) hdouble.1 hdouble.2,if_pos (by decide),List.foldl_append,
      feed_double cs rfl]
    simp [Lexer.feed,Lexer.after,Piece.value,Piece.quotes,Piece.text]
  | escaped c =>
    rw [Piece.text,List.foldl_cons,feed_ready h (by decide) hback.1 hback.2,if_neg (by decide),if_pos rfl]
    simp [Lexer.feed,Lexer.after,Piece.value,Piece.quotes,Piece.text]

/-- A word has a character, or was quoted. -/
theorem Word.seen {w : Word} (h : w ≠ []) : w.value ≠ [] ∨ w.any Piece.quotes = true := by
  cases w with
  | nil => exact absurd rfl h
  | cons p rest =>
    cases p with
    | plain c => exact .inl (List.cons_ne_nil _ _)
    | escaped c => exact .inl (List.cons_ne_nil _ _)
    | single cs => exact .inr rfl
    | double cs => exact .inr rfl

theorem feed_pieces (hsyn : syn.Proper) (h : l.Ready) (w : Word) (hw : ∀ p ∈ w, p.Writable syn) (hv : ∀ p ∈ w, p.Visible syn) :
    w.text.foldl (Lexer.feed syn) l = { l with
      state := if w = [] then l.state else .word, token := l.token ++ w.value
      quoted := l.quoted || w.any Piece.quotes, raw := l.raw ++ w.text } := by
  induction w generalizing l with
  | nil => simp [Word.text,Word.value]
  | cons p rest ih =>
    obtain ⟨hp,hrest⟩ := List.forall_mem_cons.mp hw
    obtain ⟨hpv,hrestv⟩ := List.forall_mem_cons.mp hv
    have hready : (l.after p).Ready := .inl rfl
    rw [Word.text,List.flatMap_cons,List.foldl_append,feed_piece hsyn h hp hpv]
    have hmore := ih hready hrest hrestv
    rw [Word.text] at hmore
    rw [hmore]
    simp [Lexer.after,Word.value,Word.text,Bool.or_assoc]

theorem feed_punct (hsyn : syn.Proper) (cs : List Char) (hp : ∀ c ∈ cs, syn.punctuation c = true) (h : l.state = .punct) :
    cs.foldl (Lexer.feed syn) l = { l with token := l.token ++ cs, raw := l.raw ++ cs } := by
  induction cs generalizing l with
  | nil => simp
  | cons c cs ih =>
    obtain ⟨hc,hcs⟩ := List.forall_mem_cons.mp hp
    obtain ⟨hblank,hcomment,-,-⟩ := hsyn.punctuation c hc
    have hstep : l.feed syn c = { l with token := l.token ++ [c], raw := l.raw ++ [c] } := by
      simp [Lexer.feed,h,hblank,hcomment,hc]
    have hrest := ih (l := { l with token := l.token ++ [c], raw := l.raw ++ [c] }) hcs h
    rw [List.foldl_cons,hstep,hrest]
    simp

theorem feed_operator (hsyn : syn.Proper) (h : l.state = .blank) {cs : List Char} (hcs : cs ≠ [])
    (hp : ∀ c ∈ cs, syn.punctuation c = true) :
    cs.foldl (Lexer.feed syn) l = { l with state := .punct, token := cs, raw := l.raw ++ cs } := by
  cases cs with
  | nil => exact absurd rfl hcs
  | cons c cs =>
    obtain ⟨hc,hrest⟩ := List.forall_mem_cons.mp hp
    obtain ⟨hblank,hcomment,-,hback⟩ := hsyn.punctuation c hc
    have hfirst : l.feed syn c = { l with state := .punct, token := [c], raw := l.raw ++ [c] } := by
      simp [Lexer.feed,Lexer.feedBlank,h,hblank,hcomment,hback,hc]
    rw [List.foldl_cons,hfirst,feed_punct hsyn cs hrest rfl]
    simp

/-- Between two tokens. -/
def Lexer.fresh (out : List (List Char × List Char)) : Lexer := ⟨.blank,[],false,[],out⟩

/-- A token was read and not closed yet. -/
structure Lexer.Holds (l : Lexer) (t : Printed) (out : List (List Char × List Char)) : Prop where
  state : l.state = .word ∨ l.state = .punct
  token : l.token = t.value
  raw : l.raw = t.text
  seen : l.token ≠ [] ∨ l.quoted = true
  out : l.out = out

theorem feed_printed (hsyn : syn.Proper) {t : Printed} (ht : t.Writable syn) (hv : t.Visible syn)
    (out : List (List Char × List Char)) : (t.text.foldl (Lexer.feed syn) (.fresh out)).Holds t out := by
  cases t with
  | word w =>
    obtain ⟨hw,hpieces⟩ := ht
    have hready : (Lexer.fresh out).Ready := .inr ⟨rfl,rfl⟩
    rw [Printed.text,feed_pieces hsyn hready w hpieces hv,if_neg hw]
    refine ⟨.inl rfl,?_,?_,?_,rfl⟩
    · simp [Lexer.fresh,Printed.value]
    · simp [Lexer.fresh,Printed.text]
    · simpa [Lexer.fresh] using Word.seen hw
  | operator cs =>
    rw [Printed.text,feed_operator hsyn rfl ht.1 ht.2]
    exact ⟨.inr rfl,rfl,rfl,.inl ht.1,rfl⟩

theorem Lexer.Holds.blank {t : Printed} {out : List (List Char × List Char)} (h : l.Holds t out) :
    l.feed syn ' ' = .fresh (out ++ [(t.value,t.text ++ [' '])]) := by
  have hclose : { l with raw := l.raw ++ [' '] }.close = .fresh (out ++ [(t.value,t.text ++ [' '])]) := by
    rw [Lexer.close,if_pos h.seen,Lexer.emit]
    simp only [h.out,h.token,h.raw,Lexer.fresh]
  rcases h.state with hs | hs <;> simpa [Lexer.feed,hs,isBlank] using hclose

theorem Lexer.Holds.finish {t : Printed} {out : List (List Char × List Char)} (h : l.Holds t out) :
    l.finish = (out ++ [(t.value,t.text)],none) := by
  have hclose : l.close.out = out ++ [(t.value,t.text)] := by
    rw [Lexer.close,if_pos h.seen,Lexer.emit]
    simp only [h.out,h.token,h.raw]
  rcases h.state with hs | hs <;> simp [Lexer.finish,hs,hclose]

/-- The tokens that others follow. -/
theorem feed_front (hsyn : syn.Proper) (ts : List Printed) (ht : ∀ t ∈ ts, t.Writable syn ∧ t.Visible syn)
    (out : List (List Char × List Char)) : (ts.flatMap fun t => t.text ++ [' ']).foldl (Lexer.feed syn) (.fresh out) =
      .fresh (out ++ ts.map fun t => (t.value,t.text ++ [' '])) := by
  induction ts generalizing out with
  | nil => simp
  | cons t ts ih =>
    obtain ⟨hfirst,hrest⟩ := List.forall_mem_cons.mp ht
    have hholds := feed_printed hsyn hfirst.1 hfirst.2 out
    rw [List.flatMap_cons,List.foldl_append,List.foldl_append,List.foldl_cons,List.foldl_nil,hholds.blank,ih hrest]
    simp

theorem Printed.line_append (front : List Printed) {back : List Printed} (h : back ≠ []) :
    Printed.line (front ++ back) = (front.flatMap fun t => t.text ++ [' ']) ++ Printed.line back := by
  induction front with
  | nil => rfl
  | cons t front ih =>
    cases hrest : front ++ back with
    | nil => exact absurd (List.append_eq_nil_iff.mp hrest).2 h
    | cons u rest =>
      rw [List.cons_append,hrest,Printed.line,← hrest,ih,List.flatMap_cons]
      · simp
      · exact List.cons_ne_nil _ _

theorem Printed.read_append_singleton (front : List Printed) (t : Printed) :
    Printed.read (front ++ [t]) = (front.map fun t => (t.value,t.text ++ [' '])) ++ [(t.value,t.text)] := by
  induction front with
  | nil => rfl
  | cons u front ih =>
    cases hrest : front ++ [t] with
    | nil => exact absurd (List.append_eq_nil_iff.mp hrest).2 (List.cons_ne_nil _ _)
    | cons v rest =>
      rw [List.cons_append,hrest,Printed.read,← hrest,ih]
      · simp
      · exact List.cons_ne_nil _ _

theorem Piece.mem_text {p : Piece} {c : Char} (h : c ∈ p.text) : c ∈ p.value ∨ isQuote c = true ∨ c = '\\' := by
  cases p with
  | plain d => exact .inl h
  | single cs =>
    rcases List.mem_cons.mp h with rfl | h
    · exact .inr (.inl rfl)
    · rcases List.mem_append.mp h with h | h
      · exact .inl h
      · obtain rfl := List.mem_singleton.mp h
        exact .inr (.inl rfl)
  | double cs =>
    rcases List.mem_cons.mp h with rfl | h
    · exact .inr (.inl rfl)
    · rcases List.mem_append.mp h with h | h
      · obtain ⟨d,hd,hc⟩ := List.mem_flatMap.mp h
        rw [inDouble] at hc
        split at hc
        · rcases List.mem_pair.mp hc with rfl | rfl
          · exact .inr (.inr rfl)
          · exact .inl hd
        · obtain rfl := List.mem_singleton.mp hc
          exact .inl hd
      · obtain rfl := List.mem_singleton.mp h
        exact .inr (.inl rfl)
  | escaped d =>
    rcases List.mem_pair.mp h with rfl | rfl
    · exact .inr (.inr rfl)
    · exact .inl (List.mem_singleton.mpr rfl)

/-- A character of a printed word is its own, a quote or a backslash. -/
theorem Word.mem_text {w : Word} {c : Char} (h : c ∈ w.text) : c ∈ w.value ∨ isQuote c = true ∨ c = '\\' := by
  obtain ⟨p,hp,hc⟩ := List.mem_flatMap.mp h
  exact (Piece.mem_text hc).imp_left fun hv => List.mem_flatMap.mpr ⟨p,hp,hv⟩

theorem Printed.mem_line {ts : List Printed} {c : Char} (h : c ∈ Printed.line ts) : c = ' ' ∨ ∃ t ∈ ts, c ∈ t.text := by
  induction ts with
  | nil => cases h
  | cons t ts ih =>
    cases ts with
    | nil => exact .inr ⟨t,List.mem_cons_self,h⟩
    | cons u rest =>
      rcases List.mem_append.mp h with h | h
      · exact .inr ⟨t,List.mem_cons_self,h⟩
      · rcases List.mem_cons.mp h with rfl | h
        · exact .inl rfl
        · obtain hblank | ⟨v,hv,hc⟩ := ih h
          · exact .inl hblank
          · exact .inr ⟨v,List.mem_cons_of_mem _ hv,hc⟩

/-- What is printed is read again. -/
theorem tokens_line (hsyn : syn.Proper) (ts : List Printed) (ht : ∀ t ∈ ts, t.Writable syn ∧ t.Visible syn) :
    tokens syn (Printed.line ts) = (Printed.read ts,none) := by
  rcases List.eq_nil_or_concat' ts with rfl | ⟨front,t,rfl⟩
  · rfl
  · have hfront : ∀ u ∈ front, u.Writable syn ∧ u.Visible syn := fun u hu => ht u (List.mem_append_left _ hu)
    have hlast := ht t (List.mem_append_right _ List.mem_cons_self)
    have hholds := feed_printed hsyn hlast.1 hlast.2 (front.map fun t => (t.value,t.text ++ [' ']))
    have hline : Printed.line [t] = t.text := rfl
    have hfed := feed_front hsyn front hfront []
    rw [tokens,Printed.line_append front (List.cons_ne_nil _ _),List.foldl_append,hline]
    change ((t.text.foldl (Lexer.feed syn) (_ : Lexer)).finish) = _
    rw [show Lexer.start = .fresh [] from rfl,hfed,List.nil_append,hholds.finish,Printed.read_append_singleton]

theorem feed_comment (cs : List Char) (hcs : '\n' ∉ cs) (h : l.state = .comment) :
    cs.foldl (Lexer.feed syn) l = { l with raw := l.raw ++ cs } := by
  induction cs generalizing l with
  | nil => simp
  | cons c cs ih =>
    obtain ⟨hc,hcs⟩ := not_or.mp (List.mem_cons.not.mp hcs)
    have hstep : l.feed syn c = { l with raw := l.raw ++ [c] } := by
      simp only [Lexer.feed,h]
      rw [if_neg (Ne.symm hc)]
    have hrest := ih (l := { l with raw := l.raw ++ [c] }) hcs h
    rw [List.foldl_cons,hstep,hrest]
    simp

theorem feed_commenter (hsyn : syn.Proper) (h : l.Ready) {c : Char} (hc : syn.commenter c = true) :
    l.feed syn c = { l with state := .comment, raw := l.raw ++ [c] } := by
  obtain ⟨hblank,-,-⟩ := hsyn.commenter c hc
  rcases h with h | ⟨h,-⟩
  · simp [Lexer.feed,h,hblank,hc]
  · simp [Lexer.feed,Lexer.feedBlank,h,hblank,hc]

/-- A character that starts a comment hides the rest of the line. -/
theorem tokens_hidden (hsyn : syn.Proper) {front back : List Printed} {w rest : Word} {c : Char}
    (hfront : ∀ t ∈ front, t.Writable syn ∧ t.Visible syn) (hw : ∀ p ∈ w, p.Writable syn ∧ p.Visible syn)
    (hc : syn.commenter c = true) (hline : '\n' ∉ Printed.line (front ++ .word (w ++ .plain c :: rest) :: back)) :
    ∃ tail, tokens syn (Printed.line (front ++ .word (w ++ .plain c :: rest) :: back)) =
      ((front.map fun t => (t.value,t.text ++ [' '])) ++ if w = [] then [] else [(w.value,w.text ++ c :: tail)],none) := by
  obtain ⟨tail,htail⟩ : ∃ tail, Printed.line (.word (w ++ .plain c :: rest) :: back) = w.text ++ c :: tail := by
    cases back with
    | nil => exact ⟨rest.text,by simp [Printed.line,Printed.text,Word.text,Piece.text]⟩
    | cons t back => exact ⟨rest.text ++ ' ' :: Printed.line (t :: back),by simp [Printed.line,Printed.text,Word.text,Piece.text]⟩
  rw [Printed.line_append front (List.cons_ne_nil _ _),htail] at hline ⊢
  have hrest : '\n' ∉ tail := by
    intro hmem
    apply hline
    simp [hmem]
  have hfed := feed_front hsyn front hfront []
  have hready : (Lexer.fresh (front.map fun t => (t.value,t.text ++ [' ']))).Ready := .inr ⟨rfl,rfl⟩
  refine ⟨tail,?_⟩
  rw [tokens,show Lexer.start = .fresh [] from rfl,List.foldl_append,hfed,List.nil_append,List.foldl_append,
    feed_pieces hsyn hready w (fun p hp => (hw p hp).1) (fun p hp => (hw p hp).2),List.foldl_cons,
    feed_commenter hsyn ?_ hc,feed_comment tail hrest rfl]
  · by_cases hnil : w = []
    · simp [Lexer.finish,Lexer.close,Lexer.fresh,hnil,Word.value]
    · have hseen := Word.seen hnil
      have hclose : ¬w.value = [] ∨ ∃ p ∈ w, p.quotes = true := by
        rwa [List.any_eq_true] at hseen
      simp [Lexer.finish,Lexer.close,Lexer.emit,Lexer.fresh,hnil,hclose]
  · by_cases hnil : w = []
    · exact .inr ⟨by simp [hnil,Lexer.fresh],by simp [hnil,Lexer.fresh,Word.value]⟩
    · exact .inl (if_neg hnil)

end Shlex
