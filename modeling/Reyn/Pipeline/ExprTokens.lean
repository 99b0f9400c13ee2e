import Reyn.Lib.Fallible
import Reyn.Pipeline.ExprParser

/-! # Expressions as texts

What a symbol was cut from is its text. The tokens of a text lie in it one behind the other
with nothing but blanks between them, and where a text is refused no token starts. Symbols
that are spelled as the patterns ask are cut apart again when a blank stands behind each.
-/
namespace Reyn.Expr

/-- The characters a symbol stands for in the text it was cut from. -/
def Symbol.text : Symbol → List Char
  | .number text => text
  | .string raw => raw
  | .arrow => ['-','>']
  | .dot => ['.']
  | .cmp op => op.text.toList
  | .lparen => ['(']
  | .rparen => [')']
  | .lbrace => ['{']
  | .rbrace => ['}']
  | .lbracket => ['[']
  | .rbracket => [']']
  | .comma => [',']
  | .colon => [':']
  | .plus => ['+']
  | .minus => ['-']
  | .star => ['*']
  | .slash => ['/']
  | .ident name => name.toList

/-- Where a token ends. -/
def Token.stop (t : Token) : ℕ := t.pos + t.symbol.text.length

/-! ## What the patterns match -/

inductive IsNumeral (n : Numerals) : List Char → Prop
  | whole {ds : List Char} : ds ≠ [] → (∀ d ∈ ds, n.isDigit d = true) → IsNumeral n ds
  | point {ds es : List Char} :
    ds ≠ [] → (∀ d ∈ ds, n.isDigit d = true) → es ≠ [] → (∀ d ∈ es, n.isDigit d = true) → IsNumeral n (ds ++ '.' :: es)

inductive IsQuoted : List Char → Prop
  | mk {quote : Char} {body : List Char} : quote = '\'' ∨ quote = '"' → quotedBody quote body = some body → IsQuoted (quote :: body)

structure IsName (name : String) : Prop where
  nonempty : name.toList ≠ []
  starts : ∀ c ∈ name.toList.head?, isIdentStart c = true
  parts : ∀ c ∈ name.toList, isIdentPart c = true

/-- A symbol that has the form its pattern asks for. -/
def Spelled (n : Numerals) : Symbol → Prop
  | .number text => IsNumeral n text
  | .string raw => IsQuoted raw
  | .ident name => IsName name
  | _ => True

/-- The text of one match: blanks, or the text of a symbol. -/
inductive Cut (n : Numerals) : Option Symbol → List Char → Prop
  | blank {text : List Char} : text ≠ [] → (∀ c ∈ text, isBlank c = true) → Cut n none text
  | symbol {s : Symbol} : s.text ≠ [] → Spelled n s → Cut n (some s) s.text

theorem IsNumeral.nonempty {n : Numerals} {text : List Char} (h : IsNumeral n text) : text ≠ [] := by
  cases h with
  | whole hne => exact hne
  | point => exact List.append_ne_nil_of_right_ne_nil _ (List.cons_ne_nil _ _)

section Matches
variable {n : Numerals} {c : Char} {cs rest text : List Char}

theorem isIdentPart_of_start (h : isIdentStart c = true) : isIdentPart c = true := by
  rw [isIdentPart,h,Bool.true_or]

section Quoted
variable {quote : Char}

theorem quotedBody_quote : quotedBody quote (quote :: cs) = some [quote] := by
  rw [quotedBody.eq_def]
  exact if_pos rfl

theorem quotedBody_escape (h : '\\' ≠ quote) (d : Char) :
    quotedBody quote ('\\' :: d :: cs) = if d = '\n' then none else (quotedBody quote cs).map fun body => '\\' :: d :: body := by
  rw [quotedBody.eq_def]
  dsimp only
  rw [if_neg h,if_pos rfl]

theorem quotedBody_other (h : c ≠ quote) (h' : c ≠ '\\') : quotedBody quote (c :: cs) = (quotedBody quote cs).map (c :: ·) := by
  rw [quotedBody.eq_def]
  dsimp only
  rw [if_neg h,if_neg h']

/-- A body ends at its own quote, whatever stands behind it. -/
theorem quotedBody_some {body : List Char} (h : quotedBody quote cs = some body) :
    (∃ back, cs = body ++ back) ∧ ∀ rest, quotedBody quote (body ++ rest) = some body := by
  induction cs using quotedBody.induct quote generalizing body with
  | case1 => cases h
  | case2 cs =>
    rw [quotedBody_quote] at h
    cases h
    exact ⟨⟨cs,rfl⟩,fun _ => quotedBody_quote⟩
  | case3 hslash =>
    rw [quotedBody.eq_def] at h
    dsimp only at h
    rw [if_neg hslash,if_pos rfl] at h
    cases h
  | case4 cs hslash =>
    rw [quotedBody_escape hslash,if_pos rfl] at h
    cases h
  | case5 d cs hnewline hslash ih =>
    rw [quotedBody_escape hslash,if_neg hnewline] at h
    obtain ⟨body',hbody,rfl⟩ := Option.map_eq_some_iff.mp h
    obtain ⟨⟨back,rfl⟩,hagain⟩ := ih hbody
    refine ⟨⟨back,rfl⟩,?_⟩
    intro rest
    rw [List.cons_append,List.cons_append,quotedBody_escape hslash,if_neg hnewline,hagain]
    rfl
  | case6 d cs hquote hslash ih =>
    rw [quotedBody_other hquote hslash] at h
    obtain ⟨body',hbody,rfl⟩ := Option.map_eq_some_iff.mp h
    obtain ⟨⟨back,rfl⟩,hagain⟩ := ih hbody
    refine ⟨⟨back,rfl⟩,?_⟩
    intro rest
    rw [List.cons_append,quotedBody_other hquote hslash,hagain]
    rfl

end Quoted

theorem takeWhile_stop {p : Char → Bool} (h : ∀ d ∈ cs, p d = true) (hc : p c = false) : (cs ++ c :: rest).takeWhile p = cs := by
  rw [List.takeWhile_append_of_pos h,List.takeWhile_cons_of_neg (by rw [hc]; exact Bool.false_ne_true),List.append_nil]

theorem dropWhile_stop {p : Char → Bool} (h : ∀ d ∈ cs, p d = true) (hc : p c = false) :
    (cs ++ c :: rest).dropWhile p = c :: rest := by
  rw [List.dropWhile_append_of_pos h,List.dropWhile_cons_of_neg (by rw [hc]; exact Bool.false_ne_true)]

/-- At a digit a numeral is taken from the front. -/
theorem numberText_front (h : n.isDigit c = true) :
    IsNumeral n (numberText n (c :: cs)) ∧ ∃ back, c :: cs = numberText n (c :: cs) ++ back := by
  have hne : (c :: cs).takeWhile n.isDigit ≠ [] := by
    rw [List.takeWhile_cons_of_pos h]
    exact List.cons_ne_nil _ _
  have hdigits : ∀ {ds : List Char}, ∀ d ∈ ds.takeWhile n.isDigit, n.isDigit d = true := by
    intro ds d hd
    exact List.mem_takeWhile_imp hd
  have hsplit : c :: cs = (c :: cs).takeWhile n.isDigit ++ (c :: cs).dropWhile n.isDigit := List.takeWhile_append_dropWhile.symm
  have hwhole : IsNumeral n ((c :: cs).takeWhile n.isDigit) := .whole hne hdigits
  rw [numberText]
  split
  · rename_i d ds hdrop
    split
    · rename_i hd
      have hfraction : (d :: ds).takeWhile n.isDigit ≠ [] := by
        rw [List.takeWhile_cons_of_pos hd]
        exact List.cons_ne_nil _ _
      refine ⟨.point hne hdigits hfraction hdigits,(d :: ds).dropWhile n.isDigit,?_⟩
      rw [List.append_assoc,List.cons_append,List.takeWhile_append_dropWhile,← hdrop]
      exact hsplit
    · exact ⟨hwhole,_,hsplit⟩
  · exact ⟨hwhole,_,hsplit⟩

/-- Each of these symbols is cut by its own text. -/
theorem punctuation_cut {symbol : Symbol} (h : punctuation cs = some (symbol,text)) :
    Cut n (some symbol) text ∧ ∃ back, cs = text ++ back := by
  rw [punctuation.eq_def] at h
  split at h <;> cases h <;> exact ⟨.symbol (List.cons_ne_nil _ _) trivial,_,rfl⟩

/-- What is cut off is the text of a symbol of its form, or blank. -/
theorem scan_cut {symbol : Option Symbol} (h : scan n cs = some (symbol,text)) : Cut n symbol text ∧ ∃ back, cs = text ++ back := by
  cases cs with
  | nil => cases h
  | cons c cs =>
    rw [scan] at h
    split at h
    · rename_i hblank
      cases h
      refine ⟨.blank (List.cons_ne_nil _ _) ?_,cs.dropWhile isBlank,?_⟩
      · intro d hd
        rcases List.mem_cons.mp hd with rfl | hd
        · exact hblank
        · exact List.mem_takeWhile_imp hd
      · rw [List.cons_append,List.takeWhile_append_dropWhile]
    split at h
    · rename_i hdigit
      cases h
      obtain ⟨hnumeral,hback⟩ := @numberText_front n c cs hdigit
      exact ⟨.symbol hnumeral.nonempty hnumeral,hback⟩
    split at h
    · rename_i hquote
      obtain ⟨body,hbody,he⟩ := Option.map_eq_some_iff.mp h
      cases he
      obtain ⟨⟨back,hback⟩,hagain⟩ := quotedBody_some hbody
      have hself : quotedBody c body = some body := by simpa using hagain []
      exact ⟨.symbol (List.cons_ne_nil _ _) (.mk hquote hself),back,by rw [hback]; rfl⟩
    split at h
    · rename_i s text' hpunct
      cases h
      exact punctuation_cut hpunct
    split at h
    · rename_i hstart
      cases h
      have hname : IsName (String.ofList (c :: cs.takeWhile isIdentPart)) := by
        constructor <;> rw [String.toList_ofList]
        · exact List.cons_ne_nil _ _
        · intro d hd
          cases hd
          exact hstart
        · intro d hd
          rcases List.mem_cons.mp hd with rfl | hd
          · exact isIdentPart_of_start hstart
          · exact List.mem_takeWhile_imp hd
      have hcut : Cut n (some (.ident (String.ofList (c :: cs.takeWhile isIdentPart)))) _ := .symbol hname.nonempty hname
      rw [Symbol.text,String.toList_ofList] at hcut
      refine ⟨hcut,cs.dropWhile isIdentPart,?_⟩
      rw [List.cons_append,List.takeWhile_append_dropWhile]
    · cases h

end Matches

/-! ## The tokens of a text -/

/-- Tokens in a text that begins at a position of the whole. -/
structure Laid (n : Numerals) (pos : ℕ) (cs : List Char) (tokens : List Token) : Prop where
  shown : ∀ t ∈ tokens, pos ≤ t.pos ∧ t.symbol.text ≠ [] ∧ Spelled n t.symbol ∧ ∃ back, cs.drop (t.pos - pos) = t.symbol.text ++ back
  apart : tokens.Pairwise fun t u => t.stop ≤ u.pos
  blank : ∀ i c, cs[i]? = some c → isBlank c = false → ∃ t ∈ tokens, t.pos ≤ pos + i ∧ pos + i < t.stop

section Laid
variable {n : Numerals} {pos : ℕ} {text rest : List Char} {tokens : List Token}

theorem Laid.nil : Laid n pos [] [] := by
  refine ⟨List.forall_mem_nil _,.nil,?_⟩
  intro i c hc
  cases hc

/-- What lies behind a text lies behind it in the whole. -/
theorem Laid.behind {t : Token} (h : Laid n (pos + text.length) rest tokens) (ht : t ∈ tokens) :
    pos + text.length ≤ t.pos ∧ t.symbol.text ≠ [] ∧ Spelled n t.symbol ∧
      ∃ back, (text ++ rest).drop (t.pos - pos) = t.symbol.text ++ back := by
  obtain ⟨hpos,hne,hspelled,back,hback⟩ := h.shown t ht
  refine ⟨hpos,hne,hspelled,back,?_⟩
  rw [← hback,show t.pos - pos = text.length + (t.pos - (pos + text.length)) by omega,List.drop_length_add_append]

theorem Laid.skip (htext : ∀ c ∈ text, isBlank c = true) (h : Laid n (pos + text.length) rest tokens) :
    Laid n pos (text ++ rest) tokens := by
  constructor
  · intro t ht
    obtain ⟨hpos,hshown⟩ := h.behind ht
    exact ⟨by omega,hshown⟩
  · exact h.apart
  · intro i c hc hblank
    by_cases hi : i < text.length
    · rw [List.getElem?_append_left hi] at hc
      rw [htext c (List.mem_of_getElem? hc)] at hblank
      cases hblank
    · rw [List.getElem?_append_right (by omega)] at hc
      obtain ⟨t,ht,hle,hlt⟩ := h.blank _ c hc hblank
      exact ⟨t,ht,by omega,by omega⟩

theorem Laid.token {s : Symbol} (hne : s.text ≠ []) (hs : Spelled n s) (h : Laid n (pos + s.text.length) rest tokens) :
    Laid n pos (s.text ++ rest) (⟨s,pos⟩ :: tokens) := by
  constructor
  · intro t ht
    rcases List.mem_cons.mp ht with rfl | ht
    · exact ⟨Nat.le_refl _,hne,hs,rest,by simp⟩
    · obtain ⟨hpos,hshown⟩ := h.behind ht
      exact ⟨by omega,hshown⟩
  · refine .cons ?_ h.apart
    intro t ht
    exact (h.shown t ht).1
  · intro i c hc hblank
    by_cases hi : i < s.text.length
    · exact ⟨_,List.mem_cons_self,Nat.le_add_right _ _,by rw [Token.stop]; dsimp only; omega⟩
    · rw [List.getElem?_append_right (by omega)] at hc
      obtain ⟨t,ht,hle,hlt⟩ := h.blank _ c hc hblank
      exact ⟨t,List.mem_cons_of_mem _ ht,by omega,by omega⟩

end Laid

/-- A text is refused at the first character at which no pattern matches. -/
inductive Refused (n : Numerals) (pos : ℕ) : List Char → ParseFailure → Prop
  | mk {front back : List Char} {tokens : List Token} :
    Laid n pos front tokens → back ≠ [] → scan n back = none → Refused n pos (front ++ back) (.unexpectedCharacter (pos + front.length))

/-- What is refused behind a text is refused in the whole. -/
theorem Refused.behind {n : Numerals} {pos : ℕ} {text rest : List Char} {e : ParseFailure} (h : Refused n (pos + text.length) rest e)
    (hlaid : ∀ {front tokens}, Laid n (pos + text.length) front tokens → ∃ tokens', Laid n pos (text ++ front) tokens') :
    Refused n pos (text ++ rest) e := by
  cases h with
  | @mk front back tokens hfront hback hscan =>
    obtain ⟨tokens',hwhole⟩ := hlaid hfront
    have hrefused := Refused.mk hwhole hback hscan
    rwa [List.append_assoc,List.length_append,← Nat.add_assoc] at hrefused

theorem tokenizeLoop_laid {n : Numerals} {fuel pos : ℕ} {cs : List Char} (hlen : cs.length ≤ fuel) :
    (∀ tokens, tokenizeLoop n fuel pos cs = .ok tokens → Laid n pos cs tokens) ∧
      ∀ e, tokenizeLoop n fuel pos cs = .error e → Refused n pos cs e := by
  induction fuel generalizing pos cs with
  | zero =>
    obtain rfl := List.eq_nil_of_length_eq_zero (Nat.le_zero.mp hlen)
    constructor
    · intro tokens h
      cases h
      exact .nil
    · intro e h
      cases h
  | succ fuel ih =>
    cases cs with
    | nil =>
      constructor
      · intro tokens h
        cases h
        exact .nil
      · intro e h
        cases h
    | cons c cs =>
      rw [tokenizeLoop]
      cases hscan : scan n (c :: cs) with
      | none =>
        constructor
        · intro tokens h
          cases h
        · intro e h
          cases h
          exact .mk .nil (List.cons_ne_nil _ _) hscan
      | some r =>
        obtain ⟨symbol,text⟩ := r
        obtain ⟨hcut,rest,hrest⟩ := scan_cut hscan
        rw [hrest] at hlen ⊢
        rw [List.length_append] at hlen
        have hdrop : (text ++ rest).drop text.length = rest := List.drop_left
        cases hcut with
        | blank hne hblank =>
          have hpos := List.length_pos_iff.mpr hne
          obtain ⟨hok,herror⟩ := @ih (pos + text.length) rest (by omega)
          dsimp only
          rw [hdrop]
          constructor
          · intro tokens h
            exact (hok tokens h).skip hblank
          · intro e h
            exact (herror e h).behind fun hlaid => ⟨_,hlaid.skip hblank⟩
        | @symbol s hne hs =>
          have hpos := List.length_pos_iff.mpr hne
          obtain ⟨hok,herror⟩ := @ih (pos + s.text.length) rest (by omega)
          dsimp only
          rw [hdrop]
          constructor
          · intro tokens h
            obtain ⟨tokens',htokens,rfl⟩ := Fallible.map_eq_ok h
            exact (hok tokens' htokens).token hne hs
          · intro e h
            refine (herror e ?_).behind fun hlaid => ⟨_,hlaid.token hne hs⟩
            cases hloop : tokenizeLoop n fuel (pos + s.text.length) rest with
            | error e' =>
              rw [hloop] at h
              exact h
            | ok tokens =>
              rw [hloop] at h
              cases h

/-- The tokens of a text are its characters at their positions, in order and apart, each in the form of its pattern, and what
lies outside them is blank. A text that has no such tokens is refused at a character where none starts, behind a front that has
them. -/
theorem tokenize_laid (n : Numerals) (src : List Char) :
    (∀ tokens, tokenize n src = .ok tokens → Laid n 0 src tokens) ∧ ∀ e, tokenize n src = .error e → Refused n 0 src e :=
  tokenizeLoop_laid (Nat.le_refl _)

/-! ## Symbols with a blank behind each -/

/-- Among the ASCII characters `\d` matches `[0-9]`. -/
def Numerals.Ascii (n : Numerals) : Prop := ∀ c : Char, c.toNat < 128 → (n.isDigit c = true ↔ '0' ≤ c ∧ c ≤ '9')

def spaced (symbols : List Symbol) : List Char := symbols.flatMap fun s => s.text ++ [' ']

section Spaced
variable {n : Numerals}

theorem Numerals.Ascii.other (hn : n.Ascii) {c : Char} (hc : c.toNat < 128) (h : ¬ ('0' ≤ c ∧ c ≤ '9')) : n.isDigit c = false := by
  rw [← Bool.not_eq_true]
  exact fun hdigit => h ((hn c hc).mp hdigit)

theorem isBlank_cases {c : Char} (h : isBlank c = true) : c = ' ' ∨ c = '\t' ∨ c = '\r' ∨ c = '\n' := by
  simpa [isBlank,or_assoc] using h

theorem Numerals.Ascii.notBlank (hn : n.Ascii) {c : Char} (h : n.isDigit c = true) : isBlank c = false := by
  rw [← Bool.not_eq_true]
  intro hblank
  rcases isBlank_cases hblank with rfl | rfl | rfl | rfl <;> rw [hn.other (by decide) (by decide)] at h <;> cases h

/-- A letter or an underscore is no blank, no digit, no quote and no punctuation. -/
theorem isIdentStart_bounds {c : Char} (h : isIdentStart c = true) : 65 ≤ c.toNat ∧ c.toNat < 123 ∧ ¬ (90 < c.toNat ∧ c.toNat < 95) := by
  simp only [isIdentStart,Bool.or_eq_true,Bool.and_eq_true,decide_eq_true_eq,beq_iff_eq,Char.le_def,UInt32.le_iff_toNat_le] at h
  rcases h with (⟨hl,hr⟩ | ⟨hl,hr⟩) | rfl
  · change 65 ≤ c.toNat at hl
    change c.toNat ≤ 90 at hr
    omega
  · change 97 ≤ c.toNat at hl
    change c.toNat ≤ 122 at hr
    omega
  · decide

theorem punctuation_ident {c : Char} {cs : List Char} (h : isIdentStart c = true) : punctuation (c :: cs) = none := by
  rw [punctuation.eq_def]
  split
  all_goals first
    | rfl
    | (rename_i heq
       cases heq
       exact absurd h (by decide))

/-- Behind the digits a numeral ends at a blank. -/
theorem numberText_spaced (hn : n.Ascii) {text : List Char} (h : IsNumeral n text) (rest : List Char) :
    numberText n (text ++ ' ' :: rest) = text := by
  have hblank : n.isDigit ' ' = false := hn.other (by decide) (by decide)
  cases h with
  | whole hne hds =>
    rw [numberText,dropWhile_stop hds hblank,takeWhile_stop hds hblank]
    split
    · rename_i heq
      cases heq
    · rfl
  | @point ds es hne hds hes hdigits =>
    have hdot : n.isDigit '.' = false := hn.other (by decide) (by decide)
    obtain ⟨e,es,rfl⟩ := List.exists_cons_of_ne_nil hes
    rw [List.append_assoc,List.cons_append,numberText,dropWhile_stop hds hdot,takeWhile_stop hds hdot]
    change (if n.isDigit e = true then ds ++ '.' :: (e :: es ++ ' ' :: rest).takeWhile n.isDigit else ds) = _
    rw [if_pos (hdigits e List.mem_cons_self),takeWhile_stop hdigits hblank]

theorem IsNumeral.starts {text : List Char} (h : IsNumeral n text) : ∃ c cs, text = c :: cs ∧ n.isDigit c = true := by
  cases h with
  | whole hne hds =>
    obtain ⟨c,cs,rfl⟩ := List.exists_cons_of_ne_nil hne
    exact ⟨c,cs,rfl,hds c List.mem_cons_self⟩
  | point hne hds =>
    obtain ⟨c,cs,rfl⟩ := List.exists_cons_of_ne_nil hne
    exact ⟨c,_,rfl,hds c List.mem_cons_self⟩

/-- A character that begins neither blanks, a numeral nor a quoted text. -/
structure Plain (n : Numerals) (c : Char) : Prop where
  blank : isBlank c = false
  digit : n.isDigit c = false
  quote : ¬ (c = '\'' ∨ c = '"')

theorem Numerals.Ascii.plain (hn : n.Ascii) {c : Char} (hc : c.toNat < 128 ∧ ¬ ('0' ≤ c ∧ c ≤ '9'))
    (h : isBlank c = false ∧ ¬ (c = '\'' ∨ c = '"')) : Plain n c := ⟨h.1,hn.other hc.1 hc.2,h.2⟩

theorem scan_plain {c : Char} {cs : List Char} (hc : Plain n c) {symbol : Symbol} {text : List Char}
    (h : punctuation (c :: cs) = some (symbol,text)) : scan n (c :: cs) = some (some symbol,text) := by
  rw [scan,if_neg (by rw [hc.blank]; exact Bool.false_ne_true),if_neg (by rw [hc.digit]; exact Bool.false_ne_true),if_neg hc.quote,h]

theorem scan_number (hn : n.Ascii) {text : List Char} (h : IsNumeral n text) (rest : List Char) :
    scan n (text ++ ' ' :: rest) = some (some (.number text),text) := by
  have htext := numberText_spaced hn h rest
  obtain ⟨c,cs,rfl,hdigit⟩ := h.starts
  rw [List.cons_append] at htext ⊢
  rw [scan,if_neg (by rw [hn.notBlank hdigit]; exact Bool.false_ne_true),if_pos hdigit,htext]

theorem scan_quoted (hn : n.Ascii) {raw : List Char} (h : IsQuoted raw) (rest : List Char) :
    scan n (raw ++ ' ' :: rest) = some (some (.string raw),raw) := by
  cases h with
  | @mk quote body hquote hbody =>
    have hblank : isBlank quote = false := by
      rcases hquote with rfl | rfl <;> rfl
    have hdigit : n.isDigit quote = false := by
      rcases hquote with rfl | rfl <;> exact hn.other (by decide) (by decide)
    rw [List.cons_append,scan,if_neg (by rw [hblank]; exact Bool.false_ne_true),if_neg (by rw [hdigit]; exact Bool.false_ne_true),
      if_pos hquote,(quotedBody_some hbody).2]
    rfl

theorem scan_name (hn : n.Ascii) {name : String} (h : IsName name) (rest : List Char) :
    scan n (name.toList ++ ' ' :: rest) = some (some (.ident name),name.toList) := by
  obtain ⟨c,cs,hname⟩ := List.exists_cons_of_ne_nil h.nonempty
  have hstart : isIdentStart c = true := h.starts c (by rw [hname]; rfl)
  have hparts : ∀ d ∈ cs, isIdentPart d = true := fun d hd => h.parts d (by rw [hname]; exact List.mem_cons_of_mem _ hd)
  have hbounds := isIdentStart_bounds hstart
  have hplain : Plain n c := by
    constructor
    · rw [← Bool.not_eq_true]
      intro hblank
      rcases isBlank_cases hblank with rfl | rfl | rfl | rfl <;> exact absurd hstart (by decide)
    · rw [← Bool.not_eq_true]
      intro hdigit
      have hle := ((hn c (by omega)).mp hdigit).2
      rw [Char.le_def,UInt32.le_iff_toNat_le] at hle
      change c.toNat ≤ 57 at hle
      omega
    · rintro (rfl | rfl) <;> exact absurd hstart (by decide)
  have hwhole : String.ofList (c :: cs) = name := by
    rw [← hname,String.ofList_toList]
  rw [hname,List.cons_append,scan,if_neg (by rw [hplain.blank]; exact Bool.false_ne_true),
    if_neg (by rw [hplain.digit]; exact Bool.false_ne_true),if_neg hplain.quote,punctuation_ident hstart,
    takeWhile_stop hparts (by decide : isIdentPart ' ' = false)]
  dsimp only
  rw [if_pos hstart,hwhole]

/-- A symbol of its form is cut again where a blank stands behind it. -/
theorem scan_spelled (hn : n.Ascii) {s : Symbol} (hs : Spelled n s) (rest : List Char) :
    scan n (s.text ++ ' ' :: rest) = some (some s,s.text) := by
  cases s with
  | number text => exact scan_number hn hs rest
  | string raw => exact scan_quoted hn hs rest
  | ident name => exact scan_name hn hs rest
  | cmp op => cases op <;> exact scan_plain (hn.plain (by decide) (by decide)) rfl
  | _ => exact scan_plain (hn.plain (by decide) (by decide)) rfl

/-- One iteration of the loop. -/
theorem tokenizeLoop_step {fuel pos : ℕ} {text rest : List Char} {symbol : Option Symbol}
    (h : scan n (text ++ rest) = some (symbol,text)) :
    tokenizeLoop n (fuel + 1) pos (text ++ rest) =
      (tokenizeLoop n fuel (pos + text.length) rest).map fun tokens => (symbol.map fun s => ⟨s,pos⟩).toList ++ tokens := by
  obtain ⟨hcut,-⟩ := scan_cut h
  have hne : text ≠ [] := by
    cases hcut with
    | blank hne => exact hne
    | symbol hne => exact hne
  obtain ⟨c,cs,rfl⟩ := List.exists_cons_of_ne_nil hne
  have hdrop : (c :: (cs ++ rest)).drop (c :: cs).length = rest := @List.drop_left _ (c :: cs) rest
  rw [List.cons_append] at h ⊢
  rw [tokenizeLoop,h]
  cases symbol with
  | none =>
    dsimp only
    rw [hdrop]
    cases tokenizeLoop n fuel (pos + (c :: cs).length) rest <;> rfl
  | some s =>
    dsimp only
    rw [hdrop]
    rfl

/-- What follows a blank does not go on with it. -/
theorem spaced_front (hn : n.Ascii) {symbols : List Symbol} (hs : ∀ s ∈ symbols, Spelled n s) :
    (spaced symbols).takeWhile isBlank = [] := by
  cases symbols with
  | nil => rfl
  | cons s symbols =>
    have hscan := scan_spelled hn (hs s List.mem_cons_self) (spaced symbols)
    rw [spaced,List.flatMap_cons,List.append_assoc,List.singleton_append]
    change (s.text ++ ' ' :: spaced symbols).takeWhile isBlank = []
    cases htext : s.text with
    | nil =>
      rw [htext] at hscan
      cases hscan
    | cons c cs =>
      apply List.takeWhile_cons_of_neg
      intro hblank
      rw [htext,List.cons_append,scan,if_pos hblank] at hscan
      cases hscan

theorem tokenizeLoop_spaced (hn : n.Ascii) {symbols : List Symbol} (hs : ∀ s ∈ symbols, Spelled n s) {fuel pos : ℕ}
    (hlen : (spaced symbols).length ≤ fuel) :
    ∃ tokens, tokenizeLoop n fuel pos (spaced symbols) = .ok tokens ∧ tokens.map Token.symbol = symbols := by
  induction symbols generalizing fuel pos with
  | nil =>
    refine ⟨[],?_,rfl⟩
    cases fuel <;> rfl
  | cons s symbols ih =>
    have hrest : ∀ s' ∈ symbols, Spelled n s' := fun s' hs' => hs s' (List.mem_cons_of_mem _ hs')
    have hscan : scan n (s.text ++ ([' '] ++ spaced symbols)) = some (some s,s.text) :=
      scan_spelled hn (hs s List.mem_cons_self) (spaced symbols)
    have hblank : scan n ([' '] ++ spaced symbols) = some (none,[' ']) := by
      rw [List.singleton_append,scan,if_pos (by decide : isBlank ' ' = true),spaced_front hn hrest]
    have hpos : 0 < s.text.length := by
      obtain ⟨hcut,-⟩ := scan_cut hscan
      cases hcut with
      | symbol hne => exact List.length_pos_iff.mpr hne
    have hwhole : spaced (s :: symbols) = s.text ++ ([' '] ++ spaced symbols) := by
      rw [spaced,List.flatMap_cons,List.append_assoc]
      rfl
    rw [hwhole] at hlen ⊢
    simp only [List.length_append,List.length_cons,List.length_nil] at hlen
    obtain ⟨fuel,rfl⟩ : ∃ k, fuel = k + 2 := ⟨fuel - 2,by omega⟩
    obtain ⟨tokens,htokens,hmap⟩ := @ih hrest fuel (pos + s.text.length + 1) (by omega)
    refine ⟨⟨s,pos⟩ :: tokens,?_,?_⟩
    · rw [tokenizeLoop_step hscan,tokenizeLoop_step hblank]
      change Except.map _ (Except.map _ (tokenizeLoop n fuel (pos + s.text.length + 1) (spaced symbols))) = _
      rw [htokens]
      rfl
    · rw [List.map_cons,hmap]

/-- Every list of symbols of their forms has a text that is cut into it. -/
theorem tokenize_spaced (hn : n.Ascii) {symbols : List Symbol} (hs : ∀ s ∈ symbols, Spelled n s) :
    ∃ tokens, tokenize n (spaced symbols) = .ok tokens ∧ tokens.map Token.symbol = symbols :=
  tokenizeLoop_spaced hn hs (Nat.le_refl _)

end Spaced
end Reyn.Expr
