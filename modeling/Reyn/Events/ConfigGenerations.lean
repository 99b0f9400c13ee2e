import Reyn.Events.SnapshotGenerations
import Reyn.Lib.Increasing
import Reyn.Lib.TextSubst

/-! # Config generations

Every change of a config registry is recorded as a whole file, under a name that
carries the registry's path and a sequence number. Recovery takes the latest
generation of the active branch, and collection keeps one generation below the
floor for each registry. What a file holds is a parameter.
-/
namespace Reyn
open Py

namespace ConfigGenerations

/-- `%` is escaped first, and a separator is mapped when no `_` is left. -/
def encode (relPath : List Char) : List Char :=
  Text.replace ['/'] ['_','_'] (Text.replace ['_'] ['%','5','F'] (Text.replace ['%'] ['%','2','5'] relPath))

def decode (safeRel : List Char) : List Char :=
  Text.replace ['%','2','5'] ['%'] (Text.replace ['%','5','F'] ['_'] (Text.replace ['_','_'] ['/'] safeRel))

def yamlSuffix : List Char := ['.','y','a','m','l']

/-- The name of the file of a generation. -/
def pathFor (relPath : List Char) (seq : ℕ) : List Char :=
  encode relPath ++ '@' :: (Nat.toDigits 10 seq ++ yamlSuffix)

/-- The digits before the suffix; the end may stand before a last line feed. -/
def seqBefore (tail : List Char) : Option ℕ :=
  let digits := tail.takeWhile Char.isDigit
  let rest := tail.dropWhile Char.isDigit
  if digits ≠ [] ∧ (rest = yamlSuffix ∨ rest = yamlSuffix ++ ['\n']) then some (Nat.ofDigitChars 10 digits 0) else none

/-- `_GEN_RE.match`: what follows the last `@` is a sequence number, what precedes it is not empty and on one line. -/
def matchGeneration (name : List Char) : Option (List Char × ℕ) :=
  match Text.splitLast '@' name with
  | some (rel,tail) => if rel ≠ [] ∧ '\n' ∉ rel then (seqBefore tail).map (rel,·) else none
  | none => none

/-- The path and the sequence number in the name of a file. -/
def decodeName (name : List Char) : Option (List Char × ℕ) :=
  (matchGeneration name).map fun p => (decode p.1,p.2)

section Store
variable {Content : Type}

/-- The files of the directory by name. -/
abbrev Directory (Content : Type) := Dict (List Char) Content

variable (dir : Directory Content)

def record (relPath : List Char) (content : Content) (seq : ℕ) : Directory Content := dir.set (pathFor relPath seq) content

/-- Each path with its sequence numbers in increasing order. -/
def entries : Dict (List Char) (List ℕ) :=
  (dir.keys.foldl (fun out name => match decodeName name with
    | some (rel,seq) => out.set rel ((out.get? rel).getD [] ++ [seq])
    | none => out) Dict.empty).mapVal fun _ seqs => seqs.mergeSort (· ≤ ·)

def seqsOf (relPath : List Char) : List ℕ := ((entries dir).get? relPath).getD []

/-- A generation with what its file holds. -/
def readGeneration (relPath : List Char) (seq : Option ℕ) : Option (ℕ × Option Content) :=
  seq.map fun s => (s,dir.get? (pathFor relPath s))

def latestAtOrBelow (relPath : List Char) (cut : ℤ) : Option (ℕ × Option Content) :=
  readGeneration dir relPath ((seqsOf dir relPath).filter fun s : ℕ => decide ((s : ℤ) ≤ cut)).getLast?

def latestActive (relPath : List Char) (wal : List Event) (scope : Scope) :
    Except PyError (Option (ℕ × Option Content)) := do
  let isActive ← buildActivePredicate wal scope
  return readGeneration dir relPath ((seqsOf dir relPath).filter isActive).getLast?

/-- The generations below the floor that are dropped: all but the highest of each path. -/
def droppedBelow (minKeepSeq : ℤ) : List (List Char) :=
  (entries dir).items.flatMap fun p =>
    let below := p.2.filter fun s : ℕ => decide ((s : ℤ) < minKeepSeq)
    if below.length ≤ 1 then [] else below.dropLast.map (pathFor p.1)

/-- `prune_below`, with the number of files dropped. -/
def pruneBelow (minKeepSeq : ℤ) : Directory Content × ℕ :=
  (dir.filterKeys fun name => decide (name ∉ droppedBelow dir minKeepSeq),
    ((droppedBelow dir minKeepSeq).filter fun name => decide (name ∈ dir.keys)).length)

inductive StoreOp (Content : Type) where
  | record (relPath : List Char) (content : Content) (seq : ℕ)
  | prune (minKeepSeq : ℤ)

def runOp (dir : Directory Content) : StoreOp Content → Directory Content
  | .record relPath content seq => record dir relPath content seq
  | .prune minKeepSeq => (pruneBelow dir minKeepSeq).1

/-- The directory after some operations on an empty one. -/
def runOps (ops : List (StoreOp Content)) : Directory Content := ops.foldl runOp Dict.empty

end Store

/-! ## The names -/

/-- What is written for one character of a path. -/
def encodeChar (c : Char) : List Char :=
  if c = '%' then ['%','2','5'] else if c = '_' then ['%','5','F'] else if c = '/' then ['_','_'] else [c]

/-- The same before the separators are mapped. -/
def escapeChar (c : Char) : List Char :=
  if c = '%' then ['%','2','5'] else if c = '_' then ['%','5','F'] else [c]

def escapePercent (c : Char) : List Char := if c = '%' then ['%','2','5'] else [c]

theorem encode_eq (relPath : List Char) : encode relPath = relPath.flatMap encodeChar := by
  have hpercent : Text.replace ['%'] ['%','2','5'] relPath = relPath.flatMap escapePercent := by
    have hsingle : relPath = relPath.flatMap fun c => [c] := by simp
    conv_lhs => rw [hsingle]
    apply Text.replace_flatMap
    intro c rest
    by_cases hc : c = '%'
    · subst hc
      exact Text.replace_hit rest rfl
    · rw [escapePercent,if_neg hc]
      exact Text.replace_cons_ne rfl hc
  have hunderscore : Text.replace ['_'] ['%','5','F'] (relPath.flatMap escapePercent) = relPath.flatMap escapeChar := by
    apply Text.replace_flatMap
    intro c rest
    rw [escapePercent,escapeChar]
    split
    · rw [List.cons_append,List.cons_append,List.cons_append,Text.replace_cons_ne rfl (by decide),
        Text.replace_cons_ne rfl (by decide),Text.replace_cons_ne rfl (by decide)]
      rfl
    · split
      · rename_i hc
        subst hc
        exact Text.replace_hit rest rfl
      · exact Text.replace_cons_ne rfl ‹_›
  rw [encode,hpercent,hunderscore]
  apply Text.replace_flatMap
  intro c rest
  rw [escapeChar,encodeChar]
  split
  · rw [List.cons_append,List.cons_append,List.cons_append,Text.replace_cons_ne rfl (by decide),
      Text.replace_cons_ne rfl (by decide),Text.replace_cons_ne rfl (by decide)]
    rfl
  · split
    · rw [List.cons_append,List.cons_append,List.cons_append,Text.replace_cons_ne rfl (by decide),
        Text.replace_cons_ne rfl (by decide),Text.replace_cons_ne rfl (by decide)]
      rfl
    · split
      · rename_i hc
        subst hc
        exact Text.replace_hit rest rfl
      · exact Text.replace_cons_ne rfl ‹_›

/-- Undoing the three substitutions in the reverse order. -/
theorem decode_encode (relPath : List Char) : decode (encode relPath) = relPath := by
  have hslash : Text.replace ['_','_'] ['/'] (encode relPath) = relPath.flatMap escapeChar := by
    rw [encode_eq]
    apply Text.replace_flatMap
    intro c rest
    rw [encodeChar,escapeChar]
    split
    · rw [List.cons_append,List.cons_append,List.cons_append,Text.replace_cons_ne rfl (by decide),
        Text.replace_cons_ne rfl (by decide),Text.replace_cons_ne rfl (by decide)]
      rfl
    · split
      · rw [List.cons_append,List.cons_append,List.cons_append,Text.replace_cons_ne rfl (by decide),
          Text.replace_cons_ne rfl (by decide),Text.replace_cons_ne rfl (by decide)]
        rfl
      · rename_i hunderscore
        split
        · rename_i hc
          subst hc
          exact Text.replace_hit rest rfl
        · exact Text.replace_cons_ne rfl hunderscore
  have hunderscore : Text.replace ['%','5','F'] ['_'] (relPath.flatMap escapeChar) = relPath.flatMap escapePercent := by
    apply Text.replace_flatMap
    intro c rest
    rw [escapeChar,escapePercent]
    split
    · rw [List.cons_append,List.cons_append,List.cons_append,Text.replace_miss (by simp [List.cons_prefix_cons]),
        Text.replace_cons_ne rfl (by decide),Text.replace_cons_ne rfl (by decide)]
      rfl
    · rename_i hpercent
      split
      · rename_i hc
        subst hc
        exact Text.replace_hit rest rfl
      · exact Text.replace_cons_ne rfl hpercent
  have hpercent : Text.replace ['%','2','5'] ['%'] (relPath.flatMap escapePercent) = relPath.flatMap fun c => [c] := by
    apply Text.replace_flatMap
    intro c rest
    rw [escapePercent]
    split
    · rename_i hc
      subst hc
      exact Text.replace_hit rest rfl
    · exact Text.replace_cons_ne rfl ‹_›
  rw [decode,hslash,hunderscore,hpercent]
  simp

theorem encode_eq_nil {relPath : List Char} : encode relPath = [] ↔ relPath = [] := by
  constructor
  · intro h
    rw [← decode_encode relPath,h]
    rfl
  · rintro rfl
    rfl

theorem newline_mem_encode {relPath : List Char} : '\n' ∈ encode relPath ↔ '\n' ∈ relPath := by
  rw [encode_eq,List.mem_flatMap]
  constructor
  · rintro ⟨c,hc,hmem⟩
    rw [encodeChar] at hmem
    split at hmem
    · simp at hmem
    · split at hmem
      · simp at hmem
      · split at hmem
        · simp at hmem
        · rwa [List.mem_singleton.mp hmem]
  · intro h
    exact ⟨_,h,by decide⟩

/-- A path whose generations are found again. -/
def Listed (relPath : List Char) : Prop := relPath ≠ [] ∧ '\n' ∉ relPath

theorem seqBefore_toDigits (seq : ℕ) : seqBefore (Nat.toDigits 10 seq ++ yamlSuffix) = some seq := by
  have hdigits : ∀ c ∈ Nat.toDigits 10 seq, c.isDigit = true := fun c hc =>
    Nat.isDigit_of_mem_toDigits (by decide) (by decide) hc
  have htake : (Nat.toDigits 10 seq ++ yamlSuffix).takeWhile Char.isDigit = Nat.toDigits 10 seq := by
    rw [List.takeWhile_append_of_pos hdigits]
    exact List.append_nil _
  have hdrop : (Nat.toDigits 10 seq ++ yamlSuffix).dropWhile Char.isDigit = yamlSuffix := by
    rw [List.dropWhile_append_of_pos hdigits]
    rfl
  dsimp only [seqBefore]
  rw [htake,hdrop,if_pos ⟨Nat.toDigits_ne_nil,.inl rfl⟩,Nat.ofDigitChars_ten_toDigits]

theorem splitLast_pathFor (relPath : List Char) (seq : ℕ) :
    Text.splitLast '@' (pathFor relPath seq) = some (encode relPath,Nat.toDigits 10 seq ++ yamlSuffix) := by
  apply Text.splitLast_append
  rw [List.mem_append,not_or]
  refine ⟨fun hmem => ?_,by decide⟩
  exact absurd (Nat.isDigit_of_mem_toDigits (by decide) (by decide) hmem) (by decide)

/-- The name of a generation says which one it is. -/
theorem decodeName_pathFor (relPath : List Char) (seq : ℕ) :
    decodeName (pathFor relPath seq) = if relPath ≠ [] ∧ '\n' ∉ relPath then some (relPath,seq) else none := by
  rw [decodeName,matchGeneration,splitLast_pathFor]
  simp only [seqBefore_toDigits,Option.map_some,ne_eq,encode_eq_nil,newline_mem_encode]
  split
  · rw [Option.map_some,decode_encode]
  · rfl

theorem decodeName_of_listed {relPath : List Char} (h : Listed relPath) (seq : ℕ) :
    decodeName (pathFor relPath seq) = some (relPath,seq) :=
  (decodeName_pathFor relPath seq).trans (if_pos h)

theorem pathFor_inj {relPath relPath' : List Char} {seq seq' : ℕ} (h : pathFor relPath seq = pathFor relPath' seq') :
    relPath = relPath' ∧ seq = seq' := by
  have hsplit := splitLast_pathFor relPath seq
  rw [h,splitLast_pathFor,Option.some.injEq,Prod.mk.injEq] at hsplit
  obtain ⟨hrel,htail⟩ := hsplit
  constructor
  · rw [← decode_encode relPath,← hrel,decode_encode]
  · apply Option.some.inj
    rw [← seqBefore_toDigits seq,← htail,seqBefore_toDigits]

/-! ## What a directory lists -/

section Store
variable {Content : Type} {dir : Directory Content}

/-- Every file is the generation of some path. -/
def Canonical (dir : Directory Content) : Prop := ∀ name ∈ dir.keys, ∃ relPath seq, name = pathFor relPath seq

/-- The sequence numbers that the names of a list give for a path. -/
def namedSeqs (names : List (List Char)) (relPath : List Char) : List ℕ :=
  names.filterMap fun name => ((decodeName name).filter (·.1 = relPath)).map Prod.snd

theorem entries_fold (names : List (List Char)) (out : Dict (List Char) (List ℕ)) (relPath : List Char) :
    ((names.foldl (fun out name => match decodeName name with
      | some (rel,seq) => out.set rel ((out.get? rel).getD [] ++ [seq])
      | none => out) out).get? relPath).getD [] = (out.get? relPath).getD [] ++ namedSeqs names relPath := by
  induction names generalizing out with
  | nil => exact (List.append_nil _).symm
  | cons name names ih =>
    rw [List.foldl_cons,ih]
    conv_rhs => rw [namedSeqs,List.filterMap_cons]
    cases hname : decodeName name with
    | none => rfl
    | some p =>
      obtain ⟨rel,seq⟩ := p
      dsimp only
      by_cases hrel : rel = relPath
      · subst hrel
        rw [Dict.get?_set_self,Option.filter_some,if_pos (by simp),Option.map_some,Option.getD_some,List.append_assoc]
        rfl
      · rw [Dict.get?_set_ne _ (Ne.symm hrel),Option.filter_some,if_neg (by simpa using hrel)]
        rfl

theorem seqsOf_eq (dir : Directory Content) (relPath : List Char) :
    seqsOf dir relPath = (namedSeqs dir.keys relPath).mergeSort (· ≤ ·) := by
  have hfold := entries_fold dir.keys Dict.empty relPath
  rw [seqsOf,entries,Dict.get?_mapVal]
  rw [Dict.get?_empty,Option.getD_none,List.nil_append] at hfold
  rw [← hfold]
  cases Dict.get? _ relPath with
  | none => exact List.mergeSort_nil.symm
  | some seqs => rfl

/-- In a canonical directory a sequence number is named by one file. -/
theorem named_of_canonical (hcanonical : Canonical dir) {relPath name : List Char} {seq : ℕ} (hname : name ∈ dir.keys)
    (h : ((decodeName name).filter (·.1 = relPath)).map Prod.snd = some seq) :
    Listed relPath ∧ name = pathFor relPath seq := by
  obtain ⟨p,hp,rfl⟩ := Option.map_eq_some_iff.mp h
  obtain ⟨hdecode,hrel⟩ := Option.filter_eq_some_iff.mp hp
  obtain ⟨rel,s,rfl⟩ := hcanonical name hname
  rw [decodeName_pathFor] at hdecode
  obtain ⟨hlisted,hdecode⟩ := Option.ite_none_right_eq_some.mp hdecode
  cases hdecode
  obtain rfl : rel = relPath := by simpa using hrel
  exact ⟨hlisted,rfl⟩

theorem namedSeqs_nodup (hcanonical : Canonical dir) (relPath : List Char) : (namedSeqs dir.keys relPath).Nodup := by
  rw [namedSeqs,List.Nodup,List.pairwise_filterMap]
  have hnodup : dir.keys.Pairwise (· ≠ ·) := dir.nodup
  refine List.Pairwise.imp_of_mem (fun {a b} ha hb hne => ?_) hnodup
  intro s hs s' hs' heq
  subst heq
  apply hne
  rw [(named_of_canonical hcanonical ha hs).2,(named_of_canonical hcanonical hb hs').2]

theorem mem_seqsOf (hcanonical : Canonical dir) {relPath : List Char} {seq : ℕ} :
    seq ∈ seqsOf dir relPath ↔ Listed relPath ∧ pathFor relPath seq ∈ dir.keys := by
  rw [seqsOf_eq,List.mem_mergeSort,namedSeqs,List.mem_filterMap]
  constructor
  · rintro ⟨name,hname,hseq⟩
    obtain ⟨hlisted,rfl⟩ := named_of_canonical hcanonical hname hseq
    exact ⟨hlisted,hname⟩
  · rintro ⟨hlisted,hname⟩
    refine ⟨_,hname,?_⟩
    rw [decodeName_of_listed hlisted,Option.filter_some,if_pos (by simp)]
    rfl

theorem seqsOf_increasing (hcanonical : Canonical dir) (relPath : List Char) : (seqsOf dir relPath).Pairwise (· < ·) := by
  rw [seqsOf_eq]
  have hle : ((namedSeqs dir.keys relPath).mergeSort (· ≤ ·)).Pairwise (· ≤ ·) := by
    have hsorted := @List.pairwise_mergeSort _ (fun a b : ℕ => decide (a ≤ b))
      (fun a b c hab hbc => by simp only [decide_eq_true_eq] at *; omega)
      (fun a b => by simp only [Bool.or_eq_true,decide_eq_true_eq]; omega) (namedSeqs dir.keys relPath)
    exact hsorted.imp fun h => of_decide_eq_true h
  have hnodup : ((namedSeqs dir.keys relPath).mergeSort (· ≤ ·)).Nodup :=
    (List.mergeSort_perm _ _).nodup_iff.mpr (namedSeqs_nodup hcanonical relPath)
  exact (hle.and hnodup).imp fun ⟨hab,hne⟩ => lt_of_le_of_ne hab hne

theorem Canonical.record (hcanonical : Canonical dir) (relPath : List Char) (content : Content) (seq : ℕ) :
    Canonical (record dir relPath content seq) := by
  intro name hname
  rw [ConfigGenerations.record,Dict.keys_set] at hname
  split at hname
  · exact hcanonical name hname
  · rcases List.mem_append.mp hname with hname | hname
    · exact hcanonical name hname
    · exact ⟨relPath,seq,List.mem_singleton.mp hname⟩

theorem mem_keys_prune {minKeepSeq : ℤ} {name : List Char} :
    name ∈ (pruneBelow dir minKeepSeq).1.keys ↔ name ∈ dir.keys ∧ name ∉ droppedBelow dir minKeepSeq := by
  simp only [Dict.mem_keys_iff,pruneBelow,Dict.get?_filterKeys,decide_eq_true_eq,Option.ite_none_right_eq_some]
  constructor
  · rintro ⟨v,hnot,hv⟩
    exact ⟨⟨v,hv⟩,hnot⟩
  · rintro ⟨⟨v,hv⟩,hnot⟩
    exact ⟨v,hnot,hv⟩

theorem Canonical.runOps (ops : List (StoreOp Content)) : Canonical (runOps ops) := by
  have hall : ∀ dir : Directory Content, Canonical dir → Canonical (ops.foldl runOp dir) := by
    induction ops with
    | nil => exact fun _ h => h
    | cons op ops ih =>
      intro dir hcanonical
      apply ih
      cases op with
      | record relPath content seq => exact hcanonical.record relPath content seq
      | prune minKeepSeq => exact fun name hname => hcanonical name (mem_keys_prune.mp hname).1
  exact hall Dict.empty fun _ hname => absurd hname List.not_mem_nil

theorem listed_ne_nil {relPath : List Char} (names : List (List Char)) (out : Dict (List Char) (List ℕ))
    (h : ∀ seqs, out.get? relPath = some seqs → seqs ≠ []) (seqs : List ℕ)
    (hseqs : (names.foldl (fun out name => match decodeName name with
      | some (rel,seq) => out.set rel ((out.get? rel).getD [] ++ [seq])
      | none => out) out).get? relPath = some seqs) : seqs ≠ [] := by
  induction names generalizing out with
  | nil => exact h seqs hseqs
  | cons name names ih =>
    apply ih _ _ hseqs
    intro seqs hseqs
    dsimp only at hseqs
    split at hseqs
    · rw [Dict.get?_set] at hseqs
      split at hseqs
      · cases hseqs
        exact List.append_ne_nil_of_right_ne_nil _ (List.cons_ne_nil _ _)
      · exact h seqs hseqs
    · exact h seqs hseqs

/-- A path is listed with at least one sequence number. -/
theorem entries_get? (dir : Directory Content) (relPath : List Char) (seqs : List ℕ) :
    (entries dir).get? relPath = some seqs ↔ seqs ≠ [] ∧ seqs = seqsOf dir relPath := by
  constructor
  · intro h
    refine ⟨?_,by rw [seqsOf,h]; rfl⟩
    rw [entries,Dict.get?_mapVal,Option.map_eq_some_iff] at h
    obtain ⟨unsorted,hget,rfl⟩ := h
    have hunsorted : unsorted ≠ [] := by
      apply listed_ne_nil dir.keys Dict.empty _ unsorted hget
      intro seqs hseqs
      cases hseqs
    rw [ne_eq,← List.length_eq_zero_iff,List.length_mergeSort,List.length_eq_zero_iff]
    exact hunsorted
  · rintro ⟨hseqs,rfl⟩
    rw [seqsOf] at hseqs ⊢
    cases hget : (entries dir).get? relPath with
    | none =>
      rw [hget] at hseqs
      exact absurd rfl hseqs
    | some seqs => rfl

/-- The directory after recording some generations. -/
def recordAll (gens : List (List Char × ℕ × Content)) : Directory Content :=
  runOps (gens.map fun g => .record g.1 g.2.2 g.2.1)

theorem mem_keys_recordAll {gens : List (List Char × ℕ × Content)} {name : List Char} :
    name ∈ (recordAll gens).keys ↔ ∃ g ∈ gens, name = pathFor g.1 g.2.1 := by
  have hall : ∀ dir : Directory Content, name ∈ ((gens.map fun g => StoreOp.record g.1 g.2.2 g.2.1).foldl runOp dir).keys ↔
      name ∈ dir.keys ∨ ∃ g ∈ gens, name = pathFor g.1 g.2.1 := by
    induction gens with
    | nil => simp
    | cons g gens ih =>
      intro dir
      rw [List.map_cons,List.foldl_cons,ih,runOp,record,List.exists_mem_cons_iff,← or_assoc]
      apply or_congr_left
      rw [Dict.keys_set]
      split
      · rename_i hmem
        exact ⟨.inl,fun h => h.elim id fun heq => heq ▸ hmem⟩
      · simp
  refine (hall Dict.empty).trans ?_
  simp

/-- The name of a generation gives its path and its number back, two generations never share a file, and the entries are
what was recorded, for the paths that are not empty and have no line break. -/
theorem generation_names_reversible (gens : List (List Char × ℕ × Content)) :
    (∀ relPath seq, relPath ≠ [] → '\n' ∉ relPath → decodeName (pathFor relPath seq) = some (relPath,seq)) ∧
    (∀ relPath seq relPath' seq', pathFor relPath seq = pathFor relPath' seq' → relPath = relPath' ∧ seq = seq') ∧
    (∀ relPath seqs, (entries (recordAll gens)).get? relPath = some seqs ↔ seqs ≠ [] ∧ seqs = seqsOf (recordAll gens) relPath) ∧
    (∀ relPath, (seqsOf (recordAll gens) relPath).Pairwise (· < ·)) ∧
    ∀ relPath seq, seq ∈ seqsOf (recordAll gens) relPath ↔
      (relPath ≠ [] ∧ '\n' ∉ relPath) ∧ ∃ content, (relPath,seq,content) ∈ gens := by
  refine ⟨fun relPath seq hne hline => decodeName_of_listed ⟨hne,hline⟩ seq,fun _ _ _ _ h => pathFor_inj h,?_,?_,?_⟩
  · exact entries_get? _
  · exact seqsOf_increasing (.runOps _)
  · intro relPath seq
    have hcanonical : Canonical (recordAll gens) := .runOps _
    rw [mem_seqsOf hcanonical,mem_keys_recordAll]
    apply and_congr_right
    rintro -
    constructor
    · rintro ⟨⟨rel,s,content⟩,hg,heq⟩
      obtain ⟨rfl,rfl⟩ := pathFor_inj heq
      exact ⟨content,hg⟩
    · rintro ⟨content,hg⟩
      exact ⟨_,hg,rfl⟩

/-- The pattern wants a path that is not empty. -/
theorem empty_path_not_listed : ¬ ∀ (relPath : List Char) (seq : ℕ), '\n' ∉ relPath →
    decodeName (pathFor relPath seq) = some (relPath,seq) := by
  intro h
  have hempty := h [] 5 List.not_mem_nil
  rw [decodeName_pathFor,if_neg fun hne => hne.1 rfl] at hempty
  cases hempty

/-! ## What collection takes away -/

theorem mem_droppedBelow {minKeepSeq : ℤ} {relPath : List Char} {seq : ℕ} :
    pathFor relPath seq ∈ droppedBelow dir minKeepSeq ↔
      seq ∈ ((seqsOf dir relPath).filter fun s : ℕ => decide ((s : ℤ) < minKeepSeq)).dropLast := by
  have hshort : ∀ below : List ℕ, below.length ≤ 1 → below.dropLast = [] := by
    intro below hle
    rw [← List.length_eq_zero_iff,List.length_dropLast]
    omega
  rw [droppedBelow,List.mem_flatMap]
  constructor
  · rintro ⟨p,hp,hmem⟩
    dsimp only at hmem
    split at hmem
    · cases hmem
    · obtain ⟨s,hs,heq⟩ := List.mem_map.mp hmem
      obtain ⟨hrel,rfl⟩ := pathFor_inj heq
      have hseqs := ((entries_get? dir p.1 p.2).mp (Dict.get?_of_mem hp)).2
      rw [← hrel,← hseqs]
      exact hs
  · intro hmem
    have hne : seqsOf dir relPath ≠ [] := fun hnil => by rw [hnil] at hmem; cases hmem
    refine ⟨(relPath,seqsOf dir relPath),Dict.mem_of_get? ((entries_get? _ _ _).mpr ⟨hne,rfl⟩),?_⟩
    dsimp only
    split
    · rw [hshort _ ‹_›] at hmem
      cases hmem
    · exact List.mem_map_of_mem hmem

/-- Another generation of the path lies between this one and the floor. -/
def Superseded (dir : Directory Content) (minKeepSeq : ℤ) (relPath : List Char) (seq : ℕ) : Prop :=
  ∃ later ∈ seqsOf dir relPath, seq < later ∧ (later : ℤ) < minKeepSeq

theorem mem_seqsOf_prune (hcanonical : Canonical dir) {minKeepSeq : ℤ} {relPath : List Char} {seq : ℕ} :
    seq ∈ seqsOf (pruneBelow dir minKeepSeq).1 relPath ↔
      seq ∈ seqsOf dir relPath ∧ ¬ Superseded dir minKeepSeq relPath seq := by
  have hpruned : Canonical (pruneBelow dir minKeepSeq).1 := fun name hname => hcanonical name (mem_keys_prune.mp hname).1
  rw [mem_seqsOf hpruned,mem_seqsOf hcanonical,mem_keys_prune,mem_droppedBelow,
    Increasing.mem_dropLast_iff ((seqsOf_increasing hcanonical relPath).sublist List.filter_sublist),and_assoc]
  apply and_congr_right
  intro hlisted
  apply and_congr_right
  intro hname
  apply not_congr
  simp only [List.mem_filter,decide_eq_true_eq]
  constructor
  · rintro ⟨-,later,⟨hlater,hfloor⟩,hlt⟩
    exact ⟨later,hlater,hlt,hfloor⟩
  · rintro ⟨later,hlater,hlt,hfloor⟩
    exact ⟨⟨(mem_seqsOf hcanonical).mpr ⟨hlisted,hname⟩,by omega⟩,later,⟨hlater,hfloor⟩,hlt⟩

theorem get?_prune {minKeepSeq : ℤ} {relPath : List Char} {seq : ℕ} (h : ¬ Superseded dir minKeepSeq relPath seq)
    (hcanonical : Canonical dir) :
    (pruneBelow dir minKeepSeq).1.get? (pathFor relPath seq) = dir.get? (pathFor relPath seq) := by
  rw [pruneBelow,Dict.get?_filterKeys,if_pos]
  rw [decide_eq_true_eq,mem_droppedBelow,
    Increasing.mem_dropLast_iff ((seqsOf_increasing hcanonical relPath).sublist List.filter_sublist)]
  rintro ⟨-,later,hlater,hlt⟩
  obtain ⟨hlater,hfloor⟩ := List.mem_filter.mp hlater
  exact h ⟨later,hlater,hlt,of_decide_eq_true hfloor⟩

/-- A reader finds the same generation after the collection exactly when the one it finds is not superseded. -/
theorem readGeneration_prune_iff (hcanonical : Canonical dir) {minKeepSeq : ℤ} {relPath : List Char} {p : ℕ → Bool} :
    readGeneration (pruneBelow dir minKeepSeq).1 relPath ((seqsOf (pruneBelow dir minKeepSeq).1 relPath).filter p).getLast? =
        readGeneration dir relPath ((seqsOf dir relPath).filter p).getLast? ↔
      ∀ seq, ((seqsOf dir relPath).filter p).getLast? = some seq → ¬ Superseded dir minKeepSeq relPath seq := by
  have hpruned : Canonical (pruneBelow dir minKeepSeq).1 := fun name hname => hcanonical name (mem_keys_prune.mp hname).1
  constructor
  · intro h seq hseq hsuperseded
    rw [hseq,readGeneration,readGeneration,Option.map_some,Option.map_eq_some_iff] at h
    obtain ⟨s,hs,heq⟩ := h
    obtain rfl : s = seq := congrArg Prod.fst heq
    have hmem := List.mem_of_mem_filter (List.mem_of_getLast? hs)
    exact ((mem_seqsOf_prune hcanonical).mp hmem).2 hsuperseded
  · intro h
    have hlast := Increasing.getLast?_filter_eq (seqsOf_increasing hcanonical relPath) (seqsOf_increasing hpruned relPath)
      (p := p) (fun a ha => ((mem_seqsOf_prune hcanonical).mp ha).1)
      (fun a ha => (mem_seqsOf_prune hcanonical).mpr ⟨List.mem_of_mem_filter (List.mem_of_getLast? ha),h a ha⟩)
    rw [hlast]
    cases hseq : ((seqsOf dir relPath).filter p).getLast? with
    | none => rfl
    | some seq =>
      rw [readGeneration,readGeneration,Option.map_some,Option.map_some,get?_prune (h seq hseq) hcanonical]

/-- At a cut that is not below the floor the collection is never seen. -/
theorem latestAtOrBelow_prune (hcanonical : Canonical dir) {minKeepSeq cut : ℤ} (hle : minKeepSeq ≤ cut)
    (relPath : List Char) : latestAtOrBelow (pruneBelow dir minKeepSeq).1 relPath cut = latestAtOrBelow dir relPath cut := by
  refine (readGeneration_prune_iff hcanonical).mpr fun seq hseq ⟨later,hlater,hlt,hfloor⟩ => ?_
  have hmax := ((Increasing.getLast?_filter_iff (seqsOf_increasing hcanonical relPath)).mp hseq).2.2 later hlater
    (by rw [decide_eq_true_eq]; omega)
  omega

/-- The newest active generation of a path, with an abandoned one between it and the floor. -/
def ActiveBaseDropped (dir : Directory Content) (minKeepSeq : ℤ) (isActive : ℕ → Bool) (relPath : List Char) : Prop :=
  ∃ seq ∈ seqsOf dir relPath, isActive seq = true ∧ (∀ other ∈ seqsOf dir relPath, isActive other = true → other ≤ seq) ∧
    ∃ later ∈ seqsOf dir relPath, seq < later ∧ (later : ℤ) < minKeepSeq

/-- Collection is invisible exactly when no path has an abandoned generation between its newest active one and the
floor. -/
theorem prune_invisible_iff (ops : List (StoreOp Content)) (wal : List Event) (scope : Scope) (minKeepSeq : ℤ) :
    ((∀ relPath, latestActive (pruneBelow (runOps ops) minKeepSeq).1 relPath wal scope =
        latestActive (runOps ops) relPath wal scope) ∧
      ∀ relPath cut, minKeepSeq ≤ cut →
        latestAtOrBelow (pruneBelow (runOps ops) minKeepSeq).1 relPath cut = latestAtOrBelow (runOps ops) relPath cut) ↔
    ∀ isActive, buildActivePredicate wal scope = .ok isActive →
      ∀ relPath, ¬ ActiveBaseDropped (runOps ops) minKeepSeq isActive relPath := by
  have hcanonical := Canonical.runOps ops
  rw [and_iff_left fun relPath cut hle => latestAtOrBelow_prune hcanonical hle relPath]
  cases hactive : buildActivePredicate wal scope with
  | error e =>
    refine iff_of_true (fun relPath => ?_) nofun
    rw [latestActive,latestActive,hactive]
    rfl
  | ok isActive =>
    have hpath : ∀ relPath, latestActive (pruneBelow (runOps ops) minKeepSeq).1 relPath wal scope =
        latestActive (runOps ops) relPath wal scope ↔ ¬ ActiveBaseDropped (runOps ops) minKeepSeq isActive relPath := by
      intro relPath
      have hread := @readGeneration_prune_iff _ _ hcanonical minKeepSeq relPath isActive
      have hlast := fun seq => Increasing.getLast?_filter_iff (seqsOf_increasing hcanonical relPath) (p := isActive) (a := seq)
      rw [latestActive,latestActive,hactive]
      constructor
      · rintro h ⟨seq,hmem,hact,hmax,hsuperseded⟩
        exact hread.mp (Except.ok.inj h) seq ((hlast seq).mpr ⟨hmem,hact,hmax⟩) hsuperseded
      · intro h
        refine congrArg Except.ok (hread.mpr fun seq hseq hsuperseded => ?_)
        obtain ⟨hmem,hact,hmax⟩ := (hlast seq).mp hseq
        exact h ⟨seq,hmem,hact,hmax,hsuperseded⟩
    simp only [hpath,Except.ok.injEq,forall_eq']

end Store

/-! ## A generation that a rewind abandoned -/

section Sample

/-- Generations at 2 and 5; the rewind at 7 to 3 abandons the second. -/
def rewound : List (StoreOp Unit) :=
  [.record "config/mcp.yaml".toList () 2,.record "config/mcp.yaml".toList () 5]

def rewoundWal : List Event := [walEntry 7 "t" "rewind" (checkoutFields 3 none none)]

/-- The only active generation is dropped, the abandoned one is kept. -/
theorem abandoned_base_kept : ¬ ∀ (ops : List (StoreOp Unit)) (wal : List Event) (minKeepSeq : ℤ) (relPath : List Char),
    latestActive (pruneBelow (runOps ops) minKeepSeq).1 relPath wal none = latestActive (runOps ops) relPath wal none := by
  intro h
  have hactive := h rewound rewoundWal 10 "config/mcp.yaml".toList
  have hbefore : (latestActive (runOps rewound) "config/mcp.yaml".toList rewoundWal none).toOption = some (some (2,some ())) := by
    decide_cbv
  have hafter : (latestActive (pruneBelow (runOps rewound) 10).1 "config/mcp.yaml".toList rewoundWal none).toOption =
      some none := by
    decide_cbv
  rw [hactive,hbefore] at hafter
  cases hafter

end Sample

end ConfigGenerations
end Reyn
