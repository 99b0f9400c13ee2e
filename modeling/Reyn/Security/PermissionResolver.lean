import Reyn.Security.ApprovalWriters

/-! # The permission resolver

One resolver shared by the sessions of all agents of a process: the configuration, the
session cache, the folded ledger, and the prompts that wait for their answers.
-/
namespace Reyn
open Py Transition

/-- The answers to a generic prompt; any other text counts as no. -/
inductive Choice where
  | yes
  | always
  | no
  | never
  deriving DecidableEq

/-- What became of the session cache for a key: an answer, or a saved decision that was looked up. -/
inductive Word where
  | answered (key agent : String) (choice : Choice)
  | applied (key agent : String) (approved : Bool)
  deriving DecidableEq

namespace Word

def key : Word → String
  | answered key _ _ | applied key _ _ => key

def agent : Word → String
  | answered _ agent _ | applied _ agent _ => agent

def affirmative : Word → Bool
  | answered _ _ choice => choice == .yes || choice == .always
  | applied _ _ approved => approved

end Word

/-- `words` keeps what was said in this process, the newest first. -/
structure PermissionWorld where
  session : Dict String Bool
  saved : Option Approvals
  file : Option Bytes
  legacy : Option (List (String × Value))
  pending : List (String × String)
  words : List Word

/-- What a request comes to. -/
inductive Reply where
  | granted
  | refused
  | prompted
  /-- The ledger could not be read. -/
  | raised
  deriving DecidableEq

inductive PermissionAction where
  | request (key agent ts : String)
  | answer (i : ℕ) (choice : Choice) (ts : String)
  | restart
  /-- Another process writes to the ledger. -/
  | rewritten (file : Option Bytes)

namespace PermissionResolver

def allows : Option Value → Bool
  | some (.str s) => s == "allow"
  | _ => false

/-- `_is_config_approved` -/
def isConfigApproved (config : List (String × Value)) (key : String) : Bool :=
  allows (config.lookup key) || (key.toList.contains '.' &&
    let top := String.ofList (key.toList.takeWhile (· ≠ '.'))
    let sub := String.ofList ((key.toList.dropWhile (· ≠ '.')).drop 1)
    allows (config.lookup top) || match config.lookup top with
      | some (.dict fields) => allows (Value.get? fields sub)
      | _ => false)

/-- The key or a part of it that has a dot. -/
def configAllows (config : List (String × Value)) (key : String) : Bool :=
  isConfigApproved config key ||
    (splitLines (· == '/') key.toList).any fun part => part.contains '.' && isConfigApproved config (String.ofList part)

/-- `_scope_covers_agent` -/
def scopeCoversAgent (maps : Approvals) (key agentName : String) : Bool :=
  let scope := (maps.scopes.get? key).getD scopeLegacyWorkspace
  scope == scopeWorkspace || scope == scopeLegacyWorkspace || scope == scopeForAgent agentName

/-- The scope of a new decision. -/
def scopeFor (agentName : String) : String := if agentName = "" then scopeWorkspace else scopeForAgent agentName

section Resolver
variable (floatOf : ℤ → FloatLit) (config : List (String × Value)) (interactive : Bool)

/-- `migrate_legacy_snapshot` of a process that is alone -/
def migrate (w : PermissionWorld) (ts : String) : Option Bytes :=
  match w.file with
  | some b => some (if b.getLast?.all (· == 10) then b else b ++ [10])
  | none =>
    let entries := (ApprovalLedger.legacyEntries floatOf (w.legacy.getD [])).map fun e => (e,ts)
    if entries = [] then none else some (ApprovalLedger.linesOf entries)

/-- `_ensure_folded`: the maps, loaded at the first look. -/
def ensureFolded (w : PermissionWorld) (ts : String) : Option Approvals :=
  match w.saved with
  | some maps => some maps
  | none => ApprovalLedger.fold floatOf (migrate floatOf w ts)

def loadedFile (w : PermissionWorld) (ts : String) : Option Bytes :=
  match w.saved with
  | some _ => w.file
  | none => migrate floatOf w ts

/-- The word on a key and the cache entry it makes. -/
def say (w : PermissionWorld) (word : Word) : PermissionWorld :=
  { w with session := w.session.set word.key word.affirmative, words := word :: w.words }

def load (w : PermissionWorld) (ts : String) : PermissionWorld :=
  { w with saved := ensureFolded floatOf w ts, file := loadedFile floatOf w ts }

/-- A prompt is put up; without anybody to answer the request is refused. -/
def ask (w : PermissionWorld) (key agentName : String) : PermissionWorld × Reply :=
  if interactive then ({ w with pending := w.pending ++ [(key,agentName)] },.prompted) else (w,.refused)

/-- The part of `_approve` that looks at the saved decisions, up to its prompt. -/
def decideSaved (w : PermissionWorld) (maps : Approvals) (key agentName : String) : PermissionWorld × Reply :=
  match maps.approvals.get? key with
  | some false => (say w (.applied key agentName false),.refused)
  | some true =>
    if scopeCoversAgent maps key agentName then (say w (.applied key agentName true),.granted)
    else ask interactive w key agentName
  | none => ask interactive w key agentName

/-- `_approve` up to its prompt. -/
def approve (w : PermissionWorld) (key agentName ts : String) : PermissionWorld × Reply :=
  if configAllows config key then (w,.granted)
  else match w.session.get? key with
    | some v => (w,if v then .granted else .refused)
    | none =>
      match ensureFolded floatOf w ts with
      | none => (load floatOf w ts,.raised)
      | some maps => decideSaved interactive (load floatOf w ts) maps key agentName

/-- `_persist`; `none` where the ledger cannot be read. -/
def persist (w : PermissionWorld) (key : String) (approved : Bool) (agentName ts : String) : Option PermissionWorld :=
  (ensureFolded floatOf w ts).map fun maps =>
    { w with
      saved := some
        { approvals := maps.approvals.set key approved
          bound := if approved then maps.bound else maps.bound.pop key
          scopes := maps.scopes.set key (scopeFor agentName) }
      file := some ((loadedFile floatOf w ts).getD [] ++
        (ApprovalEntry.approval key approved (some (scopeFor agentName))).line ts) }

/-- `_prompt` after its answer. -/
def answered (w : PermissionWorld) (key agentName : String) (choice : Choice) (ts : String) : Option PermissionWorld :=
  match choice with
  | .yes | .no => some (say w (.answered key agentName choice))
  | .always => (persist floatOf w key true agentName ts).map fun w => say w (.answered key agentName choice)
  | .never => (persist floatOf w key false agentName ts).map fun w => say w (.answered key agentName choice)

def step (w : PermissionWorld) : PermissionAction → Option PermissionWorld
  | .request key agentName ts => some (approve floatOf config interactive w key agentName ts).1
  | .answer i choice ts => w.pending[i]?.bind fun p =>
    answered floatOf { w with pending := w.pending.eraseIdx i } p.1 p.2 choice ts
  | .restart => some { w with session := .empty, saved := none, pending := [], words := [] }
  | .rewritten file => some { w with file := file }

/-! ## What entitles an agent -/

/-- A grant of the key is in force whose scope covers the agent. -/
def InForce (w : PermissionWorld) (key agentName ts : String) : Prop :=
  ∃ maps, ensureFolded floatOf w ts = some maps ∧ maps.approvals.get? key = some true ∧ scopeCoversAgent maps key agentName = true

/-- The configuration, a grant in force or an own yes in this process. -/
def Entitled (w : PermissionWorld) (key agentName ts : String) : Prop :=
  configAllows config key = true ∨ InForce floatOf w key agentName ts ∨ .answered key agentName .yes ∈ w.words

end Resolver

/-- The last word on a key in this process. -/
def lastWord (w : PermissionWorld) (key : String) : Option Word := w.words.find? fun word => word.key == key

/-- The last word on the key was an affirmative one of another agent. -/
def OthersYes (w : PermissionWorld) (key agentName : String) : Prop :=
  ∃ word, lastWord w key = some word ∧ word.affirmative = true ∧ word.agent ≠ agentName

/-! ## The invariant -/

/-- The saved decision behind a word. -/
def Backed (saved : Option Approvals) (word : Word) : Prop :=
  ∃ maps, saved = some maps ∧ maps.approvals.get? word.key = some true ∧ scopeCoversAgent maps word.key word.agent = true

/-- The cache keeps the last words; those that lean on a saved decision have it. -/
structure Inv (w : PermissionWorld) : Prop where
  session : ∀ key, w.session.get? key = (lastWord w key).map Word.affirmative
  backed : ∀ key word, lastWord w key = some word → word.affirmative = true →
    Backed w.saved word ∨ word = .answered key word.agent .yes

section Invariant
variable {floatOf : ℤ → FloatLit} {config : List (String × Value)} {interactive : Bool} {w w' : PermissionWorld}
  {key agentName ts : String}

theorem lastWord_say (word : Word) (key : String) :
    lastWord (say w word) key = if word.key = key then some word else lastWord w key := by
  rw [lastWord,say,List.find?_cons]
  by_cases h : word.key = key
  · rw [if_pos h,h,beq_self_eq_true]
  · rw [if_neg h,beq_eq_false_iff_ne.mpr h]
    rfl

/-- A new word with its decision. -/
theorem Inv.say (h : Inv w) {word : Word}
    (hb : word.affirmative = true → Backed w.saved word ∨ word = .answered word.key word.agent .yes) : Inv (say w word) where
  session := by
    intro key
    rw [lastWord_say]
    by_cases hk : word.key = key
    · subst hk
      rw [if_pos rfl]
      exact Dict.get?_set_self _ _ _
    · rw [if_neg hk,← h.session key]
      exact Dict.get?_set_ne _ (fun he => hk he.symm) _
  backed := by
    intro key said hlast haff
    rw [lastWord_say] at hlast
    by_cases hk : word.key = key
    · rw [if_pos hk] at hlast
      cases hlast
      rw [← hk]
      exact hb haff
    · rw [if_neg hk] at hlast
      exact h.backed key said hlast haff

/-- Loading the maps, or new prompts and new bytes, leave the words as they are. -/
theorem Inv.of_same (h : Inv w) (hs : w'.session = w.session) (hw : w'.words = w.words)
    (hsaved : ∀ maps, w.saved = some maps → w'.saved = some maps) : Inv w' where
  session := by
    intro key
    rw [hs,h.session,lastWord,lastWord,hw]
  backed := by
    intro key word hlast haff
    rw [lastWord,hw] at hlast
    rcases h.backed key word hlast haff with ⟨maps,hmaps,hb⟩ | hyes
    · exact .inl ⟨maps,hsaved maps hmaps,hb⟩
    · exact .inr hyes

theorem ensureFolded_saved {maps : Approvals} (h : w.saved = some maps) : ensureFolded floatOf w ts = some maps := by
  rw [ensureFolded,h]

theorem Inv.loaded (h : Inv w) (ts : String) : Inv (load floatOf w ts) :=
  h.of_same rfl rfl fun _ hmaps => ensureFolded_saved hmaps

theorem Inv.ask (h : Inv w) (key agentName : String) : Inv (ask interactive w key agentName).1 := by
  unfold PermissionResolver.ask
  split
  · exact h.of_same rfl rfl fun _ hm => hm
  · exact h

theorem ask_ne_granted : (ask interactive w key agentName).2 ≠ .granted := by
  unfold ask
  split <;> exact nofun

theorem Inv.decideSaved (h : Inv w) {maps : Approvals} (hs : w.saved = some maps) (key agentName : String) :
    Inv (decideSaved interactive w maps key agentName).1 := by
  unfold PermissionResolver.decideSaved
  split
  · apply h.say
    exact nofun
  · rename_i htrue
    split
    · rename_i hcovers
      apply h.say
      intro _
      exact .inl ⟨maps,hs,htrue,hcovers⟩
    · exact h.ask key agentName
  · exact h.ask key agentName

theorem decideSaved_granted_iff {maps : Approvals} : (decideSaved interactive w maps key agentName).2 = .granted ↔
    maps.approvals.get? key = some true ∧ scopeCoversAgent maps key agentName = true := by
  unfold decideSaved
  split
  · rename_i hfalse
    simp [hfalse]
  · rename_i htrue
    split
    · rename_i hcovers
      simp [htrue,hcovers]
    · rename_i hcovers
      simp [ask_ne_granted,hcovers]
  · rename_i habsent
    simp [ask_ne_granted,habsent]

theorem Inv.approve (h : Inv w) (key agentName ts : String) : Inv (approve floatOf config interactive w key agentName ts).1 := by
  unfold PermissionResolver.approve
  split
  · exact h
  · split
    · exact h
    · split
      · exact h.loaded ts
      · rename_i maps hmaps
        exact (h.loaded ts).decideSaved hmaps key agentName

theorem scopeCoversAgent_persisted (maps : Approvals) (key agentName : String) :
    scopeCoversAgent { maps with scopes := maps.scopes.set key (scopeFor agentName) } key agentName = true := by
  rw [scopeCoversAgent,Dict.get?_set_self,Option.getD_some,scopeFor]
  split
  · simp
  · simp

/-- A decision that is persisted is saved for its agent, and the other keys keep theirs. -/
theorem Inv.persist (h : Inv w) {choice : Choice} {approved : Bool} (hc : approved = (choice == .always)) (hne : choice ≠ .yes)
    (hp : persist floatOf w key approved agentName ts = some w') : Inv (PermissionResolver.say w' (.answered key agentName choice)) := by
  obtain ⟨maps,hmaps,rfl⟩ := Option.map_eq_some_iff.mp hp
  constructor
  · intro k
    rw [lastWord_say]
    by_cases hk : key = k
    · subst hk
      rw [if_pos (show (Word.answered key agentName choice).key = key from rfl)]
      exact Dict.get?_set_self _ _ _
    · rw [if_neg (show (Word.answered key agentName choice).key ≠ k from hk)]
      exact (Dict.get?_set_ne _ (fun he => hk he.symm) _).trans (h.session k)
  · intro k word hlast haff
    rw [lastWord_say] at hlast
    split at hlast
    · rename_i hk
      obtain rfl : key = k := hk
      cases hlast
      have happroved : approved = true := by
        rw [hc]
        cases choice with
        | yes => exact absurd rfl hne
        | always => rfl
        | no | never => cases haff
      left
      refine ⟨_,rfl,?_,scopeCoversAgent_persisted _ key agentName⟩
      rw [happroved]
      exact Dict.get?_set_self _ _ _
    · rename_i hk
      have hword : word.key = k := by simpa using List.find?_some hlast
      have hother : word.key ≠ key := fun he => hk (he.symm.trans hword)
      rcases h.backed k word hlast haff with ⟨old,hold,htrue,hcovers⟩ | hyes
      · obtain rfl : maps = old := Option.some.inj (hmaps.symm.trans (ensureFolded_saved hold))
        left
        refine ⟨_,rfl,(Dict.get?_set_ne _ hother _).trans htrue,?_⟩
        rw [scopeCoversAgent] at hcovers ⊢
        rw [Dict.get?_set_ne _ hother]
        exact hcovers
      · exact .inr hyes

theorem Inv.answered (h : Inv w) {choice : Choice} (ha : answered floatOf w key agentName choice ts = some w') : Inv w' := by
  cases choice with
  | yes =>
    cases ha
    apply h.say
    intro _
    exact .inr rfl
  | no =>
    cases ha
    apply h.say
    exact nofun
  | always =>
    obtain ⟨v,hv,rfl⟩ := Option.map_eq_some_iff.mp ha
    exact h.persist rfl nofun hv
  | never =>
    obtain ⟨v,hv,rfl⟩ := Option.map_eq_some_iff.mp ha
    exact h.persist rfl nofun hv

theorem Inv.step (h : Inv w) {a : PermissionAction} (hs : step floatOf config interactive w a = some w') : Inv w' := by
  cases a with
  | request key agentName ts =>
    cases hs
    exact h.approve key agentName ts
  | answer i choice ts =>
    obtain ⟨p,-,ha⟩ := Option.bind_eq_some_iff.mp hs
    have hpending : Inv { w with pending := w.pending.eraseIdx i } := h.of_same rfl rfl fun _ hm => hm
    exact hpending.answered ha
  | restart =>
    cases hs
    exact ⟨fun _ => rfl,nofun⟩
  | rewritten file =>
    cases hs
    exact h.of_same rfl rfl fun _ hm => hm

/-- A process that starts. -/
def start (file : Option Bytes) (legacy : Option (List (String × Value))) : PermissionWorld := ⟨.empty,none,file,legacy,[],[]⟩

theorem inv_run {file : Option Bytes} {legacy : Option (List (String × Value))} {guard : PermissionWorld → PermissionAction → Prop}
    (h : Runs (step floatOf config interactive) guard (start file legacy) w) : Inv w := by
  apply h.invariant (I := Inv)
  · exact ⟨fun _ => rfl,nofun⟩
  · intro s a t hs _ ht
    exact hs.step ht

/-- A request that succeeds without a prompt: the configuration, the cache or a grant in force. -/
theorem approve_granted_iff : (approve floatOf config interactive w key agentName ts).2 = .granted ↔
    configAllows config key = true ∨ w.session.get? key = some true ∨
      (w.session.get? key = none ∧ InForce floatOf w key agentName ts) := by
  unfold approve
  split
  · rename_i h
    simp [h]
  · rename_i hconfig
    split
    · rename_i v hv
      cases v <;> simp [hconfig,hv]
    · rename_i hnone
      split
      · rename_i hraised
        simp [hconfig,hnone,InForce,hraised]
      · rename_i maps hmaps
        rw [decideSaved_granted_iff]
        simp [hconfig,hnone,InForce,hmaps]

/-- In every state of every run: an agent's request succeeds without a prompt only when it is entitled, if and only
if it is so whenever the last word on the key was another agent's yes. -/
theorem approve_entitled_iff {file : Option Bytes} {legacy : Option (List (String × Value))}
    (h : Runs (step floatOf config interactive) (fun _ _ => True) (start file legacy) w) (key agentName ts : String) :
    ((approve floatOf config interactive w key agentName ts).2 = .granted → Entitled floatOf config w key agentName ts) ↔
      (OthersYes w key agentName → Entitled floatOf config w key agentName ts) := by
  have hinv := inv_run h
  rw [approve_granted_iff]
  constructor
  · rintro hall ⟨word,hlast,haff,-⟩
    apply hall
    right
    left
    rw [hinv.session,hlast,Option.map_some,haff]
  · rintro hothers (hconfig | hcached | ⟨-,hforce⟩)
    · exact .inl hconfig
    · rw [hinv.session] at hcached
      obtain ⟨word,hlast,haff⟩ := Option.map_eq_some_iff.mp hcached
      by_cases hagent : word.agent = agentName
      · rcases hinv.backed key word hlast haff with ⟨maps,hmaps,htrue,hcovers⟩ | hyes
        · have hkey : word.key = key := by simpa using List.find?_some hlast
          rw [hkey,hagent] at hcovers
          rw [hkey] at htrue
          exact .inr (.inl ⟨maps,ensureFolded_saved hmaps,htrue,hcovers⟩)
        · have hmem := List.mem_of_find?_eq_some hlast
          rw [hyes,hagent] at hmem
          exact .inr (.inr hmem)
      · exact hothers ⟨word,hlast,haff,hagent⟩
    · exact .inr (.inl hforce)

end Invariant
/-! ## Two agents -/

section Sample

def hostKey : String := "chat_router/http.get/example.com"

/-- The first agent asked, and the user answered once and for all. -/
def alwaysWorld (ts : String) : PermissionWorld where
  session := Dict.empty.set hostKey true
  saved := some ⟨Dict.empty.set hostKey true,.empty,Dict.empty.set hostKey (scopeFor "a")⟩
  file := some ((ApprovalEntry.approval hostKey true (some (scopeFor "a"))).line ts)
  legacy := none
  pending := []
  words := [.answered hostKey "a" .always]

theorem always_run (floatOf : ℤ → FloatLit) (ts : String) {guard : PermissionWorld → PermissionAction → Prop} (hg : ∀ w a, guard w a) :
    Runs (step floatOf [] true) guard (start none none) (alwaysWorld ts) := by
  have hasked : Runs (step floatOf [] true) guard (start none none)
      { start none none with saved := some ApprovalLedger.empty, pending := [(hostKey,"a")] } :=
    .step (a := .request hostKey "a" ts) (.refl _) (hg _ _) rfl
  exact hasked.step (a := .answer 0 .always ts) (hg _ _) rfl

theorem approve_entitled_iff_always :
    (approve ApprovalLedger.sampleFloat [] true (alwaysWorld "") hostKey "a" "").2 = .granted ∧
      Entitled ApprovalLedger.sampleFloat [] (alwaysWorld "") hostKey "a" "" := by
  have hgranted : (approve ApprovalLedger.sampleFloat [] true (alwaysWorld "") hostKey "a" "").2 = .granted := rfl
  refine ⟨hgranted,?_⟩
  refine (approve_entitled_iff (always_run ApprovalLedger.sampleFloat "" fun _ _ => trivial) hostKey "a" "").mpr ?_ hgranted
  rintro ⟨word,hlast,-,hother⟩
  cases hlast
  exact absurd rfl hother

/-- The second agent gets the first one's grant. -/
theorem always_answer_leaks : ∃ w, Runs (step ApprovalLedger.sampleFloat [] true) (fun _ _ => True) (start none none) w ∧
    (approve ApprovalLedger.sampleFloat [] true w hostKey "b" "").2 = .granted ∧
      ¬ Entitled ApprovalLedger.sampleFloat [] w hostKey "b" "" := by
  refine ⟨alwaysWorld "",always_run _ _ fun _ _ => trivial,rfl,?_⟩
  rintro (hconfig | ⟨maps,hmaps,-,hcovers⟩ | hyes)
  · exact absurd hconfig (by decide_cbv)
  · cases hmaps
    exact absurd hcovers (by decide_cbv)
  · exact absurd (List.mem_singleton.mp hyes) (by decide)

end Sample

end PermissionResolver
end Reyn
