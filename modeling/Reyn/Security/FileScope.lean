import Reyn.Lib.Fallible
import Reyn.Lib.TextFile
import Reyn.Lib.Value

/-! # The file zone

Which paths are writable without a grant. A path is expanded, joined to the zone root and resolved before it
is compared; home directories and the resolution of links are the environment's. The gate and what the model
is told are read from one list of entries.
-/
namespace Reyn
open Py

/-- A path of pathlib: its root, which is empty when it is relative, and its components. -/
structure PosixPath where
  root : String
  parts : List String
  deriving DecidableEq

/-- What pathlib raises. -/
inductive PathError where
  | osError
  | runtimeError
  | valueError
  deriving DecidableEq

/-- `os.path.expanduser` of a component, the working directory, `Path.resolve`, and `str` of a value. -/
structure PathEnv where
  expandHome : String → String
  cwd : PosixPath
  resolve : PosixPath → Except PathError PosixPath
  strOf : Value → String

namespace PosixPath

def parse (text : String) : PosixPath :=
  ⟨match text.toList with
    | '/' :: '/' :: '/' :: _ => "/"
    | '/' :: '/' :: _ => "//"
    | '/' :: _ => "/"
    | _ => "",
    ((splitLines (· == '/') text.toList).map String.ofList).filter fun part => part ≠ "" ∧ part ≠ "."⟩

def text (p : PosixPath) : String :=
  if p.root = "" ∧ p.parts = [] then "." else p.root ++ "/".intercalate p.parts

def isAbsolute (p : PosixPath) : Bool := p.root != ""

/-- `base / p` -/
def join (base p : PosixPath) : PosixPath := if p.isAbsolute then p else ⟨base.root,base.parts ++ p.parts⟩

/-- `p.relative_to(zone)` does not raise. -/
def relativeTo (p zone : PosixPath) : Bool := p.root == zone.root && zone.parts.isPrefixOf p.parts

end PosixPath

/-! ## Zones -/

section Zones
variable (env : PathEnv) (base : PosixPath)

def expanduser (p : PosixPath) : Except PathError PosixPath :=
  match p.parts with
  | first :: rest =>
    if p.root = "" ∧ first.startsWith "~" then
      if (env.expandHome first).startsWith "~" then .error .runtimeError
      else .ok ⟨(PosixPath.parse (env.expandHome first)).root,(PosixPath.parse (env.expandHome first)).parts ++ rest⟩
    else .ok p
  | [] => .ok p

/-- What every check makes of the text of a path. -/
def locate (path : String) : Except PathError PosixPath :=
  (expanduser env (.parse path)).bind fun p => env.resolve (if p.isAbsolute then p else base.join p)

/-- Whether a resolved path lies under a place of the zone root. -/
def liesUnder (resolved : PosixPath) (rel : String) : Except PathError Bool :=
  match env.resolve (base.join (.parse rel)) with
  | .ok zone => .ok (resolved.relativeTo zone)
  -- the handler of `relative_to` takes this one too
  | .error .valueError => .ok false
  | .error e => .error e

def defaultWriteZones : List String := [".reyn"]
def recoveryCoreWritePrefixes : List String := [".reyn/config/",".reyn/state/"]
def canonicalProtectedWritePaths : List String := [".reyn/approvals.yaml",".reyn/approvals.jsonl"]

/-- `_is_canonical_protected_write` -/
def isCanonicalProtectedWrite (path : String) : Except PathError Bool :=
  (locate env base path).bind fun resolved => canonicalProtectedWritePaths.anyM fun rel =>
    (env.resolve (base.join (.parse rel))).map fun protected_ => resolved == protected_

/-- `_is_under_recovery_core_prefix` -/
def isUnderRecoveryCorePrefix (path : String) : Except PathError Bool :=
  (locate env base path).bind fun resolved => recoveryCoreWritePrefixes.anyM (liesUnder env base resolved)

/-- `_in_default_write_zone` -/
def inDefaultWriteZone (path : String) : Except PathError Bool :=
  (isCanonicalProtectedWrite env base path).bind fun canonical =>
    if canonical then .ok false
    else (isUnderRecoveryCorePrefix env base path).bind fun core =>
      if core then .ok false
      else (locate env base path).bind fun resolved => defaultWriteZones.anyM (liesUnder env base resolved)

/-- `_in_default_read_zone` -/
def inDefaultReadZone (path : String) : Except PathError Bool :=
  (locate env base path).map fun resolved => resolved.relativeTo base

end Zones

/-! ## Scopes -/

structure LiteralPath where
  path : String
  recursive : Bool
  deriving DecidableEq

inductive FileScopeEntry where
  | zoneRoot
  | zoneStateDir
  | literal (l : LiteralPath)
  | anywhere
  deriving DecidableEq

inductive FileScopeAxis where
  | read
  | write
  deriving DecidableEq

namespace FileScopeAxis

/-- The key below `file`. -/
def sub : FileScopeAxis → String
  | read => "read"
  | write => "write"

def key (axis : FileScopeAxis) : String := "file." ++ axis.sub

/-- `FILE_SCOPE_SCHEMA` -/
def default : FileScopeAxis → List FileScopeEntry
  | read => [.zoneRoot]
  | write => [.zoneStateDir]

end FileScopeAxis

/-- `_config_word` -/
def configWord (config : Value) (axis : FileScopeAxis) (word : String) : Bool :=
  match config with
  | .dict fields =>
    Value.get? fields axis.key == some (.str word) || match Value.get? fields "file" with
      | some (.dict nested) => Value.get? nested axis.sub == some (.str word)
      | parent => parent == some (.str word)
  | _ => false

/-- `_config_raw_list` -/
def configRawList (config : Value) (axis : FileScopeAxis) : Value :=
  match config with
  | .dict fields =>
    match Value.get? fields axis.key with
    | some v => v
    | none => match Value.get? fields "file" with
      | some (.dict nested) => (Value.get? nested axis.sub).getD .none
      | _ => .none
  | _ => .none

/-- One item of a path list; what is of no use is dropped. -/
def parseEntry (env : PathEnv) : Value → Option FileScopeEntry
  | .str text => if text = "<zone-root>" then some .zoneRoot else if text = "" then none else some (.literal ⟨text,true⟩)
  | .dict item =>
    let path := match Value.get? item "path" with
      | none => ""
      | some (.str text) => text
      | some v => env.strOf v
    if path = "" then none else some (.literal ⟨path,Value.get? item "scope" != some (.str "just_path")⟩)
  | _ => none

/-- `_parse_entries` -/
def parseEntries (env : PathEnv) (raw : Value) : List FileScopeEntry :=
  (match raw with
    | .list items => items
    | v => [v]).filterMap (parseEntry env)

structure ResolvedFileScope where
  entries : List FileScopeEntry
  zoneRoot : Option PosixPath
  isDenied : Bool

/-- `resolve_file_scope` -/
def resolveFileScope (env : PathEnv) (config : Value) (axis : FileScopeAxis) (zoneRoot : Option PosixPath) : ResolvedFileScope :=
  if configWord config axis "deny" then ⟨[],zoneRoot,true⟩
  else if configWord config axis "allow" then ⟨[.anywhere],zoneRoot,false⟩
  else if configRawList config axis = .none then ⟨axis.default,zoneRoot,false⟩
  else ⟨parseEntries env (configRawList config axis),zoneRoot,false⟩

namespace ResolvedFileScope
variable (env : PathEnv) (scope : ResolvedFileScope)

def base : PosixPath := scope.zoneRoot.getD env.cwd

/-- `_literal_contains`; a path that the system fails on is not contained. -/
def literalContains (l : LiteralPath) (path : String) : Except PathError Bool :=
  match (locate env (scope.base env) path).bind fun target =>
      (locate env (scope.base env) l.path).map fun declared => (target,declared) with
  | .ok (target,declared) => .ok (target == declared || l.recursive && target.relativeTo declared)
  | .error .osError => .ok false
  | .error e => .error e

def entryContains (path : String) : FileScopeEntry → Except PathError Bool
  | .anywhere => .ok true
  | .zoneRoot => inDefaultReadZone env (scope.base env) path
  | .zoneStateDir => inDefaultWriteZone env (scope.base env) path
  | .literal l => scope.literalContains env l path

def contains (path : String) : Except PathError Bool := scope.entries.anyM (scope.entryContains env path)

/-- What the model is told of an entry. -/
def advertisedPath : FileScopeEntry → String
  | .anywhere => "*"
  | .zoneRoot => (scope.base env).text
  | .zoneStateDir => ((scope.base env).join (.parse ".reyn")).text
  | .literal l => l.path

def advertisedPaths : List String := scope.entries.map (scope.advertisedPath env)

end ResolvedFileScope

/-! ## The gate -/

inductive GateError where
  | permission (message : String)
  | path (e : PathError)
  deriving DecidableEq

structure FileScopes where
  read : ResolvedFileScope
  write : ResolvedFileScope

section Gate
variable (env : PathEnv) (config : Value) (zoneRoot : Option PosixPath)

/-- `file_scopes` -/
def fileScopes : FileScopes := ⟨resolveFileScope env config .read zoneRoot,resolveFileScope env config .write zoneRoot⟩

/-- `advertised_file_permissions` -/
def advertisedFilePermissions : Option (List String × List String) :=
  if (fileScopes env config zoneRoot).read.entries = [] ∧ (fileScopes env config zoneRoot).write.entries = [] then none
  else some ((fileScopes env config zoneRoot).read.advertisedPaths env,(fileScopes env config zoneRoot).write.advertisedPaths env)

/-- The write axis of the layers: the scope or an approval. -/
def allowsFileWrite (approved : String → Bool) (path : String) : Except PathError Bool :=
  ((fileScopes env config zoneRoot).write.contains env path).map (· || approved path)

def deniedMessage (path : String) : String := "write to '" ++ path ++ "' denied by config (file.write: deny)."

def notApprovedMessage (path : String) : String :=
  "write to '" ++ path ++ "' was not approved (declared but not granted).\n" ++
    "Why: it is outside the configured write scope (" ++
    (if (fileScopes env config zoneRoot).write.entries = [] then "empty"
      else ", ".intercalate ((fileScopes env config zoneRoot).write.advertisedPaths env)) ++ ") and has no approval.\n" ++
    "Options:\n  - pre-approve in reyn.yaml: permissions.file.write: allow (or the specific path), then re-run; or\n" ++
    "  - run interactively — a prompt will appear at the time of access."

/-- `require_file_write`; `answer` is that to the prompt, when there is somebody to ask. -/
def requireFileWrite (approved : String → Bool) (answer : Option Bool) (path : String) : Except GateError Unit :=
  if (fileScopes env config zoneRoot).write.isDenied then .error (.permission (deniedMessage path))
  else match allowsFileWrite env config zoneRoot approved path with
    | .error e => .error (.path e)
    | .ok true => .ok ()
    | .ok false => if answer = some true then .ok () else .error (.permission (notApprovedMessage env config zoneRoot path))

end Gate

/-! ## The default scope -/

section Sound
variable {env : PathEnv} {base : PosixPath} {path : String}

theorem exists_first {A : Type} {p : A → Prop} {xs : List A} (h : ∃ x ∈ xs, p x) :
    ∃ before x after, xs = before ++ x :: after ∧ (∀ y ∈ before, ¬p y) ∧ p x := by
  induction xs with
  | nil =>
    obtain ⟨x,hx,-⟩ := h
    cases hx
  | cons a xs ih =>
    by_cases ha : p a
    · exact ⟨[],a,xs,rfl,List.forall_mem_nil _,ha⟩
    · obtain ⟨x,hx,hp⟩ := h
      rcases List.mem_cons.mp hx with rfl | hx
      · exact absurd hp ha
      · obtain ⟨before,y,after,rfl,hbefore,hy⟩ := ih ⟨x,hx,hp⟩
        exact ⟨a :: before,y,after,rfl,List.forall_mem_cons.mpr ⟨ha,hbefore⟩,hy⟩

theorem error_ne_ok {E A : Type} {e : E} {a : A} : (.error e : Except E A) ≠ .ok a := nofun

/-- A member in front of the first one that holds must not fail. -/
theorem anyM_ok_true_iff {E A : Type} {f : A → Except E Bool} {xs : List A} : xs.anyM f = .ok true ↔
    (∃ x ∈ xs, f x = .ok true) ∧ ∀ before x after, xs = before ++ x :: after → f x = .ok true →
      (∀ y ∈ before, f y ≠ .ok true) → ∀ y ∈ before, f y = .ok false := by
  induction xs with
  | nil =>
    have hleft : ([] : List A).anyM f ≠ .ok true := by simp [pure,Except.pure]
    apply iff_of_false hleft
    rintro ⟨⟨x,hx,-⟩,-⟩
    cases hx
  | cons a xs ih =>
    by_cases ha : f a = .ok true
    · have hleft : (a :: xs).anyM f = .ok true := by simp [List.anyM,ha,bind,Except.bind,pure,Except.pure]
      refine iff_of_true hleft ⟨⟨a,List.mem_cons_self,ha⟩,?_⟩
      intro before x after hsplit _ hbefore
      cases before with
      | nil => exact List.forall_mem_nil _
      | cons b before =>
        obtain ⟨rfl,-⟩ := List.cons.inj hsplit
        exact absurd ha (hbefore a List.mem_cons_self)
    · by_cases hfalse : f a = .ok false
      · have hleft : (a :: xs).anyM f = xs.anyM f := by simp [List.anyM,hfalse,bind,Except.bind]
        rw [hleft,ih]
        constructor
        · rintro ⟨⟨x,hx,hholds⟩,hquiet⟩
          refine ⟨⟨x,List.mem_cons_of_mem _ hx,hholds⟩,?_⟩
          intro before x after hsplit hholds hbefore
          cases before with
          | nil => exact List.forall_mem_nil _
          | cons b before =>
            obtain ⟨rfl,rfl⟩ := List.cons.inj hsplit
            have hrest := hquiet before x after rfl hholds fun y hy => hbefore y (List.mem_cons_of_mem _ hy)
            exact List.forall_mem_cons.mpr ⟨hfalse,hrest⟩
        · rintro ⟨⟨x,hx,hholds⟩,hquiet⟩
          refine ⟨?_,?_⟩
          · rcases List.mem_cons.mp hx with rfl | hx
            · exact absurd hholds ha
            · exact ⟨x,hx,hholds⟩
          · intro before x after hsplit hholds hbefore
            have hmore := hquiet (a :: before) x after (by rw [hsplit,List.cons_append]) hholds
              (List.forall_mem_cons.mpr ⟨ha,hbefore⟩)
            exact (List.forall_mem_cons.mp hmore).2
      · have hleft : (a :: xs).anyM f ≠ .ok true := by
          cases hf : f a with
          | error e => simp [List.anyM,hf,bind,Except.bind]
          | ok v => cases v <;> simp_all
        refine iff_of_false hleft ?_
        rintro ⟨⟨x,hx,hholds⟩,hquiet⟩
        rcases List.mem_cons.mp hx with rfl | hx
        · exact ha hholds
        · obtain ⟨front,y,back,hfirst,hfront,hy⟩ := exists_first (p := fun y => f y = .ok true) ⟨x,hx,hholds⟩
          exact hfalse (hquiet (a :: front) y back (by rw [hfirst,List.cons_append]) hy
            (List.forall_mem_cons.mpr ⟨ha,hfront⟩) a List.mem_cons_self)

theorem anyM_ok_false {E A : Type} {f : A → Except E Bool} {xs : List A} (h : xs.anyM f = .ok false) :
    ∀ x ∈ xs, f x = .ok false := by
  induction xs with
  | nil => exact List.forall_mem_nil _
  | cons a xs ih =>
    cases ha : f a with
    | error e => simp [List.anyM,ha,bind,Except.bind] at h
    | ok v =>
      cases v with
      | true => simp [List.anyM,ha,bind,Except.bind,pure,Except.pure] at h
      | false =>
        have hrest : xs.anyM f = .ok false := by simpa [List.anyM,ha,bind,Except.bind] using h
        intro x hx
        rcases List.mem_cons.mp hx with rfl | hx
        · exact ha
        · exact ih hrest x hx

/-- The path resolves to a place below `.reyn` that is neither an approval store nor below the recovery core. -/
def InsideStateZone (env : PathEnv) (base : PosixPath) (path : String) : Prop :=
  ∃ resolved, locate env base path = .ok resolved ∧
    (∃ zone, env.resolve (base.join (.parse ".reyn")) = .ok zone ∧ resolved.relativeTo zone = true) ∧
    (∀ store ∈ [".reyn/approvals.yaml",".reyn/approvals.jsonl"], ∀ p, env.resolve (base.join (.parse store)) = .ok p → resolved ≠ p) ∧
    ∀ core ∈ [".reyn/config",".reyn/state"], ∀ p, env.resolve (base.join (.parse core)) = .ok p → resolved.relativeTo p = false

theorem liesUnder_ok_true {resolved : PosixPath} {rel : String} (h : liesUnder env base resolved rel = .ok true) :
    ∃ zone, env.resolve (base.join (.parse rel)) = .ok zone ∧ resolved.relativeTo zone = true := by
  rw [liesUnder] at h
  split at h
  · rename_i zone hzone
    exact ⟨zone,hzone,Except.ok.inj h⟩
  · cases h
  · cases h

theorem liesUnder_ok_false {resolved p : PosixPath} {rel : String} (h : liesUnder env base resolved rel = .ok false)
    (hp : env.resolve (base.join (.parse rel)) = .ok p) : resolved.relativeTo p = false := by
  rw [liesUnder,hp] at h
  exact Except.ok.inj h

/-- The default zone is sound, whatever a path resolves to. -/
theorem inDefaultWriteZone_inside (h : inDefaultWriteZone env base path = .ok true) : InsideStateZone env base path := by
  obtain ⟨canonical,hcanonical,h⟩ := Fallible.bind_ok h
  cases canonical with
  | true => cases h
  | false =>
    obtain ⟨core,hcore,h⟩ := Fallible.bind_ok h
    cases core with
    | true => cases h
    | false =>
      obtain ⟨resolved,hresolved,hzone⟩ := Fallible.bind_ok h
      rw [isCanonicalProtectedWrite,hresolved] at hcanonical
      rw [isUnderRecoveryCorePrefix,hresolved] at hcore
      have hstores := anyM_ok_false hcanonical
      have hcores := anyM_ok_false hcore
      obtain ⟨⟨zone,hmem,hunder⟩,-⟩ := anyM_ok_true_iff.mp hzone
      rw [List.mem_singleton.mp hmem] at hunder
      refine ⟨resolved,hresolved,liesUnder_ok_true hunder,?_,?_⟩
      · intro store hstore p hp
        have hne := hstores store hstore
        rw [hp] at hne
        exact of_decide_eq_false (Except.ok.inj hne)
      · intro core hmem p hp
        have hparse : ∀ core ∈ [".reyn/config",".reyn/state"], ∃ rel ∈ recoveryCoreWritePrefixes, PosixPath.parse rel = .parse core := by
          decide
        obtain ⟨rel,hrel,hsame⟩ := hparse core hmem
        rw [← hsame] at hp
        exact liesUnder_ok_false (hcores rel hrel) hp

end Sound

/-! ## The gate and what is advertised -/

theorem parseEntry_shape {env : PathEnv} {item : Value} {entry : FileScopeEntry} (h : parseEntry env item = some entry) :
    entry = .zoneRoot ∨ ∃ l, entry = .literal l := by
  cases item with
  | str text =>
    simp only [parseEntry] at h
    split at h
    · exact .inl (Option.some.inj h).symm
    · split at h
      · cases h
      · exact .inr ⟨_,(Option.some.inj h).symm⟩
  | dict fields =>
    rw [parseEntry] at h
    split_ifs at h
    exact .inr ⟨_,(Option.some.inj h).symm⟩
  | _ => cases h

section Gate
variable {env : PathEnv} {config : Value} {axis : FileScopeAxis} {zoneRoot : Option PosixPath} {path : String}

/-- `deny` and `allow` aside, a scope is the default or what was parsed from a list. -/
theorem resolveFileScope_entries : (resolveFileScope env config axis zoneRoot).entries = [] ∨
    (resolveFileScope env config axis zoneRoot).entries = [.anywhere] ∨
    (resolveFileScope env config axis zoneRoot).entries = axis.default ∨
    ∀ entry ∈ (resolveFileScope env config axis zoneRoot).entries, entry = .zoneRoot ∨ ∃ l, entry = .literal l := by
  rw [resolveFileScope]
  split
  · exact .inl rfl
  · split
    · exact .inr (.inl rfl)
    · split
      · exact .inr (.inr (.inl rfl))
      · refine .inr (.inr (.inr ?_))
        intro entry hentry
        obtain ⟨item,-,hitem⟩ := List.mem_filterMap.mp hentry
        exact parseEntry_shape hitem

theorem resolveFileScope_zoneRoot : (resolveFileScope env config axis zoneRoot).zoneRoot = zoneRoot := by
  rw [resolveFileScope]
  split_ifs <;> rfl

theorem resolveFileScope_denied (h : (resolveFileScope env config axis zoneRoot).isDenied = true) :
    (resolveFileScope env config axis zoneRoot).entries = [] := by
  rw [resolveFileScope] at h ⊢
  split
  · rfl
  · rename_i hdeny
    rw [if_neg hdeny] at h
    split_ifs at h

theorem literalContains_locates {scope : ResolvedFileScope} {l : LiteralPath} (h : scope.literalContains env l path = .ok true) :
    ∃ p, locate env (scope.base env) path = .ok p := by
  rw [ResolvedFileScope.literalContains] at h
  split at h
  · rename_i target declared hboth
    obtain ⟨p,hp,-⟩ := Fallible.bind_ok hboth
    exact ⟨p,hp⟩
  · cases h
  · cases h

/-- Where the path locates, a path of the list only fails by itself. -/
theorem literalContains_quiet {scope : ResolvedFileScope} {l : LiteralPath} {p : PosixPath}
    (hp : locate env (scope.base env) path = .ok p) (hnot : scope.literalContains env l path ≠ .ok true) :
    scope.literalContains env l path = .ok false ↔ ∀ e, locate env (scope.base env) l.path = .error e → e = .osError := by
  have hunfold := hnot
  simp only [ResolvedFileScope.literalContains,hp,Except.bind] at hunfold ⊢
  cases hl : locate env (scope.base env) l.path with
  | ok declared =>
    rw [hl] at hunfold
    apply iff_of_true
    · change Except.ok _ = Except.ok false
      rw [Except.ok.injEq]
      exact Bool.eq_false_iff.mpr fun htrue => hunfold (congrArg Except.ok htrue)
    · intro e he
      cases he
  | error e =>
    cases e with
    | osError => exact iff_of_true rfl fun e he => (Except.error.inj he).symm
    | runtimeError => exact iff_of_false error_ne_ok fun h => PathError.noConfusion (h .runtimeError rfl)
    | valueError => exact iff_of_false error_ne_ok fun h => PathError.noConfusion (h .valueError rfl)

/-- The gate without an approval and without somebody to ask. -/
theorem requireFileWrite_iff : requireFileWrite env config zoneRoot (fun _ => false) none path = .ok () ↔
    (fileScopes env config zoneRoot).write.contains env path = .ok true := by
  rw [requireFileWrite,allowsFileWrite]
  split
  · rename_i hdenied
    have hempty : (fileScopes env config zoneRoot).write.entries = [] := resolveFileScope_denied hdenied
    have hnone : (fileScopes env config zoneRoot).write.contains env path = .ok false := by
      rw [ResolvedFileScope.contains,hempty]
      rfl
    rw [hnone]
    exact iff_of_false error_ne_ok fun h => Bool.noConfusion (Except.ok.inj h)
  · cases (fileScopes env config zoneRoot).write.contains env path with
    | error e => exact iff_of_false error_ne_ok error_ne_ok
    | ok v =>
      cases v with
      | true => exact iff_of_true rfl rfl
      | false => exact iff_of_false error_ne_ok fun h => Bool.noConfusion (Except.ok.inj h)

/-- In front of an entry that contains the path, only the paths of a list can stop the check. -/
theorem quiet_before {before after : List FileScopeEntry} {entry : FileScopeEntry}
    (hsplit : (fileScopes env config zoneRoot).write.entries = before ++ entry :: after)
    (hholds : (fileScopes env config zoneRoot).write.entryContains env path entry = .ok true)
    (hfirst : ∀ x ∈ before, (fileScopes env config zoneRoot).write.entryContains env path x ≠ .ok true) :
    (∀ x ∈ before, (fileScopes env config zoneRoot).write.entryContains env path x = .ok false) ↔
      ∀ l, FileScopeEntry.literal l ∈ before →
        ∀ e, locate env ((fileScopes env config zoneRoot).write.base env) l.path = .error e → e = .osError := by
  cases before with
  | nil => exact iff_of_true (List.forall_mem_nil _) fun l hl => absurd hl List.not_mem_nil
  | cons first before =>
    -- a list of two members was parsed, so each is the zone root or a path
    have hparsed : ∀ x ∈ (fileScopes env config zoneRoot).write.entries, x = .zoneRoot ∨ ∃ l, x = .literal l := by
      have hlength : 2 ≤ (fileScopes env config zoneRoot).write.entries.length := by
        rw [hsplit,List.length_append,List.length_cons,List.length_cons]
        omega
      have resolved := @resolveFileScope_entries env config .write zoneRoot
      rcases resolved with h | h | h | h
      · exact absurd hlength (by rw [fileScopes,h]; decide)
      · exact absurd hlength (by rw [fileScopes,h]; decide)
      · exact absurd hlength (by rw [fileScopes,h]; decide)
      · exact h
    have hlocates : ∃ p, locate env ((fileScopes env config zoneRoot).write.base env) path = .ok p := by
      rcases hparsed entry (by simp [hsplit]) with rfl | ⟨l,rfl⟩
      · obtain ⟨p,hp,-⟩ := Fallible.map_eq_ok hholds
        exact ⟨p,hp⟩
      · exact literalContains_locates hholds
    obtain ⟨p,hp⟩ := hlocates
    constructor
    · intro h l hl
      exact (literalContains_quiet hp (hfirst _ hl)).mp (h _ hl)
    · intro h x hx
      rcases hparsed x (by rw [hsplit]; exact List.mem_append_left _ hx) with rfl | ⟨l,rfl⟩
      · have hnot := hfirst _ hx
        rw [ResolvedFileScope.entryContains,inDefaultReadZone,hp] at hnot ⊢
        change Except.ok _ = Except.ok false
        rw [Except.ok.injEq]
        exact Bool.eq_false_iff.mpr fun htrue => hnot (congrArg Except.ok htrue)
      · exact (literalContains_quiet hp (hfirst _ hx)).mpr (h l hx)

/-- What is asked of the file zone: the default scope holds only what lies in the state directory outside the stores
of grants and the recovery core, and the gate lets through what an advertised entry contains. -/
structure ZoneSound (env : PathEnv) (config : Value) (zoneRoot : Option PosixPath) (path : String) : Prop where
  default : (ResolvedFileScope.mk (FileScopeAxis.default .write) zoneRoot false).contains env path = .ok true →
    InsideStateZone env (zoneRoot.getD env.cwd) path
  gate : requireFileWrite env config zoneRoot (fun _ => false) none path = .ok () ↔
    ∃ entry ∈ (fileScopes env config zoneRoot).write.entries,
      (∃ read write, advertisedFilePermissions env config zoneRoot = some (read,write) ∧
        (fileScopes env config zoneRoot).write.advertisedPath env entry ∈ write) ∧
      (fileScopes env config zoneRoot).write.entryContains env path entry = .ok true

/-- Every entry of the write scope is advertised. -/
theorem advertised {entry : FileScopeEntry} (h : entry ∈ (fileScopes env config zoneRoot).write.entries) :
    ∃ read write, advertisedFilePermissions env config zoneRoot = some (read,write) ∧
      (fileScopes env config zoneRoot).write.advertisedPath env entry ∈ write := by
  refine ⟨(fileScopes env config zoneRoot).read.advertisedPaths env,(fileScopes env config zoneRoot).write.advertisedPaths env,
    ?_,List.mem_map_of_mem h⟩
  rw [advertisedFilePermissions,if_neg]
  rintro ⟨-,hnone⟩
  rw [hnone] at h
  cases h

theorem default_contains (h : (ResolvedFileScope.mk (FileScopeAxis.default .write) zoneRoot false).contains env path = .ok true) :
    InsideStateZone env (zoneRoot.getD env.cwd) path := by
  obtain ⟨⟨entry,hentry,hholds⟩,-⟩ := anyM_ok_true_iff.mp h
  rw [List.mem_singleton.mp hentry] at hholds
  exact inDefaultWriteZone_inside hholds

/-- The zone is sound unless a path of the configured list, in front of an entry that contains the path, cannot be
located for another reason than the system's: its home directory is unknown, or it lies on a cycle of links. -/
theorem zoneSound_iff {env : PathEnv} {config : Value} {zoneRoot : Option PosixPath} {path : String} :
    ZoneSound env config zoneRoot path ↔
      ∀ before entry after, (fileScopes env config zoneRoot).write.entries = before ++ entry :: after →
        (fileScopes env config zoneRoot).write.entryContains env path entry = .ok true →
        (∀ x ∈ before, (fileScopes env config zoneRoot).write.entryContains env path x ≠ .ok true) →
        ∀ l, FileScopeEntry.literal l ∈ before → ∀ e, locate env (zoneRoot.getD env.cwd) l.path = .error e → e = .osError := by
  have hbase : (fileScopes env config zoneRoot).write.base env = zoneRoot.getD env.cwd := by
    rw [ResolvedFileScope.base,fileScopes,resolveFileScope_zoneRoot]
  have hentries : (∃ entry ∈ (fileScopes env config zoneRoot).write.entries,
      (∃ read write, advertisedFilePermissions env config zoneRoot = some (read,write) ∧
        (fileScopes env config zoneRoot).write.advertisedPath env entry ∈ write) ∧
      (fileScopes env config zoneRoot).write.entryContains env path entry = .ok true) ↔
      ∃ entry ∈ (fileScopes env config zoneRoot).write.entries,
        (fileScopes env config zoneRoot).write.entryContains env path entry = .ok true :=
    exists_congr fun entry => and_congr_right fun hentry => and_iff_right (advertised hentry)
  constructor
  · intro h before entry after hsplit hholds hfirst
    rw [← hbase]
    have hthrough := requireFileWrite_iff.mp (h.gate.mpr (hentries.mpr ⟨entry,by simp [hsplit],hholds⟩))
    exact (quiet_before hsplit hholds hfirst).mp ((anyM_ok_true_iff.mp hthrough).2 before entry after hsplit hholds hfirst)
  · intro h
    refine ⟨default_contains,?_⟩
    rw [requireFileWrite_iff,hentries,ResolvedFileScope.contains,anyM_ok_true_iff]
    refine ⟨And.left,fun hexists => ⟨hexists,?_⟩⟩
    intro before entry after hsplit hholds hfirst
    apply (quiet_before hsplit hholds hfirst).mpr
    rw [hbase]
    exact h before entry after hsplit hholds hfirst

end Gate

/-- `~ghost` names no user. -/
def ghostEnv : PathEnv := ⟨fun text => text,⟨"/",["work"]⟩,.ok,fun _ => ""⟩

def ghostConfig : Value := .dict [(.str "file.write",.list [.str "~ghost/out",.str "out"])]

/-- The second path of the list contains the one asked for, and the first one stops the check. -/
theorem ghost_not_sound : ¬ZoneSound ghostEnv ghostConfig none "out/a.txt" := by
  intro h
  have hgate : requireFileWrite ghostEnv ghostConfig none (fun _ => false) none "out/a.txt" = .error (.path .runtimeError) := by
    decide_cbv
  have hthrough := h.gate.mpr ⟨.literal ⟨"out",true⟩,by decide_cbv,⟨_,_,rfl,by decide_cbv⟩,by decide_cbv⟩
  rw [hgate] at hthrough
  cases hthrough

end Reyn
