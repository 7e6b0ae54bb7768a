import ShellProxy.HostPattern

/-! Host key verification: the scan of one known_hosts text, the check of a file and the
decision over the files in ssh config order. -/
namespace ShellProxy.KnownHosts
open HostPattern

inductive Marker where
  | certAuthority | revoked
  deriving DecidableEq, Repr

inductive HostPatterns where
  | patterns (ps : List Text)
  | hashedName
  deriving DecidableEq, Repr

structure Entry (K : Type) where
  marker : Option Marker
  hostPatterns : HostPatterns
  publicKey : K

inductive KeysError where
  | keyChanged (line : Nat)
  | other (m : String)
  deriving DecidableEq, Repr

/-- What the code takes from outside: the file system (a read gives the lossily decoded text), the
entry parser, the algorithm of a key and the russh checker for hashed entries. -/
structure Env (K A : Type) where
  isFile : String → Bool
  read : String → Option Text
  parse : Text → Option (Entry K)
  algorithm : K → A
  checkKnownHostsPath : String → Nat → K → String → Except KeysError Bool

inductive KnownHostCheck where
  | matched
  | absent
  | changed (line : String)
  | revoked (line : String)
  | malformed (detail : String)
  deriving DecidableEq, Repr

def KnownHostCheck.fromHashedFallback : Except KeysError Bool → KnownHostCheck
  | .ok true => .matched
  | .ok false => .absent
  | .error (.keyChanged line) => .changed (toString line)
  | .error (.other m) => .malformed m

inductive HostKeyDecision where
  | accept
  | reject (reason : String)
  deriving DecidableEq, Repr

/-- Host-field test for lines the full parser rejects. -/
def rawEntryTargetsHost (line lookup : Text) : Bool :=
  let fields := splitWhitespace line
  let first := fields.headD []
  let hostField := if first.head? = some '@' then fields.tail.head? else some first
  match hostField with
  | some h =>
    if "|1|".toList.isPrefixOf h then false else matchPatternList lookup (h.splitOn ',')
  | none => false

def skips (line : Text) : Bool := line.isEmpty || line.head? = some '#'

section Scan
variable {K A : Type} [DecidableEq K] [DecidableEq A] (E : Env K A) (lookup : Text) (serverKey : K)
  (cert : Bool)

def hostMatches : HostPatterns → Bool
  | .patterns ps => matchPatternList lookup ps
  | .hashedName => false

def scanLine (lineNo : Nat) (verdict : KnownHostCheck) (raw : Text) :
    Except KnownHostCheck KnownHostCheck :=
  let line := trim raw
  if skips line then .ok verdict
  else
    match E.parse line with
    | none =>
      if verdict ≠ .matched ∧ rawEntryTargetsHost line lookup then
        .error (.malformed s!"line {lineNo}")
      else .ok verdict
    | some entry =>
      match entry.marker with
      | some .revoked =>
        if entry.publicKey = serverKey then .error (.revoked (toString lineNo)) else .ok verdict
      | some .certAuthority => .ok verdict
      | none =>
        if cert then .ok verdict
        else if !hostMatches lookup entry.hostPatterns then .ok verdict
        else if entry.publicKey = serverKey then .ok .matched
        else if E.algorithm entry.publicKey = E.algorithm serverKey ∧ verdict = .absent then
          .ok (.changed (toString lineNo))
        else .ok verdict

def scanLines : Nat → KnownHostCheck → List Text → KnownHostCheck
  | _, verdict, [] => verdict
  | n, verdict, raw :: rest =>
    match scanLine E lookup serverKey cert n verdict raw with
    | .error r => r
    | .ok v => scanLines (n + 1) v rest

def scanKnownHosts (text : Text) : KnownHostCheck :=
  scanLines E lookup serverKey cert 1 .absent (lines text)

end Scan

/-- `host` on the default port, `[host]:port` otherwise. -/
def hostKeyLookupName (host : String) (port : Nat) : String :=
  if port = 22 then host else s!"[{host}]:{port}"

variable {K A : Type} [DecidableEq K] [DecidableEq A] (E : Env K A)

/-- Check one file: the scan decides unless it finds nothing, which leaves the hashed entries. -/
def checkKnownHostFile (path recordHost : String) (port : Nat) (serverKey : K) (cert : Bool) :
    KnownHostCheck :=
  let lookup := (hostKeyLookupName recordHost port).toList
  let scan := match E.read path with
    | some text => scanKnownHosts E lookup serverKey cert text
    | none => .absent
  match scan with
  | .absent => .fromHashedFallback (E.checkKnownHostsPath recordHost port serverKey path)
  | other => other

/-- The tail of `decide_host_key`, when every file was checked and none decided. -/
def undecided (endpoint recordHost : String) (strict : Bool) (checked : List String) :
    HostKeyDecision :=
  if !strict then .accept
  else if checked.isEmpty then
    .reject s!"no readable known_hosts file to verify the host key of {endpoint}; sp does not write known_hosts, run `ssh {recordHost} true` once on this machine so OpenSSH records the key"
  else
    let names := ", ".intercalate checked
    .reject s!"host key of {endpoint} not found in {names}; connect once with `ssh {recordHost} true` to record it"

/-- The loop over the files; `checked` are those that had no entry. -/
def decideFiles (endpoint recordHost : String) (strict : Bool) (check : String → KnownHostCheck) :
    List String → List String → HostKeyDecision
  | checked, [] => undecided endpoint recordHost strict checked
  | checked, path :: rest =>
    match check path with
    | .matched => .accept
    | .absent => decideFiles endpoint recordHost strict check (checked ++ [path]) rest
    | .revoked line => .reject s!"host key of {endpoint} is revoked ({path} line {line})"
    | .changed line =>
      .reject s!"host key of {endpoint} changed ({path} line {line}); remove the stale entry or verify the server"
    | .malformed detail =>
      .reject s!"malformed known_hosts entry ({path} {detail}) blocks verification of the host key of {endpoint}; fix or remove the line"

def decideHostKey (endpoint recordHost : String) (strict : Bool) (files : List String)
    (check : String → KnownHostCheck) : HostKeyDecision :=
  decideFiles endpoint recordHost strict check [] files

/-- A certificate is decided by revocation only, and fails closed in strict mode. -/
def decideCertificate (endpoint recordHost : String) (port : Nat) (strict : Bool) (certKey : K) :
    List String → HostKeyDecision
  | [] =>
    if strict then
      .reject s!"server presented a host key certificate for {endpoint}; sp does not verify host certificates"
    else .accept
  | path :: rest =>
    match checkKnownHostFile E path recordHost port certKey true with
    | .revoked line => .reject s!"host key presented by {endpoint} is revoked ({path} line {line})"
    | _ => decideCertificate endpoint recordHost port strict certKey rest

structure ResolvedHost where
  hostname : String
  port : Nat
  hostKeyAlias : Option String
  strictHostKeys : Bool
  knownHostsFiles : List String

inductive Presented (K : Type) where
  | publicKey (key : K)
  | certificate (certKey : K)

def ResolvedHost.recordHost (r : ResolvedHost) : String := r.hostKeyAlias.getD r.hostname

def ResolvedHost.endpoint (r : ResolvedHost) : String := s!"{r.hostname}:{r.port}"

/-- Real files only. -/
def knownHostsFiles (r : ResolvedHost) : List String :=
  r.knownHostsFiles.filter fun p => p != "/dev/null" && E.isFile p

def decideServerKey (r : ResolvedHost) : Presented K → HostKeyDecision
  | .publicKey key =>
    decideHostKey r.endpoint r.recordHost r.strictHostKeys (knownHostsFiles E r) fun path =>
      checkKnownHostFile E path r.recordHost r.port key false
  | .certificate certKey =>
    decideCertificate E r.endpoint r.recordHost r.port r.strictHostKeys certKey (knownHostsFiles E r)

end ShellProxy.KnownHosts
