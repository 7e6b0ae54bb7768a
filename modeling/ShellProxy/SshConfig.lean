import ShellProxy.Errors
import ShellProxy.HostPattern
import Mathlib.Tactic.Common

/-! The output of `ssh -G`, and the tokens of a proxy command. -/
namespace ShellProxy.SshConfig
open HostPattern

structure LocalEnv where
  localUser : Option Text
  homeDir : Option Text
  join : Text → Text → Text
  windows : Bool

structure ResolvedHost where
  hostname : Text
  port : Nat
  user : Text
  identityFiles : List Text
  knownHostsFiles : List Text
  proxyCommand : Option Text
  connectTimeout : Option Nat
  strictHostKeys : Bool
  hostKeyAlias : Option Text
  deriving DecidableEq, Repr

def unquote (v : Text) : Text :=
  let v := trim v
  if 2 ≤ v.length ∧ (v.head? = some '"' ∧ v.getLast? = some '"' ∨
      v.head? = some '\'' ∧ v.getLast? = some '\'') then v.tail.dropLast
  else v

def splitValuesFrom : Option Char → Text → Text → List Text
  | _, cur, [] => if cur = [] then [] else [cur]
  | some q, cur, ch :: t => splitValuesFrom (if ch = q then none else some q) (cur ++ [ch]) t
  | none, cur, ch :: t =>
    if ch = '"' ∨ ch = '\'' then splitValuesFrom (some ch) (cur ++ [ch]) t
    else if isWhitespace ch then
      if cur = [] then splitValuesFrom none [] t else cur :: splitValuesFrom none [] t
    else splitValuesFrom none (cur ++ [ch]) t

def splitValues (value : Text) : List Text := (splitValuesFrom none [] value).map unquote

def splitOnce (t : Text) : Option (Text × Text) :=
  match t.dropWhile (· != ' ') with
  | [] => none
  | _ :: value => some (t.takeWhile (· != ' '), value)

/-- `str::parse` at an unsigned type: an optional plus and digits, up to the bound. -/
def parseUnsigned (bound : Nat) (t : Text) : Option Nat :=
  let ds := if t.head? = some '+' then t.tail else t
  if ds = [] ∨ !ds.all Char.isDigit then none
  else
    let n := ds.foldl (fun n d => 10 * n + (d.toNat - '0'.toNat)) 0
    if n ≤ bound then some n else none

def maxU16 : Nat := 65535
def maxU64 : Nat := 18446744073709551615

def insertValue (v : Text) (escape : Bool) : Text :=
  if escape then v.flatMap fun c => if c = '%' then ['%', '%'] else [c] else v

def decimal (n : Nat) : Text := Nat.toDigits 10 n

section Expand
variable (hostname : Text) (port : Nat) (user : Text) (localUser : Option Text) (escape : Bool)

/-- What stands for the character behind a percent sign. -/
def expandToken (d : Char) : Text :=
  if d = '%' then ['%']
  else if d = 'h' ∨ d = 'n' then insertValue hostname escape
  else if d = 'p' then decimal port
  else if d = 'r' then insertValue user escape
  else if d = 'u' then (localUser.map (insertValue · escape)).getD ['%', 'u']
  else ['%', d]

def expandTokens : Text → Text
  | [] => []
  | c :: t =>
    if c ≠ '%' then c :: expandTokens t
    else
      match t with
      | [] => ['%']
      | d :: t => expandToken hostname port user localUser escape d ++ expandTokens t

end Expand

section Parse
variable (E : LocalEnv)

def expandProxyCommand (cmd hostname : Text) (port : Nat) (user : Text) : Text :=
  expandTokens hostname port user E.localUser E.windows cmd

def expandTilde : Text → Text
  | '~' :: '/' :: rest =>
    match E.homeDir with
    | some home => E.join home rest
    | none => '~' :: '/' :: rest
  | path => path

def homeSsh : Text := E.join (E.homeDir.getD []) ".ssh".toList

def defaultIdentityFiles : List Text :=
  ["id_ed25519", "id_ecdsa", "id_rsa", "id_ed25519_sk", "id_ecdsa_sk"].map fun n =>
    E.join (homeSsh E) n.toList

structure Fields where
  hostname : Option Text := none
  port : Nat := 22
  user : Option Text := none
  identityFiles : List Text := []
  knownHostsFiles : List Text := []
  proxyCommand : Option Text := none
  proxyJump : Option Text := none
  connectTimeout : Option Nat := none
  strictHostKeys : Bool := true
  hostKeyAlias : Option Text := none
  deriving DecidableEq, Repr

def orNone (v : Text) (old : Option Text) : Option Text :=
  if v = "none".toList then old else some v

def Fields.set (f : Fields) (key : String) (value : Text) : Fields :=
  match key with
  | "hostname" => { f with hostname := some (unquote value) }
  | "port" => { f with port := (parseUnsigned maxU16 value).getD 22 }
  | "user" => { f with user := some (unquote value) }
  | "connecttimeout" =>
    -- 0 is the default of the system
    { f with connectTimeout := (parseUnsigned maxU64 (unquote value)).filter (0 < ·) }
  | "identityfile" =>
    { f with identityFiles := f.identityFiles ++ [expandTilde E (unquote value)] }
  | "userknownhostsfile" | "globalknownhostsfile" =>
    { f with knownHostsFiles := f.knownHostsFiles ++ (splitValues value).map (expandTilde E) }
  | "stricthostkeychecking" =>
    { f with strictHostKeys :=
        !(["no", "off", "false", "accept-new"].contains (String.ofList (unquote value))) }
  | "proxycommand" => { f with proxyCommand := orNone (unquote value) f.proxyCommand }
  | "proxyjump" => { f with proxyJump := orNone (unquote value) f.proxyJump }
  | "hostkeyalias" =>
    { f with hostKeyAlias :=
        if toAsciiLowercase (unquote value) = "none".toList then f.hostKeyAlias
        else some (unquote value) }
  | _ => f

def Fields.line (f : Fields) (line : Text) : Fields :=
  match splitOnce line with
  | none => f
  | some (key, value) => f.set E (String.ofList key) value

def fields (text : Text) : Fields := (lines text).foldl (Fields.line E) {}

def noHostname (host : String) : Errors.Error := .resolve host "ssh -G output has no hostname"

def noUser (host : String) : Errors.Error :=
  .resolve host "ssh -G output has no user and neither USER nor USERNAME is set"

/-- The proxy command that stands for a jump host. -/
def jumpCommand (hostname : Text) (port : Nat) (user jump : Text) : Text :=
  "ssh -W [".toList ++ (insertValue hostname E.windows ++ ("]:".toList ++ (decimal port ++
    (' ' :: expandTokens hostname port user E.localUser E.windows jump))))

def parseSshGOutput (host : String) (text : Text) : Except Errors.Error ResolvedHost := do
  let f := fields E text
  let hostname ← f.hostname.elim (.error (noHostname host)) .ok
  let user ← (f.user.or E.localUser).elim (.error (noUser host)) .ok
  return {
    hostname, port := f.port, user
    identityFiles := if f.identityFiles = [] then defaultIdentityFiles E else f.identityFiles
    knownHostsFiles :=
      if f.knownHostsFiles = [] then [E.join (homeSsh E) "known_hosts".toList]
      else f.knownHostsFiles
    proxyCommand := f.proxyCommand.or (f.proxyJump.map (jumpCommand E hostname f.port user))
    connectTimeout := f.connectTimeout
    strictHostKeys := f.strictHostKeys
    hostKeyAlias := f.hostKeyAlias }

/-- What `connect` passes to `spawn_proxy`. -/
def spawned (r : ResolvedHost) : Option Text :=
  r.proxyCommand.map fun pc => expandProxyCommand E pc r.hostname r.port r.user

end Parse

/-- The characters `expand_tokens` puts something else for behind a percent sign; `%u` counts where
the local user is known. -/
def isToken (known : Bool) (d : Char) : Bool :=
  d == '%' || d == 'h' || d == 'n' || d == 'p' || d == 'r' || (d == 'u' && known)

/-- The tokens one pass reads, from left to right. -/
def tokensRead (known : Bool) : Text → Text
  | [] => []
  | c :: t =>
    if c ≠ '%' then tokensRead known t
    else
      match t with
      | [] => []
      | d :: t => (if isToken known d then [d] else []) ++ tokensRead known t

section Tokens
variable {known : Bool} {a b t : Text} {c d : Char}

theorem tokensRead_plain (hc : c ≠ '%') : tokensRead known (c :: t) = tokensRead known t := by
  cases t <;> simp [tokensRead, hc]

theorem tokensRead_percent : tokensRead known ('%' :: d :: t) =
    (if isToken known d then [d] else []) ++ tokensRead known t := rfl

theorem tokensRead_none (ha : '%' ∉ a) : tokensRead known (a ++ b) = tokensRead known b := by
  induction a with
  | nil => rfl
  | cons c a ih =>
    have hc : c ≠ '%' := fun hc => ha (hc ▸ List.mem_cons_self)
    rw [List.cons_append, tokensRead_plain hc, ih fun hm => ha (List.mem_cons_of_mem c hm)]

theorem tokensRead_append (hc : isToken true c = false) :
    tokensRead known (a ++ c :: b) = tokensRead known a ++ tokensRead known b := by
  have hk : isToken known c = false := by
    cases known with
    | true => exact hc
    | false => simp_all [isToken]
  have hp : c ≠ '%' := by
    rintro rfl
    cases hc
  fun_induction tokensRead known a with
  | case1 => exact tokensRead_plain hp
  | case2 x a hx ih => rw [List.cons_append, tokensRead_plain hx, ih]
  | case3 x hx =>
    obtain rfl : x = '%' := by simpa using hx
    rw [List.singleton_append, tokensRead_percent, hk]
    rfl
  | case4 x hx d a ih =>
    obtain rfl : x = '%' := by simpa using hx
    rw [List.cons_append, List.cons_append, tokensRead_percent, ih, List.append_assoc]

variable {hostname user : Text} {port : Nat} {localUser : Option Text} {escape : Bool}

theorem expandToken_other (h : isToken localUser.isSome d = false) :
    expandToken hostname port user localUser escape d = ['%', d] := by
  simp only [isToken, Bool.or_eq_false_iff, beq_eq_false_iff_ne, Bool.and_eq_false_iff] at h
  obtain ⟨⟨⟨⟨⟨h1, h2⟩, h3⟩, h4⟩, h5⟩, h6⟩ := h
  rw [expandToken, if_neg h1, if_neg (not_or.mpr ⟨h2, h3⟩), if_neg h4, if_neg h5]
  split_ifs with hu
  · have hl : localUser.isSome = false := h6.resolve_left fun hn => hn hu
    rw [Option.isSome_eq_false_iff, Option.isNone_iff_eq_none] at hl
    rw [hl, hu]
    rfl
  · rfl

theorem expandTokens_id (h : tokensRead localUser.isSome t = []) :
    expandTokens hostname port user localUser escape t = t := by
  fun_induction expandTokens hostname port user localUser escape t with
  | case1 => rfl
  | case2 x t hx ih =>
    rw [tokensRead_plain hx] at h
    rw [ih h]
  | case3 x hx =>
    obtain rfl : x = '%' := by simpa using hx
    rfl
  | case4 x hx d t ih =>
    obtain rfl : x = '%' := by simpa using hx
    rw [tokensRead_percent, List.append_eq_nil_iff] at h
    have hd : isToken localUser.isSome d = false := by simpa using h.1
    rw [ih h.2, expandToken_other hd]
    rfl

theorem percent_not_in_decimal (n : Nat) : '%' ∉ decimal n := fun h =>
  absurd (Nat.isDigit_of_mem_toDigits (by decide) (by decide) h) (by decide)

theorem tokensRead_escaped : tokensRead known (insertValue a true) = [] ↔ '%' ∉ a := by
  rw [insertValue, if_pos rfl]
  induction a with
  | nil => simp [tokensRead]
  | cons c a ih =>
    rw [List.flatMap_cons]
    by_cases hc : c = '%'
    · rw [if_pos hc, List.cons_append, List.singleton_append, tokensRead_percent]
      simp [isToken, hc]
    · rw [if_neg hc, List.singleton_append, tokensRead_plain hc, ih, List.mem_cons, not_or]
      exact (and_iff_right (Ne.symm hc)).symm

end Tokens

theorem tokensRead_jumpCommand (E : LocalEnv) (hostname : Text) (port : Nat) (user jump : Text)
    (known : Bool) : tokensRead known (jumpCommand E hostname port user jump) =
      tokensRead known (insertValue hostname E.windows) ++
        tokensRead known (expandTokens hostname port user E.localUser E.windows jump) := by
  have hb : "]:".toList = [']', ':'] := by decide
  unfold jumpCommand
  rw [tokensRead_none (by decide), hb, List.cons_append, List.singleton_append,
    tokensRead_append (by decide), tokensRead_plain (by decide),
    tokensRead_none (percent_not_in_decimal port), tokensRead_plain (by decide)]

/-- The condition under which a jump host command is expanded exactly once. -/
structure Settled (E : LocalEnv) (r : ResolvedHost) (jump : Text) : Prop where
  hostname : if E.windows then '%' ∉ r.hostname else tokensRead E.localUser.isSome r.hostname = []
  jump : tokensRead E.localUser.isSome
    (expandTokens r.hostname r.port r.user E.localUser E.windows jump) = []

theorem settled_iff (E : LocalEnv) (r : ResolvedHost) (jump : Text) :
    Settled E r jump ↔
      tokensRead E.localUser.isSome (jumpCommand E r.hostname r.port r.user jump) = [] := by
  rw [tokensRead_jumpCommand, List.append_eq_nil_iff]
  have hh : tokensRead E.localUser.isSome (insertValue r.hostname E.windows) = [] ↔
      if E.windows then '%' ∉ r.hostname
      else tokensRead E.localUser.isSome r.hostname = [] := by
    cases hw : E.windows with
    | true => simpa using tokensRead_escaped
    | false => simp [insertValue]
  rw [hh]
  exact ⟨fun h => ⟨h.hostname, h.jump⟩, fun h => ⟨h.1, h.2⟩⟩

theorem insertValue_plain {v : Text} {escape : Bool} (h : '%' ∉ v) : insertValue v escape = v := by
  cases escape with
  | false => rfl
  | true =>
    rw [insertValue, if_pos rfl]
    induction v with
    | nil => rfl
    | cons c v ih =>
      have hc : c ≠ '%' := fun hc => h (hc ▸ List.mem_cons_self)
      rw [List.flatMap_cons, if_neg hc, ih fun hm => h (List.mem_cons_of_mem c hm)]
      rfl

section Plain
variable {hostname user : Text} {port : Nat} {localUser : Option Text} {escape : Bool} {d : Char}

theorem percent_not_in_token (hh : '%' ∉ hostname) (hu : '%' ∉ user)
    (hl : ∀ u, localUser = some u → '%' ∉ u) (hd : d ≠ '%')
    (ht : isToken localUser.isSome d = true) :
    '%' ∉ expandToken hostname port user localUser escape d := by
  simp only [isToken, Bool.or_eq_true, Bool.and_eq_true, beq_iff_eq] at ht
  rw [expandToken, if_neg hd, insertValue_plain hh, insertValue_plain hu]
  split_ifs with h1 h2 h3 h4
  · exact hh
  · exact percent_not_in_decimal port
  · exact hu
  · obtain ⟨u, rfl⟩ : ∃ u, localUser = some u := Option.isSome_iff_exists.mp (by tauto)
    have hp := hl u rfl
    rw [Option.map_some, Option.getD_some, insertValue_plain hp]
    exact hp
  · tauto

theorem tokensRead_expanded {jump : Text} (hh : '%' ∉ hostname) (hu : '%' ∉ user)
    (hl : ∀ u, localUser = some u → '%' ∉ u) (hj : '%' ∉ tokensRead localUser.isSome jump) :
    tokensRead localUser.isSome (expandTokens hostname port user localUser escape jump) = [] := by
  fun_induction expandTokens hostname port user localUser escape jump with
  | case1 => rfl
  | case2 x t hx ih =>
    rw [tokensRead_plain hx] at hj ⊢
    exact ih hj
  | case3 => rfl
  | case4 x hx d t ih =>
    obtain rfl : x = '%' := by simpa using hx
    rw [tokensRead_percent, List.mem_append, not_or] at hj
    cases ht : isToken localUser.isSome d with
    | true =>
      have hd : d ≠ '%' := by
        rintro rfl
        exact hj.1 (by simp [ht])
      rw [tokensRead_none (percent_not_in_token hh hu hl hd ht)]
      exact ih hj.2
    | false =>
      rw [expandToken_other ht, List.cons_append, List.singleton_append, tokensRead_percent, ht]
      exact ih hj.2

end Plain

theorem settled_of_plain (E : LocalEnv) (r : ResolvedHost) (jump : Text) (hh : '%' ∉ r.hostname)
    (hu : '%' ∉ r.user) (hl : ∀ u, E.localUser = some u → '%' ∉ u)
    (hj : '%' ∉ tokensRead E.localUser.isSome jump) : Settled E r jump where
  hostname := by
    split_ifs
    · exact hh
    · have hn := @tokensRead_none E.localUser.isSome r.hostname [] hh
      rw [List.append_nil] at hn
      exact hn
  jump := tokensRead_expanded hh hu hl hj

theorem parse_jump (E : LocalEnv) (host : String) (text : Text) (r : ResolvedHost) (jump : Text)
    (hp : parseSshGOutput E host text = .ok r) (hj : (fields E text).proxyJump = some jump)
    (hc : (fields E text).proxyCommand = none) :
    r.proxyCommand = some (jumpCommand E r.hostname r.port r.user jump) := by
  rw [parseSshGOutput] at hp
  cases hh : (fields E text).hostname with
  | none => rw [hh] at hp; cases hp
  | some hostname =>
    cases hu : (fields E text).user.or E.localUser with
    | none => rw [hh, hu] at hp; cases hp
    | some user =>
      rw [hh, hu, hj, hc] at hp
      cases hp
      rfl

/-- The command of a jump host reaches the shell as it was built, and no second token is read in it,
exactly where the host name and the jump value leave no token. -/
theorem jump_expanded_once_iff (E : LocalEnv) (host : String) (text : Text) (r : ResolvedHost)
    (jump : Text) (hp : parseSshGOutput E host text = .ok r)
    (hj : (fields E text).proxyJump = some jump) (hc : (fields E text).proxyCommand = none) :
    (spawned E r = some (jumpCommand E r.hostname r.port r.user jump) ∧
      ∀ pc, r.proxyCommand = some pc → tokensRead E.localUser.isSome pc = []) ↔
        Settled E r jump := by
  have hpc := parse_jump E host text r jump hp hj hc
  rw [settled_iff, spawned, hpc]
  constructor
  · exact fun h => h.2 _ rfl
  · intro h
    refine ⟨congrArg some (expandTokens_id h), fun pc he => ?_⟩
    obtain rfl := Option.some.inj he
    exact h

def sampleEnv : LocalEnv where
  localUser := some ['l']
  homeDir := some ['/', 'r']
  join dir name := dir ++ '/' :: name
  windows := false

/-- A jump host with a token in it, to be filled in for a plain host name. -/
def sampleOutput : Text := "hostname h\nuser u\nproxyjump j%h\n".toList

def sampleHost (hostname jumped : Text) : ResolvedHost where
  hostname := hostname
  port := 22
  user := ['u']
  identityFiles := defaultIdentityFiles sampleEnv
  knownHostsFiles := ["/r/.ssh/known_hosts".toList]
  proxyCommand := some jumped
  connectTimeout := none
  strictHostKeys := true
  hostKeyAlias := none

theorem jump_expanded_once_sample :
    spawned sampleEnv (sampleHost ['h'] "ssh -W [h]:22 jh".toList) =
      some (jumpCommand sampleEnv ['h'] 22 ['u'] ['j', '%', 'h']) := by
  refine ((jump_expanded_once_iff sampleEnv "a" sampleOutput _ ['j', '%', 'h'] ?_ ?_ ?_).mpr
    ⟨?_, ?_⟩).1
  · decide +kernel
  · decide +kernel
  · decide +kernel
  · decide +kernel
  · decide +kernel

def zonedOutput : Text := "hostname fe80::1%p1\nuser u\nproxyjump j\n".toList

/-- The zone of an address is read as a token. -/
theorem zone_read_as_token : ∃ r, parseSshGOutput sampleEnv "a" zonedOutput = .ok r ∧
    (fields sampleEnv zonedOutput).proxyJump = some ['j'] ∧
    (fields sampleEnv zonedOutput).proxyCommand = none ∧
    spawned sampleEnv r = some "ssh -W [fe80::1221]:22 j".toList ∧
    spawned sampleEnv r ≠ some (jumpCommand sampleEnv r.hostname r.port r.user ['j']) :=
  ⟨sampleHost "fe80::1%p1".toList "ssh -W [fe80::1%p1]:22 j".toList, by decide +kernel, by decide +kernel,
    by decide +kernel, by decide +kernel, by decide +kernel⟩

end ShellProxy.SshConfig
