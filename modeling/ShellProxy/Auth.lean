import ShellProxy.SshConfig
import ShellProxy.Errors
import Mathlib.Logic.Relation
import Mathlib.Data.List.Basic

/-! Publickey authentication: the attempt budget shared by the ssh-agent and the identity files,
and the choice of RSA signature hashes. -/
namespace ShellProxy.Auth
open HostPattern SshConfig

/-- Servers count every authentication request toward `MaxAuthTries` and disconnect once it is
exceeded. -/
def maxPublickeyAttempts : Nat := 6

inductive HashAlg where
  | sha256 | sha512
  deriving DecidableEq, Repr

inductive MethodKind where
  | none | password | publicKey | hostBased | keyboardInteractive
  deriving DecidableEq, Repr

inductive AuthResult where
  | success
  | failure (remainingMethods : List MethodKind)
  deriving DecidableEq, Repr

inductive KeyError where
  | keyIsEncrypted | other
  deriving DecidableEq, Repr

inductive AuthAttempt where
  | success | rejected
  /-- transport or signer error -/
  | failed
  deriving DecidableEq, Repr

/-- Publickey attempt state across the agent and identity-file paths. -/
structure PublickeyBudget where
  attempts : Nat := 0
  offered : Bool := true
  deriving DecidableEq, Repr

variable {κ ε : Type}

namespace PublickeyBudget

def exhausted (b : PublickeyBudget) : Bool :=
  !b.offered || decide (maxPublickeyAttempts ≤ b.attempts)

def record (b : PublickeyBudget) : Except ε AuthResult → PublickeyBudget × AuthAttempt
  | .ok .success => ({ b with attempts := b.attempts + 1 }, .success)
  | .ok (.failure remaining) =>
    ({ attempts := b.attempts + 1, offered := b.offered && remaining.contains .publicKey },
      .rejected)
  | .error _ => ({ b with attempts := b.attempts + 1 }, .failed)

end PublickeyBudget

inductive RsaHashPlan where
  /-- the server advertised its algorithms; no hash means that it accepts ssh-rsa with SHA-1 only -/
  | fixed (hash : Option HashAlg)
  /-- the server did not advertise -/
  | downgrade
  deriving DecidableEq, Repr

/-- What `authenticate` asks of the agent, the file system and the server. Attempt number `n` on
the connection ends in `reply n`. -/
structure Env (κ ε : Type) where
  isRsa : κ → Bool
  connectAgent : Except ε (Except ε (List κ))
  loadSecretKey : Text → Except KeyError κ
  bestSupportedRsaHash : Except ε (Option (Option HashAlg))
  reply : Nat → Except ε AuthResult

inductive Source where
  | agent
  | file (path : Text)
  deriving DecidableEq, Repr

structure Attempt (κ ε : Type) where
  source : Source
  key : κ
  hash : Option HashAlg
  result : Except ε AuthResult

structure State (κ ε : Type) where
  budget : PublickeyBudget := {}
  log : List (Attempt κ ε) := []

/-- A loop that ended, or the `return Ok(())` inside it. -/
inductive Flow (σ : Type) where
  | returned (s : σ)
  | next (s : σ)

def Flow.state {σ : Type} : Flow σ → σ
  | .returned s => s
  | .next s => s

section Authenticate
variable (w : Env κ ε)

def State.attempt (s : State κ ε) (source : Source) (key : κ) (hash : Option HashAlg) :
    State κ ε × AuthAttempt :=
  let result := w.reply s.log.length
  let (budget, outcome) := s.budget.record result
  (⟨budget, s.log ++ [⟨source, key, hash, result⟩]⟩, outcome)

def agentLoop : List κ → State κ ε → Flow (State κ ε)
  | [], s => .next s
  | identity :: rest, s =>
    if s.budget.exhausted then .next s
    else
      match s.attempt w .agent identity none with
      | (t, .success) => .returned t
      | (t, _) => agentLoop rest t

/-- The loop over the hashes of one identity file; the flag says that the server rejected one. -/
def hashLoop (path : Text) (key : κ) :
    List (Option HashAlg) → State κ ε → Bool → Flow (State κ ε × Bool)
  | [], s, rejected => .next (s, rejected)
  | hash :: rest, s, rejected =>
    if s.budget.exhausted then .next (s, rejected)
    else
      match s.attempt w (.file path) key hash with
      | (t, .success) => .returned (t, rejected)
      -- only a server rejection justifies a downgrade retry
      | (t, .rejected) => hashLoop path key rest t true
      | (t, .failed) => .next (t, rejected)

def queryPlan : RsaHashPlan :=
  match w.bestSupportedRsaHash with
  | .ok (some alg) => .fixed alg
  | _ => .downgrade

def RsaHashPlan.hashes : RsaHashPlan → List (Option HashAlg)
  | .fixed hash => [hash]
  | .downgrade => [some .sha512, some .sha256, none]

structure FileState (κ ε : Type) where
  state : State κ ε
  /-- queried once, at the first RSA identity -/
  rsaPlan : Option RsaHashPlan := none
  attempts : List String := []

def encryptedNote (path : Text) : String :=
  String.ofList path ++ ": encrypted, add it to ssh-agent"

def rejectedNote (path : Text) : String := String.ofList path ++ ": rejected"

def FileState.planFor (f : FileState κ ε) (key : κ) : Option RsaHashPlan :=
  if w.isRsa key then some (f.rsaPlan.getD (queryPlan w)) else f.rsaPlan

def FileState.hashesFor (f : FileState κ ε) (key : κ) : List (Option HashAlg) :=
  if w.isRsa key then (f.rsaPlan.getD (queryPlan w)).hashes else [none]

def fileLoop : List Text → FileState κ ε → Flow (FileState κ ε)
  | [], f => .next f
  | path :: rest, f =>
    if f.state.budget.exhausted then .next f
    else
      match w.loadSecretKey path with
      | .error .keyIsEncrypted =>
        fileLoop rest { f with attempts := f.attempts ++ [encryptedNote path] }
      | .error .other => fileLoop rest f
      | .ok key =>
        match hashLoop w path key (f.hashesFor w key) f.state false with
        | .returned (t, _) => .returned { f with state := t, rsaPlan := f.planFor w key }
        | .next (t, rejected) =>
          fileLoop rest {
            state := t
            rsaPlan := f.planFor w key
            attempts := if rejected then f.attempts ++ [rejectedNote path] else f.attempts }

def reasons (f : FileState κ ε) : List String :=
  f.attempts ++
    (if !f.state.budget.offered then ["server stopped offering publickey authentication"]
      else []) ++
    (if decide (maxPublickeyAttempts ≤ f.state.budget.attempts) && f.state.budget.offered then
      ["publickey attempt budget of " ++ toString maxPublickeyAttempts ++ " exhausted"] else [])

def authError (resolved : ResolvedHost) (reasons : List String) : Errors.Error :=
  .auth ("no auth method succeeded for " ++ String.ofList resolved.user ++ "@" ++
    String.ofList resolved.hostname ++ "; agent tried, keys: " ++
    (if reasons = [] then "none usable" else "; ".intercalate reasons))

/-- The identities the agent offers; none where it cannot be reached or does not answer. -/
def identities : List κ :=
  match w.connectAgent with
  | .ok (.ok ids) => ids
  | _ => []

structure Report (κ ε : Type) where
  result : Except Errors.Error Unit
  log : List (Attempt κ ε)

def authenticate (resolved : ResolvedHost) : Report κ ε :=
  match agentLoop w (identities w) {} with
  | .returned s => ⟨.ok (), s.log⟩
  | .next s =>
    match fileLoop w resolved.identityFiles { state := s } with
    | .returned f => ⟨.ok (), f.state.log⟩
    | .next f => ⟨.error (authError resolved (reasons f)), f.state.log⟩

end Authenticate

def succeeded (r : Except ε AuthResult) : Bool :=
  match r with
  | .ok .success => true
  | _ => false

/-- Publickey is still on offer behind this reply; an error is none. -/
def offers (r : Except ε AuthResult) : Bool :=
  match r with
  | .ok (.failure remaining) => remaining.contains .publicKey
  | _ => true

def Rejects (r : Except ε AuthResult) : Prop := ∃ remaining, r = .ok (.failure remaining)

def ends (r : Except ε AuthResult) : Bool := succeeded r || !offers r

theorem record_attempts (b : PublickeyBudget) (r : Except ε AuthResult) :
    (b.record r).1.attempts = b.attempts + 1 := by
  obtain _ | _ | _ := r <;> rfl

theorem record_offered (b : PublickeyBudget) (r : Except ε AuthResult) :
    (b.record r).1.offered = (b.offered && offers r) := by
  obtain _ | _ | _ := r <;> simp [PublickeyBudget.record, offers]

theorem record_success_iff (b : PublickeyBudget) (r : Except ε AuthResult) :
    (b.record r).2 = .success ↔ succeeded r = true := by
  obtain _ | _ | _ := r <;> simp [PublickeyBudget.record, succeeded]

theorem record_rejected_iff (b : PublickeyBudget) (r : Except ε AuthResult) :
    (b.record r).2 = .rejected ↔ Rejects r := by
  obtain _ | _ | _ := r <;> simp [PublickeyBudget.record, Rejects]

theorem exhausted_eq_false_iff (b : PublickeyBudget) :
    b.exhausted = false ↔ b.offered = true ∧ b.attempts < maxPublickeyAttempts := by
  simp [PublickeyBudget.exhausted]

section Attempts
variable {w : Env κ ε} {Q : List (Attempt κ ε) → Attempt κ ε → Prop}

@[simp] theorem attempt_log (s : State κ ε) (source : Source) (key : κ) (hash : Option HashAlg) :
    (s.attempt w source key hash).1.log = s.log ++ [⟨source, key, hash, w.reply s.log.length⟩] :=
  rfl

@[simp] theorem attempt_budget (s : State κ ε) (source : Source) (key : κ)
    (hash : Option HashAlg) :
    (s.attempt w source key hash).1.budget = (s.budget.record (w.reply s.log.length)).1 := rfl

@[simp] theorem attempt_outcome (s : State κ ε) (source : Source) (key : κ)
    (hash : Option HashAlg) :
    (s.attempt w source key hash).2 = (s.budget.record (w.reply s.log.length)).2 := rfl

def Fresh (s : State κ ε) : Prop := ∀ a ∈ s.log, succeeded a.result = false

variable (w Q) in
/-- One attempt that the budget allows and that meets `Q` behind the attempts before it. -/
inductive Asks : State κ ε → State κ ε → Prop where
  | ask {s : State κ ε} {source : Source} {key : κ} {hash : Option HashAlg} :
      s.budget.exhausted = false → Fresh s →
      Q s.log ⟨source, key, hash, w.reply s.log.length⟩ →
      Asks s (s.attempt w source key hash).1

structure Inv (s : State κ ε) : Prop where
  attempts : s.budget.attempts = s.log.length
  offered : s.budget.offered = true ↔ ∀ a ∈ s.log, offers a.result = true
  bounded : s.log.length ≤ maxPublickeyAttempts
  quiet : s.log.Pairwise fun a _ => ends a.result = false

theorem inv_start : Inv ({} : State κ ε) := by
  refine ⟨rfl, by simp, Nat.zero_le _, .nil⟩

theorem Asks.inv {s t : State κ ε} (h : Asks w Q s t) (hi : Inv s) : Inv t := by
  obtain ⟨hready, hfresh, -⟩ := h
  obtain ⟨hoff, hlt⟩ := (exhausted_eq_false_iff _).mp hready
  have hall := hi.offered.mp hoff
  constructor
  · rw [attempt_budget, record_attempts, hi.attempts, attempt_log, List.length_append]
    rfl
  · rw [attempt_budget, record_offered, attempt_log, Bool.and_eq_true, hi.offered]
    simp [or_imp, forall_and]
  · rw [attempt_log, List.length_append, List.length_singleton]
    rw [hi.attempts] at hlt
    exact hlt
  · rw [attempt_log, List.pairwise_append]
    refine ⟨hi.quiet, List.pairwise_singleton _ _, fun a ha _ _ => ?_⟩
    rw [ends, hfresh a ha, hall a ha]
    rfl

/-- Each attempt of the log meets `Q` behind those before it. -/
def Follows (Q : List (Attempt κ ε) → Attempt κ ε → Prop) (log : List (Attempt κ ε)) : Prop :=
  ∀ l a r, log = l ++ a :: r → Q l a

theorem Follows.snoc {log : List (Attempt κ ε)} {a : Attempt κ ε} (h : Follows Q log)
    (ha : Q log a) : Follows Q (log ++ [a]) := by
  intro l b r hr
  obtain rfl | ⟨r, c, rfl⟩ := r.eq_nil_or_concat
  · obtain ⟨rfl, hb⟩ := List.append_inj' hr rfl
    obtain rfl := (List.cons.inj hb).1
    exact ha
  · rw [List.concat_eq_append, ← List.cons_append, ← List.append_assoc] at hr
    exact h l b r (List.append_inj' hr rfl).1

abbrev Chain (w : Env κ ε) (Q : List (Attempt κ ε) → Attempt κ ε → Prop) :=
  Relation.ReflTransGen (Asks w Q)

theorem Chain.inv {s t : State κ ε} (h : Chain w Q s t) (hi : Inv s) : Inv t := by
  induction h with
  | refl => exact hi
  | tail _ hstep ih => exact hstep.inv ih

theorem Chain.follows {s t : State κ ε} (h : Chain w Q s t) (hf : Follows Q s.log) :
    Follows Q t.log := by
  induction h with
  | refl => exact hf
  | tail _ hstep ih =>
    obtain ⟨-, -, hQ⟩ := hstep
    exact ih.snoc hQ

theorem Chain.keeps {s t : State κ ε} (h : Chain w Q s t) : s.log <+: t.log := by
  induction h with
  | refl => exact List.prefix_rfl
  | tail _ hstep ih =>
    obtain ⟨-, -, -⟩ := hstep
    exact ih.trans (List.prefix_append _ _)

theorem Chain.mono {Q' : List (Attempt κ ε) → Attempt κ ε → Prop} {s t : State κ ε}
    (hQ : ∀ l a, Q l a → Q' l a) (h : Chain w Q s t) : Chain w Q' s t := by
  induction h with
  | refl => exact .refl
  | tail _ hstep ih =>
    obtain ⟨hready, hfresh, hq⟩ := hstep
    exact ih.tail (.ask hready hfresh (hQ _ _ hq))

variable (w Q) in
def Ended {σ : Type} (proj : σ → State κ ε) (s : State κ ε) : Flow σ → Prop
  | .returned t => Chain w Q s (proj t) ∧ ¬ Fresh (proj t)
  | .next t => Chain w Q s (proj t) ∧ Fresh (proj t)

theorem Ended.head {σ : Type} {proj : σ → State κ ε} {s t : State κ ε} {f : Flow σ}
    (h : Chain w Q s t) (he : Ended w Q proj t f) : Ended w Q proj s f := by
  cases f with
  | returned u => exact ⟨h.trans he.1, he.2⟩
  | next u => exact ⟨h.trans he.1, he.2⟩

theorem Ended.chain {σ : Type} {proj : σ → State κ ε} {s : State κ ε} {f : Flow σ}
    (he : Ended w Q proj s f) : Chain w Q s (proj f.state) := by
  cases f with
  | returned u => exact he.1
  | next u => exact he.1

theorem fresh_attempt_iff {s : State κ ε} (hs : Fresh s) (source : Source) (key : κ)
    (hash : Option HashAlg) :
    Fresh (s.attempt w source key hash).1 ↔ (s.attempt w source key hash).2 ≠ .success := by
  rw [attempt_outcome, Ne, record_success_iff]
  unfold Fresh at hs ⊢
  simpa [or_imp, forall_and] using fun _ => hs

end Attempts

section Loops
variable {w : Env κ ε}

variable (w) in
structure FromAgent (ids : List κ) (before : List (Attempt κ ε)) (a : Attempt κ ε) : Prop where
  source : a.source = .agent
  hash : a.hash = none
  key : ids[before.length]? = some a.key
  result : a.result = w.reply before.length

theorem agentLoop_ended (ids rest : List κ) (s : State κ ε) (hrest : rest = ids.drop s.log.length)
    (hs : Fresh s) : Ended w (FromAgent w ids) id s (agentLoop w rest s) := by
  induction rest generalizing s with
  | nil => exact ⟨.refl, hs⟩
  | cons identity rest ih =>
    rw [agentLoop]
    cases hready : s.budget.exhausted with
    | true => exact ⟨.refl, hs⟩
    | false =>
      have hkey : ids[s.log.length]? = some identity := by
        rw [← List.head?_drop, ← hrest]
        rfl
      have hask : Chain w (FromAgent w ids) s (s.attempt w .agent identity none).1 :=
        .single (.ask hready hs ⟨rfl, rfl, hkey, rfl⟩)
      have hfresh := fresh_attempt_iff (w := w) hs .agent identity none
      have hdrop : rest = ids.drop (s.attempt w .agent identity none).1.log.length := by
        rw [attempt_log, List.length_append, List.length_singleton, ← List.tail_drop, ← hrest]
        rfl
      have hnext := ih _ hdrop
      generalize s.attempt w .agent identity none = r at hask hfresh hnext
      obtain ⟨t, outcome⟩ := r
      cases outcome with
      | success => exact ⟨hask, fun hf => hfresh.mp hf rfl⟩
      | rejected => exact .head hask (hnext (hfresh.mpr (by simp)))
      | failed => exact .head hask (hnext (hfresh.mpr (by simp)))

theorem agentLoop_next {ids : List κ} {s t : State κ ε} (h : agentLoop w ids s = .next t) :
    t.budget.exhausted = true ∨ t.log.length = s.log.length + ids.length := by
  induction ids generalizing s with
  | nil =>
    obtain rfl := Flow.next.inj h
    exact .inr rfl
  | cons identity rest ih =>
    rw [agentLoop] at h
    cases hready : s.budget.exhausted with
    | true =>
      rw [hready, if_pos rfl] at h
      obtain rfl := Flow.next.inj h
      exact .inl hready
    | false =>
      rw [hready, if_neg Bool.false_ne_true] at h
      have hlen : (s.attempt w .agent identity none).1.log.length = s.log.length + 1 := by simp
      generalize s.attempt w .agent identity none = r at h hlen
      obtain ⟨u, outcome⟩ := r
      have hrec : agentLoop w rest u = .next t := by
        cases outcome with
        | success => cases h
        | rejected => exact h
        | failed => exact h
      refine (ih hrec).imp_right fun h' => ?_
      rw [h', hlen, List.length_cons]
      omega

def Tried (before : List (Attempt κ ε)) (key : κ) (hash : Option HashAlg) : Prop :=
  ∃ b ∈ before, b.key = key ∧ b.hash = hash ∧ Rejects b.result

variable (w) in
/-- SHA-1 only where the server accepts nothing else, or behind both other hashes. -/
def Sha1Last (before : List (Attempt κ ε)) (a : Attempt κ ε) : Prop :=
  w.isRsa a.key = true → a.hash = none →
    w.bestSupportedRsaHash = .ok (some none) ∨
      Tried before a.key (some .sha512) ∧ Tried before a.key (some .sha256)

variable (w) in
structure FromFile (before : List (Attempt κ ε)) (a : Attempt κ ε) : Prop where
  source : a.source ≠ .agent
  sha1 : Sha1Last w before a

variable (w) in
/-- The hashes `pre` come before SHA-1 for this key. -/
def Justified (key : κ) (pre : List (Option HashAlg)) : Prop :=
  w.isRsa key = true → w.bestSupportedRsaHash = .ok (some none) ∨
    some .sha512 ∈ pre ∧ some .sha256 ∈ pre

theorem hashLoop_ended (path : Text) (key : κ) (tried rest : List (Option HashAlg))
    (s : State κ ε) (rejected : Bool) (htried : ∀ h ∈ tried, Tried s.log key h)
    (hrule : ∀ pre post, tried ++ rest = pre ++ none :: post → Justified w key pre)
    (hs : Fresh s) :
    Ended w (FromFile w) Prod.fst s (hashLoop w path key rest s rejected) := by
  induction rest generalizing tried s rejected with
  | nil => exact ⟨.refl, hs⟩
  | cons hash rest ih =>
    rw [hashLoop]
    cases hready : s.budget.exhausted with
    | true => exact ⟨.refl, hs⟩
    | false =>
      have hsha : Sha1Last w s.log ⟨.file path, key, hash, w.reply s.log.length⟩ := by
        rintro hrsa hnone
        have hj := hrule tried rest (by rw [← show hash = none from hnone]) hrsa
        exact hj.imp_right fun h => ⟨htried _ h.1, htried _ h.2⟩
      have hask : Chain w (FromFile w) s (s.attempt w (.file path) key hash).1 :=
        .single (.ask hready hs ⟨by simp, hsha⟩)
      have hfresh := fresh_attempt_iff (w := w) hs (.file path) key hash
      -- a rejection is what the next hash needs
      have hlater : (s.attempt w (.file path) key hash).2 = .rejected →
          ∀ h ∈ tried ++ [hash], Tried (s.attempt w (.file path) key hash).1.log key h := by
        intro hr h hh
        rw [attempt_outcome, record_rejected_iff] at hr
        rw [attempt_log]
        obtain hh | hh := List.mem_append.mp hh
        · obtain ⟨b, hb, hkey⟩ := htried h hh
          exact ⟨b, List.mem_append_left _ hb, hkey⟩
        · obtain rfl := List.mem_singleton.mp hh
          exact ⟨_, List.mem_append_right _ (List.mem_singleton_self _), rfl, rfl, hr⟩
      have hrule' : ∀ pre post, (tried ++ [hash]) ++ rest = pre ++ none :: post →
          Justified w key pre := by simpa using hrule
      generalize s.attempt w (.file path) key hash = r at hask hfresh hlater
      obtain ⟨t, outcome⟩ := r
      cases outcome with
      | success => exact ⟨hask, fun hf => hfresh.mp hf rfl⟩
      | rejected => exact .head hask (ih _ t true (hlater rfl) hrule' (hfresh.mpr (by simp)))
      | failed => exact ⟨hask, hfresh.mpr (by simp)⟩

theorem queryPlan_fixed {hash : Option HashAlg} (h : queryPlan w = .fixed hash) :
    w.bestSupportedRsaHash = .ok (some hash) := by
  unfold queryPlan at h
  split at h
  · rename_i hb
    obtain rfl := RsaHashPlan.fixed.inj h
    exact hb
  · cases h

def Planned (w : Env κ ε) (f : FileState κ ε) : Prop :=
  f.rsaPlan = none ∨ f.rsaPlan = some (queryPlan w)

theorem Planned.getD {f : FileState κ ε} (h : Planned w f) :
    f.rsaPlan.getD (queryPlan w) = queryPlan w := by
  obtain h | h := h <;> rw [h] <;> rfl

theorem Planned.planFor {f : FileState κ ε} (h : Planned w f) (key : κ) :
    f.planFor w key = none ∨ f.planFor w key = some (queryPlan w) := by
  unfold FileState.planFor
  split
  · exact .inr (congrArg some h.getD)
  · exact h

theorem hashesFor_justified {f : FileState κ ε} (h : Planned w f) (key : κ)
    (pre post : List (Option HashAlg)) (hp : f.hashesFor w key = pre ++ none :: post) :
    Justified w key pre := by
  intro hrsa
  rw [FileState.hashesFor, if_pos hrsa, h.getD] at hp
  cases hq : queryPlan w with
  | fixed hash =>
    rw [hq] at hp
    obtain ⟨rfl, hnone⟩ : pre = [] ∧ hash = none := by
      obtain _ | ⟨a, pre⟩ := pre <;> simp_all [RsaHashPlan.hashes]
    subst hnone
    exact .inl (queryPlan_fixed hq)
  | downgrade =>
    rw [hq] at hp
    refine .inr ?_
    obtain _ | ⟨a, _ | ⟨b, pre⟩⟩ := pre <;> simp_all [RsaHashPlan.hashes]

theorem fileLoop_ended (files : List Text) (f : FileState κ ε) (hplan : Planned w f)
    (hs : Fresh f.state) :
    Ended w (FromFile w) FileState.state f.state (fileLoop w files f) := by
  induction files generalizing f with
  | nil => exact ⟨.refl, hs⟩
  | cons path rest ih =>
    rw [fileLoop]
    split
    · exact ⟨.refl, hs⟩
    · split
      · exact ih _ hplan hs
      · exact ih _ hplan hs
      · rename_i key _
        have hh := hashLoop_ended path key [] (f.hashesFor w key) f.state false (by simp)
          (hashesFor_justified hplan key) hs
        split
        · rename_i t _ hr
          rw [hr] at hh
          exact hh
        · rename_i t rejected hr
          rw [hr] at hh
          exact .head hh.1 (ih _ (hplan.planFor key) hh.2)

theorem Follows.get {Q : List (Attempt κ ε) → Attempt κ ε → Prop} {log : List (Attempt κ ε)}
    {a : Attempt κ ε} {i : Nat} (h : Follows Q log) (hi : log[i]? = some a) :
    Q (log.take i) a ∧ (log.take i).length = i := by
  obtain ⟨hlt, rfl⟩ := List.getElem?_eq_some_iff.mp hi
  refine ⟨h _ _ (log.drop (i + 1)) ?_, ?_⟩
  · rw [← List.drop_eq_getElem_cons hlt, List.take_append_drop]
  · rw [List.length_take]
    omega

theorem agentLog {ids : List κ} {t : State κ ε} (h : Chain w (FromAgent w ids) {} t) {i : Nat}
    {a : Attempt κ ε} (hi : t.log[i]? = some a) :
    a.source = .agent ∧ a.hash = none ∧ ids[i]? = some a.key ∧ a.result = w.reply i := by
  obtain ⟨hq, hlen⟩ := (h.follows (by simp [Follows])).get hi
  exact ⟨hq.source, hq.hash, hlen ▸ hq.key, hlen ▸ hq.result⟩

theorem agentLog_length_le {ids : List κ} {t : State κ ε} (h : Chain w (FromAgent w ids) {} t) :
    t.log.length ≤ ids.length := by
  by_contra hlt
  push Not at hlt
  have hkey := (agentLog h (List.getElem?_eq_getElem hlt)).2.2.1
  simp at hkey

theorem agentLoop_stops (ids : List κ) :
    ids.length ≤ (agentLoop w ids {}).state.log.length ∨
      maxPublickeyAttempts ≤ (agentLoop w ids {}).state.log.length ∨
      ∃ j < (agentLoop w ids {}).state.log.length, ends (w.reply j) = true := by
  have hend := agentLoop_ended (w := w) ids ids {} rfl (by simp [Fresh])
  have hcause : ∀ a ∈ (agentLoop w ids {}).state.log, ends a.result = true →
      ∃ j < (agentLoop w ids {}).state.log.length, ends (w.reply j) = true := by
    intro a ha he
    obtain ⟨j, hj⟩ := List.mem_iff_getElem?.mp ha
    refine ⟨j, (List.getElem?_eq_some_iff.mp hj).1, ?_⟩
    rw [← (agentLog hend.chain hj).2.2.2]
    exact he
  cases hl : agentLoop w ids {} with
  | returned t =>
    rw [hl] at hend hcause
    have hf := hend.2
    unfold Fresh at hf
    push Not at hf
    obtain ⟨a, ha, hsucc⟩ := hf
    exact .inr (.inr (hcause a ha (by simp_all [ends])))
  | next t =>
    rw [hl] at hend hcause
    have hinv : Inv t := hend.1.inv inv_start
    obtain hex | hlen := agentLoop_next hl
    · by_cases hoff : t.budget.offered = true
      · refine .inr (.inl ?_)
        rw [PublickeyBudget.exhausted, hoff, hinv.attempts] at hex
        rw [Flow.state]
        simpa using hex
      · rw [hinv.offered] at hoff
        push Not at hoff
        obtain ⟨a, ha, hno⟩ := hoff
        exact .inr (.inr (hcause a ha (by simp_all [ends])))
    · exact .inl (by rw [Flow.state, hlen]; simp)

theorem hashesFor_ne_nil (f : FileState κ ε) (key : κ) : f.hashesFor w key ≠ [] := by
  unfold FileState.hashesFor
  split
  · cases f.rsaPlan.getD (queryPlan w) <;> simp [RsaHashPlan.hashes]
  · simp

theorem fileLoop_exhausted (files : List Text) {f : FileState κ ε}
    (h : f.state.budget.exhausted = true) : fileLoop w files f = .next f := by
  cases files with
  | nil => rfl
  | cons path rest => rw [fileLoop, if_pos h]

theorem hashLoop_keeps (path : Text) (key : κ) (hashes : List (Option HashAlg)) (s : State κ ε)
    (rejected : Bool) : s.log <+: (hashLoop w path key hashes s rejected).state.1.log := by
  induction hashes generalizing s rejected with
  | nil => exact List.prefix_rfl
  | cons hash rest ih =>
    have hlog : s.log <+: (s.attempt w (.file path) key hash).1.log := List.prefix_append _ _
    rw [hashLoop]
    split
    · exact List.prefix_rfl
    · generalize s.attempt w (.file path) key hash = r at hlog
      obtain ⟨t, outcome⟩ := r
      cases outcome with
      | success => exact hlog
      | rejected => exact hlog.trans (ih t true)
      | failed => exact hlog

theorem hashLoop_asks (path : Text) (key : κ) {hashes : List (Option HashAlg)} {s : State κ ε}
    (hne : hashes ≠ []) (hready : s.budget.exhausted = false) (rejected : Bool) :
    ∃ a ∈ (hashLoop w path key hashes s rejected).state.1.log, a.source = .file path := by
  obtain ⟨hash, rest, rfl⟩ := List.exists_cons_of_ne_nil hne
  have hask : ∃ a ∈ (s.attempt w (.file path) key hash).1.log, a.source = .file path := by simp
  rw [hashLoop, if_neg (by simp [hready])]
  generalize s.attempt w (.file path) key hash = r at hask
  obtain ⟨t, outcome⟩ := r
  cases outcome with
  | success => exact hask
  | failed => exact hask
  | rejected =>
    obtain ⟨a, ha, hsource⟩ := hask
    exact ⟨a, (hashLoop_keeps path key rest t true).subset ha, hsource⟩

theorem fileLoop_asks {files : List Text} {f : FileState κ ε}
    (hready : f.state.budget.exhausted = false) (hplan : Planned w f) (hs : Fresh f.state)
    (hload : ∃ path ∈ files, ∃ key, w.loadSecretKey path = .ok key) :
    ∃ a ∈ (fileLoop w files f).state.state.log, a.source ≠ .agent := by
  induction files generalizing f with
  | nil => simp at hload
  | cons path rest ih =>
    rw [List.exists_mem_cons_iff] at hload
    rw [fileLoop, if_neg (by simp [hready])]
    split
    · rename_i he
      exact ih hready hplan hs (hload.resolve_left (by simp [he]))
    · rename_i he
      exact ih hready hplan hs (hload.resolve_left (by simp [he]))
    · rename_i key _
      obtain ⟨a, ha, hsource⟩ :=
        hashLoop_asks (w := w) path key (hashesFor_ne_nil f key) hready false
      have hh := hashLoop_ended path key [] (f.hashesFor w key) f.state false (by simp)
        (hashesFor_justified hplan key) hs
      have hfile : a.source ≠ .agent := by simp [hsource]
      split
      · rename_i hr
        rw [hr] at ha
        exact ⟨a, ha, hfile⟩
      · rename_i t rejected hr
        rw [hr] at ha hh
        refine ⟨a, (fileLoop_ended rest _ ?_ hh.2).chain.keeps.subset ha, hfile⟩
        exact hplan.planFor key

end Loops

section Results

theorem identities_of_agent {w : Env κ ε} {ids : List κ} (h : w.connectAgent = .ok (.ok ids)) :
    identities w = ids := by
  rw [identities, h]

theorem log_of_next {w : Env κ ε} {s : State κ ε} (resolved : ResolvedHost)
    (h : agentLoop w (identities w) {} = .next s) :
    (authenticate w resolved).log =
      (fileLoop w resolved.identityFiles { state := s }).state.state.log := by
  rw [authenticate, h]
  dsimp only
  split <;> rename_i hf <;> rw [hf] <;> rfl

/-- With an agent whose keys are all rejected while publickey stays on offer, an identity file is
tried exactly when the keyring leaves something of the budget. -/
theorem identityFile_tried_iff (w : Env κ ε) (resolved : ResolvedHost) (ids : List κ)
    (hagent : w.connectAgent = .ok (.ok ids))
    (hreject : ∀ i < ids.length,
      ∃ remaining, w.reply i = .ok (.failure remaining) ∧ .publicKey ∈ remaining)
    (hload : ∃ path ∈ resolved.identityFiles, ∃ key, w.loadSecretKey path = .ok key) :
    ((∃ e, (authenticate w resolved).result = .error e) →
        ∃ a ∈ (authenticate w resolved).log, a.source ≠ .agent) ↔
      ids.length < maxPublickeyAttempts := by
  have hend := agentLoop_ended (w := w) ids ids {} rfl (by simp [Fresh])
  have hstop := agentLoop_stops (w := w) ids
  have hle := agentLog_length_le hend.chain
  have hgoes : ∀ i < ids.length, ends (w.reply i) = false := by
    intro i hi
    obtain ⟨remaining, hr, hmem⟩ := hreject i hi
    simp [hr, ends, succeeded, offers, hmem]
  have hmild : ∀ a ∈ (agentLoop w ids {}).state.log, ends a.result = false := by
    intro a ha
    obtain ⟨i, hi⟩ := List.mem_iff_getElem?.mp ha
    have hlt := (List.getElem?_eq_some_iff.mp hi).1
    rw [(agentLog hend.chain hi).2.2.2]
    exact hgoes i (by simp only [id] at hle; omega)
  cases hl : agentLoop w ids {} with
  | returned s =>
    rw [hl] at hend hmild
    refine absurd (fun a ha => ?_) hend.2
    have hm := hmild a ha
    rw [ends, Bool.or_eq_false_iff] at hm
    exact hm.1
  | next s =>
    rw [hl] at hend hmild hstop hle
    have hinv : Inv s := hend.1.inv inv_start
    have hoff : s.budget.offered = true := by
      refine hinv.offered.mpr fun a ha => ?_
      have hm := hmild a ha
      rw [ends, Bool.or_eq_false_iff] at hm
      simpa using hm.2
    have hids := identities_of_agent hagent
    rw [log_of_next resolved (hids ▸ hl)]
    constructor
    · intro hclaim
      by_contra hlen
      have hspent : maxPublickeyAttempts ≤ s.log.length := by
        obtain h | h | ⟨j, hj, he⟩ := hstop
        · exact (not_lt.mp hlen).trans h
        · exact h
        · rw [hgoes j (Nat.lt_of_lt_of_le hj hle)] at he
          cases he
      have hex : s.budget.exhausted = true := by
        rw [PublickeyBudget.exhausted, hinv.attempts, decide_eq_true hspent, Bool.or_true]
      have hfile := fileLoop_exhausted (w := w) resolved.identityFiles
        (f := { state := s }) hex
      rw [hfile] at hclaim
      obtain ⟨a, ha, hsource⟩ := hclaim ⟨_, by rw [authenticate, hids, hl]; dsimp only; rw [hfile]⟩
      obtain ⟨i, hi⟩ := List.mem_iff_getElem?.mp ha
      exact hsource (agentLog hend.1 hi).1
    · intro hlen _
      have hready : s.budget.exhausted = false := by
        rw [exhausted_eq_false_iff, hinv.attempts]
        exact ⟨hoff, Nat.lt_of_le_of_lt hle hlen⟩
      exact fileLoop_asks hready (.inl rfl) hend.2 hload

def sampleHost : ResolvedHost where
  hostname := "example".toList
  port := 22
  user := "u".toList
  identityFiles := ["id".toList]
  knownHostsFiles := []
  proxyCommand := none
  connectTimeout := none
  strictHostKeys := true
  hostKeyAlias := none

def rejecting (n : Nat) (rsa : Bool) : Env Nat String where
  isRsa _ := rsa
  connectAgent := .ok (.ok (List.range n))
  loadSecretKey _ := .ok n
  bestSupportedRsaHash := .ok (some (some .sha512))
  reply _ := .ok (.failure [.publicKey, .password])

theorem identityFile_tried_one :
    ∃ a ∈ (authenticate (rejecting 1 false) sampleHost).log, a.source ≠ .agent :=
  (identityFile_tried_iff (rejecting 1 false) sampleHost [0] rfl
    (fun _ _ => ⟨_, rfl, by decide⟩) ⟨_, List.mem_singleton_self _, 1, rfl⟩).mpr (by decide)
    ⟨_, rfl⟩

/-- Six keys in the agent leave nothing of the budget. -/
theorem identityFile_not_always_tried :
    ¬ ∀ (w : Env Nat String) (resolved : ResolvedHost) (ids : List Nat),
      w.connectAgent = .ok (.ok ids) →
      (∀ i < ids.length,
        ∃ remaining, w.reply i = .ok (.failure remaining) ∧ .publicKey ∈ remaining) →
      (∃ path ∈ resolved.identityFiles, ∃ key, w.loadSecretKey path = .ok key) →
      (∃ e, (authenticate w resolved).result = .error e) →
      ∃ a ∈ (authenticate w resolved).log, a.source ≠ .agent := by
  intro hclaim
  have hall : ∀ a ∈ (authenticate (rejecting 6 false) sampleHost).log, a.source = .agent := by
    decide
  obtain ⟨a, ha, hsource⟩ := hclaim (rejecting 6 false) sampleHost (List.range 6) rfl
    (fun _ _ => ⟨_, rfl, by decide⟩) ⟨_, List.mem_singleton_self _, 6, rfl⟩ ⟨_, rfl⟩
  exact hsource (hall a ha)

/-- What the authentication promises about its attempts. -/
structure Disciplined (w : Env κ ε) (r : Report κ ε) : Prop where
  bounded : r.log.length ≤ maxPublickeyAttempts
  /-- nothing follows a success or a reply that no longer offers publickey -/
  last : r.log.Pairwise fun a _ => ends a.result = false
  sha1 : Follows (Sha1Last w) r.log
  result : r.result = .ok () ↔ ∃ a ∈ r.log, succeeded a.result = true

theorem authenticate_chains (w : Env κ ε) (resolved : ResolvedHost) :
    Chain w (FromAgent w (identities w)) {} (agentLoop w (identities w) {}).state ∧
      ∃ t, Chain w (FromFile w) (agentLoop w (identities w) {}).state t ∧
        (authenticate w resolved).log = t.log ∧
        ((authenticate w resolved).result = .ok () ↔ ¬ Fresh t) := by
  have hend := agentLoop_ended (w := w) (identities w) (identities w) {} rfl (by simp [Fresh])
  refine ⟨hend.chain, ?_⟩
  cases hl : agentLoop w (identities w) {} with
  | returned s =>
    rw [hl] at hend
    refine ⟨s, .refl, ?_, ?_⟩ <;> rw [authenticate, hl]
    simpa using hend.2
  | next s =>
    rw [hl] at hend
    have hfiles := fileLoop_ended (w := w) resolved.identityFiles { state := s } (.inl rfl) hend.2
    refine ⟨_, hfiles.chain, log_of_next resolved hl, ?_⟩
    rw [authenticate, hl]
    dsimp only
    split <;> rename_i f hf <;> rw [hf] at hfiles ⊢ <;> rw [Flow.state]
    · simpa using hfiles.2
    · simpa using hfiles.2

theorem agent_tries {w : Env κ ε} {ids : List κ} {i : Nat} {key : κ} (hkey : ids[i]? = some key)
    (hlt : i < maxPublickeyAttempts) (hquiet : ∀ j < i, ends (w.reply j) = false) :
    i < (agentLoop w ids {}).state.log.length := by
  have hi := (List.getElem?_eq_some_iff.mp hkey).1
  obtain h | h | ⟨j, hj, he⟩ := agentLoop_stops (w := w) ids
  · omega
  · omega
  · by_contra hlen
    rw [hquiet j (by omega)] at he
    cases he

theorem agent_sha1Last {w : Env κ ε} {ids : List κ} {s : State κ ε}
    (hchain : Chain w (FromAgent w ids) {} s)
    (hc : w.bestSupportedRsaHash = .ok (some none) ∨
      ∀ i key, ids[i]? = some key → w.isRsa key = true → i < maxPublickeyAttempts →
        ∃ j < i, ends (w.reply j) = true) : Follows (Sha1Last w) s.log := by
  have hinv := hchain.inv inv_start
  intro l a r hsplit hrsa _
  refine .inl (hc.resolve_right fun hc => ?_)
  have hat : s.log[l.length]? = some a := by simp [hsplit]
  have hlt := (List.getElem?_eq_some_iff.mp hat).1
  obtain ⟨j, hj, he⟩ :=
    hc l.length a.key (agentLog hchain hat).2.2.1 hrsa (Nat.lt_of_lt_of_le hlt hinv.bounded)
  have hjlt : j < s.log.length := hj.trans hlt
  have hq := List.pairwise_iff_getElem.mp hinv.quiet j l.length hjlt hlt hj
  rw [(agentLog hchain (List.getElem?_eq_getElem hjlt)).2.2.2, he] at hq
  cases hq

/-- The agent loop is where an RSA key goes out with SHA-1 unasked. -/
theorem authenticate_disciplined_iff (w : Env κ ε) (resolved : ResolvedHost) :
    Disciplined w (authenticate w resolved) ↔
      w.bestSupportedRsaHash = .ok (some none) ∨
        ∀ i key, (identities w)[i]? = some key → w.isRsa key = true → i < maxPublickeyAttempts →
          ∃ j < i, ends (w.reply j) = true := by
  obtain ⟨hagent, t, hfiles, hlog, hresult⟩ := authenticate_chains w resolved
  have hinv := hfiles.inv (hagent.inv inv_start)
  constructor
  · intro hd
    by_contra hc
    push Not at hc
    obtain ⟨hplan, i, key, hkey, hrsa, hlt, hquiet⟩ := hc
    have hi := agent_tries hkey hlt (by simpa using hquiet)
    generalize (agentLoop w (identities w) {}).state = s at hagent hfiles hi
    have hat := List.getElem?_eq_getElem hi
    obtain ⟨-, hhash, hid, -⟩ := agentLog hagent hat
    obtain ⟨rest, hrest⟩ := hfiles.keeps
    have hatt : t.log[i]? = some s.log[i] := by
      rw [← hrest, List.getElem?_append_left hi, hat]
    have hk : s.log[i].key = key := Option.some.inj (hid.symm.trans hkey)
    obtain ⟨b, hb, -, hbhash, -⟩ :=
      (((hlog ▸ hd.sha1).get hatt).1 (hk ▸ hrsa) hhash).resolve_left hplan |>.1
    -- all attempts before it are the agent's own
    rw [← hrest, List.take_append_of_le_length hi.le] at hb
    obtain ⟨j, hj⟩ := List.mem_iff_getElem?.mp (List.mem_of_mem_take hb)
    rw [(agentLog hagent hj).2.1] at hbhash
    cases hbhash
  · intro hc
    have hfollows := (hfiles.mono fun _ _ h => h.sha1).follows (agent_sha1Last hagent hc)
    refine ⟨hlog ▸ hinv.bounded, hlog ▸ hinv.quiet, hlog ▸ hfollows, ?_⟩
    rw [hresult, hlog]
    simp [Fresh]

/-- One RSA key in the agent and a server that takes SHA-512. -/
theorem authenticate_not_always_disciplined :
    ¬ Disciplined (rejecting 1 true) (authenticate (rejecting 1 true) sampleHost) := by
  intro hd
  obtain h | ⟨⟨b, hb, -⟩, -⟩ :=
    hd.sha1 [] ⟨.agent, 0, none, .ok (.failure [.publicKey, .password])⟩ _ rfl rfl rfl
  · cases h
  · cases hb

end Results

end ShellProxy.Auth
