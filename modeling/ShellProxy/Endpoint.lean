import ShellProxy.Lib.Machine
import ShellProxy.Errors
import Mathlib.Data.Fintype.Basic

/-! The daemon's unix socket: clients that connect, clear a stale socket file and spawn a daemon,
and the daemons that bind it, in any order of their system calls. -/
namespace ShellProxy.Endpoint
open Machine
variable {ι : Type}

inductive ErrorKind where
  | connectionRefused | notFound | addrInUse | other
  deriving DecidableEq, Repr

structure Conf where
  path : String
  describe : ErrorKind → String

def Conf.absolute (c : Conf) : Bool := c.path.toList.head? == some '/'

/-- Where `connect_or_spawn` stands; an accepted connection is one the daemon has taken. -/
inductive Client where
  | first
  | second
  | remove
  | spawn
  | retry
  | connected (d : Nat)
  | accepted (d : Nat)
  | failed (e : Errors.Error)
  deriving DecidableEq

/-- A daemon process. `bind` is two system calls and a change of the file's mode. -/
inductive Daemon where
  | absent
  | starting
  | bound
  | listening
  | serving
  | exited
  | failed (e : Errors.Error)
  deriving DecidableEq

def Daemon.live : Daemon → Bool
  | .bound | .listening | .serving => true
  | _ => false

def Daemon.listens : Daemon → Bool
  | .listening | .serving => true
  | _ => false

/-- The socket file names the daemon whose socket it is; daemons are numbered as they start. -/
structure Host (ι : Type) where
  file : Option Nat
  next : Nat
  daemon : Nat → Daemon
  client : ι → Client

def start : Host ι := ⟨none, 0, fun _ => .absent, fun _ => .first⟩

inductive Event (ι : Type) where
  | connect (i : ι) (broken late : Bool)
  | remove (i : ι)
  | removeFails (i : ι)
  | spawn (i : ι)
  | spawnFails (i : ι) (e : Errors.Error)
  | bind (d : Nat)
  | bindFails (d : Nat) (m : String)
  | listen (d : Nat)
  | permit (d : Nat)
  | permitFails (d : Nat) (m : String)
  | accept (d : Nat) (i : ι)
  | exit (d : Nat)
  deriving DecidableEq

def Host.connect (s : Host ι) : Except ErrorKind Nat :=
  match s.file with
  | none => .error .notFound
  | some d => if (s.daemon d).listens then .ok d else .error .connectionRefused

def didNotComeUp (c : Conf) (e : ErrorKind) : Errors.Error :=
  .daemon (s!"daemon did not come up at {c.path}: {c.describe e}; the cause is in the daemon " ++
    "log, run `sp daemon` in the foreground to diagnose")

/-- What the client does with the outcome of a connect; `late` is a passed deadline. -/
def onConnect (c : Conf) (late : Bool) (r : Except ErrorKind Nat) : Client → Option Client
  | .first =>
    match r with
    | .ok d => some (.connected d)
    | .error _ => some (if c.absolute then .second else .spawn)
  | .second =>
    match r with
    | .ok d => some (.connected d)
    | .error .connectionRefused => some .remove
    | .error _ => some .spawn
  | .retry =>
    match r with
    | .ok d => some (.connected d)
    | .error e => some (if late then .failed (didNotComeUp c e) else .retry)
  | _ => none

def bindError (c : Conf) (m : String) : Daemon := .failed (.daemon s!"bind {c.path}: {m}")

def Host.setClient [DecidableEq ι] (s : Host ι) (i : ι) (p : Client) : Host ι :=
  { s with client := Function.update s.client i p }

def Host.setDaemon (s : Host ι) (d : Nat) (p : Daemon) : Host ι :=
  { s with daemon := Function.update s.daemon d p }

def step [DecidableEq ι] (c : Conf) (s : Host ι) : Event ι → Option (Host ι)
  | .connect i broken late =>
    let r := if broken then .error .other else s.connect
    (onConnect c late r (s.client i)).map (s.setClient i)
  | .remove i =>
    if s.client i = .remove then some { s.setClient i .spawn with file := none } else none
  | .removeFails i => if s.client i = .remove then some (s.setClient i .spawn) else none
  | .spawn i =>
    if s.client i = .spawn then
      some { (s.setClient i .retry).setDaemon s.next .starting with next := s.next + 1 }
    else none
  | .spawnFails i e => if s.client i = .spawn then some (s.setClient i (.failed e)) else none
  | .bind d =>
    if s.daemon d = .starting then
      if s.file = none then some { s.setDaemon d .bound with file := some d }
      else some (s.setDaemon d (bindError c (c.describe .addrInUse)))
    else none
  | .bindFails d m =>
    if s.daemon d = .starting then some (s.setDaemon d (bindError c m)) else none
  | .listen d => if s.daemon d = .bound then some (s.setDaemon d .listening) else none
  | .permit d =>
    if s.daemon d = .listening then
      -- the mode is set by path, on whatever file is there
      if s.file = none then some (s.setDaemon d (bindError c (c.describe .notFound)))
      else some (s.setDaemon d .serving)
    else none
  | .permitFails d m =>
    if s.daemon d = .listening then some (s.setDaemon d (bindError c m)) else none
  | .accept d i =>
    if s.daemon d = .serving ∧ s.client i = .connected d then some (s.setClient i (.accepted d))
    else none
  | .exit d =>
    if s.daemon d = .starting ∨ (s.daemon d).live then some (s.setDaemon d .exited) else none

/-- The two steps that open the race are left out: a bind that makes the file while a client is
between its refused second connect and its `remove_file`, and a second connect to a daemon that
has bound the file and does not listen yet. -/
def Apart (s : Host ι) : Event ι → Prop
  | .bind d => s.daemon d = .starting → s.file = none → ∀ i, s.client i ≠ .remove
  | .connect i broken _ => s.client i = .second → broken = false →
      ∀ d ∈ s.file, s.daemon d ≠ .bound
  | _ => True

/-- The endpoint as its users see it. -/
def Host.owner (s : Host ι) : Option Nat := s.file.filter fun d => (s.daemon d).live

/-- Ownership is taken when there is none and given up; it never passes over. -/
inductive Handover : Option Nat → Option Nat → Prop where
  | keep (o : Option Nat) : Handover o o
  | acquire (d : Nat) : Handover none (some d)
  | release (d : Nat) : Handover (some d) none

/-- A live daemon's file is at the path, and no client about to remove the file sees a live
daemon's. -/
structure Inv (s : Host ι) : Prop where
  bound : ∀ d, (s.daemon d).live = true → s.file = some d
  stale : ∀ i, s.client i = .remove → ∀ d, s.file = some d → (s.daemon d).live = false

variable {c : Conf}

theorem onConnect_remove {late : Bool} {r : Except ErrorKind Nat} {p : Client}
    (h : onConnect c late r p = some .remove) :
    p = .second ∧ r = .error .connectionRefused := by
  cases p with
  | first =>
    cases r with
    | ok d => cases h
    | error k =>
      simp only [onConnect, Option.some.injEq] at h
      split at h <;> cases h
  | second =>
    cases r with
    | ok d => cases h
    | error k =>
      cases k with
      | connectionRefused => exact ⟨rfl, rfl⟩
      | _ => cases h
  | retry =>
    cases r with
    | ok d => cases h
    | error k =>
      simp only [onConnect, Option.some.injEq] at h
      split at h <;> cases h
  | _ => cases h

theorem onConnect_connected {late : Bool} {r : Except ErrorKind Nat} {p : Client} {d : Nat}
    (h : onConnect c late r p = some (.connected d)) : r = .ok d := by
  cases r with
  | ok k =>
    cases p with
    | first | second | retry =>
      cases h
      rfl
    | _ => cases h
  | error k =>
    cases p with
    | first =>
      simp only [onConnect, Option.some.injEq] at h
      split at h <;> cases h
    | second => cases k <;> cases h
    | retry =>
      simp only [onConnect, Option.some.injEq] at h
      split at h <;> cases h
    | _ => cases h

theorem connect_ok {s : Host ι} {d : Nat} (h : s.connect = .ok d) :
    s.file = some d ∧ (s.daemon d).live = true := by
  unfold Host.connect at h
  split at h
  · cases h
  · rename_i d' hf
    split at h
    · rename_i hl
      cases h
      refine ⟨hf, ?_⟩
      revert hl
      cases s.daemon d <;> simp [Daemon.listens, Daemon.live]
    · cases h

/-- A refused connect is about a file whose daemon is gone, or has not called `listen` yet. -/
theorem connect_refused {s : Host ι} (h : s.connect = .error .connectionRefused) :
    ∃ d, s.file = some d ∧ ((s.daemon d).live = false ∨ s.daemon d = .bound) := by
  unfold Host.connect at h
  split at h
  · cases h
  · rename_i d hf
    split at h
    · cases h
    · rename_i hl
      refine ⟨d, hf, ?_⟩
      revert hl
      cases s.daemon d <;> simp [Daemon.listens, Daemon.live]

theorem live_setDaemon {s : Host ι} {d k : Nat} {p : Daemon}
    (hp : p.live = true → (s.daemon d).live = true)
    (h : ((s.setDaemon d p).daemon k).live = true) : (s.daemon k).live = true := by
  by_cases hk : k = d
  · subst hk
    simp only [Host.setDaemon, Function.update_self] at h
    exact hp h
  · simpa only [Host.setDaemon, Function.update_of_ne hk] using h

theorem Inv.no_live {s : Host ι} (hs : Inv s) {i : ι} (hi : s.client i = .remove) (d : Nat) :
    (s.daemon d).live = false := by
  by_contra hl
  rw [Bool.not_eq_false] at hl
  have hdead := hs.stale i hi d (hs.bound d hl)
  rw [hdead] at hl
  cases hl

theorem start_inv : Inv (start : Host ι) := by
  refine ⟨?_, ?_⟩
  · intro d h
    cases h
  · intro i h
    cases h

theorem owner_none {s : Host ι} (h : ∀ d, (s.daemon d).live = false) : s.owner = none := by
  simp [Host.owner, h]

theorem owner_shrinks {s u : Host ι} (hf : u.file = s.file)
    (hl : ∀ d, (u.daemon d).live = true → (s.daemon d).live = true) :
    Handover s.owner u.owner := by
  unfold Host.owner
  rw [hf]
  cases hfile : s.file with
  | none => exact .keep none
  | some d =>
    cases hs : (s.daemon d).live with
    | false =>
      have hu : (u.daemon d).live = false := by
        by_contra hc
        rw [Bool.not_eq_false] at hc
        exact absurd (hs.symm.trans (hl d hc)) Bool.false_ne_true
      simp only [Option.filter_some, hs, hu]
      exact .keep _
    | true =>
      cases hu : (u.daemon d).live with
      | true =>
        simp only [Option.filter_some, hs, hu]
        exact .keep _
      | false =>
        simp only [Option.filter_some, hs, hu]
        exact .release d

variable [DecidableEq ι]

inductive Effect (s : Host ι) : Host ι → Prop where
  | client (i : ι) (p : Client) :
      (p = .remove → ∀ d, s.file = some d → (s.daemon d).live = false) →
        Effect s (s.setClient i p)
  | clear (i : ι) : s.client i = .remove →
      Effect s { s.setClient i .spawn with file := none }
  | spawn (i : ι) : s.client i = .spawn →
      Effect s { (s.setClient i .retry).setDaemon s.next .starting with next := s.next + 1 }
  | claim (d : Nat) : s.file = none → (∀ i, s.client i ≠ .remove) →
      Effect s { s.setDaemon d .bound with file := some d }
  | daemon (d : Nat) (p : Daemon) : (p.live = true → (s.daemon d).live = true) →
      Effect s (s.setDaemon d p)

theorem step_effect {s u : Host ι} {e : Event ι} (ho : Apart s e) (h : step c s e = some u) :
    Effect s u := by
  cases e with
  | connect i broken late =>
    simp only [step, Option.map_eq_some_iff] at h
    obtain ⟨p, hp, rfl⟩ := h
    refine .client i p ?_
    rintro rfl d hf
    obtain ⟨hsec, hr⟩ := onConnect_remove hp
    cases broken with
    | true => simp at hr
    | false =>
      obtain ⟨d', hf', hd⟩ := connect_refused hr
      obtain rfl : d = d' := Option.some.inj (hf.symm.trans hf')
      exact hd.resolve_right (ho hsec rfl d hf)
  | remove i =>
    simp only [step, Option.ite_none_right_eq_some, Option.some.injEq] at h
    obtain ⟨hc, rfl⟩ := h
    exact .clear i hc
  | removeFails i =>
    simp only [step, Option.ite_none_right_eq_some, Option.some.injEq] at h
    obtain ⟨-, rfl⟩ := h
    exact .client i .spawn (by simp)
  | spawn i =>
    simp only [step, Option.ite_none_right_eq_some, Option.some.injEq] at h
    obtain ⟨hc, rfl⟩ := h
    exact .spawn i hc
  | spawnFails i err =>
    simp only [step, Option.ite_none_right_eq_some, Option.some.injEq] at h
    obtain ⟨-, rfl⟩ := h
    exact .client i (.failed err) (by simp)
  | bind d =>
    simp only [step, Option.ite_none_right_eq_some] at h
    obtain ⟨hd, h⟩ := h
    split at h
    · rename_i hf
      cases h
      exact .claim d hf (ho hd hf)
    · cases h
      exact .daemon d _ (by simp [bindError, Daemon.live])
  | bindFails d m =>
    simp only [step, Option.ite_none_right_eq_some, Option.some.injEq] at h
    obtain ⟨-, rfl⟩ := h
    exact .daemon d _ (by simp [bindError, Daemon.live])
  | listen d =>
    simp only [step, Option.ite_none_right_eq_some, Option.some.injEq] at h
    obtain ⟨hd, rfl⟩ := h
    exact .daemon d .listening (by simp [hd, Daemon.live])
  | permit d =>
    simp only [step, Option.ite_none_right_eq_some] at h
    obtain ⟨hd, h⟩ := h
    split at h
    · cases h
      exact .daemon d _ (by simp [bindError, Daemon.live])
    · cases h
      exact .daemon d .serving (by simp [hd, Daemon.live])
  | permitFails d m =>
    simp only [step, Option.ite_none_right_eq_some, Option.some.injEq] at h
    obtain ⟨-, rfl⟩ := h
    exact .daemon d _ (by simp [bindError, Daemon.live])
  | accept d i =>
    simp only [step, Option.ite_none_right_eq_some, Option.some.injEq] at h
    obtain ⟨-, rfl⟩ := h
    exact .client i (.accepted d) (by simp)
  | exit d =>
    simp only [step, Option.ite_none_right_eq_some, Option.some.injEq] at h
    obtain ⟨-, rfl⟩ := h
    exact .daemon d .exited (by simp [Daemon.live])

theorem remove_setClient {s : Host ι} {i j : ι} {p : Client}
    (h : (s.setClient i p).client j = .remove) : p = .remove ∨ s.client j = .remove := by
  by_cases hj : j = i
  · subst hj
    simp only [Host.setClient, Function.update_self] at h
    exact .inl h
  · simp only [Host.setClient, Function.update_of_ne hj] at h
    exact .inr h

theorem effect_inv {s u : Host ι} (hs : Inv s) (h : Effect s u) : Inv u := by
  cases h with
  | client i p hp =>
    refine ⟨hs.bound, ?_⟩
    intro j hj d hf
    rcases remove_setClient hj with hr | hr
    · exact hp hr d hf
    · exact hs.stale j hr d hf
  | clear i hi =>
    refine ⟨?_, ?_⟩
    · intro d hl
      have hdead := hs.no_live hi d
      exact absurd (hdead.symm.trans hl) Bool.false_ne_true
    · intro j _ d hf
      cases hf
  | spawn i hi =>
    have hlive : ∀ k, (Function.update s.daemon s.next .starting k).live = true →
        (s.daemon k).live = true := fun k hk => live_setDaemon (by simp [Daemon.live]) hk
    refine ⟨fun d hl => hs.bound d (hlive d hl), ?_⟩
    intro j hj d hf
    have hr : s.client j = .remove := (remove_setClient hj).resolve_left (by simp)
    by_contra hl
    rw [Bool.not_eq_false] at hl
    exact absurd ((hs.stale j hr d hf).symm.trans (hlive d hl)) Bool.false_ne_true
  | claim d hf hnone =>
    refine ⟨?_, fun j hj => absurd hj (hnone j)⟩
    intro k hl
    by_cases hk : k = d
    · rw [hk]
    · simp only [Host.setDaemon, Function.update_of_ne hk] at hl
      have hfile := hs.bound k hl
      rw [hf] at hfile
      cases hfile
  | daemon d p hp =>
    refine ⟨fun k hl => hs.bound k (live_setDaemon hp hl), ?_⟩
    intro j hj k hf
    by_contra hl
    rw [Bool.not_eq_false] at hl
    exact absurd ((hs.stale j hj k hf).symm.trans (live_setDaemon hp hl)) Bool.false_ne_true

theorem run_inv {es : List (Event ι)} {t : Host ι} (h : Path (step c) Apart start es t) : Inv t :=
  h.invariant (fun _ _ _ hs ho hst => effect_inv hs (step_effect ho hst)) start_inv

theorem effect_owner {s u : Host ι} (hs : Inv s) (h : Effect s u) : Handover s.owner u.owner := by
  cases h with
  | client i p _ => exact .keep s.owner
  | clear i hi =>
    rw [owner_none (hs.no_live hi)]
    exact .keep none
  | spawn i _ => exact owner_shrinks rfl fun k hk => live_setDaemon (by simp [Daemon.live]) hk
  | claim d hf _ =>
    have hnone : s.owner = none := by simp [Host.owner, hf]
    have hsome : Host.owner { s.setDaemon d .bound with file := some d } = some d := by
      simp [Host.owner, Host.setDaemon, Daemon.live]
    rw [hnone, hsome]
    exact .acquire d
  | daemon d p hp => exact owner_shrinks rfl fun k hk => live_setDaemon hp hk

/-- The machine of all parties refines the endpoint with one owner at a time. -/
theorem owner_handover {es : List (Event ι)} {t u : Host ι} {e : Event ι}
    (h : Path (step c) Apart start es t) (ho : Apart t e) (hs : step c t e = some u) :
    Handover t.owner u.owner := effect_owner (run_inv h) (step_effect ho hs)

/-- Each step the condition leaves out is one `remove_file` short of taking a live daemon's
socket file. -/
theorem open_race_loses {s u : Host ι} {e : Event ι} (ho : ¬ Apart s e)
    (h : step c s e = some u) :
    ∃ i v d, u.file = some d ∧ (u.daemon d).live = true ∧ step c u (.remove i) = some v := by
  cases e with
  | bind d =>
    simp only [Apart, ne_eq, not_forall, not_not] at ho
    obtain ⟨hd, hf, i, hi⟩ := ho
    simp only [step, if_pos hd, if_pos hf, Option.some.injEq] at h
    subst h
    refine ⟨i, _, d, rfl, by simp [Host.setDaemon, Daemon.live], if_pos hi⟩
  | connect i broken late =>
    simp only [Apart, ne_eq, not_forall, not_not, Option.mem_def] at ho
    obtain ⟨hsec, rfl, d, hf, hd⟩ := ho
    have hr : s.connect = .error .connectionRefused := by
      simp [Host.connect, hf, hd, Daemon.listens]
    simp only [step, hr, hsec, onConnect, Option.map_some, Option.some.injEq,
      Bool.false_eq_true, if_false] at h
    subst h
    refine ⟨i, _, d, hf, ?_, if_pos (by simp [Host.setClient])⟩
    simp [Host.setClient, hd, Daemon.live]
  | _ => exact absurd trivial ho

/-- In a run without the two steps that open the race no client removes the socket file of a live
daemon, at most one daemon is live, and a client that connects reaches it. -/
theorem live_socket_kept {es : List (Event ι)} {t : Host ι}
    (h : Path (step c) Apart start es t) :
    (∀ i u, step c t (.remove i) = some u → ∀ d, t.file = some d →
      (t.daemon d).live = false) ∧
    (∀ d e, (t.daemon d).live = true → (t.daemon e).live = true → d = e) ∧
    (∀ i broken late u d, step c t (.connect i broken late) = some u →
      u.client i = .connected d →
        (t.daemon d).live = true ∧ ∀ e, (t.daemon e).live = true → e = d) := by
  have hi := run_inv h
  refine ⟨?_, ?_, ?_⟩
  · intro i u hs d hf
    simp only [step, Option.ite_none_right_eq_some] at hs
    exact hi.stale i hs.1 d hf
  · intro d e hd he
    exact Option.some.inj ((hi.bound d hd).symm.trans (hi.bound e he))
  · intro i broken late u d hs hu
    simp only [step, Option.map_eq_some_iff] at hs
    obtain ⟨p, hp, rfl⟩ := hs
    simp only [Host.setClient, Function.update_self] at hu
    have hr := onConnect_connected (hu ▸ hp)
    cases broken with
    | true => cases hr
    | false =>
      obtain ⟨hf, hl⟩ := connect_ok hr
      refine ⟨hl, ?_⟩
      intro e he
      exact Option.some.inj ((hi.bound e he).symm.trans hf)

instance [Fintype ι] (s : Host ι) (e : Event ι) : Decidable (Apart s e) :=
  match e with
  | .bind d => inferInstanceAs
      (Decidable (s.daemon d = .starting → s.file = none → ∀ i, s.client i ≠ .remove))
  | .connect i broken _ => inferInstanceAs (Decidable
      (s.client i = .second → broken = false → ∀ d ∈ s.file, s.daemon d ≠ .bound))
  | .remove _ | .removeFails _ | .spawn _ | .spawnFails _ _ | .bindFails _ _ | .listen _
  | .permit _ | .permitFails _ _ | .accept _ _ | .exit _ => inferInstanceAs (Decidable True)

/-! ### A stale file, with one client and with two -/

def sampleConf : Conf where
  path := "/home/u/.local/share/shell-proxy/daemon.sock"
  describe
    | .connectionRefused => "Connection refused (os error 111)"
    | .notFound => "No such file or directory (os error 2)"
    | .addrInUse => "Address already in use (os error 98)"
    | .other => "Permission denied (os error 13)"

/-- Client 0 finds nothing and spawns daemon 0, which serves it, idles out and leaves its file. -/
def sampleStale : List (Event (Fin 3)) :=
  [.connect 0 false false, .connect 0 false false, .spawn 0, .bind 0, .listen 0, .permit 0,
    .connect 0 false false, .accept 0 0, .exit 0]

def sampleConnect (i : Fin 3) : Event (Fin 3) := .connect i false false

/-- From the removal on, with the daemon it spawns. -/
def sampleTakeOver (i : Fin 3) (d : Nat) : List (Event (Fin 3)) :=
  [.remove i, .spawn i, .bind d, .listen d, .permit d, sampleConnect i]

/-- One client replaces the stale file, and the next one connects to its daemon. -/
theorem live_socket_kept_sample : ∃ es t,
    Path (step sampleConf) Apart (start : Host (Fin 3)) es t ∧ t.client 2 = .connected 1 ∧
      (t.daemon 1).live = true ∧ ∀ d, (t.daemon d).live = true → d = 1 := by
  have hrun : (run (guarded (step sampleConf) Apart)
      (sampleStale ++ [sampleConnect 1, sampleConnect 1] ++ sampleTakeOver 1 1 ++
        [sampleConnect 2]) start).map (fun t => (t.client 2, (t.daemon 1).live)) =
          some (.connected 1, true) := by decide
  obtain ⟨t, ht, hp⟩ := Option.map_eq_some_iff.mp hrun
  obtain ⟨hc, hl⟩ := Prod.mk.inj hp
  have hpath := path_of_guarded ht
  exact ⟨_, t, hpath, hc, hl, fun d hd => (live_socket_kept hpath).2.1 d 1 hd hl⟩

/-- Clients 1 and 2 are both refused by the stale file before either removes it. -/
def sampleRace : List (Event (Fin 3)) :=
  sampleStale ++ [sampleConnect 1, sampleConnect 1, sampleConnect 2, sampleConnect 2] ++
    sampleTakeOver 1 1

/-- The second of two clients removes the socket of the first one's daemon, and each of them ends
up on a daemon of its own. -/
theorem live_socket_removed :
    (∃ t u, Path (step sampleConf) Any start sampleRace t ∧
      step sampleConf t (.remove 2) = some u ∧ t.file = some 1 ∧ (t.daemon 1).live = true) ∧
    (∃ t, Path (step sampleConf) Any start (sampleRace ++ sampleTakeOver 2 2) t ∧
      (t.daemon 1).live = true ∧ (t.daemon 2).live = true ∧
      t.client 1 = .connected 1 ∧ t.client 2 = .connected 2) := by
  constructor
  · have hrun : (run (step sampleConf) sampleRace start).map
        (fun t => (t.file, (t.daemon 1).live, t.client 2)) = some (some 1, true, .remove) := by
      decide
    obtain ⟨t, ht, hp⟩ := Option.map_eq_some_iff.mp hrun
    simp only [Prod.mk.injEq] at hp
    obtain ⟨hf, hl, hc⟩ := hp
    exact ⟨t, _, path_of_run ht, if_pos hc, hf, hl⟩
  · have hrun : (run (step sampleConf) (sampleRace ++ sampleTakeOver 2 2) start).map
        (fun t => ((t.daemon 1).live, (t.daemon 2).live, t.client 1, t.client 2)) =
          some (true, true, .connected 1, .connected 2) := by decide
    obtain ⟨t, ht, hp⟩ := Option.map_eq_some_iff.mp hrun
    simp only [Prod.mk.injEq] at hp
    exact ⟨t, path_of_run ht, hp⟩

end ShellProxy.Endpoint
