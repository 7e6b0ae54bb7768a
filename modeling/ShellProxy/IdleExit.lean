import ShellProxy.ControlLoop
import ShellProxy.Errors

/-! The accept loop of the daemon, the guards of its connection tasks and the notification that
lets the loop arm its idle deadline. -/
namespace ShellProxy.IdleExit
open Machine Errors
open ControlLoop (Clock sampleClock)
variable {I : Type}

/-- The `Notified` future of the loop: not polled yet, on the list of waiters, or taken off it by
a notification it has not seen. -/
inductive Waiter where
  | fresh | listed | notified
  deriving DecidableEq, Repr

/-- A connection task, by its guard: held, dropped by the last holder who has not notified yet,
gone. -/
inductive Task where
  | live | notifying | done
  deriving DecidableEq, Repr

/-- Where the loop is: about to load the counter, with the value loaded, in the select, with a
connection it has not counted yet, or returned. -/
inductive Phase (I : Type) where
  | top
  | loaded (n : Nat)
  | selecting (deadline : Option I) (w : Waiter)
  | accepted
  | ended (r : Except Error Unit)

structure Daemon (I : Type) where
  phase : Phase I := .top
  active : Nat := 0
  permit : Bool := false
  tasks : List Task := []

inductive Ev (I : Type) where
  | load
  | arm (now : I)
  | poll
  | accept (r : Except String Unit)
  | spawn
  | idle (now : I)
  | drop (i : Nat)
  | notify (i : Nat)

namespace Daemon

/-- Hand the notification to the waiter on the list, else leave a permit. -/
def notifyOne (s : Daemon I) : Daemon I :=
  match s.phase with
  | .selecting deadline .listed => { s with phase := .selecting deadline .notified }
  | _ => { s with permit := true }

/-- Leave the select by another branch. A notification the future had not seen is passed on. -/
def leave (s : Daemon I) (w : Waiter) (p : Phase I) : Daemon I :=
  { s with phase := p, permit := s.permit || w = .notified }

def poll (s : Daemon I) : Waiter → Daemon I
  | .fresh =>
    if s.permit then { s with phase := .top, permit := false }
    else { s with phase := .selecting none .listed }
  | .listed => s
  | .notified => { s with phase := .top }

/-- `fetch_sub`; the value it returns decides about the notification. -/
def drop (s : Daemon I) (i : Nat) : Daemon I :=
  { s with
    active := s.active - 1
    tasks := s.tasks.set i (if s.active = 1 then .notifying else .done) }

def acquire (s : Daemon I) : Daemon I :=
  { s with phase := .top, active := s.active + 1, tasks := s.tasks ++ [.live] }

end Daemon

variable (K : Clock I) (sock : String) (idle : Option Nat)

/-- The duration is in seconds, the clock in milliseconds. -/
def deadlineAfter (now : I) : Option I :=
  idle.bind fun secs => K.checkedAdd now (1000 * secs)

def step (s : Daemon I) : Ev I → Option (Daemon I)
  | .load =>
    match s.phase with
    | .top => some { s with phase := .loaded s.active }
    | _ => none
  | .arm now =>
    match s.phase with
    | .loaded n =>
      some { s with phase := .selecting (if n = 0 then deadlineAfter K idle now else none) .fresh }
    | _ => none
  | .poll =>
    -- only while no deadline is armed
    match s.phase with
    | .selecting none w => some (s.poll w)
    | _ => none
  | .accept r =>
    match s.phase with
    | .selecting _ w =>
      match r with
      | .ok _ => some (s.leave w .accepted)
      | .error e => some (s.leave w (.ended (.error (.daemon ("accept on " ++ sock ++ ": " ++ e)))))
    | _ => none
  | .spawn =>
    match s.phase with
    | .accepted => some s.acquire
    | _ => none
  | .idle now =>
    match s.phase with
    | .selecting (some d) w => if K.due d now then some (s.leave w (.ended (.ok ()))) else none
    | _ => none
  | .drop i => if s.tasks[i]? = some .live then some (s.drop i) else none
  | .notify i =>
    if s.tasks[i]? = some .notifying then
      some { s.notifyOne with tasks := s.tasks.set i .done }
    else none

def start : Daemon I := {}

/-- The deadline can be represented whenever the loop asks for one. -/
def Representable (_ : Daemon I) (e : Ev I) : Prop :=
  ∀ now, e = .arm now → deadlineAfter K idle now ≠ none

def Phase.Quiet : Phase I → Prop
  | .loaded n => n = 0
  | .selecting d _ => d ≠ none
  | _ => False

def Phase.Busy : Phase I → Prop
  | .loaded n => n ≠ 0
  | .selecting d _ => d = none
  | _ => False

def Phase.uncounted : Phase I → Nat
  | .accepted => 1
  | _ => 0

namespace Daemon

/-- The connections whose guard is held, with the one that the loop has just accepted. -/
def live (s : Daemon I) : Nat := s.tasks.count .live + s.phase.uncounted

def Parked (s : Daemon I) : Prop := ∃ w, s.phase = .selecting none w

def WakePending (s : Daemon I) : Prop :=
  s.permit = true ∨ s.phase = .selecting none .notified ∨ .notifying ∈ s.tasks

end Daemon

/-- `heard`: a future on the list of waiters would not see a stored permit. -/
structure Inv (s : Daemon I) : Prop where
  count : s.active = s.tasks.count .live
  quiet : s.phase.Quiet → s.active = 0
  heard : ∀ d, s.phase = .selecting d .listed → s.permit = false
  woken : s.phase.Busy → s.active = 0 → s.WakePending

variable {K sock idle} {s t : Daemon I}

theorem Inv.outside (h : s.active = s.tasks.count .live) (hq : ¬ s.phase.Quiet)
    (hb : ¬ s.phase.Busy) : Inv s := by
  refine ⟨h, fun hq' => absurd hq' hq, fun d he => ?_, fun hb' => absurd hb' hb⟩
  rw [he] at hq hb
  cases d with
  | none => exact absurd rfl hb
  | some d => exact absurd (Option.some_ne_none d) hq

theorem start_inv : Inv (start : Daemon I) := Inv.outside rfl id id

theorem live_pos {l : List Task} {i : Nat} (h : l[i]? = some .live) : 0 < l.count .live :=
  List.count_pos_iff.mpr (List.mem_of_getElem? h)

theorem count_set_of {l : List Task} {i : Nat} {a b : Task} (h : l[i]? = some a)
    (hb : b ≠ .live) :
    (l.set i b).count .live = l.count .live - if a = .live then 1 else 0 := by
  obtain ⟨hi, ha⟩ := List.getElem?_eq_some_iff.mp h
  rw [List.count_set hi, ha]
  cases a <;> cases b <;> simp at hb ⊢

/-- The last guard to go owes the notification. -/
theorem drop_inv (h : Inv s) {i : Nat} (hi : s.tasks[i]? = some .live) : Inv (s.drop i) := by
  have hpos := live_pos hi
  have hcount := h.count
  have hnew : (if s.active = 1 then Task.notifying else .done) ≠ .live := by split <;> simp
  refine ⟨?_, ?_, h.heard, ?_⟩
  · show s.active - 1 = _
    rw [Daemon.drop, count_set_of hi hnew, if_pos rfl, hcount]
  · intro hq
    have hzero := h.quiet hq
    omega
  · intro _ hzero
    have hone : s.active = 1 := by
      change s.active - 1 = 0 at hzero
      omega
    refine Or.inr (Or.inr ?_)
    obtain ⟨hlt, -⟩ := List.getElem?_eq_some_iff.mp hi
    show Task.notifying ∈ s.tasks.set i _
    rw [if_pos hone]
    exact List.mem_set hlt _

theorem notify_inv (h : Inv s) {i : Nat} (hi : s.tasks[i]? = some .notifying) :
    Inv { s.notifyOne with tasks := s.tasks.set i .done } := by
  have hcount : s.active = (s.tasks.set i .done).count .live := by
    rw [count_set_of hi (by simp), h.count]
    rfl
  unfold Daemon.notifyOne
  split
  next d hd =>
    refine ⟨hcount, fun hq => h.quiet ?_, fun _ he => ?_, fun hb _ => ?_⟩
    · rw [hd]
      exact hq
    · cases he
    · obtain rfl : d = none := hb
      exact Or.inr (Or.inl rfl)
  next hd =>
    exact ⟨hcount, h.quiet, fun d he => absurd he (hd d), fun _ _ => Or.inl rfl⟩

theorem poll_inv (h : Inv s) {w : Waiter} (hw : s.phase = .selecting none w) :
    Inv (s.poll w) := by
  cases w with
  | fresh =>
    by_cases hp : s.permit = true
    · rw [Daemon.poll, if_pos hp]
      exact Inv.outside h.count id id
    · rw [Daemon.poll, if_neg hp]
      refine ⟨h.count, fun hq => absurd rfl hq, fun _ _ => by simpa using hp, fun _ hz => ?_⟩
      have hbusy : s.phase.Busy := by rw [hw]; rfl
      rcases h.woken hbusy hz with hperm | hn | ht
      · exact absurd hperm hp
      · rw [hw] at hn
        cases hn
      · exact Or.inr (Or.inr ht)
  | listed => exact h
  | notified => exact Inv.outside h.count id id

theorem arm_inv (h : Inv s) {now : I} (hok : deadlineAfter K idle now ≠ none) {n : Nat}
    (hn : s.phase = .loaded n) :
    Inv { s with
      phase := .selecting (if n = 0 then deadlineAfter K idle now else none) .fresh } := by
  refine ⟨h.count, fun hq => h.quiet ?_, fun _ he => (by cases he), fun hb hz => ?_⟩
  · by_cases hzero : n = 0
    · rw [hn]
      exact hzero
    · exact absurd (if_neg hzero) hq
  · have hpos : n ≠ 0 := fun hzero => hok (by simpa [Phase.Busy, hzero] using hb)
    have hbusy : s.phase.Busy := by
      rw [hn]
      exact hpos
    rcases h.woken hbusy hz with hp | hw | ht
    · exact Or.inl hp
    · rw [hn] at hw
      cases hw
    · exact Or.inr (Or.inr ht)

theorem step_inv {e : Ev I} (h : Inv s) (hok : Representable K idle s e)
    (hs : step K sock idle s e = some t) : Inv t := by
  cases e with
  | load =>
    simp only [step] at hs
    split at hs
    · obtain rfl := Option.some.inj hs
      exact ⟨h.count, id, fun _ he => (by cases he), fun hb hz => absurd hz hb⟩
    · cases hs
  | arm now =>
    simp only [step] at hs
    split at hs
    next n hn =>
      obtain rfl := Option.some.inj hs
      exact arm_inv h (hok now rfl) hn
    next => cases hs
  | poll =>
    simp only [step] at hs
    split at hs
    next w hw =>
      obtain rfl := Option.some.inj hs
      exact poll_inv h hw
    next => cases hs
  | accept r =>
    simp only [step] at hs
    split at hs
    · cases r with
      | ok _ =>
        obtain rfl := Option.some.inj hs
        exact Inv.outside h.count id id
      | error e =>
        obtain rfl := Option.some.inj hs
        exact Inv.outside h.count id id
    · cases hs
  | spawn =>
    simp only [step] at hs
    split at hs
    · obtain rfl := Option.some.inj hs
      have hcount : s.active + 1 = (s.tasks ++ [Task.live]).count .live := by
        rw [List.count_append, h.count]
        rfl
      exact Inv.outside hcount id id
    · cases hs
  | idle now =>
    simp only [step] at hs
    split at hs
    · split at hs
      · obtain rfl := Option.some.inj hs
        exact Inv.outside h.count id id
      · cases hs
    · cases hs
  | drop i =>
    simp only [step, Option.ite_none_right_eq_some] at hs
    obtain ⟨hi, hs⟩ := hs
    obtain rfl := Option.some.inj hs
    exact drop_inv h hi
  | notify i =>
    simp only [step, Option.ite_none_right_eq_some] at hs
    obtain ⟨hi, hs⟩ := hs
    obtain rfl := Option.some.inj hs
    exact notify_inv h hi

theorem run_inv {es : List (Ev I)}
    (h : Path (step K sock idle) (Representable K idle) start es s) : Inv s :=
  h.invariant (fun _ _ _ hi ho hs => step_inv hi ho hs) start_inv

/-- The loop's own steps other than an accept, and the guards that notify. -/
def Own (_ : Daemon I) : Ev I → Prop
  | .load | .arm _ | .poll | .notify _ => True
  | _ => False

/-- From here the loop arms the deadline of the instant at which it reads the clock. -/
def Arms (K : Clock I) (sock : String) (idle : Option Nat) (s : Daemon I) : Prop :=
  ∀ now d, deadlineAfter K idle now = some d →
    ∃ es t, Path (step K sock idle) Own s es t ∧ t.phase = .selecting (some d) .fresh

theorem poll_top {w : Waiter} (hseen : s.permit = true ∧ w = .fresh ∨ w = .notified) :
    (s.poll w).phase = .top ∧ (s.poll w).active = s.active := by
  rcases hseen with ⟨hp, rfl⟩ | rfl
  · rw [Daemon.poll, if_pos hp]
    exact ⟨rfl, rfl⟩
  · exact ⟨rfl, rfl⟩

theorem arms_of_seen (h : Inv s) {w : Waiter} (hw : s.phase = .selecting none w)
    (hz : s.active = 0) (hseen : s.permit = true ∨ w = .notified) : Arms K sock idle s := by
  intro now d hd
  have hready : s.permit = true ∧ w = .fresh ∨ w = .notified := by
    rcases hseen with hp | hn
    · cases w with
      | fresh => exact Or.inl ⟨hp, rfl⟩
      | listed =>
        have hno := h.heard none hw
        rw [hp] at hno
        cases hno
      | notified => exact Or.inr rfl
    · exact Or.inr hn
  obtain ⟨htop, hactive⟩ := poll_top hready
  refine ⟨[.poll, .load, .arm now], { s.poll w with phase := .selecting (some d) .fresh },
    path_of_run_all (by simp [Own]) ?_, rfl⟩
  simp [run, step, hw, htop, hactive, hz, hd]

theorem notifyOne_parked {w : Waiter} (hw : s.phase = .selecting none w) :
    ∃ w', s.notifyOne.phase = .selecting none w' ∧
      (s.notifyOne.permit = true ∨ w' = .notified) := by
  unfold Daemon.notifyOne
  split
  next d hd =>
    obtain rfl : none = d := by
      rw [hd] at hw
      cases hw
      rfl
    exact ⟨.notified, rfl, Or.inr rfl⟩
  next => exact ⟨w, hw, Or.inl rfl⟩

theorem notifyOne_active : s.notifyOne.active = s.active := by
  unfold Daemon.notifyOne
  split <;> rfl

theorem arms_of_pending (h : Inv s) {w : Waiter} (hw : s.phase = .selecting none w)
    (hz : s.active = 0) (hp : s.WakePending) : Arms K sock idle s := by
  rcases hp with hp | hn | ht
  · exact arms_of_seen h hw hz (Or.inl hp)
  · rw [hn] at hw
    cases hw
    exact arms_of_seen h hn hz (Or.inr rfl)
  · -- The guard makes its call first.
    obtain ⟨i, hi⟩ := List.mem_iff_getElem?.mp ht
    obtain ⟨w', hw', hseen⟩ := notifyOne_parked hw
    intro now d hd
    obtain ⟨es, t, hpath, harmed⟩ := arms_of_seen (notify_inv h hi) hw'
      (notifyOne_active.trans hz) hseen now d hd
    exact ⟨.notify i :: es, t, Path.head trivial (if_pos hi) hpath, harmed⟩

/-- The daemon goes idle only without a connection, and a loop that waits without a deadline while
there is none has a wake-up coming that makes it arm one. -/
theorem idle_exit_sound {es : List (Ev I)}
    (h : Path (step K sock idle) (Representable K idle) start es s) :
    (∀ now t, step K sock idle s (.idle now) = some t → s.live = 0) ∧
      (s.Parked → s.live = 0 → s.WakePending ∧ Arms K sock idle s) := by
  have hinv := run_inv h
  refine ⟨fun now t hs => ?_, ?_⟩
  · simp only [step] at hs
    split at hs
    next d w hw =>
      have hzero : s.active = 0 := hinv.quiet (by rw [hw]; exact Option.some_ne_none d)
      rw [Daemon.live, ← hinv.count, hzero, hw]
      rfl
    next => cases hs
  · rintro ⟨w, hw⟩ hlive
    have hzero : s.active = 0 := by
      rw [Daemon.live, ← hinv.count] at hlive
      omega
    have hpending := hinv.woken (by rw [hw]; rfl) hzero
    exact ⟨hpending, arms_of_pending hinv hw hzero hpending⟩

/-- The task of the only connection ends between the poll of the loop and its wake-up. -/
def lastDrop : List (Ev Nat) :=
  [.load, .arm 0, .accept (.ok ()), .spawn, .load, .arm 5, .poll, .drop 0]

theorem idle_exit_sound_lastDrop :
    ∃ s, Path (step sampleClock "sp.sock" (some 3)) (Representable sampleClock (some 3)) start
        lastDrop s ∧
      s.Parked ∧ s.live = 0 ∧ s.WakePending ∧ Arms sampleClock "sp.sock" (some 3) s := by
  have hok : ∀ e ∈ lastDrop, ∀ u, Representable sampleClock (some 3) u e := by
    rintro e he u now rfl
    obtain rfl | rfl : now = 0 ∨ now = 5 := by simpa [lastDrop] using he
    · decide
    · decide
  have hpath : Path (step sampleClock "sp.sock" (some 3)) (Representable sampleClock (some 3))
      start lastDrop ⟨.selecting none .listed, 0, false, [.notifying]⟩ :=
    path_of_run_all hok rfl
  exact ⟨_, hpath, ⟨.listed, rfl⟩, rfl, (idle_exit_sound hpath).2 ⟨.listed, rfl⟩ rfl⟩

end ShellProxy.IdleExit
