import ShellProxy.ControlLoop

/-! An execution with a timeout against the clock: the control loop of sp-serve, its drains and the
report, and the daemon's watchdog over them. -/
namespace ShellProxy.Watchdog
open Frame Machine Reports ControlLoop

/-- Instants are counted at some resolution, and they end. -/
structure Time where
  perMilli : Nat
  last : Nat

def Time.millis (T : Time) (ms : Nat) : Nat := T.perMilli * ms

/-- Milliseconds of slack over the timeout before the daemon stops waiting for a report. -/
def watchdogGrace : Nat := 15000

/-- Milliseconds of the drain and of each report. -/
def drainGrace : Nat := 2000

def Time.clock (T : Time) : Clock Nat where
  due d now := decide (d ≤ now)
  checkedAdd now ms := if now + T.millis ms ≤ T.last then some (now + T.millis ms) else none

inductive Stage where
  | running
  | draining (stopAt : Nat) (outDone errDone : Bool)
  | cwd (since : Nat)
  | state (since : Nat) (cwd : Join)
  | reported (time : Nat)

structure Exec where
  loop : Loop Nat
  now : Nat
  stage : Stage := .running

/-- A branch of the loop, of the drain or of the collection; and time that passes. -/
inductive Ev where
  | select (s : Sel Nat)
  | progress (sender : Bool)
  | pump (out : Bool)
  | stop
  | cwd (j : Join)
  | state (j : Join)
  | tick (d : Nat)

variable (T : Time)

namespace Exec

/-- `drain_pumps` takes its deadline anew; one that the clock cannot represent has passed. -/
def restart (s : Exec) (outDone errDone : Bool) : Exec :=
  match T.clock.checkedAdd s.now drainGrace with
  | some d => { s with stage := .draining d outDone errDone }
  | none => { s with stage := .cwd s.now }

def pump (s : Exec) (stopAt : Nat) (outDone errDone : Bool) : Exec :=
  if outDone ∧ errDone then { s with stage := .cwd s.now }
  else { s with stage := .draining stopAt outDone errDone }

def onLoop (s : Exec) (loop : Loop Nat) : Exec :=
  match loop.phase with
  | .draining _ => { s with loop := loop }.restart T false false
  | _ => { s with loop := loop }

def finds (s : Exec) (since : Nat) : Join → Bool
  | .elapsed =>
    (T.clock.checkedAdd since drainGrace).any fun d => T.clock.due d s.now
  | _ => true

end Exec

/-- The loop reads the clock when it finds a deadline due. -/
def readsClock (now : Nat) : Sel Nat → Bool
  | .timeout t later => t = now ∧ later = now
  | _ => true

def step (s : Exec) : Ev → Option Exec
  | .select sel =>
    match s.stage with
    | .running =>
      if readsClock s.now sel then
        (ControlLoop.step T.clock s.loop (.select sel)).map (s.onLoop T)
      else none
    | _ => none
  | .progress sender =>
    match s.stage with
    | .draining _ outDone errDone =>
      -- a writer that is gone consumes nothing anymore
      if sender then some (s.restart T outDone errDone) else some { s with stage := .cwd s.now }
    | _ => none
  | .pump out =>
    match s.stage with
    | .draining stopAt outDone errDone =>
      if out then if outDone then none else some (s.pump stopAt true errDone)
      else if errDone then none else some (s.pump stopAt outDone true)
    | _ => none
  | .stop =>
    match s.stage with
    | .draining stopAt _ _ =>
      if T.clock.due stopAt s.now then some { s with stage := .cwd s.now } else none
    | _ => none
  | .cwd j =>
    match s.stage with
    | .cwd since => if s.finds T since j then some { s with stage := .state s.now j } else none
    | _ => none
  | .state j =>
    match s.stage with
    | .state since cwd =>
      if s.finds T since j then
        (ControlLoop.step T.clock s.loop (.finish cwd j true)).map fun loop =>
          { s with loop := loop, stage := .reported s.now }
      else none
    | _ => none
  | .tick d => if s.now + d ≤ T.last then some { s with now := s.now + d } else none

/-- The channel opens at once, so that both ends start at the same instant. -/
def begin (timeoutMs now : Nat) : Exec :=
  { loop := ControlLoop.start T.clock (some timeoutMs) now, now := now }

def Killed (s : Loop Nat) : Prop := ∃ k ∈ s.sent, k.signal = .kill

/-- A deadline is met when it is due, and the child dies when it is killed. -/
def Prompt (s : Exec) (d : Nat) : Prop :=
  match s.stage with
  | .running => ¬ Killed s.loop ∧
      ∀ due, (s.loop.killDeadline <|> s.loop.termDeadline) = some due → s.now + d ≤ due
  | .draining stopAt _ _ => s.now + d ≤ stopAt
  | .cwd since | .state since _ => s.now + d ≤ since + T.millis drainGrace
  | .reported _ => True

/-- The transport holds, and the child can be waited for. -/
def Healthy : Sel Nat → Prop
  | .ctrl (some .closed) | .ctrl (some (.bad _)) | .exit (.error _) | .dead true => False
  | _ => True

def Assumed (s : Exec) : Ev → Prop
  | .select sel => Healthy sel
  | .tick d => Prompt T s d
  | _ => True

/-- Where the watchdog of a request stands that started at `start`. -/
def limit (timeoutMs start : Nat) : Nat := start + T.millis (timeoutMs + watchdogGrace)

/-- After output that is flushed now, a stalled drain and both reports still fit. -/
def Timely (timeoutMs start : Nat) (s : Exec) (e : Ev) : Prop :=
  e = .progress true → s.now + 3 * T.millis drainGrace ≤ limit T timeoutMs start

/-- The report is out by then, or that instant has not passed. -/
def OnTime (bound : Nat) (s : Exec) : Prop :=
  match s.stage with
  | .reported time => time ≤ bound
  | _ => s.now ≤ bound

/-- In the loop: the timeout is to come, the KILL is to come, or it is sent. -/
def Runs (timeoutMs start : Nat) (s : Exec) : Prop :=
  ((s.loop.termDeadline = some (start + T.millis timeoutMs) ∨
      s.loop.termDeadline = none ∧ T.last < start + T.millis timeoutMs) ∧
    s.loop.killDeadline = none ∧ s.now ≤ start + T.millis timeoutMs) ∨
  (∃ k, s.loop.killDeadline = some k ∧ s.now ≤ k ∧
    k ≤ start + T.millis timeoutMs + T.millis termGrace) ∨
  (Killed s.loop ∧ s.now ≤ start + T.millis timeoutMs + T.millis termGrace)

/-- From every stage what is left of the bounds fits. -/
def Bounded (timeoutMs start : Nat) (s : Exec) : Prop :=
  match s.stage with
  | .running => Runs T timeoutMs start s
  | .draining stopAt _ _ =>
    s.now ≤ stopAt ∧ stopAt + 2 * T.millis drainGrace ≤ limit T timeoutMs start
  | .cwd since => s.now ≤ since + T.millis drainGrace ∧
      since + 2 * T.millis drainGrace ≤ limit T timeoutMs start
  | .state since _ => s.now ≤ since + T.millis drainGrace ∧
      since + T.millis drainGrace ≤ limit T timeoutMs start
  | .reported time => time ≤ limit T timeoutMs start

variable {T : Time} {timeoutMs start : Nat} {s t : Exec}

theorem Runs.now_le (h : Runs T timeoutMs start s) :
    s.now ≤ start + T.millis timeoutMs + T.millis termGrace := by
  rcases h with ⟨-, -, hn⟩ | ⟨k, -, hn, hk⟩ | ⟨-, hn⟩ <;> omega

theorem limit_eq : limit T timeoutMs start =
    start + T.millis timeoutMs + T.millis watchdogGrace := by
  rw [limit, Time.millis, Nat.mul_add, Nat.add_assoc]
  rfl

/-- The escalation, a stalled drain and both reports. -/
theorem grace_fits (T : Time) : T.millis termGrace + 3 * T.millis drainGrace ≤ T.millis watchdogGrace := by
  simp only [Time.millis, termGrace, drainGrace, watchdogGrace]
  omega

theorem bounded_restart {outDone errDone : Bool}
    (h : s.now + 3 * T.millis drainGrace ≤ limit T timeoutMs start) :
    Bounded T timeoutMs start (s.restart T outDone errDone) := by
  unfold Exec.restart
  split
  next d hd =>
    simp only [Time.clock, Option.ite_none_right_eq_some, Option.some.injEq] at hd
    simp only [Bounded]
    omega
  next =>
    simp only [Bounded]
    omega

theorem Killed.mono {l l' : Loop Nat} (h : Killed l) (hsent : l.sent <+: l'.sent) :
    Killed l' := by
  obtain ⟨k, hk, hs⟩ := h
  exact ⟨k, hsent.subset hk, hs⟩

theorem killed_send (l : Loop Nat) (cause : Cause) : Killed (l.send cause .kill) :=
  ⟨⟨cause, .kill⟩, List.mem_append_right _ List.mem_cons_self, rfl⟩

theorem phase_onTimeout (l : Loop Nat) (now : Nat) :
    (onTimeout T.clock l now).phase = l.phase := by
  simp only [onTimeout]
  split
  · split <;> rfl
  · rfl

theorem runs_timeout (h : Runs T timeoutMs start s) :
    Runs T timeoutMs start { s with loop := onTimeout T.clock s.loop s.now } := by
  rcases h with ⟨hterm, hkill, hnow⟩ | ⟨k, hkill, hnow, hk⟩ | ⟨hkilled, hnow⟩
  · cases hadd : T.clock.checkedAdd s.now termGrace with
    | some d =>
      have hd : s.now + T.millis termGrace = d := by
        simp only [Time.clock, Option.ite_none_right_eq_some, Option.some.injEq] at hadd
        exact hadd.2
      refine Or.inr (Or.inl ⟨d, ?_, by simp only; omega, by omega⟩)
      simp only [onTimeout, hkill, Option.isNone_none, if_true, hadd]
    | none =>
      refine Or.inr (Or.inr ⟨?_, by simp only; omega⟩)
      simp only [onTimeout, hkill, Option.isNone_none, if_true, hadd]
      exact Killed.mono (killed_send _ .escalation) (List.prefix_refl _)
  · refine Or.inr (Or.inr ⟨?_, by simp only; omega⟩)
    simp only [onTimeout, hkill, Option.isNone_some, Bool.false_eq_true, if_false]
    exact Killed.mono (killed_send _ .escalation) (List.prefix_refl _)
  · exact Or.inr (Or.inr ⟨hkilled.mono (sent_onTimeout s.loop s.now), hnow⟩)

theorem Runs.same (h : Runs T timeoutMs start s) {loop : Loop Nat}
    (hterm : loop.termDeadline = s.loop.termDeadline)
    (hkill : loop.killDeadline = s.loop.killDeadline) (hsent : s.loop.sent <+: loop.sent) :
    Runs T timeoutMs start { s with loop := loop } := by
  rcases h with h | h | ⟨hkilled, hnow⟩
  · exact Or.inl (by simpa only [hterm, hkill] using h)
  · exact Or.inr (Or.inl (by simpa only [hkill] using h))
  · exact Or.inr (Or.inr ⟨hkilled.mono hsent, hnow⟩)

theorem runs_select {sel : Sel Nat} (hs : s.stage = .running) (h : Runs T timeoutMs start s)
    (hsel : Healthy sel) (hclock : readsClock s.now sel = true) (hp : s.loop.phase = .looping) :
    Bounded T timeoutMs start (s.onLoop T (onSelect T.clock s.loop sel)) := by
  have hstay : ∀ loop : Loop Nat, loop.phase = .looping →
      Runs T timeoutMs start { s with loop := loop } →
      Bounded T timeoutMs start (s.onLoop T loop) := fun loop hl hr => by
    simp only [Exec.onLoop, hl, Bounded, hs]
    exact hr
  cases sel with
  | ctrl c =>
    cases c with
    | none => exact hstay _ hp (h.same rfl rfl (List.prefix_refl _))
    | some c =>
      cases c with
      | signal sig => exact hstay _ hp (h.same rfl rfl (List.prefix_append _ _))
      | closed | bad => exact hsel.elim
  | exit st =>
    cases st with
    | error m => exact hsel.elim
    | ok status =>
      have hnow := h.now_le
      have hfits := grace_fits T
      have hlim : s.now + 3 * T.millis drainGrace ≤ limit T timeoutMs start := by
        rw [limit_eq]
        omega
      simp only [onSelect, Exec.onLoop]
      exact bounded_restart hlim
  | timeout now later =>
    simp only [readsClock, decide_eq_true_eq] at hclock
    obtain ⟨rfl, rfl⟩ := hclock
    exact hstay _ ((phase_onTimeout _ _).trans hp) (runs_timeout h)
  | dead ok =>
    cases ok with
    | true => exact hsel.elim
    | false => exact hstay _ hp (h.same rfl rfl (List.prefix_refl _))

theorem runs_tick (h : Runs T timeoutMs start s) (hst : s.stage = .running) {d : Nat}
    (hd : Prompt T s d) (hlast : s.now + d ≤ T.last) :
    Runs T timeoutMs start { s with now := s.now + d } := by
  simp only [Prompt, hst] at hd
  obtain ⟨halive, hdue⟩ := hd
  rcases h with ⟨hterm, hkill, -⟩ | ⟨k, hkill, -, hk⟩ | ⟨hkilled, -⟩
  · refine Or.inl ⟨hterm, hkill, ?_⟩
    rcases hterm with hterm | ⟨-, hover⟩
    · exact hdue _ (by rw [hkill, hterm]; rfl)
    · simp only
      omega
  · exact Or.inr (Or.inl ⟨k, hkill, hdue k (by rw [hkill]; rfl), hk⟩)
  · exact absurd hkilled halive

theorem bounded_tick (h : Bounded T timeoutMs start s) {d : Nat} (hd : Prompt T s d)
    (hlast : s.now + d ≤ T.last) : Bounded T timeoutMs start { s with now := s.now + d } := by
  cases hst : s.stage with
  | running =>
    simp only [Bounded, hst] at h ⊢
    have hrun := runs_tick h hst hd hlast
    rwa [hst] at hrun
  | draining stopAt outDone errDone =>
    simp only [Bounded, Prompt, hst] at h hd ⊢
    exact ⟨hd, h.2⟩
  | cwd since | state since cwd =>
    simp only [Bounded, Prompt, hst] at h hd ⊢
    exact ⟨hd, h.2⟩
  | reported time =>
    simp only [Bounded, hst] at h ⊢
    exact h

theorem bounded_pump {stopAt : Nat} {outDone errDone : Bool}
    (h : s.now ≤ stopAt ∧ stopAt + 2 * T.millis drainGrace ≤ limit T timeoutMs start) :
    Bounded T timeoutMs start (s.pump stopAt outDone errDone) := by
  unfold Exec.pump
  split
  · simp only [Bounded]
    omega
  · exact h

theorem bounded_select {sel : Sel Nat} (h : Bounded T timeoutMs start s) (hsel : Healthy sel)
    (hs : step T s (.select sel) = some t) : Bounded T timeoutMs start t := by
  simp only [step] at hs
  split at hs
  next hst =>
    rw [Option.ite_none_right_eq_some, Option.map_eq_some_iff] at hs
    obtain ⟨hclock, loop, hloop, rfl⟩ := hs
    simp only [Bounded, hst] at h
    cases hp : s.loop.phase with
    | looping =>
      simp only [ControlLoop.step, hp, Option.ite_none_right_eq_some, Option.some.injEq] at hloop
      obtain ⟨-, rfl⟩ := hloop
      exact runs_select hst h hsel hclock hp
    | draining code | ended r =>
      simp only [ControlLoop.step, hp] at hloop
      cases hloop
  next => cases hs

theorem bounded_step {e : Ev} (h : Bounded T timeoutMs start s) (ha : Assumed T s e)
    (ht : Timely T timeoutMs start s e) (hs : step T s e = some t) :
    Bounded T timeoutMs start t := by
  cases e with
  | select sel => exact bounded_select h ha hs
  | progress sender =>
    simp only [step] at hs
    split at hs
    next stopAt outDone errDone hst =>
      simp only [Bounded, hst] at h
      split at hs
      next hsender =>
        obtain rfl := Option.some.inj hs
        exact bounded_restart (ht (by rw [hsender]))
      next =>
        obtain rfl := Option.some.inj hs
        simp only [Bounded]
        omega
    next => cases hs
  | pump out =>
    simp only [step] at hs
    split at hs
    next stopAt outDone errDone hst =>
      simp only [Bounded, hst] at h
      split at hs
      · rw [Option.ite_none_left_eq_some] at hs
        obtain rfl := Option.some.inj hs.2
        exact bounded_pump h
      · rw [Option.ite_none_left_eq_some] at hs
        obtain rfl := Option.some.inj hs.2
        exact bounded_pump h
    next => cases hs
  | stop =>
    simp only [step] at hs
    split at hs
    next stopAt outDone errDone hst =>
      rw [Option.ite_none_right_eq_some] at hs
      obtain rfl := Option.some.inj hs.2
      simp only [Bounded, hst] at h ⊢
      omega
    next => cases hs
  | cwd j =>
    simp only [step] at hs
    split at hs
    next since hst =>
      rw [Option.ite_none_right_eq_some] at hs
      obtain rfl := Option.some.inj hs.2
      simp only [Bounded, hst] at h ⊢
      omega
    next => cases hs
  | state j =>
    simp only [step] at hs
    split at hs
    next since cwd hst =>
      rw [Option.ite_none_right_eq_some, Option.map_eq_some_iff] at hs
      obtain ⟨-, loop, -, rfl⟩ := hs
      simp only [Bounded, hst] at h ⊢
      omega
    next => cases hs
  | tick d =>
    rw [step, Option.ite_none_right_eq_some] at hs
    obtain ⟨hlast, hs⟩ := hs
    obtain rfl := Option.some.inj hs
    exact bounded_tick h ha hlast

def early (p : Phase) : Loop Nat := ⟨some 1000, none, false, true, false, [], p⟩

theorem stall_takes {code : Int} {outDone errDone : Bool} {a b c : Nat}
    (hp : s.loop.phase = .draining code) (hst : s.stage = .draining a outDone errDone)
    (ha : s.now + T.millis drainGrace = a) (hb : a + T.millis drainGrace = b)
    (hc : b + T.millis drainGrace = c) (hlast : c ≤ T.last) :
    ∃ es t, Path (step T) (Assumed T) s es t ∧ t.stage = .reported c := by
  have hdrain : step T s (.tick (T.millis drainGrace)) = some { s with now := a } := by
    rw [step, ha, if_pos (by omega)]
  have hstop : step T { s with now := a } .stop = some { s with now := a, stage := .cwd a } := by
    simp [step, hst, Time.clock]
  have hcwd : step T { s with now := a, stage := .cwd a } (.tick (T.millis drainGrace)) =
      some { s with now := b, stage := .cwd a } := by
    rw [step, hb, if_pos (by omega)]
  have hnone : step T { s with now := b, stage := .cwd a } (.cwd .elapsed) =
      some { s with now := b, stage := .state b .elapsed } := by
    have hle : b ≤ T.last := by omega
    simp [step, Exec.finds, Time.clock, hb, hle]
  have hstate : step T { s with now := b, stage := .state b .elapsed }
      (.tick (T.millis drainGrace)) = some { s with now := c, stage := .state b .elapsed } := by
    rw [step, hc, if_pos hlast]
  have hlate : step T { s with now := c, stage := .state b .elapsed } (.state .elapsed) =
      some { s with
        loop := { s.loop with
          phase := .ended (.ok (finish s.loop.timedOut code .elapsed .elapsed).1) }
        now := c
        stage := .reported c } := by
    simp [step, Exec.finds, Time.clock, hc, hlast, ControlLoop.step, hp]
  have hdue : Assumed T s (.tick (T.millis drainGrace)) := by
    simp only [Assumed, Prompt, hst]
    omega
  refine ⟨_, _, Path.head hdue hdrain (Path.head (e := Ev.stop) trivial hstop
    (Path.head (Nat.le_refl _) hcwd (Path.head (e := Ev.cwd .elapsed) trivial hnone
      (Path.head (Nat.le_refl _) hstate (Path.head (e := Ev.state .elapsed) trivial hlate
        .refl))))), rfl⟩

/-- The condition leaves out only flushes after which the report can come too late. -/
theorem late_flush_overruns {code : Int} {stopAt : Nat} {outDone errDone : Bool}
    (hp : s.loop.phase = .draining code) (hst : s.stage = .draining stopAt outDone errDone)
    (hlate : ¬ Timely T timeoutMs start s (.progress true))
    (hlast : s.now + 3 * T.millis drainGrace ≤ T.last) :
    ∃ es t, Path (step T) (Assumed T) s (.progress true :: es) t ∧
      ¬ OnTime (limit T timeoutMs start) t := by
  have hover : limit T timeoutMs start < s.now + 3 * T.millis drainGrace := by
    simpa [Timely] using hlate
  have hflush : step T s (.progress true) = some { s with
      stage := .draining (s.now + T.millis drainGrace) outDone errDone } := by
    have hin : s.now + T.millis drainGrace ≤ T.last := by omega
    simp only [step, hst, if_true, Exec.restart, Time.clock, if_pos hin]
  obtain ⟨es, t, hes, ht⟩ := stall_takes (s := { s with
      stage := .draining (s.now + T.millis drainGrace) outDone errDone }) hp rfl rfl rfl
    (c := s.now + 3 * T.millis drainGrace) (by omega) hlast
  refine ⟨es, t, Path.head trivial hflush hes, ?_⟩
  simp only [OnTime, ht]
  omega

end ShellProxy.Watchdog
