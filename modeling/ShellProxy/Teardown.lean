import ShellProxy.ExecChannel

/-! Teardown of an exec channel: when the shutdown flag is latched, the forwarder must leave its
loop for the channel close. A lane that closed first can keep it in the loop for ever. -/
namespace ShellProxy.Teardown
open Frame Machine ExecChannel

/-- Stdin still open, and nothing will ever come out of the in-band lane again: the biased select
takes this branch each time and ignores it. -/
def Spin (c : Chan) : Prop :=
  c.phase = .top ∧ c.stdinOpen = true ∧ c.inband = [] ∧ c.sender = .exited

def phaseWeight : Phase → Nat
  | .closing => 0
  | .top => 1
  | .writing _ => 2

def inFlight : Sender → Nat
  | .requesting _ => 1
  | _ => 0

/-- Items the forwarder may still have to take, with the mode switch and the current write. -/
def work (c : Chan) : Nat :=
  if c.phase = .closing then 0
  else
    2 * (c.signals.length + inFlight c.sender + c.inband.length + c.stdin.length) +
      (if c.stdinOpen then 1 else 0) + phaseWeight c.phase

theorem work_pos (c : Chan) (h : c.phase ≠ .closing) : 0 < work c := by
  have hw : 0 < phaseWeight c.phase := by
    cases hp : c.phase with
    | closing => exact absurd hp h
    | top | writing f => simp [phaseWeight]
  rw [work, if_neg h]
  omega

theorem relay_fields (c : Chan) (s : Signal) :
    (c.relay s).phase = c.phase ∧ (c.relay s).signals = c.signals ∧
      (c.relay s).sender = c.sender ∧ (c.relay s).stdin = c.stdin ∧
      (c.relay s).stdinOpen = c.stdinOpen ∧ (c.relay s).inband.length ≤ c.inband.length + 1 := by
  unfold Chan.relay
  split <;> simp

theorem work_take (c : Chan) (b : Branch) (hp : c.phase = .top) (hb : c.picks b = true)
    (hc : ¬ Spin c) : work (c.take b) + 1 ≤ work c := by
  have hn : c.phase ≠ .closing := by simp [hp]
  cases b with
  | shutdown =>
    have hw := work_pos c hn
    have hz : work (c.take .shutdown) = 0 := by simp [work, Chan.take]
    omega
  | inband =>
    cases hi : c.inband with
    | cons s rest =>
      simp [work, Chan.take, hi, hp, phaseWeight]
      omega
    | nil =>
      have hx : c.sender = .exited := by simpa [Chan.picks, Chan.ready, hi] using hb
      have ho : c.stdinOpen = false := by
        by_contra ho
        exact hc ⟨hp, by simpa using ho, hi, hx⟩
      have hw := work_pos c hn
      have hz : work (c.take .inband) = 0 := by simp [work, Chan.take, hi, ho]
      omega
  | stdin =>
    have ho : c.stdinOpen = true := by
      simp only [Chan.picks, Bool.and_eq_true] at hb
      exact hb.1.1
    cases hs : c.stdin with
    | cons e rest =>
      cases e <;> simp [work, Chan.take, hs, hp, phaseWeight] <;> omega
    | nil => simp [work, Chan.take, hs, hp, ho, phaseWeight]

theorem work_afterWrite (c : Chan) (f : ExecFrame ServeExec) (r : WriteEnd)
    (hp : c.phase = .writing f) : work (c.afterWrite f r) + 1 ≤ work c := by
  have hn : c.phase ≠ .closing := by simp [hp]
  have hw := work_pos c hn
  cases r with
  | cancelled =>
    have hz : work (c.afterWrite f .cancelled) = 0 := by simp [work, Chan.afterWrite]
    omega
  | ok =>
    by_cases ho : c.stdinOpen = true <;> by_cases hf : f = .stdinEof <;>
      simp [work, Chan.afterWrite, hp, phaseWeight, ho, hf]
  | err =>
    by_cases hf : f = .stdinEof
    · by_cases ho : c.stdinOpen = true <;>
        simp [work, Chan.afterWrite, hp, phaseWeight, ho, hf]
    · have hz : work (c.afterWrite f .err) = 0 := by simp [work, Chan.afterWrite, hf]
      omega

theorem work_relay (c b : Chan) (s : Signal) (hp : b.phase = c.phase) (hd : b.stdin = c.stdin)
    (ho : b.stdinOpen = c.stdinOpen) (hi : b.inband = c.inband)
    (hs : b.signals.length + inFlight b.sender + 1 ≤ c.signals.length + inFlight c.sender) :
    work (b.relay s) ≤ work c := by
  obtain ⟨hrp, hrs, hrx, hrd, hro, hri⟩ := relay_fields b s
  by_cases hc : c.phase = .closing
  · simp [work, hrp, hp, hc]
  · rw [work, work, hrp, hrs, hrx, hrd, hro, hp, hd, ho, if_neg hc, if_neg hc]
    rw [hi] at hri
    omega

theorem work_step (c d : Chan) (e : Ev) (h : Quiet c e ∧ ¬ Spin c) (hs : step c e = some d) :
    work d + (if e.forwards then 1 else 0) ≤ work c := by
  obtain ⟨hq, hc⟩ := h
  cases e with
  | pushSignal s | pushStdin e => exact absurd hq id
  | dropSignals | dropStdin | fire =>
    obtain rfl := Option.some.inj hs
    exact Nat.le_refl _
  | sigRecv =>
    simp only [step] at hs
    split at hs
    · rename_i s rest hx hg
      split at hs
      · obtain rfl := Option.some.inj hs
        by_cases hcl : c.phase = .closing
        · simp [work, hcl, Ev.forwards]
        · simp only [work, if_neg hcl, hg, hx, inFlight, List.length_cons, Ev.forwards]
          simp only [Bool.false_eq_true, if_false]
          omega
      · obtain rfl := Option.some.inj hs
        simp only [Ev.forwards, Bool.false_eq_true, if_false, Nat.add_zero]
        have hlen : rest.length + inFlight c.sender + 1 ≤ c.signals.length + inFlight c.sender := by
          rw [hg, List.length_cons]
          omega
        exact work_relay c { c with signals := rest } s rfl rfl rfl rfl hlen
    · cases hs
  | sigNone =>
    obtain ⟨hg, hs⟩ := Option.ite_none_right_eq_some.mp hs
    obtain rfl := Option.some.inj hs
    simp [work, hg.1, inFlight, Ev.forwards]
  | sigRequested ok =>
    simp only [step] at hs
    split at hs
    · rename_i s hx
      obtain rfl := Option.some.inj hs
      simp only [Ev.forwards, Bool.false_eq_true, if_false, Nat.add_zero]
      let b : Chan := { c with
        sender := .waiting
        requests := if ok then c.requests ++ [s] else c.requests }
      exact work_relay c b s rfl rfl rfl rfl (by simp [b, hx, inFlight])
    · cases hs
  | sigStop =>
    obtain ⟨hg, hs⟩ := Option.ite_none_right_eq_some.mp hs
    obtain rfl := Option.some.inj hs
    by_cases hcl : c.phase = .closing
    · simp [work, hcl, Ev.forwards]
    · simp only [work, if_neg hcl, inFlight, Ev.forwards, Bool.false_eq_true, if_false]
      omega
  | poll b =>
    obtain ⟨hg, hs⟩ := Option.ite_none_right_eq_some.mp hs
    obtain rfl := Option.some.inj hs
    exact work_take c b hg.1 hg.2 hc
  | wrote r =>
    simp only [step] at hs
    split at hs
    · rename_i f hp
      split at hs
      · cases hs
      · obtain rfl := Option.some.inj hs
        exact work_afterWrite c f r hp
    · cases hs

/-- Nothing gets the forwarder out of `Spin`, and its next poll is always ready. -/
theorem spin_step (c d : Chan) (e : Ev) (h : Spin c) (hs : step c e = some d) : Spin d := by
  obtain ⟨hp, ho, hi, hx⟩ := h
  cases e with
  | pushSignal s | pushStdin x =>
    obtain ⟨-, hs⟩ := Option.ite_none_right_eq_some.mp hs
    obtain rfl := Option.some.inj hs
    exact ⟨hp, ho, hi, hx⟩
  | dropSignals | dropStdin | fire =>
    obtain rfl := Option.some.inj hs
    exact ⟨hp, ho, hi, hx⟩
  | sigRecv | sigRequested ok => simp [step, hx] at hs
  | sigNone | sigStop => simp [step, hx] at hs
  | wrote r => simp [step, hp] at hs
  | poll b =>
    cases b with
    | inband =>
      obtain rfl : c = d := by simpa [step, hp, Chan.picks, Chan.ready, hi, hx, Chan.take, ho] using hs
      exact ⟨hp, ho, hi, hx⟩
    | stdin | shutdown => simp [step, hp, Chan.picks, Chan.ready, hi, hx, ho] at hs

theorem spin_polls (c : Chan) (h : Spin c) : step c (.poll .inband) = some c := by
  obtain ⟨hp, ho, hi, hx⟩ := h
  simp [step, hp, Chan.picks, Chan.ready, hi, hx, Chan.take, ho]

/-- Once the flag is latched the forwarder is never parked: it can poll or its write ends. -/
theorem forwarder_ready (c : Chan) (hf : c.fired = true) (hp : c.phase ≠ .closing) :
    ∃ e d, e.forwards = true ∧ step c e = some d := by
  cases hc : c.phase with
  | closing => exact absurd hc hp
  | writing f => exact ⟨.wrote .cancelled, c.afterWrite f .cancelled, rfl, by simp [step, hc, hf]⟩
  | top =>
    by_cases hi : c.ready .inband = true
    · exact ⟨.poll .inband, c.take .inband, rfl, by simp [step, hc, Chan.picks, hi]⟩
    · by_cases hs : c.stdinOpen = true ∧ c.ready .stdin = true
      · exact ⟨.poll .stdin, c.take .stdin, rfl, by simp [step, hc, Chan.picks, hi, hs]⟩
      · have hsh : c.picks .shutdown = true := by
          simp only [Chan.picks, Chan.ready, hf, Bool.true_and]
          simp only [Chan.ready] at hi hs
          grind
        exact ⟨.poll .shutdown, c.take .shutdown, rfl, by simp [step, hc, hsh]⟩

theorem fired_take (c : Chan) (b : Branch) : (c.take b).fired = c.fired := by
  cases b <;> simp only [Chan.take] <;> repeat' split
  all_goals rfl

theorem fired_afterWrite (c : Chan) (f : ExecFrame ServeExec) (r : WriteEnd) :
    (c.afterWrite f r).fired = c.fired := by
  cases r <;> simp only [Chan.afterWrite]
  split <;> rfl

theorem fired_relay (c : Chan) (s : Signal) : (c.relay s).fired = c.fired := by
  unfold Chan.relay
  split <;> rfl

theorem fired_step (c d : Chan) (e : Ev) (h : c.fired = true) (hs : step c e = some d) :
    d.fired = true := by
  cases e <;> simp only [step] at hs
  all_goals
    repeat' split at hs
    all_goals
      cases hs
      try simp [fired_take, fired_afterWrite, fired_relay, h]

/-- From a latched flag on, with nothing new queued, the forwarder is always able to go on, and
after as many of its steps as there is work it has reached the close if and only if none of them
started with stdin open and the in-band lane closed and drained. -/
theorem forwarder_leaves (s t : Chan) (es : List Ev) (hf : s.fired = true)
    (h : Path step Quiet s es t) :
    (t.phase ≠ .closing → ∃ e d, e.forwards = true ∧ step t e = some d) ∧
      (work s ≤ (es.filter Ev.forwards).length →
        (t.phase = .closing ↔ Path step (fun c e => Quiet c e ∧ ¬ Spin c) s es t)) := by
  have hft : t.fired = true :=
    h.invariant (I := fun c => c.fired = true) (fun c e d hc _ hs => fired_step c d e hc hs) hf
  refine ⟨forwarder_ready t hft, ?_⟩
  intro hw
  constructor
  · intro hc
    apply h.avoids (fun c e d hsp hs => spin_step c d e hsp hs)
    intro hsp
    rw [hsp.1] at hc
    cases hc
  · intro hclear
    have hb := hclear.bounded work Ev.forwards (fun c e d hq hs => work_step c d e hq hs)
    by_contra hc
    have hp := work_pos t hc
    omega

/-- The stdin lane closed without an EOF: the mode switches, then the flag is seen. -/
theorem forwarder_leaves_sample :
    let s : Chan := { opened with stdinTx := false, fired := true }
    let t : Chan := { s with stdinOpen := false, phase := .closing }
    (t.phase ≠ .closing → ∃ e d, e.forwards = true ∧ step t e = some d) ∧
      (work s ≤ ([.poll .stdin, .poll .shutdown].filter Ev.forwards).length →
        (t.phase = .closing ↔
          Path step (fun c e => Quiet c e ∧ ¬ Spin c) s [.poll .stdin, .poll .shutdown] t)) :=
  forwarder_leaves _ _ _ rfl
    (Path.head trivial rfl (Path.head trivial rfl .refl))

/-- The signal sender sees the flag before the forwarder does, while stdin is open: the forwarder
polls the closed lane any number of times, and no run gets it to the close. -/
theorem sender_first_spins :
    ∃ s, Path step Any opened [.fire, .sigStop] s ∧ s.fired = true ∧
      (∀ n, Path step Quiet s (List.replicate n (.poll .inband)) s) ∧
      ∀ es t, Path step Any s es t → t.phase ≠ .closing := by
  refine ⟨_, path_of_run rfl, rfl, ?_, ?_⟩
  · intro n
    induction n with
    | zero => exact .refl
    | succ n ih => exact Path.head trivial (spin_polls _ ⟨rfl, rfl, rfl, rfl⟩) ih
  · intro es t h hc
    have ht := h.invariant (fun c e d hsp _ hs => spin_step c d e hsp hs) ⟨rfl, rfl, rfl, rfl⟩
    rw [ht.1] at hc
    cases hc

end ShellProxy.Teardown
