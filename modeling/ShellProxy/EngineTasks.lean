import ShellProxy.Teardown

/-! The tasks of an exec channel and who ends them: `EngineTasks::finish`, its `Drop` where the
engine future is dropped at an await, and the reaper that `Drop` spawns. -/
namespace ShellProxy.EngineTasks
open Frame Machine ExecChannel Teardown

inductive Task where
  | reader | sender | forwarder
  deriving DecidableEq, Repr

/-- The channel reader: inside of its select, or awaiting the send of an event. -/
inductive Reader where
  | waiting | sending | ended
  deriving DecidableEq, Repr

/-- An await of the engine future: one in the loop of `wait`, the join of a task in `finish`, or the
join of the forwarder after its abort. -/
inductive Await where
  | loop
  | join (t : Task)
  | aborted
  deriving DecidableEq, Repr

inductive Engine where
  | at (a : Await)
  | returned
  | dropped (a : Await)
  deriving DecidableEq, Repr

/-- The task that `Drop` spawns, with the handles it holds. -/
inductive Reaper where
  | none
  | joining (held : List Task)
  | aborting (held : List Task)
  | done
  deriving DecidableEq, Repr

def msgCap : Nat := 64

/-- `closed` says that the forwarder has ended, behind the channel close or by an abort. -/
structure Tasks where
  chan : Chan := ExecChannel.opened
  closed : Bool := false
  reader : Reader := .waiting
  msgs : Nat := 0
  engine : Engine := .at .loop
  aborted : Task → Bool := fun _ => false
  reaper : Reaper := .none

inductive Ev where
  | chan (e : ExecChannel.Ev)
  | closes
  | message
  | queued
  | lost
  | channelEnds
  | wakes
  | takes
  | finishes
  | joined
  | joinElapses
  | drop (runtime : Bool)
  | killed (t : Task)
  | reapElapses
  | reaped

namespace Tasks

def ended (s : Tasks) : Task → Bool
  | .reader => s.reader == .ended
  | .sender => s.chan.sender == .exited
  | .forwarder => s.closed

/-- The engine future is there no more, and the queue of the reader has no receiver. -/
def gone (s : Tasks) : Bool :=
  match s.engine with
  | .at _ => false
  | _ => true

def fire (s : Tasks) : Tasks := { s with chan := { s.chan with fired := true } }

def abort (s : Tasks) (held : List Task) : Tasks :=
  { s with aborted := fun t => s.aborted t || held.contains t }

def kill (s : Tasks) : Task → Tasks
  | .reader => { s with reader := .ended }
  | .sender => { s with chan := { s.chan with sender := .exited } }
  | .forwarder => { s with closed := true }

end Tasks

/-- The handles that `Drop` finds. The others went with the locals of `finish`. -/
def Await.held : Await → List Task
  | .loop => [.reader, .sender, .forwarder]
  | .join .reader | .join .sender => [.forwarder]
  | .join .forwarder | .aborted => []

/-- `Drop`: without a runtime there is no reaper. -/
def Tasks.dropped (s : Tasks) (a : Await) (runtime : Bool) : Tasks :=
  if a.held.all s.ended then { s.fire with engine := .dropped a }
  else if runtime then { s.fire with engine := .dropped a, reaper := .joining a.held }
  else { s.fire.abort a.held with engine := .dropped a }

/-- `finish` goes on behind the join of a task that has ended. -/
def Tasks.next (s : Tasks) : Await → Tasks
  | .loop => s
  | .join .reader => { s.abort [.sender] with engine := .at (.join .sender) }
  | .join .sender => { s with engine := .at (.join .forwarder) }
  | .join .forwarder | .aborted => { s with engine := .returned }

def Await.joins : Await → Option Task
  | .loop => none
  | .join t => some t
  | .aborted => some .forwarder

def step (s : Tasks) : Ev → Option Tasks
  | .chan e =>
    if e = .fire ∨ e.forwards ∧ s.closed then none
    else (ExecChannel.step s.chan e).map fun c => { s with chan := c }
  -- `writer.close()` is done or takes too long
  | .closes =>
    if s.closed = false ∧ s.chan.phase = .closing then some { s with closed := true } else none
  | .message => if s.reader = .waiting then some { s with reader := .sending } else none
  | .queued =>
    if s.reader = .sending ∧ s.msgs < msgCap ∧ s.gone = false then
      some { s with reader := .waiting, msgs := s.msgs + 1 }
    else none
  | .lost =>
    if s.reader = .sending ∧ s.gone = true then some { s.fire with reader := .ended } else none
  | .channelEnds => if s.reader = .waiting then some { s.fire with reader := .ended } else none
  | .wakes =>
    if s.reader = .waiting ∧ s.chan.fired = true then some { s with reader := .ended } else none
  | .takes =>
    if s.engine = .at .loop ∧ 0 < s.msgs then some { s with msgs := s.msgs - 1 } else none
  | .finishes =>
    if s.engine = .at .loop then
      some { s.fire.abort [.reader] with engine := .at (.join .reader) }
    else none
  | .joined =>
    match s.engine with
    | .at a => if a.joins.any s.ended then some (s.next a) else none
    | _ => none
  | .joinElapses =>
    if s.engine = .at (.join .forwarder) then
      some { s.abort [.forwarder] with engine := .at .aborted }
    else none
  | .drop runtime =>
    match s.engine with
    | .at a => some (s.dropped a runtime)
    | _ => none
  | .killed t => if s.aborted t = true ∧ s.ended t = false then some (s.kill t) else none
  | .reapElapses =>
    match s.reaper with
    | .joining held => some { s.abort held with reaper := .aborting held }
    | _ => none
  | .reaped =>
    match s.reaper with
    | .joining held | .aborting held =>
      if held.all s.ended then some { s with reaper := .done } else none
    | _ => none

def Ev.own : Ev → Bool
  | .chan e =>
    match e with
    | .pushSignal _ | .pushStdin _ | .dropSignals | .dropStdin | .fire => false
    | _ => true
  | .closes | .lost | .wakes | .killed _ | .reapElapses | .reaped => true
  | _ => false

/-- The handle of the forwarder is lost, nothing will abort it, and it spins. -/
structure Leaked (s : Tasks) : Prop where
  gone : s.gone = true
  runs : s.closed = false
  spins : Spin s.chan
  spared : s.aborted .forwarder = false
  free : ∀ held, s.reaper = .joining held → .forwarder ∉ held

theorem exited_step (c d : Chan) (e : ExecChannel.Ev) (h : c.sender = .exited)
    (hs : ExecChannel.step c e = some d) : d.sender = .exited := by
  cases e with
  | pushSignal x | pushStdin x =>
    obtain ⟨-, hs⟩ := Option.ite_none_right_eq_some.mp hs
    obtain rfl := Option.some.inj hs
    exact h
  | dropSignals | dropStdin | fire =>
    obtain rfl := Option.some.inj hs
    exact h
  | sigRecv | sigNone | sigRequested ok | sigStop => simp [ExecChannel.step, h] at hs
  | poll b =>
    obtain ⟨-, hs⟩ := Option.ite_none_right_eq_some.mp hs
    obtain rfl := Option.some.inj hs
    cases b <;> simp only [Chan.take] <;> repeat' split
    all_goals exact h
  | wrote r =>
    simp only [ExecChannel.step] at hs
    split at hs
    · split at hs
      · cases hs
      · obtain rfl := Option.some.inj hs
        cases r <;> simp only [Chan.afterWrite]
        · exact h
        · split <;> exact h
        · exact h
    · cases hs

namespace Tasks
variable (s : Tasks)

@[simp] theorem fire_ended (t : Task) : s.fire.ended t = s.ended t := by cases t <;> rfl
@[simp] theorem abort_ended (held : List Task) (t : Task) :
    (s.abort held).ended t = s.ended t := by cases t <;> rfl
@[simp] theorem engine_ended (e : Engine) (t : Task) :
    { s with engine := e }.ended t = s.ended t := by cases t <;> rfl
@[simp] theorem reaper_ended (r : Reaper) (t : Task) :
    { s with reaper := r }.ended t = s.ended t := by cases t <;> rfl
@[simp] theorem msgs_ended (n : Nat) (t : Task) :
    { s with msgs := n }.ended t = s.ended t := by cases t <;> rfl

theorem dropped_ended (a : Await) (runtime : Bool) (t : Task) :
    (s.dropped a runtime).ended t = s.ended t := by
  unfold dropped
  split
  · simp
  · split
    · cases t <;> rfl
    · simp

theorem next_ended (a : Await) (t : Task) : (s.next a).ended t = s.ended t := by
  cases a with
  | loop => rfl
  | join x => cases x <;> simp [next]
  | aborted => simp [next]

theorem kill_ended (x t : Task) (h : s.ended t = true) : (s.kill x).ended t = true := by
  cases x <;> cases t <;> first | rfl | exact h

end Tasks

theorem ended_step (s u : Tasks) (e : Ev) (t : Task) (h : s.ended t = true)
    (hs : step s e = some u) : u.ended t = true := by
  cases e with
  | chan e =>
    obtain ⟨-, hs⟩ := Option.ite_none_left_eq_some.mp hs
    obtain ⟨d, hd, rfl⟩ := Option.map_eq_some_iff.mp hs
    cases t with
    | reader | forwarder => exact h
    | sender => simpa [Tasks.ended] using exited_step _ _ _ (by simpa [Tasks.ended] using h) hd
  | closes =>
    obtain ⟨-, hs⟩ := Option.ite_none_right_eq_some.mp hs
    obtain rfl := Option.some.inj hs
    cases t <;> first | rfl | exact h
  | message | queued =>
    obtain ⟨hg, hs⟩ := Option.ite_none_right_eq_some.mp hs
    obtain rfl := Option.some.inj hs
    cases t with
    | reader => simp_all [Tasks.ended]
    | sender | forwarder => exact h
  | lost | channelEnds | wakes =>
    obtain ⟨-, hs⟩ := Option.ite_none_right_eq_some.mp hs
    obtain rfl := Option.some.inj hs
    cases t <;> first | rfl | exact h
  | takes | finishes | joinElapses =>
    obtain ⟨-, hs⟩ := Option.ite_none_right_eq_some.mp hs
    obtain rfl := Option.some.inj hs
    simpa using h
  | joined =>
    simp only [step] at hs
    split at hs
    · obtain ⟨-, hs⟩ := Option.ite_none_right_eq_some.mp hs
      obtain rfl := Option.some.inj hs
      rwa [Tasks.next_ended]
    · cases hs
  | drop runtime =>
    simp only [step] at hs
    split at hs
    · obtain rfl := Option.some.inj hs
      rwa [Tasks.dropped_ended]
    · cases hs
  | killed x =>
    obtain ⟨-, hs⟩ := Option.ite_none_right_eq_some.mp hs
    obtain rfl := Option.some.inj hs
    exact s.kill_ended x t h
  | reapElapses =>
    simp only [step] at hs
    split at hs
    · obtain rfl := Option.some.inj hs
      simpa using h
    · cases hs
  | reaped =>
    simp only [step] at hs
    split at hs
    all_goals
      first
      | obtain ⟨-, hs⟩ := Option.ite_none_right_eq_some.mp hs
        obtain rfl := Option.some.inj hs
        simpa using h
      | cases hs

def Await.behind : Await → List Task
  | .loop | .join .reader => []
  | .join .sender => [.reader]
  | .join .forwarder | .aborted => [.reader, .sender]

/-- The reaper still waits for the forwarder, and will abort it. -/
def Tasks.watched (s : Tasks) : Prop := ∃ held, s.reaper = .joining held ∧ .forwarder ∈ held

/-- `covered`: behind a drop anywhere but at the join of the forwarder somebody ends the
forwarder. -/
structure Inv (s : Tasks) : Prop where
  fired : s.engine ≠ .at .loop → s.chan.fired = true
  joined : ∀ a, s.engine = .at a → ∀ t ∈ a.behind, s.ended t = true
  returned : s.engine = .returned → ∀ t, s.ended t = true
  cut : s.engine = .at .aborted → s.aborted .forwarder = true
  covered : ∀ a, s.engine = .dropped a → a ≠ .join .forwarder →
    s.ended .forwarder = true ∨ s.aborted .forwarder = true ∨ s.watched

theorem Inv.keep {s u : Tasks} (h : Inv s) (he : u.engine = s.engine)
    (hf : s.chan.fired = true → u.chan.fired = true)
    (ha : ∀ t, s.aborted t = true → u.aborted t = true)
    (hend : ∀ t, s.ended t = true → u.ended t = true)
    (hw : s.watched → u.ended .forwarder = true ∨ u.aborted .forwarder = true ∨ u.watched) :
    Inv u where
  fired hl := hf (h.fired (he ▸ hl))
  joined a hat t ht := hend t (h.joined a (he ▸ hat) t ht)
  returned hr t := hend t (h.returned (he ▸ hr) t)
  cut hc := ha _ (h.cut (he ▸ hc))
  covered a hd hne := by
    obtain hx | hx | hx := h.covered a (he ▸ hd) hne
    · exact .inl (hend _ hx)
    · exact .inr (.inl (ha _ hx))
    · exact hw hx

theorem inv_dropped (s : Tasks) (a : Await) (runtime : Bool) (h : Inv s) (ha : s.engine = .at a) :
    Inv (s.dropped a runtime) := by
  have hcut : a = .aborted → s.aborted .forwarder = true := by
    rintro rfl
    exact h.cut ha
  have hheld : .forwarder ∈ a.held ∨ a = .aborted ∨ a = .join .forwarder := by
    cases a with
    | loop => simp [Await.held]
    | join t => cases t <;> simp [Await.held]
    | aborted => simp
  have hcov : a ≠ .join .forwarder → (s.dropped a runtime).ended .forwarder = true ∨
      (s.dropped a runtime).aborted .forwarder = true ∨ (s.dropped a runtime).watched := by
    intro hne
    rw [Tasks.dropped_ended]
    by_cases hall : a.held.all s.ended = true
    · obtain hm | rfl | rfl := hheld
      · exact .inl (List.all_eq_true.mp hall _ hm)
      · rw [Tasks.dropped, if_pos hall]
        exact .inr (.inl (hcut rfl))
      · exact absurd rfl hne
    · obtain hm | rfl | rfl := hheld
      · cases runtime with
        | true => exact .inr (.inr ⟨a.held, by simp [Tasks.dropped, hall], hm⟩)
        | false => exact .inr (.inl (by simp [Tasks.dropped, hall, Tasks.abort, hm]))
      · simp [Await.held] at hall
      · exact absurd rfl hne
  have heng : (s.dropped a runtime).engine = .dropped a := by
    unfold Tasks.dropped
    split
    · rfl
    · split <;> rfl
  have hfire : (s.dropped a runtime).chan.fired = true := by
    unfold Tasks.dropped
    split
    · rfl
    · split <;> rfl
  constructor
  · exact fun _ => hfire
  · intro b hb
    rw [heng] at hb
    cases hb
  · intro hr
    rw [heng] at hr
    cases hr
  · intro hc
    rw [heng] at hc
    cases hc
  · intro b hb hne
    rw [heng] at hb
    cases hb
    exact hcov hne

theorem inv_next (s : Tasks) (a : Await) (h : Inv s) (ha : s.engine = .at a)
    (hj : a.joins.any s.ended = true) : Inv (s.next a) := by
  have hf : a ≠ .loop → s.chan.fired = true := by
    intro hne
    apply h.fired
    simpa [ha] using hne
  have hb := h.joined a ha
  cases a with
  | loop => exact h
  | join t =>
    have ht : s.ended t = true := by simpa [Await.joins] using hj
    cases t with
    | reader =>
      constructor <;> simp [Tasks.next, Tasks.abort, Await.behind]
      · exact hf (by simp)
      · exact ht
    | sender =>
      have hr := hb .reader (by simp [Await.behind])
      constructor <;> simp [Tasks.next, Await.behind]
      · exact hf (by simp)
      · exact ⟨hr, ht⟩
    | forwarder =>
      have hr := hb .reader (by simp [Await.behind])
      have hs := hb .sender (by simp [Await.behind])
      constructor <;> simp [Tasks.next]
      · exact hf (by simp)
      · rintro (_ | _ | _) <;> assumption
  | aborted =>
    have hr := hb .reader (by simp [Await.behind])
    have hs := hb .sender (by simp [Await.behind])
    have ht : s.ended .forwarder = true := by simpa [Await.joins] using hj
    constructor <;> simp [Tasks.next]
    · exact hf (by simp)
    · rintro (_ | _ | _) <;> assumption

theorem inv_step (s u : Tasks) (e : Ev) (h : Inv s) (hs : step s e = some u) : Inv u := by
  have hend := fun t ht => ended_step s u e t ht hs
  cases e with
  | chan e =>
    obtain ⟨-, hs⟩ := Option.ite_none_left_eq_some.mp hs
    obtain ⟨d, hd, rfl⟩ := Option.map_eq_some_iff.mp hs
    exact h.keep rfl (fun hf => fired_step _ _ _ hf hd) (fun _ ht => ht) hend
      (fun hw => .inr (.inr hw))
  | closes | message | queued | takes =>
    obtain ⟨-, hs⟩ := Option.ite_none_right_eq_some.mp hs
    obtain rfl := Option.some.inj hs
    exact h.keep rfl id (fun _ ht => ht) hend (fun hw => .inr (.inr hw))
  | lost | channelEnds | wakes =>
    obtain ⟨-, hs⟩ := Option.ite_none_right_eq_some.mp hs
    obtain rfl := Option.some.inj hs
    exact h.keep rfl (fun hf => by first | rfl | exact hf) (fun _ ht => ht) hend
      (fun hw => .inr (.inr hw))
  | finishes =>
    obtain ⟨-, hs⟩ := Option.ite_none_right_eq_some.mp hs
    obtain rfl := Option.some.inj hs
    constructor <;> simp [Tasks.abort, Tasks.fire, Await.behind]
  | joined =>
    simp only [step] at hs
    split at hs
    · rename_i a ha
      obtain ⟨hj, hs⟩ := Option.ite_none_right_eq_some.mp hs
      obtain rfl := Option.some.inj hs
      exact inv_next s a h ha hj
    · cases hs
  | joinElapses =>
    obtain ⟨hg, hs⟩ := Option.ite_none_right_eq_some.mp hs
    obtain rfl := Option.some.inj hs
    have hb := h.joined _ hg
    have hf := h.fired (by simp [hg])
    constructor <;> simp [Tasks.abort, Await.behind]
    · exact hf
    · exact ⟨hb .reader (by simp [Await.behind]), hb .sender (by simp [Await.behind])⟩
  | drop runtime =>
    simp only [step] at hs
    split at hs
    · rename_i a ha
      obtain rfl := Option.some.inj hs
      exact inv_dropped s a runtime h ha
    · cases hs
  | killed t =>
    obtain ⟨-, hs⟩ := Option.ite_none_right_eq_some.mp hs
    obtain rfl := Option.some.inj hs
    cases t <;> exact h.keep rfl id (fun _ ht => ht) hend (fun hw => .inr (.inr hw))
  | reapElapses =>
    simp only [step] at hs
    split at hs
    · rename_i held hr
      obtain rfl := Option.some.inj hs
      refine h.keep rfl id (fun t ht => by simp [Tasks.abort, ht]) hend ?_
      rintro ⟨held', hr', hm⟩
      rw [hr] at hr'
      cases hr'
      exact .inr (.inl (by simp [Tasks.abort, hm]))
    · cases hs
  | reaped =>
    simp only [step] at hs
    split at hs
    · rename_i held hr
      obtain ⟨hall, hs⟩ := Option.ite_none_right_eq_some.mp hs
      obtain rfl := Option.some.inj hs
      refine h.keep rfl id (fun _ ht => ht) hend ?_
      rintro ⟨held', hr', hm⟩
      rw [hr] at hr'
      cases hr'
      exact .inl (hend _ (List.all_eq_true.mp hall _ hm))
    · rename_i held hr
      obtain ⟨-, hs⟩ := Option.ite_none_right_eq_some.mp hs
      obtain rfl := Option.some.inj hs
      refine h.keep rfl id (fun _ ht => ht) hend ?_
      rintro ⟨held', hr', -⟩
      rw [hr] at hr'
      cases hr'
    · cases hs

def readerLoad : Reader → Nat
  | .sending => 2
  | .waiting => 1
  | .ended => 0

def waits : Sender → Nat
  | .requesting _ => 2
  | .waiting => 1
  | .exited => 0

def senderLoad (c : Chan) : Nat := 2 * c.signals.length + waits c.sender

def reaperLoad : Reaper → Nat
  | .joining _ => 2
  | .aborting _ => 1
  | .none | .done => 0

def load (s : Tasks) : Nat :=
  (if s.closed then 0 else work s.chan + 1) + senderLoad s.chan + readerLoad s.reader +
    reaperLoad s.reaper

theorem waits_pos (x : Sender) (h : x ≠ .exited) : 0 < waits x := by
  cases x with
  | exited => exact absurd rfl h
  | waiting | requesting y => simp [waits]

theorem senderLoad_relay (c : Chan) (x : Signal) : senderLoad (c.relay x) = senderLoad c := by
  obtain ⟨-, hs, hx, -⟩ := relay_fields c x
  rw [senderLoad, hs, hx, senderLoad]

theorem senderLoad_take (c : Chan) (b : Branch) : senderLoad (c.take b) = senderLoad c := by
  cases b <;> simp only [Chan.take] <;> repeat' split
  all_goals rfl

theorem senderLoad_afterWrite (c : Chan) (f : ExecFrame ServeExec) (r : WriteEnd) :
    senderLoad (c.afterWrite f r) = senderLoad c := by
  cases r <;> simp only [Chan.afterWrite]
  · rfl
  · split <;> rfl
  · rfl

theorem senderLoad_step (c d : Chan) (e : ExecChannel.Ev) (h : (Ev.chan e).own = true)
    (hs : ExecChannel.step c e = some d) :
    senderLoad d + (if e.forwards then 0 else 1) ≤ senderLoad c := by
  cases e with
  | pushSignal x | pushStdin x => cases h
  | dropSignals | dropStdin | fire => cases h
  | sigRecv =>
    simp only [ExecChannel.step] at hs
    split at hs
    · rename_i x rest hx hg
      split at hs
      · obtain rfl := Option.some.inj hs
        simp only [senderLoad, waits, hx, hg, List.length_cons, ExecChannel.Ev.forwards,
          Bool.false_eq_true, ↓reduceIte]
        omega
      · obtain rfl := Option.some.inj hs
        rw [senderLoad_relay]
        simp only [senderLoad, hg, List.length_cons, ExecChannel.Ev.forwards, Bool.false_eq_true,
          ↓reduceIte]
        omega
    · cases hs
  | sigNone =>
    obtain ⟨hg, hs⟩ := Option.ite_none_right_eq_some.mp hs
    obtain rfl := Option.some.inj hs
    simp [senderLoad, waits, hg.1, ExecChannel.Ev.forwards]
  | sigRequested ok =>
    simp only [ExecChannel.step] at hs
    split at hs
    · rename_i x hx
      obtain rfl := Option.some.inj hs
      rw [senderLoad_relay]
      simp [senderLoad, waits, hx, ExecChannel.Ev.forwards]
    · cases hs
  | sigStop =>
    obtain ⟨hg, hs⟩ := Option.ite_none_right_eq_some.mp hs
    obtain rfl := Option.some.inj hs
    have hw := waits_pos c.sender hg.2
    have hz : waits Sender.exited = 0 := rfl
    simp only [senderLoad, hz, ExecChannel.Ev.forwards, Bool.false_eq_true, ↓reduceIte]
    omega
  | poll b =>
    obtain ⟨-, hs⟩ := Option.ite_none_right_eq_some.mp hs
    obtain rfl := Option.some.inj hs
    exact Nat.le_of_eq (senderLoad_take c b)
  | wrote r =>
    simp only [ExecChannel.step] at hs
    split at hs
    · rename_i f hp
      split at hs
      · cases hs
      · obtain rfl := Option.some.inj hs
        exact Nat.le_of_eq (senderLoad_afterWrite c f r)
    · cases hs

/-- A poll in `Spin` changes nothing, and every other step of a task leaves less to do. -/
theorem chan_load (c d : Chan) (e : ExecChannel.Ev) (h : (Ev.chan e).own = true)
    (hs : ExecChannel.step c e = some d) (hne : d ≠ c) :
    work d + senderLoad d < work c + senderLoad c := by
  have hsend := senderLoad_step c d e h hs
  have hc : ¬ Spin c := by
    rintro ⟨hp, ho, hi, hx⟩
    cases e with
    | pushSignal x | pushStdin x => cases h
    | dropSignals | dropStdin | fire => cases h
    | sigRecv | sigNone | sigRequested ok | sigStop => simp [ExecChannel.step, hx] at hs
    | wrote r => simp [ExecChannel.step, hp] at hs
    | poll b =>
      cases b with
      | inband =>
        simp only [ExecChannel.step, Chan.picks, Chan.ready, Chan.take, hp, hi, hx, ho] at hs
        exact hne (by simpa using hs.symm)
      | stdin | shutdown =>
        simp [ExecChannel.step, hp, Chan.picks, Chan.ready, hi, hx, ho] at hs
  have hq : Quiet c e := by
    cases e with
    | pushSignal x | pushStdin x => cases h
    | _ => trivial
  have hwork := work_step c d e ⟨hq, hc⟩ hs
  cases hf : e.forwards <;> simp [hf] at hwork hsend <;> omega

theorem work_kill (s : Tasks) : work (s.kill .sender).chan ≤ work s.chan := by
  by_cases hc : s.chan.phase = .closing
  · simp [work, Tasks.kill, hc]
  · cases ho : s.chan.stdinOpen <;>
      simp only [work, Tasks.kill, hc, inFlight, ho, ↓reduceIte, Bool.false_eq_true] <;> omega

theorem readerLoad_pos (r : Reader) (h : r ≠ .ended) : 0 < readerLoad r := by
  cases r with
  | ended => exact absurd rfl h
  | waiting | sending => simp [readerLoad]

theorem load_killed (s : Tasks) (t : Task) (h : s.ended t = false) : load (s.kill t) < load s := by
  cases t with
  | reader =>
    have hr := readerLoad_pos s.reader (by simpa [Tasks.ended] using h)
    have hk : load (s.kill .reader) = (if s.closed then 0 else work s.chan + 1) +
        senderLoad s.chan + 0 + reaperLoad s.reaper := rfl
    rw [hk, load]
    omega
  | sender =>
    have hx := waits_pos s.chan.sender (by simpa [Tasks.ended] using h)
    have hw := work_kill s
    have hk : load (s.kill .sender) = (if s.closed then 0 else work (s.kill .sender).chan + 1) +
        (2 * s.chan.signals.length + 0) + readerLoad s.reader + reaperLoad s.reaper := rfl
    rw [hk, load, senderLoad]
    split <;> omega
  | forwarder =>
    have hcl : s.closed = false := h
    simp [load, Tasks.kill, hcl]

theorem load_step (s u : Tasks) (e : Ev) (ho : e.own = true ∧ step s e ≠ some s)
    (hs : step s e = some u) : load u < load s := by
  obtain ⟨ho, hne⟩ := ho
  rw [hs] at hne
  cases e with
  | chan e =>
    obtain ⟨hg, hs⟩ := Option.ite_none_left_eq_some.mp hs
    obtain ⟨d, hd, rfl⟩ := Option.map_eq_some_iff.mp hs
    cases hcl : s.closed with
    | true =>
      have hf : e.forwards = false := by
        cases hf : e.forwards with
        | false => rfl
        | true => exact absurd (.inr ⟨hf, hcl⟩) hg
      have hsend := senderLoad_step _ _ _ ho hd
      simp only [hf, Bool.false_eq_true, ↓reduceIte] at hsend
      simp only [load, hcl, ↓reduceIte]
      omega
    | false =>
      have hch : d ≠ s.chan := by
        rintro rfl
        exact hne rfl
      have hload := chan_load _ _ _ ho hd hch
      simp only [load, hcl, Bool.false_eq_true, ↓reduceIte]
      omega
  | closes =>
    obtain ⟨hg, hs⟩ := Option.ite_none_right_eq_some.mp hs
    obtain rfl := Option.some.inj hs
    simp [load, hg.1]
  | lost | wakes =>
    obtain ⟨hg, hs⟩ := Option.ite_none_right_eq_some.mp hs
    obtain rfl := Option.some.inj hs
    simp [load, hg.1, readerLoad, Tasks.fire, work, senderLoad]
  | killed t =>
    obtain ⟨hg, hs⟩ := Option.ite_none_right_eq_some.mp hs
    obtain rfl := Option.some.inj hs
    exact load_killed s t hg.2
  | reapElapses =>
    simp only [step] at hs
    split at hs
    · rename_i held hr
      obtain rfl := Option.some.inj hs
      simp [load, Tasks.abort, hr, reaperLoad]
    · cases hs
  | reaped =>
    simp only [step] at hs
    split at hs
    all_goals
      first
      | rename_i held hr
        obtain ⟨-, hs⟩ := Option.ite_none_right_eq_some.mp hs
        obtain rfl := Option.some.inj hs
        simp [load, hr, reaperLoad]
      | cases hs
  | message | queued | channelEnds => cases ho
  | takes | finishes | joined | joinElapses | drop runtime => cases ho

theorem leaked_step (s u : Tasks) (e : Ev) (h : Leaked s) (hs : step s e = some u) : Leaked u := by
  have hat : ∀ a, s.engine ≠ .at a := by
    intro a ha
    have hg := h.gone
    simp [Tasks.gone, ha] at hg
  cases e with
  | chan e =>
    obtain ⟨-, hs⟩ := Option.ite_none_left_eq_some.mp hs
    obtain ⟨d, hd, rfl⟩ := Option.map_eq_some_iff.mp hs
    exact ⟨h.gone, h.runs, spin_step _ _ _ h.spins hd, h.spared, h.free⟩
  | closes =>
    obtain ⟨hg, -⟩ := Option.ite_none_right_eq_some.mp hs
    rw [h.spins.1] at hg
    cases hg.2
  | message | queued | lost | channelEnds | wakes =>
    obtain ⟨-, hs⟩ := Option.ite_none_right_eq_some.mp hs
    obtain rfl := Option.some.inj hs
    exact ⟨h.gone, h.runs, h.spins, h.spared, h.free⟩
  | takes | finishes | joinElapses =>
    obtain ⟨hg, -⟩ := Option.ite_none_right_eq_some.mp hs
    first | exact absurd hg (hat _) | exact absurd hg.1 (hat _)
  | joined | drop runtime => simp [step] at hs
  | killed t =>
    obtain ⟨hg, hs⟩ := Option.ite_none_right_eq_some.mp hs
    obtain rfl := Option.some.inj hs
    obtain ⟨hp, ho, hi, hx⟩ := h.spins
    cases t with
    | reader => exact ⟨h.gone, h.runs, h.spins, h.spared, h.free⟩
    | sender => exact ⟨h.gone, h.runs, ⟨hp, ho, hi, rfl⟩, h.spared, h.free⟩
    | forwarder =>
      have hspared := h.spared
      rw [hg.1] at hspared
      cases hspared
  | reapElapses =>
    simp only [step] at hs
    split at hs
    · rename_i held hr
      obtain rfl := Option.some.inj hs
      refine ⟨h.gone, h.runs, h.spins, ?_, ?_⟩
      · simp [Tasks.abort, h.spared, h.free held hr]
      · rintro held' ⟨⟩
    · cases hs
  | reaped =>
    simp only [step] at hs
    split at hs
    all_goals
      first
      | obtain ⟨-, hs⟩ := Option.ite_none_right_eq_some.mp hs
        obtain rfl := Option.some.inj hs
        exact ⟨h.gone, h.runs, h.spins, h.spared, by rintro held' ⟨⟩⟩
      | cases hs

/-- Where nobody can go on, everybody has ended, or the forwarder is lost. -/
theorem quiet_ends (s : Tasks) (h : Inv s) (hg : s.gone = true)
    (hq : ∀ e : Ev, e.own = true → step s e = none ∨ step s e = some s) :
    (∀ t, s.ended t = true) ∨ Leaked s := by
  have hstay : ∀ e u, e.own = true → step s e = some u → u = s := by
    intro e u ho hs
    obtain hn | hn := hq e ho
    · rw [hn] at hs
      cases hs
    · exact Option.some.inj (hs.symm.trans hn)
  have hf : s.chan.fired = true := by
    apply h.fired
    intro hl
    simp [Tasks.gone, hl] at hg
  have hr : s.reader = .ended := by
    cases hr : s.reader with
    | ended => rfl
    | waiting =>
      have hu := hstay .wakes { s with reader := .ended } rfl (by simp [step, hr, hf])
      rw [← hr, ← hu]
    | sending =>
      have hu := hstay .lost { s.fire with reader := .ended } rfl (by simp [step, hr, hg])
      rw [← hr, ← hu]
  have hx : s.chan.sender = .exited := by
    by_contra hx
    have hstop : step s (.chan .sigStop) = some (s.kill .sender) := by
      simp [step, ExecChannel.Ev.forwards, ExecChannel.step, hf, hx, Tasks.kill]
    have hu := congrArg (fun v => v.chan.sender) (hstay _ _ rfl hstop)
    exact hx hu.symm
  by_cases hcl : s.closed = true
  · exact .inl (by rintro (_ | _ | _) <;> simp [Tasks.ended, hr, hx, hcl])
  · have hrun : s.closed = false := by simpa using hcl
    have hp : s.chan.phase ≠ .closing := by
      intro hp
      have hu := hstay .closes { s with closed := true } rfl (by simp [step, hrun, hp])
      exact hcl (by rw [← hu])
    have hspin : Spin s.chan := by
      by_contra hns
      obtain ⟨e, d, he, hd⟩ := forwarder_ready s.chan hf hp
      have hown : (Ev.chan e).own = true := by cases e <;> first | rfl | cases he
      have hne : e ≠ .fire := by
        rintro rfl
        cases he
      have hs : step s (.chan e) = some { s with chan := d } := by
        simp [step, hne, hrun, hd]
      have hdc : d = s.chan := congrArg Tasks.chan (hstay _ _ hown hs)
      have hquiet : Quiet s.chan e := by
        cases e with
        | pushSignal x | pushStdin x => cases he
        | _ => trivial
      have hw := work_step s.chan d e ⟨hquiet, hns⟩ hd
      rw [he, hdc] at hw
      exact absurd hw (Nat.not_succ_le_self _)
    refine .inr ⟨hg, hrun, hspin, ?_, ?_⟩
    · by_contra ha
      have hk := hstay (.killed .forwarder) (s.kill .forwarder) rfl
        (by simp [step, Tasks.ended, hrun, ha])
      exact hcl (by rw [← hk]; rfl)
    · intro held hj
      have hu := hstay .reapElapses { s.abort held with reaper := .aborting held } rfl
        (by simp [step, hj])
      have hrp := congrArg Tasks.reaper hu
      rw [hj] at hrp
      cases hrp

/-- When `wait` returns, the tasks of the channel have ended. When its future is dropped instead,
they need `load s` steps at most, idle turns apart, and then they have ended too, or the forwarder
is lost for ever; that takes a drop while `finish` joins the forwarder. -/
theorem tasks_end (s : Tasks) (es : List Ev) (h : Path step Any {} es s) :
    (s.engine = .returned → ∀ t, s.ended t = true) ∧
      (s.gone = true →
        (∀ fs u, Path step (fun v e => e.own = true ∧ step v e ≠ some v) s fs u →
          fs.length ≤ load s) ∧
        ((∀ e : Ev, e.own = true → step s e = none ∨ step s e = some s) →
          (∀ t, s.ended t = true) ∨ Leaked s) ∧
        (Leaked s → s.engine = .dropped (.join .forwarder) ∧
          ∀ fs u, Path step Any s fs u → u.ended .forwarder = false)) := by
  have hinit : Inv {} := by constructor <;> simp [Await.behind]
  have hinv : Inv s := h.invariant (fun t e u hI _ hs => inv_step t u e hI hs) hinit
  refine ⟨hinv.returned, ?_⟩
  intro hg
  refine ⟨?_, quiet_ends s hinv hg, ?_⟩
  · intro fs u hrun
    have hlen := hrun.length_le load (fun _ => True)
      (fun v e w _ ho hs => ⟨trivial, load_step v w e ho hs⟩) trivial
    omega
  · intro hl
    refine ⟨?_, ?_⟩
    · cases he : s.engine with
      | «at» a => simp [Tasks.gone, he] at hg
      | returned =>
        have hcl := hinv.returned he .forwarder
        have hrun := hl.runs
        simp [Tasks.ended, hrun] at hcl
      | dropped a =>
        by_contra hne
        have hne' : a ≠ .join .forwarder := by
          rintro rfl
          exact hne rfl
        obtain hc | hc | ⟨held, hr, hm⟩ := hinv.covered a he hne'
        · have hrun := hl.runs
          simp [Tasks.ended, hrun] at hc
        · have hsp := hl.spared
          rw [hc] at hsp
          cases hsp
        · exact hl.free held hr hm
    · intro fs u hrun
      have hu := hrun.invariant (fun v e w hI _ hs => leaked_step v w e hI hs) hl
      exact hu.runs

/-- The engine future dropped at the join of the forwarder, where the signal sender is gone already:
all the rest has ended, and the forwarder polls a closed lane for ever. -/
theorem dropped_at_join_leaks :
    ∃ s, Path step Any {} [.finishes, .killed .reader, .joined, .killed .sender, .joined,
        .drop true] s ∧ Leaked s := by
  refine ⟨_, path_of_run rfl, rfl, rfl, ⟨rfl, rfl, rfl, rfl⟩, rfl, ?_⟩
  rintro held ⟨⟩

/-- The future dropped in its loop, over tasks that all run. -/
theorem tasks_end_sample :
    let s : Tasks := { ({} : Tasks).fire with
      engine := .dropped .loop, reaper := .joining [.reader, .sender, .forwarder] }
    (s.engine = .returned → ∀ t, s.ended t = true) ∧
      (s.gone = true →
        (∀ fs u, Path step (fun v e => e.own = true ∧ step v e ≠ some v) s fs u →
          fs.length ≤ load s) ∧
        ((∀ e : Ev, e.own = true → step s e = none ∨ step s e = some s) →
          (∀ t, s.ended t = true) ∨ Leaked s) ∧
        (Leaked s → s.engine = .dropped (.join .forwarder) ∧
          ∀ fs u, Path step Any s fs u → u.ended .forwarder = false)) :=
  tasks_end _ [.drop true] (path_of_run rfl)

end ShellProxy.EngineTasks
