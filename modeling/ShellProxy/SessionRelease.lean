import ShellProxy.OutputPath
import ShellProxy.ServiceOrder

/-! When `handle_exec` lets the lock of its session go: after its Exit frame is queued, which takes
room in the queue of the client's frames. -/
namespace ShellProxy.SessionRelease
open Frame Codec Machine DaemonOutput OutputPath
variable {J : EventJson}

/-- The frames `handle_exec` itself still queues before it returns. -/
def owes : Main → Nat
  | .pinging _ => 2
  | .looping | .joining _ | .reporting _ => 1
  | .done _ => 0

/-- The room the execution takes in the client's queue before it can return. -/
def demand (d : Daemon) : Nat := d.clientQ.length + d.bridged.length + owes d.main

section Daemon
variable {d u : Daemon}

theorem bridged_length (d : Daemon) :
    d.bridged.length = d.bridge.toList.length + d.eventQ.length := by
  rw [Daemon.bridged, List.length_append]

theorem onMsg_output (d : Daemon) (m : Msg) :
    (d.onMsg J m).clientQ = d.clientQ ∧ (d.onMsg J m).bridged = d.bridged ∧
      (d.onMsg J m).main = d.main := by
  cases m with
  | data b =>
    simp only [Daemon.onMsg]
    cases d.decoder.push J b <;> exact ⟨rfl, rfl, rfl⟩
  | log b | status n | closed => exact ⟨rfl, rfl, rfl⟩

theorem demand_step {e : DaemonOutput.Ev} (he : e ≠ .emit) (hs : DaemonOutput.step J d e = some u) :
    demand d ≤ demand u := by
  cases step_move hs with
  | emit => exact absurd rfl he
  | linkEnds => exact Nat.le_refl _
  | recv m rest hmain hr hb hm =>
    obtain ⟨hq, hbr, hmn⟩ := onMsg_output (J := J) { d with msgs := rest } m
    rw [demand, demand, hq, hbr, hmn]
    exact Nat.le_refl _
  | recvEnd hmain hr hb hm hl => exact Nat.le_refl _
  | exit r rest hmain hr hb => exact Nat.le_refl _
  | take f rest q hmain hr hb hplain hq hpay =>
    simp only [demand, bridged_length, List.length_append]
    omega
  | finished r hmain hr =>
    simp only [demand, bridged_length, hmain, owes]
    omega
  | giveUp m hmain =>
    simp only [demand, bridged_length, hmain, owes]
    omega
  | ping p hmain =>
    simp only [demand, bridged_length, hmain, owes]
    omega
  | pongSent p hmain =>
    simp only [demand, bridged_length, hmain, owes, List.length_append, List.length_singleton]
    omega
  | bridgeTake v rest hb hq =>
    simp only [demand, bridged_length, hb, hq, Option.toList_none, Option.toList_some,
      List.length_nil, List.length_cons]
    omega
  | bridgeSend v hb =>
    simp only [demand, bridged_length, hb, Option.toList_none, Option.toList_some,
      List.length_append, List.length_nil, List.length_cons]
    omega
  | joined o hmain hb hq =>
    simp only [demand, bridged_length, hmain, owes]
    omega
  | report o hmain =>
    simp only [demand, bridged_length, hmain, owes, List.length_append, List.length_singleton]
    omega

/-- The client's queue is bounded, and what it holds is in order. -/
structure Bounded (d : Daemon) : Prop where
  sending : Sending d
  room : d.clientQ.length ≤ clientCap

theorem bounded_init : Bounded {} where
  sending := sending_open rfl (fun _ => rfl) (by simp)
  room := Nat.zero_le _

theorem room_step {e : DaemonOutput.Ev} (h : d.clientQ.length ≤ clientCap)
    (hs : DaemonOutput.step J d e = some u) : u.clientQ.length ≤ clientCap := by
  -- a frame is queued where there is room
  have hroom : ∀ (f : EventFrame) (v : Daemon),
      (if d.clientQ.length < clientCap then some { v with clientQ := d.clientQ ++ [f] } else none) =
        some u → u.clientQ.length ≤ clientCap := by
    intro f v hs
    obtain ⟨hlt, hu⟩ := Option.ite_none_right_eq_some.mp hs
    obtain rfl := Option.some.inj hu
    simp only [List.length_append, List.length_singleton]
    omega
  cases step_move hs with
  | emit f rest hq =>
    rw [hq, List.length_cons] at h
    exact Nat.le_of_succ_le h
  | recv m rest hmain hr hb hm => rwa [(onMsg_output (J := J) { d with msgs := rest } m).1]
  | recvEnd | linkEnds | exit | take | finished | giveUp | ping | bridgeTake | joined => exact h
  | pongSent p hmain =>
    simp only [DaemonOutput.step, hmain] at hs
    exact hroom (.pong p) { d with main := .looping } hs
  | bridgeSend v hb =>
    simp only [DaemonOutput.step, hb] at hs
    exact hroom v.frame { d with bridge := none } hs
  | report o hmain =>
    simp only [DaemonOutput.step, hmain] at hs
    exact hroom (.exit (reportOf o)) { d with main := .done o } hs

theorem bounded_step {e : DaemonOutput.Ev} (h : Bounded d)
    (hs : DaemonOutput.step J d e = some u) : Bounded u where
  sending := sending_step h.sending hs
  room := room_step h.room hs

theorem bounded_push {m : Msg} (h : Bounded d) (hs : d.push m = some u) : Bounded u := by
  refine ⟨h.sending.push hs, ?_⟩
  obtain ⟨-, hu⟩ := Option.ite_none_right_eq_some.mp hs
  obtain rfl := Option.some.inj hu
  exact h.room

theorem Bounded.demand_done (h : Bounded d) {o : Outcome} (hd : d.main = .done o) :
    demand d ≤ clientCap := by
  obtain ⟨hb, -⟩ := h.sending.last o hd
  simpa [demand, hb, hd, owes] using h.room

/-- Steps to the return, for an execution given up at its next choice. -/
def stepsLeft (d : Daemon) : Nat :=
  2 * d.eventQ.length + d.bridge.toList.length + match d.main with
    | .pinging _ => 4
    | .looping => 3
    | .joining _ => 2
    | .reporting _ => 1
    | .done _ => 0

/-- An execution with the room it needs goes on to its return without the client. -/
theorem goes_on (hroom : demand d ≤ clientCap)
    (hopen : ¬ ∃ o, d.main = .done o) :
    ∃ e u, e ≠ .emit ∧ DaemonOutput.step J d e = some u ∧ demand u ≤ clientCap ∧
      stepsLeft u < stepsLeft d := by
  simp only [demand, bridged_length] at hroom
  cases hm : d.main with
  | done o => exact absurd ⟨o, hm⟩ hopen
  | pinging p =>
    simp only [hm, owes] at hroom
    have hlt : d.clientQ.length < clientCap := by omega
    refine ⟨.pongSent, _, by simp, by simp only [DaemonOutput.step, hm, if_pos hlt]; rfl, ?_, ?_⟩
    · simp only [demand, bridged_length, owes, List.length_append, List.length_singleton]
      omega
    · simp only [stepsLeft, hm]
      omega
  | looping =>
    simp only [hm, owes] at hroom
    refine ⟨.giveUp "watchdog", _, by simp, by simp only [DaemonOutput.step, hm]; rfl, ?_, ?_⟩
    · simp only [demand, bridged_length, owes]
      omega
    · simp only [stepsLeft, hm]
      omega
  | reporting o =>
    simp only [hm, owes] at hroom
    have hlt : d.clientQ.length < clientCap := by omega
    refine ⟨.report, _, by simp, by simp only [DaemonOutput.step, hm, if_pos hlt]; rfl, ?_, ?_⟩
    · simp only [demand, bridged_length, owes, List.length_append, List.length_singleton]
      omega
    · simp only [stepsLeft, hm]
      omega
  | joining o =>
    simp only [hm, owes] at hroom
    cases hb : d.bridge with
    | some v =>
      simp only [hb, Option.toList_some, List.length_singleton] at hroom
      have hlt : d.clientQ.length < clientCap := by omega
      refine ⟨.bridgeSend, _, by simp, by simp only [DaemonOutput.step, hb, if_pos hlt]; rfl,
        ?_, ?_⟩
      · simp only [demand, bridged_length, owes, hm, List.length_append, List.length_singleton,
          Option.toList_none, List.length_nil]
        omega
      · simp only [stepsLeft, hm, hb, Option.toList_some, Option.toList_none,
          List.length_singleton, List.length_nil]
        omega
    | none =>
      cases hq : d.eventQ with
      | cons v rest =>
        simp only [hb, hq, Option.toList_none, List.length_nil, List.length_cons] at hroom
        refine ⟨.bridgeTake, _, by simp, by simp only [DaemonOutput.step, hb, hq]; rfl, ?_, ?_⟩
        · simp only [demand, bridged_length, owes, hm, Option.toList_some, List.length_singleton]
          omega
        · simp only [stepsLeft, hm, hb, hq, Option.toList_some, Option.toList_none,
            List.length_nil, List.length_cons]
          omega
      | nil =>
        have hends : d.bridge = none ∧ d.eventQ = [] := ⟨hb, hq⟩
        refine ⟨.joined, _, by simp, by simp only [DaemonOutput.step, hm, if_pos hends]; rfl,
          ?_, ?_⟩
        · simp only [demand, bridged_length, owes, hb, hq, Option.toList_none, List.length_nil]
            at hroom ⊢
          omega
        · simp only [stepsLeft, hm]
          omega

end Daemon

section World
variable {w v : World}

/-- The connection of the client stays open, and its writer takes no frame. -/
def Unread (_ : World) (e : OutputPath.Ev) : Prop := e ≠ .daemon .emit

theorem daemon_of_step {e : OutputPath.Ev} (hs : OutputPath.step J w e = some v) :
    v.daemon = w.daemon ∨ (∃ m, w.daemon.push m = some v.daemon) ∨
      ∃ g, e = .daemon g ∧ DaemonOutput.step J w.daemon g = some v.daemon := by
  have hnote : ∀ {m : Msg} {x : World}, w.push m = some x → w.daemon.push m = some x.daemon := by
    intro m x hx
    obtain ⟨d, hd, rfl⟩ := Option.map_eq_some_iff.mp hx
    exact hd
  cases e with
  | serve e =>
    obtain ⟨s, -, rfl⟩ := Option.map_eq_some_iff.mp hs
    exact .inl rfl
  | deliver n =>
    obtain ⟨-, hs⟩ := Option.ite_none_right_eq_some.mp hs
    obtain ⟨x, hx, rfl⟩ := Option.map_eq_some_iff.mp hs
    have hd := hnote hx
    exact .inr (.inl ⟨_, hd⟩)
  | log b | status n | closed => exact .inr (.inl ⟨_, hnote hs⟩)
  | daemon g =>
    obtain ⟨d, hd, rfl⟩ := Option.map_eq_some_iff.mp hs
    exact .inr (.inr ⟨g, rfl, hd⟩)

theorem bounded_world {e : OutputPath.Ev} (h : Bounded w.daemon)
    (hs : OutputPath.step J w e = some v) : Bounded v.daemon := by
  rcases daemon_of_step hs with hd | ⟨m, hd⟩ | ⟨g, -, hd⟩
  · rwa [hd]
  · exact bounded_push h hd
  · exact bounded_step h hd

theorem demand_world {e : OutputPath.Ev} (he : e ≠ .daemon .emit)
    (hs : OutputPath.step J w e = some v) : demand w.daemon ≤ demand v.daemon := by
  rcases daemon_of_step hs with hd | ⟨m, hd⟩ | ⟨g, rfl, hd⟩
  · rw [hd]
  · obtain ⟨-, hd⟩ := Option.ite_none_right_eq_some.mp hd
    rw [← Option.some.inj hd]
    exact Nat.le_refl _
  · exact demand_step (fun hc => he (by rw [hc])) hd

theorem path_daemon {es : List DaemonOutput.Ev} {d : Daemon}
    (h : Path (DaemonOutput.step J) (fun _ e => e ≠ .emit) w.daemon es d) :
    Path (OutputPath.step J) Unread w (es.map .daemon) { w with daemon := d } := by
  induction h with
  | refl => exact .refl
  | tail _ he hs ih =>
    rw [List.map_append]
    refine ih.tail ?_ (by simp only [OutputPath.step, hs, Option.map_some])
    intro hc
    exact he (OutputPath.Ev.daemon.inj hc)

/-- From any state of an execution that has not returned, given up or not, `handle_exec` can return
without another frame being taken by the writer of an open connection exactly when the frames that
wait for it, those still owed and the Exit frame fit in the client's queue. -/
theorem returns_unread_iff {es : List OutputPath.Ev} (h : Path (OutputPath.step J) Any {} es w) :
    (∃ fs u o, Path (OutputPath.step J) Unread w fs u ∧ u.daemon.main = .done o) ↔
      demand w.daemon ≤ clientCap := by
  have hb := h.invariant (I := fun w => Bounded w.daemon)
    (fun _ _ _ hi _ hs => bounded_world hi hs) bounded_init
  constructor
  · rintro ⟨fs, u, o, hp, ho⟩
    obtain ⟨hbu, hle⟩ := hp.invariant
      (I := fun u => Bounded u.daemon ∧ demand w.daemon ≤ demand u.daemon)
      (fun _ _ _ hi he hs => ⟨bounded_world hi.1 hs, hi.2.trans (demand_world he hs)⟩)
      ⟨hb, Nat.le_refl _⟩
    exact hle.trans (hbu.demand_done ho)
  · intro hroom
    have hgo : ∀ d : Daemon, demand d ≤ clientCap → (¬ ∃ o, d.main = .done o) → ∃ e u, e ≠ .emit ∧
        DaemonOutput.step J d e = some u ∧ demand u ≤ clientCap ∧ stepsLeft u < stepsLeft d :=
      fun d hd hg => goes_on hd hg
    obtain ⟨es, d, hp, -, o, ho⟩ := exists_goal stepsLeft (fun d => demand d ≤ clientCap)
      (fun d => ∃ o, d.main = .done o) hgo w.daemon hroom
    exact ⟨es.map .daemon, _, o, path_daemon hp, ho⟩

end World

/-- The tasks of the daemon at the locks of their sessions, and the output path of each. -/
structure Sys where
  queue : SessionQueue.Sys := {}
  worlds : Nat → World := fun _ => {}

inductive Ev where
  | task (e : SessionQueue.Ev)
  | path (t : Nat) (e : OutputPath.Ev)

def ends : Main → HandleExec.Outcome → Bool
  | .joining (.ok x), .ok c => decide (x.newCwd = c)
  | .joining (.error m), .error m' => decide (m = m')
  | _, _ => false

/-- The bridge is joined before the connection is looked at, and the Exit frame queued before the
guard of the lock is dropped. -/
def allows (s : Sys) : SessionQueue.Ev → Bool
  | .own (.finish t o) => ends (s.worlds t).daemon.main o
  | .own (.evict t) =>
    match (s.worlds t).daemon.main with
    | .reporting _ => true
    | _ => false
  | .release t =>
    match (s.worlds t).daemon.main with
    | .done _ => true
    | _ => false
  | _ => true

/-- The execution has begun, and what it does next is due: it reports after the cwd is stored. -/
def due (s : Sys) (t : Nat) (e : OutputPath.Ev) : Bool :=
  match (s.queue.daemon.tasks t).map HandleExec.Task.stage, e with
  | some .running, .daemon .joined | some .running, .daemon .report => false
  | some .ending, .daemon .report | some .settled, .daemon .report => false
  | some .running, _ | some .ending, _ | some .settled, _ | some .updated, _ => true
  | _, _ => false

def step (J : EventJson) (s : Sys) : Ev → Option Sys
  | .task e =>
    if allows s e then (SessionQueue.step s.queue e).map fun q => { s with queue := q } else none
  | .path t e =>
    if due s t e then
      (OutputPath.step J (s.worlds t) e).map fun w =>
        { s with worlds := Function.update s.worlds t w }
    else none

section Sys
open SessionQueue SessionCwd
variable {s v : Sys}

theorem step_cases {e : Ev} (hs : step J s e = some v) :
    (∃ g q, e = .task g ∧ allows s g = true ∧ SessionQueue.step s.queue g = some q ∧
      v = { s with queue := q }) ∨
    ∃ t g w, e = .path t g ∧ OutputPath.step J (s.worlds t) g = some w ∧
      v = { s with worlds := Function.update s.worlds t w } := by
  cases e with
  | task g =>
    obtain ⟨ha, hs⟩ := Option.ite_none_right_eq_some.mp hs
    obtain ⟨q, hq, rfl⟩ := Option.map_eq_some_iff.mp hs
    exact .inl ⟨g, q, rfl, ha, hq, rfl⟩
  | path t g =>
    obtain ⟨-, hs⟩ := Option.ite_none_right_eq_some.mp hs
    obtain ⟨w, hw, rfl⟩ := Option.map_eq_some_iff.mp hs
    exact .inr ⟨t, g, w, rfl, hw, rfl⟩

structure Inv (s : Sys) : Prop where
  queue : SessionQueue.Inv s.queue
  worlds : ∀ t, Bounded (s.worlds t).daemon

theorem inv_init : Inv {} where
  queue := SessionQueue.inv_init
  worlds := fun _ => bounded_init

theorem inv_step {e : Ev} (h : Inv s) (hs : step J s e = some v) : Inv v := by
  rcases step_cases hs with ⟨g, q, -, -, hq, rfl⟩ | ⟨t, g, w, -, hw, rfl⟩
  · exact ⟨SessionQueue.inv_step h.queue hq, h.worlds⟩
  · refine ⟨h.queue, ?_⟩
    intro u
    by_cases hu : u = t
    · subst hu
      simp only [Function.update_self]
      exact bounded_world (h.worlds u) hw
    · simp only [Function.update_of_ne hu]
      exact h.worlds u

/-- The task holds the lock of its session and has more to queue for its client than fits. -/
structure Stuck (s : Sys) (t b : Nat) : Prop where
  holds : HoldsAt s.queue.daemon t b
  full : clientCap < demand (s.worlds t).daemon

/-- A holder whose client does not read keeps the lock, whatever the others do. -/
theorem stuck_task {t b : Nat} {g : SessionQueue.Ev} {q : SessionQueue.Sys} (h : Inv s)
    (hst : Stuck s t b) (ha : allows s g = true) (hq : SessionQueue.step s.queue g = some q)
    (k : HandleExec.SessionKey) (hk : s.queue.daemon.sessions k = some b) :
    HoldsAt q.daemon t b ∧ history q.daemon k = history s.queue.daemon k := by
  have ho := h.queue.head b t hst.holds
  cases step_move hq with
  | own g d _ hg hd hv =>
    have hquiet := quiet_step h.queue.daemon hg hd
    subst hv
    exact ⟨(hquiet.holds t b).mpr hst.holds, by rw [history, history, hquiet.order]⟩
  | pass n _ hv | enter u c w _ _ _ hv | quit u c a _ _ _ _ hv =>
    subst hv
    exact ⟨hst.holds, rfl⟩
  | lock u c d hu hc hd hv =>
    obtain ⟨hholds, -, -, k', hk', horder⟩ := lock_moves h.queue.daemon hu hd
    subst hv
    refine ⟨(hholds t b).mpr (.inl hst.holds), ?_⟩
    have hkk : k' ≠ k := by
      rintro rfl
      obtain rfl := Option.some.inj (hk.symm.trans hk')
      obtain rfl := Option.some.inj (ho.symm.trans hc)
      exact hst.holds.not_queued hu
    simp [history, horder, hkk]
  | release u c d he hu hd hv =>
    obtain ⟨hholds, -, -, horder, -⟩ := release_moves hu hd
    subst hv
    refine ⟨(hholds t b).mpr ⟨hst.holds, ?_⟩, by rw [history, history, horder]⟩
    rintro rfl
    -- the guard is dropped behind the Exit frame, which fits
    rw [he, allows] at ha
    cases hm : (s.worlds t).daemon.main with
    | done o =>
      have hroom := (h.worlds t).demand_done hm
      exact absurd hst.full (Nat.not_lt.mpr hroom)
    | looping | pinging | joining | reporting =>
      rw [hm] at ha
      cases ha

/-- The client of a task that holds its session's lock keeps its connection open but stops reading,
and what the execution still has for it does not fit: however it goes on, given up by the watchdog
or not, no other command of the session gets the lock until the writer takes a frame. -/
theorem unread_blocks_session {es fs : List Ev} {s d : Sys} {t b : Nat} {k : HandleExec.SessionKey}
    (h : Path (step J) Any {} es s) (hk : s.queue.daemon.sessions k = some b)
    (ht : HoldsAt s.queue.daemon t b) (hfull : clientCap < demand (s.worlds t).daemon)
    (g : Path (step J) (fun _ e => e ≠ .path t (.daemon .emit)) s fs d) :
    HoldsAt d.queue.daemon t b ∧ history d.queue.daemon k = history s.queue.daemon k := by
  have hi := h.invariant (I := Inv) (fun _ _ _ hi _ hs => inv_step hi hs) inv_init
  have hstep : ∀ x e y, (Inv x ∧ Stuck x t b ∧ x.queue.daemon.sessions k = some b ∧
      history x.queue.daemon k = history s.queue.daemon k) → e ≠ .path t (.daemon .emit) →
      step J x e = some y → Inv y ∧ Stuck y t b ∧ y.queue.daemon.sessions k = some b ∧
        history y.queue.daemon k = history s.queue.daemon k := by
    rintro x e y ⟨hx, hst, hkx, hhist⟩ hne hs
    refine ⟨inv_step hx hs, ?_⟩
    rcases step_cases hs with ⟨g, q, -, ha, hq, rfl⟩ | ⟨u, g, w, rfl, hw, rfl⟩
    · obtain ⟨hholds, hsame⟩ := stuck_task hx hst ha hq k hkx
      exact ⟨⟨hholds, hst.full⟩, key_step hkx hq, hsame.trans hhist⟩
    · refine ⟨⟨hst.holds, ?_⟩, hkx, hhist⟩
      by_cases hu : t = u
      · subst hu
        have he : g ≠ .daemon .emit := by
          rintro rfl
          exact hne rfl
        simp only [Function.update_self]
        exact hst.full.trans_le (demand_world he hw)
      · simpa only [Function.update_of_ne hu] using hst.full
  obtain ⟨-, hst, -, hhist⟩ := g.invariant hstep ⟨hi, ⟨ht, hfull⟩, hk, rfl⟩
  exact ⟨hst.holds, hhist⟩

/-- Steps that neither take a frame for the client nor end the execution. -/
def Keeps (_ : Daemon) (e : DaemonOutput.Ev) : Prop := e ≠ .emit ∧ e ≠ .joined ∧ e ≠ .report

/-- The client asks for a Pong `n` times and reads none. -/
theorem pings_pile_up (n : Nat) (hn : n ≤ clientCap) :
    ∃ es d, Path (DaemonOutput.step J) Keeps {} es d ∧ d.main = .looping ∧ d.bridged = [] ∧
      d.clientQ.length = n := by
  induction n with
  | zero => exact ⟨[], {}, .refl, rfl, rfl, rfl⟩
  | succ n ih =>
    obtain ⟨es, d, hp, hm, hb, hlen⟩ := ih (Nat.le_of_succ_le hn)
    have hping : DaemonOutput.step J d (.ping ⟨0⟩) = some { d with main := .pinging ⟨0⟩ } := by
      simp only [DaemonOutput.step, hm]
    have hlt : d.clientQ.length < clientCap := by omega
    have hpong : DaemonOutput.step J { d with main := .pinging ⟨0⟩ } .pongSent =
        some { d with main := .looping, clientQ := d.clientQ ++ [.pong ⟨0⟩] } := by
      simp only [DaemonOutput.step, if_pos hlt]
    have hp' := (hp.tail (by simp [Keeps]) hping).tail (by simp [Keeps]) hpong
    exact ⟨_, _, hp', rfl, hb, by simp [hlen]⟩

theorem returns_unread_iff_sample :
    ∃ es w, Path (OutputPath.step sampleJson) Any {} es w ∧ w.daemon.clientQ.length = 255 ∧
      ∃ fs u o, Path (OutputPath.step sampleJson) Unread w fs u ∧ u.daemon.main = .done o := by
  obtain ⟨es, d, hp, hm, hb, hlen⟩ := pings_pile_up (J := sampleJson) 255 (by decide)
  have hpath := (path_daemon (w := {}) (hp.mono fun _ _ h => h.1)).mono (fun _ _ _ => trivial)
  refine ⟨_, _, hpath, hlen, (returns_unread_iff hpath).mpr ?_⟩
  simp [demand, hlen, hb, hm, owes, clientCap]

def putDaemon (s : Sys) (t : Nat) (d : Daemon) : Sys :=
  { s with worlds := Function.update s.worlds t { s.worlds t with daemon := d } }

theorem path_execution {s : Sys} {t : Nat} {es : List DaemonOutput.Ev} {d : Daemon}
    (ht : (s.queue.daemon.tasks t).map HandleExec.Task.stage = some .running)
    (h : Path (DaemonOutput.step J) Keeps (s.worlds t).daemon es d) :
    Path (step J) (fun _ e => e ≠ .path t (.daemon .emit)) s
      (es.map fun e => .path t (.daemon e)) (putDaemon s t d) := by
  induction h with
  | refl =>
    have hsame : putDaemon s t (s.worlds t).daemon = s := by simp [putDaemon]
    rw [hsame]
    exact .refl
  | tail _ hk hs ih =>
    rename_i e _
    rw [List.map_append]
    refine ih.tail (by simpa using hk.1) ?_
    have hdue : ∀ worlds, due { s with worlds := worlds } t (.daemon e) = true := by
      intro worlds
      unfold due
      rw [ht]
      cases e with
      | joined => exact absurd rfl hk.2.1
      | report => exact absurd rfl hk.2.2
      | _ => rfl
    simp only [step, putDaemon, hdue, if_true, Function.update_self, OutputPath.step, hs,
      Option.map_some, Function.update_idem]

def begins : List SessionQueue.Ev := comes 0 ++ [.lock 0, .own (.assemble 0)]

theorem unread_blocks_session_sample :
    ∃ es fs s d, Path (step sampleJson) Any {} es s ∧
      Path (step sampleJson) (fun _ e => e ≠ .path 0 (.daemon .emit)) s fs d ∧
      (d.worlds 0).daemon.main = .joining (.error "watchdog") ∧
      HoldsAt d.queue.daemon 0 0 ∧
      history d.queue.daemon SessionQueue.defaultKey =
        history s.queue.daemon SessionQueue.defaultKey := by
  obtain ⟨es, d, hp, hm, hb, hlen⟩ := pings_pile_up (J := sampleJson) 256 (by decide)
  obtain ⟨s, hs, hrun, hfresh, hk, hh⟩ : ∃ s, run (step sampleJson) (begins.map .task) {} = some s ∧
      (s.queue.daemon.tasks 0).map HandleExec.Task.stage = some .running ∧
      (s.worlds 0).daemon = {} ∧ s.queue.daemon.sessions SessionQueue.defaultKey = some 0 ∧
      HoldsAt s.queue.daemon 0 0 := by
    refine ⟨_, rfl, rfl, rfl, rfl, ?_⟩
    exact ⟨_, rfl, rfl, rfl⟩
  rw [← hfresh] at hp
  have hpath := (path_of_run hs).append ((path_execution hrun hp).mono fun _ _ _ => trivial)
  have hd : ((putDaemon s 0 d).worlds 0).daemon = d := by simp [putDaemon]
  have hlate : DaemonOutput.step sampleJson ((putDaemon s 0 d).worlds 0).daemon (.giveUp "watchdog") =
      some { d with main := .joining (.error "watchdog"), link := false } := by
    simp only [hd, DaemonOutput.step, hm]
  have hgive := path_execution (s := putDaemon s 0 d) (t := 0) hrun
    (Machine.Path.refl.tail (by simp [Keeps]) hlate)
  have hfull : clientCap < demand ((putDaemon s 0 d).worlds 0).daemon := by
    simp [hd, demand, hlen, hb, hm, owes, clientCap]
  exact ⟨_, _, _, _, hpath, hgive, by simp [putDaemon],
    unread_blocks_session hpath hk hh hfull hgive⟩

end Sys

end ShellProxy.SessionRelease
