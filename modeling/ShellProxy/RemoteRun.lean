import ShellProxy.Push
import ShellProxy.OutputPath

/-! One run of `sp` end to end: the child and serve, the channel, the daemon, the loop of
`client::run` and the exit code of `exec_with_console`. -/
namespace ShellProxy.RemoteRun
open Frame Codec EventStream FrameReader Framing Machine ServeOutput DaemonOutput OutputPath
variable {J : EventJson}

structure Execution where
  world : World := {}
  client : ClientRun.Client

def start (req : ExecRequest) : Execution := { client := ClientRun.start req [] }

inductive Ev where
  | path (e : OutputPath.Ev)
  | client (i : ClientRun.Input)

def Execution.receive (x : Execution) (w : World) (b : Bytes) : Execution :=
  { world := w, client := { x.client with unread := x.client.unread ++ b } }

/-- The daemon's writer ends when a frame does not encode. -/
def step (J : EventJson) (x : Execution) : Ev → Option Execution
  | .path (.daemon .emit) =>
    match x.world.daemon.clientQ with
    | [] => none
    | f :: _ =>
      if Push.fits J f then
        (OutputPath.step J x.world (.daemon .emit)).map fun w => x.receive w (wire J f)
      else none
  | .path e => (OutputPath.step J x.world e).map fun w => { x with world := w }
  | .client i => (ClientRun.step J x.client i).map fun c => { x with client := c }

/-- The frames serve serializes are short, and no frame future is dropped inside a frame. -/
def Sound (J : EventJson) (x : Execution) : Ev → Prop
  | .path e => Short J x.world e
  | .client i => ClientRun.Keeps x.client i

/-- The exit code of `exec_with_console`: a code that no process exits with is an internal error. -/
def exitCode : Except Errors.Error ClientRun.RunReport → Int
  | .ok r =>
    if r.timedOut then timeoutExitCode
    else if 0 ≤ r.code ∧ r.code ≤ 255 then r.code else internalErrorCode
  | .error _ => internalErrorCode

section Path
variable {d v : Daemon} {w u : World}

theorem emitted_step {e : DaemonOutput.Ev} (hs : DaemonOutput.step J d e = some v) :
    (e ≠ .emit ∧ v.emitted = d.emitted) ∨
      ∃ f rest, e = .emit ∧ d.clientQ = f :: rest ∧ v.emitted = d.emitted ++ [f] := by
  have honMsg (b : Daemon) (m : Msg) : (b.onMsg J m).emitted = b.emitted := by
    cases m with
    | data c =>
      rw [Daemon.onMsg]
      split <;> rfl
    | log c | status n | closed => rfl
  cases step_move hs with
  | recv m rest => exact .inl ⟨by simp, honMsg _ m⟩
  | recvEnd => exact .inl ⟨by simp, honMsg d .closed⟩
  | emit f rest hq => exact .inr ⟨f, rest, rfl, hq, rfl⟩
  | linkEnds | exit | take | finished | giveUp | ping | pongSent | bridgeTake | bridgeSend
  | joined | report => exact .inl ⟨by simp, rfl⟩

theorem push_kept {m : Msg} (hs : w.push m = some u) :
    u.serve = w.serve ∧ u.daemon.emitted = w.daemon.emitted := by
  obtain ⟨d, hd, rfl⟩ := Option.map_eq_some_iff.mp hs
  obtain ⟨-, hd⟩ := Option.ite_none_right_eq_some.mp hd
  obtain rfl := Option.some.inj hd
  exact ⟨rfl, rfl⟩

theorem emitted_kept {e : OutputPath.Ev} (he : e ≠ .daemon .emit)
    (hs : OutputPath.step J w e = some u) : u.daemon.emitted = w.daemon.emitted := by
  cases e with
  | serve x =>
    obtain ⟨v, -, rfl⟩ := Option.map_eq_some_iff.mp hs
    rfl
  | deliver n =>
    obtain ⟨-, hs⟩ := Option.ite_none_right_eq_some.mp hs
    obtain ⟨v, hv, rfl⟩ := Option.map_eq_some_iff.mp hs
    exact (push_kept hv).2
  | log b | status n | closed => exact (push_kept hs).2
  | daemon x =>
    obtain ⟨v, hv, rfl⟩ := Option.map_eq_some_iff.mp hs
    rcases emitted_step hv with ⟨-, heq⟩ | ⟨f, rest, rfl, -⟩
    · exact heq
    · exact absurd rfl he

theorem serve_kept {e : OutputPath.Ev} (he : ∀ x, e ≠ .serve x)
    (hs : OutputPath.step J w e = some u) : u.serve = w.serve := by
  cases e with
  | serve x => exact absurd rfl (he x)
  | deliver n =>
    obtain ⟨-, hs⟩ := Option.ite_none_right_eq_some.mp hs
    obtain ⟨v, hv, rfl⟩ := Option.map_eq_some_iff.mp hs
    exact (push_kept hv).1
  | log b | status n | closed => exact (push_kept hs).1
  | daemon x =>
    obtain ⟨v, -, rfl⟩ := Option.map_eq_some_iff.mp hs
    rfl

end Path

/-- The client is at the frames the daemon wrote for it, or done with some of them. -/
structure Hears (J : EventJson) (frames : List EventFrame) (c : ClientRun.Client) : Prop where
  live : c.result = none → ∃ es done left, frames = done ++ left ∧ ClientRun.Live J es done left c
  ended : c.result ≠ none → ∃ es fs, fs <+: frames ∧ ClientRun.Intact fs es c

structure Inv (J : EventJson) (x : Execution) : Prop where
  world : OutputPath.Inv J x.world
  hears : Hears J x.world.daemon.emitted x.client

section Step
variable {frames : List EventFrame} {c : ClientRun.Client} {x y : Execution}

theorem hears_start (req : ExecRequest) : Hears J [] (ClientRun.start req []) where
  live _ := ⟨[], [], [], rfl, ClientRun.live_start req [] (by simp)⟩
  ended h := absurd rfl h

theorem hears_receive (h : Hears J frames c) {f : EventFrame} (hf : Fits J f) :
    Hears J (frames ++ [f]) { c with unread := c.unread ++ wire J f } where
  live hr := by
    obtain ⟨es, done, left, rfl, hl⟩ := h.live hr
    refine ⟨es, done, left ++ [f], List.append_assoc _ _ _, ?_⟩
    exact Push.live_receive (t := { client := c, source := ⟨[], by simp, none⟩ }) hl hf
  ended hr := by
    obtain ⟨es, fs, hfs, done, left, rfl, hplain, hcase⟩ := h.ended hr
    refine ⟨es, done ++ left, hfs.trans (List.prefix_append _ _), done, left, rfl, hplain, ?_⟩
    have hsame (s : Stream) :
        ({ c with unread := c.unread ++ wire J f } : ClientRun.Client).delivered s =
          c.delivered s := by
      cases s <;> rfl
    cases hres : c.result with
    | none => exact absurd hres hr
    | some o =>
      simp only [hres] at hcase ⊢
      cases o with
      | ok r => exact ⟨fun s => (hsame s).trans (hcase.1 s), hcase.2⟩
      | error e =>
        rcases hcase with ⟨he, hl, hall⟩ | ⟨hm, hi, hpre⟩
        · exact .inl ⟨he, hl, fun s => (hsame s).trans (hall s)⟩
        · exact .inr ⟨hm, hi, fun s => (hsame s).symm ▸ hpre s⟩

theorem hears_client (hJ : J.Lawful) (h : Hears J frames c) {i : ClientRun.Input}
    {c' : ClientRun.Client} (hk : ClientRun.Keeps c i) (hs : ClientRun.step J c i = some c') :
    Hears J frames c' := by
  obtain ⟨es, done, left, rfl, hl⟩ := h.live (ClientRun.step_running hs)
  rcases hl.step hJ hk hs with ⟨done', left', heq, hl'⟩ | ⟨hne, hint⟩
  · exact ⟨fun _ => ⟨_, done', left', heq, hl'⟩, fun hne => absurd hl'.running hne⟩
  · exact ⟨fun hnone => absurd hnone hne, fun _ => ⟨_, _, List.prefix_refl _, hint⟩⟩

/-- A client that ends with a report was interrupted twice, or is at an Exit frame and has all of
the output before it. -/
theorem hears_ok (h : Hears J frames c) {r : ClientRun.RunReport}
    (hr : c.result = some (.ok r)) : r = ClientRun.forced ∨ ∃ done rep rest,
      frames = done ++ .exit rep :: rest ∧ r = .ofExit rep ∧
        ∀ s, c.delivered s = payloads s done := by
  obtain ⟨es, fs, ⟨more, rfl⟩, done, left, rfl, -, hcase⟩ := h.ended (by simp [hr])
  simp only [hr] at hcase
  obtain ⟨hdel, ⟨rep, rest, rfl, hrep⟩ | ⟨rfl, -⟩⟩ := hcase
  · exact .inr ⟨done, rep, rest ++ more, by simp, hrep, hdel⟩
  · exact .inl rfl

theorem inv_start (req : ExecRequest) : Inv J (start req) :=
  ⟨OutputPath.inv_init, hears_start req⟩

theorem inv_step (hJ : J.Lawful) {e : Ev} (h : Inv J x) (hk : Sound J x e)
    (hs : step J x e = some y) : Inv J y := by
  cases e with
  | client i =>
    obtain ⟨c, hc, rfl⟩ := Option.map_eq_some_iff.mp hs
    exact ⟨h.world, hears_client hJ h.hears hk hc⟩
  | path e =>
    have hworld {w : World} (hw : OutputPath.step J x.world e = some w) : OutputPath.Inv J w :=
      OutputPath.inv_step hJ h.world hk hw
    have hquiet (he : e ≠ .daemon .emit)
        (hm : (OutputPath.step J x.world e).map (fun w => { x with world := w }) = some y) :
        Inv J y := by
      obtain ⟨w, hw, rfl⟩ := Option.map_eq_some_iff.mp hm
      exact ⟨hworld hw, emitted_kept he hw ▸ h.hears⟩
    cases e with
    | serve e | deliver n | log b | status n | closed => exact hquiet (by simp) hs
    | daemon e =>
      cases e with
      | emit =>
        cases hq : x.world.daemon.clientQ with
        | nil => simp [step, hq] at hs
        | cons f rest =>
          simp only [step, hq] at hs
          obtain ⟨hf, hs⟩ := Option.ite_none_right_eq_some.mp hs
          obtain ⟨w, hw, rfl⟩ := Option.map_eq_some_iff.mp hs
          have hinv := hworld hw
          obtain ⟨d, hd, rfl⟩ := Option.map_eq_some_iff.mp hw
          rcases emitted_step hd with ⟨hne, -⟩ | ⟨g, rest', -, hq', hem⟩
          · exact absurd rfl hne
          · obtain ⟨rfl, -⟩ := List.cons.inj (hq.symm.trans hq')
            refine ⟨hinv, ?_⟩
            show Hears J d.emitted _
            rw [hem]
            exact hears_receive h.hears (Push.fits_iff.mp hf)
      | linkEnds | recv | handle | finished | giveUp | ping | pongSent | bridgeTake | bridgeSend
      | joined | report => exact hquiet (by simp) hs

theorem serve_step {e : Ev} (hs : step J x e = some y) :
    (∃ e', e = .path (.serve e') ∧ ServeOutput.step J x.world.serve e' = some y.world.serve) ∨
      (∀ e', e ≠ .path (.serve e')) ∧ y.world.serve = x.world.serve := by
  cases e with
  | client i =>
    obtain ⟨c, -, rfl⟩ := Option.map_eq_some_iff.mp hs
    exact .inr ⟨by simp, rfl⟩
  | path e =>
    have hkept (he : ∀ e', e ≠ .serve e')
        (hm : (OutputPath.step J x.world e).map (fun w => { x with world := w }) = some y) :
        (∀ e', Ev.path e ≠ .path (.serve e')) ∧ y.world.serve = x.world.serve := by
      obtain ⟨w, hw, rfl⟩ := Option.map_eq_some_iff.mp hm
      exact ⟨fun e' => by simpa using he e', serve_kept he hw⟩
    cases e with
    | serve e =>
      obtain ⟨w, hw, rfl⟩ := Option.map_eq_some_iff.mp hs
      obtain ⟨s, hserve, rfl⟩ := Option.map_eq_some_iff.mp hw
      exact .inl ⟨e, rfl, hserve⟩
    | deliver n | log b | status n | closed => exact .inr (hkept (by simp) hs)
    | daemon e =>
      refine .inr ?_
      cases e with
      | emit =>
        rw [step] at hs
        split at hs
        · cases hs
        · obtain ⟨-, hs⟩ := Option.ite_none_right_eq_some.mp hs
          obtain ⟨w, hw, rfl⟩ := Option.map_eq_some_iff.mp hs
          exact ⟨by simp, serve_kept (by simp) hw⟩
      | linkEnds | recv | handle | finished | giveUp | ping | pongSent | bridgeTake | bridgeSend
      | joined | report => exact hkept (by simp) hs

theorem inv_run (hJ : J.Lawful) {req : ExecRequest} {es : List Ev}
    (h : Path (step J) (Sound J) (start req) es x) : Inv J x :=
  h.invariant (fun _ _ _ hi hk hs => inv_step hJ hi hk hs) (inv_start req)

theorem exit_cases {w : World} (h : OutputPath.Inv J w) {done rest : List EventFrame}
    {rep : ExitReport} (hd : w.daemon.emitted = done ++ .exit rep :: rest) :
    (∃ m, rep = ⟨internalErrorCode, none, some m, false⟩) ∨
      ∃ r, w.serve.report = some r ∧ rep = { r with error := none } ∧
        ∀ s, payloads s done = payloads s w.serve.queued := by
  have hin : EventFrame.exit rep ∈ w.daemon.emitted := hd ▸ by simp
  rcases emitted_cases h.sending with hnone | ⟨o, pre, hmain, hbridged, hclient, hem, hplain⟩
  · cases hnone _ hin
  · have hlast : rep = reportOf o := by
      rw [hem] at hin
      rcases List.mem_append.mp hin with hpre | hlast
      · cases hplain _ hpre
      · exact EventFrame.exit.inj (List.mem_singleton.mp hlast)
    have hrest : rest = [] := by
      rcases rest.eq_nil_or_concat with hnil | ⟨more, z, rfl⟩
      · exact hnil
      · have hsame : pre ++ [.exit (reportOf o)] = (done ++ .exit rep :: more) ++ [z] := by
          rw [← hem, hd, List.concat_eq_append, List.append_assoc, List.cons_append]
        have hpre := (List.append_inj' hsame rfl).1
        cases hplain (.exit rep) (hpre ▸ by simp)
    cases o with
    | error m => exact .inl ⟨m, hlast⟩
    | ok o =>
      obtain ⟨r, hr, rfl, hhandled⟩ := own_report h (by rw [hmain, Main.outcome])
      refine .inr ⟨r, hr, hlast, fun s => ?_⟩
      have hpath := h.sending.path s
      rw [hclient, hbridged, List.append_nil, List.map_nil, payloads_nil, List.append_nil,
        hhandled, payloads_frames, hd, hrest] at hpath
      simpa using hpath

/-- A run that ends with another code than that of an internal error was interrupted twice, or it
passes serve's report on and has written all that serve's pumps took. -/
theorem ended_cases (h : Inv J x) {o : Except Errors.Error ClientRun.RunReport}
    (ho : x.client.result = some o) (hc : exitCode o ≠ internalErrorCode) :
    o = .ok ClientRun.forced ∨ ∃ r, x.world.serve.report = some r ∧
      o = .ok ⟨r.code, r.cwd, r.timedOut, none⟩ ∧
        ∀ s, x.client.delivered s = payloads s x.world.serve.queued := by
  cases o with
  | error e => exact absurd rfl hc
  | ok r =>
    rcases hears_ok h.hears ho with rfl | ⟨done, rep, rest, hem, rfl, hdel⟩
    · exact .inl rfl
    · rcases exit_cases h.world hem with ⟨m, rfl⟩ | ⟨r, hr, rfl, hall⟩
      · exact absurd (by decide : exitCode (.ok ⟨internalErrorCode, none, false, none⟩) = _) hc
      · exact .inr ⟨r, hr, rfl, fun s => (hdel s).trans (hall s)⟩

end Step

def samplePumped (n : Nat) : List ServeOutput.Ev :=
  [.spawn, .childWrite .out [104, 105], .pumpRead .out n, .pumpSend .out, .next, .write (5 + n),
    .childClose .out, .childClose .err, .childExit, .routeEnds, .pumpEof .err]

def sampleReported : List ServeOutput.Ev := [.writeExit sampleReport, .write 57, .reported]

def sampleServe (n : Nat) (drain : List ServeOutput.Ev) : List Ev :=
  (samplePumped n ++ drain ++ sampleReported).map (fun e => .path (.serve e)) ++
    [.path (.deliver (62 + n))]

def sampleDrain : List ServeOutput.Ev := [.pumpEof .out, .drainDone]

def sampleDaemon : List DaemonOutput.Ev :=
  [.handle, .bridgeTake, .handle, .finished, .bridgeSend, .joined, .report, .emit, .emit]

def sampleClient (n : Nat) : List Ev :=
  .path (.daemon .recv) :: (sampleDaemon.map (fun e => .path (.daemon e)) ++
    [.client (.read 5 none), .client (.read n none), .client (.read 5 none),
      .client (.read 52 none)])

def sampleFrames (n : Nat) : List EventFrame :=
  [.stdout ([104, 105].take n), .exit sampleReport]

theorem sample_fits (n : Nat) : ∀ f ∈ sampleFrames n, Fits sampleJson f := by
  simp only [sampleFrames, List.mem_cons, List.not_mem_nil, or_false, forall_eq_or_imp, forall_eq]
  refine ⟨⟨_, _, rfl, ?_⟩, ⟨_, _, rfl, by decide⟩⟩
  exact Nat.le_trans (List.length_take_le' _ _) (by decide)

def sampleSent (n : Nat) : Daemon :=
  { msgs := [.data (encodeAll (wire sampleJson) (sampleFrames n))] }

def sampleTaken (n : Nat) : Daemon :=
  { batch := sampleFrames n, fed := encodeAll (wire sampleJson) (sampleFrames n) }

theorem sample_short {n : Nat} {drain : List ServeOutput.Ev}
    (hd : ∀ e ∈ drain, ServeOutput.Short sampleJson e) :
    ∀ e ∈ sampleServe n drain, ∀ x, Sound sampleJson x e := by
  have hserve : ∀ e ∈ samplePumped n ++ drain ++ sampleReported,
      ServeOutput.Short sampleJson e := by
    refine List.forall_mem_append.mpr ⟨List.forall_mem_append.mpr ⟨?_, hd⟩, ?_⟩
    · simp [samplePumped, ServeOutput.Short]
    · have hexit := sample_fits n (.exit sampleReport) (by simp [sampleFrames])
      simpa [sampleReported, ServeOutput.Short] using hexit
  refine List.forall_mem_append.mpr ⟨List.forall_mem_map.mpr fun e he x => hserve e he, ?_⟩
  exact List.forall_mem_singleton.mpr fun _ => trivial

theorem sample_quiet (n : Nat) : ∀ e ∈ sampleClient n, ∀ x, Sound sampleJson x e := by
  simp [sampleClient, sampleDaemon, Sound, OutputPath.Short, ClientRun.Keeps,
    ClientRun.Client.loops]

theorem sample_heard {req : ExecRequest} {n : Nat} (hn : n = 1 ∨ n = 2) {x : Execution}
    (hd : x.world.daemon = sampleSent n) (hc : x.client = ClientRun.start req []) :
    ∃ y, run (step sampleJson) (sampleClient n) x = some y ∧ y.world.serve = x.world.serve ∧
      y.client.result = some (.ok ⟨0, none, false, none⟩) ∧
        y.client.stdout = [104, 105].take n := by
  have hpush := push_whole sampleJson_lawful (sampleFrames n) (sample_fits n)
  obtain ⟨⟨serve, daemon, delivered⟩, client⟩ := x
  obtain rfl : daemon = sampleSent n := hd
  obtain rfl : client = _ := hc
  have hrecv : step sampleJson ⟨⟨serve, sampleSent n, delivered⟩, ClientRun.start req []⟩
      (.path (.daemon .recv)) =
      some ⟨⟨serve, sampleTaken n, delivered⟩, ClientRun.start req []⟩ := by
    simp only [step, OutputPath.step, DaemonOutput.step, Daemon.polls, Daemon.onMsg, sampleSent,
      hpush]
    rfl
  rw [sampleClient, run, hrecv, Option.bind_some]
  rcases hn with rfl | rfl
  · exact ⟨_, rfl, rfl, rfl, rfl⟩
  · exact ⟨_, rfl, rfl, rfl, rfl⟩

theorem sample_run (req : ExecRequest) : ∃ x, Path (step sampleJson) (Sound sampleJson) (start req)
    (sampleServe 2 sampleDrain ++ sampleClient 2) x ∧
      x.client.result = some (.ok ⟨0, none, false, none⟩) ∧ x.world.serve.drained = some true ∧
        ∀ s, (x.world.serve.pipes s).pump = .finished := by
  have hfirst : ∃ x : Execution, run (step sampleJson) (sampleServe 2 sampleDrain) (start req) =
      some x ∧ x.world.daemon = sampleSent 2 ∧ x.client = ClientRun.start req [] ∧
      x.world.serve.drained = some true ∧ ∀ s, (x.world.serve.pipes s).pump = .finished :=
    ⟨_, rfl, rfl, rfl, rfl, by intro s; cases s <;> rfl⟩
  obtain ⟨x, hx, hdaemon, hclient, hdrained, hpump⟩ := hfirst
  obtain ⟨y, hy, hserve, hresult, -⟩ := sample_heard (.inr rfl) hdaemon hclient
  have hshort : ∀ e ∈ sampleServe 2 sampleDrain, ∀ x, Sound sampleJson x e :=
    sample_short (by simp [sampleDrain, ServeOutput.Short])
  have hpath := (path_of_run_all hshort hx).append (path_of_run_all (sample_quiet 2) hy)
  exact ⟨y, hpath, hresult, hserve ▸ hdrained, hserve ▸ hpump⟩

end ShellProxy.RemoteRun
