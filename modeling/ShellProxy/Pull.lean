import ShellProxy.RemoteRun

/-! A whole pull: the run of `sp` whose command is `cat` and whose stdout is the local file. -/
namespace ShellProxy.Pull
open Frame Codec EventStream FrameReader Machine ServeOutput RemoteRun
variable {J : EventJson}

/-- `cat` prints the file in order, and exits with zero only when it has printed all of it; the
refusals of serve have the code of an internal error. -/
def catAllows (file : Bytes) (s : Serve) : ServeOutput.Ev → Bool
  | .childWrite .out b => ((s.pipes .out).written ++ b).isPrefixOf file
  | .writeExit r => r.code != 0 || (s.pipes .out).written == file
  | .refuse r => r.code != 0
  | _ => true

/-- A pull is a run of `sp` like any other, but for the command. -/
def step (J : EventJson) (file : Bytes) (x : Execution) : RemoteRun.Ev → Option Execution
  | .path (.serve e) =>
    if catAllows file x.world.serve e then RemoteRun.step J x (.path (.serve e)) else none
  | e => RemoteRun.step J x e

section Serve
variable {s u : Serve} {file : Bytes}

theorem beginExit_fields (s : Serve) (r : ExitReport) :
    (s.beginExit J r).pipes = s.pipes ∧
      ((s.beginExit J r).report = s.report ∨ (s.beginExit J r).report = some r) := by
  unfold Serve.beginExit
  cases encodeEventFrame J (.exit r) with
  | ok b => exact ⟨rfl, .inr rfl⟩
  | error e => exact ⟨rfl, .inl rfl⟩

/-- What `cat` has printed, and what a success says of it. -/
structure Cat (file : Bytes) (s : Serve) : Prop where
  printed : (s.pipes .out).written <+: file
  reported : ∀ r, s.report = some r → r.code = 0 → (s.pipes .out).written = file

theorem cat_init : Cat file {} where
  printed := List.nil_prefix
  reported := by simp

theorem Cat.same (h : Cat file s) (hp : (u.pipes .out).written = (s.pipes .out).written)
    (hr : u.report = s.report) : Cat file u where
  printed := by
    rw [hp]
    exact h.printed
  reported := by
    rw [hp, hr]
    exact h.reported

theorem Cat.setPipe (h : Cat file s) (t : Stream) (p : Pipe)
    (hp : p.written = (s.pipes t).written) : Cat file (s.setPipe t p) := by
  refine h.same ?_ rfl
  cases t with
  | out => rw [pipes_self, hp]
  | err => rw [pipes_ne s p (by simp)]

theorem cat_beginExit (h : Cat file s) (r : ExitReport)
    (hr : r.code = 0 → (s.pipes .out).written = file) : Cat file (s.beginExit J r) := by
  obtain ⟨hp, hrep⟩ := beginExit_fields (J := J) s r
  refine ⟨by rw [hp]; exact h.printed, ?_⟩
  intro r' hr' hs
  rw [hp]
  rcases hrep with hold | hnew
  · exact h.reported r' (hold ▸ hr') hs
  · rw [hnew] at hr'
    obtain rfl := Option.some.inj hr'
    exact hr hs

theorem cat_step {e : ServeOutput.Ev} (h : Cat file s) (ha : catAllows file s e = true)
    (hs : ServeOutput.step J s e = some u) : Cat file u := by
  cases e with
  | refuse r =>
    obtain ⟨-, hs⟩ := Option.ite_none_right_eq_some.mp hs
    obtain rfl := Option.some.inj hs
    refine cat_beginExit h r fun hr => ?_
    simp [catAllows, hr] at ha
  | writeExit r =>
    obtain ⟨-, hs⟩ := Option.ite_none_right_eq_some.mp hs
    split at hs
    · obtain rfl := Option.some.inj hs
      exact h.same rfl rfl
    · obtain ⟨-, hs⟩ := Option.ite_none_right_eq_some.mp hs
      obtain rfl := Option.some.inj hs
      refine cat_beginExit h r fun hr => ?_
      simpa [catAllows, hr] using ha
  | childWrite t b =>
    obtain ⟨-, hs⟩ := Option.ite_none_right_eq_some.mp hs
    obtain rfl := Option.some.inj hs
    cases t with
    | err =>
      refine h.same ?_ rfl
      rw [pipes_ne s _ (by simp)]
    | out =>
      have hpre : (s.pipes .out).written ++ b <+: file := by
        simpa [catAllows] using ha
      refine ⟨by rw [pipes_self]; exact hpre, ?_⟩
      intro r hr hzero
      have hall := h.reported r hr hzero
      rw [pipes_self]
      rw [hall] at hpre ⊢
      exact (hpre.eq_of_length_le (by simp))
  | spawn | childExit | drainDone | drainStalled | reported | writeFails | write n =>
    obtain ⟨-, hs⟩ := Option.ite_none_right_eq_some.mp hs
    obtain rfl := Option.some.inj hs
    exact h.same rfl rfl
  | die =>
    obtain ⟨-, hs⟩ := Option.ite_none_left_eq_some.mp hs
    obtain rfl := Option.some.inj hs
    exact h.same rfl rfl
  | routeEnds =>
    obtain rfl := Option.some.inj hs
    exact h.same rfl rfl
  | pong p =>
    obtain ⟨-, hs⟩ := Option.ite_none_right_eq_some.mp hs
    obtain rfl := Option.some.inj hs
    split_ifs <;> exact h.same rfl rfl
  | next =>
    rw [ServeOutput.step] at hs
    split at hs
    · cases hs
    · obtain ⟨-, hs⟩ := Option.ite_none_right_eq_some.mp hs
      split at hs <;> obtain rfl := Option.some.inj hs <;> exact h.same rfl rfl
  | childClose t =>
    obtain rfl := Option.some.inj hs
    exact h.setPipe t _ rfl
  | pumpRead t n =>
    obtain ⟨-, hs⟩ := Option.ite_none_right_eq_some.mp hs
    obtain rfl := Option.some.inj hs
    exact h.setPipe t _ rfl
  | pumpEof t | pumpFails t | pumpAborted t =>
    obtain ⟨-, hs⟩ := Option.ite_none_right_eq_some.mp hs
    obtain rfl := Option.some.inj hs
    exact h.setPipe t _ rfl
  | pumpSend t =>
    rw [ServeOutput.step] at hs
    split at hs
    next c _ =>
      obtain ⟨-, hs⟩ := Option.ite_none_right_eq_some.mp hs
      obtain rfl := Option.some.inj hs
      have hq : Cat file (s.queue (t.frame c)) := h.same rfl rfl
      exact hq.setPipe t _ rfl
    next => cases hs
  | pumpLost t =>
    rw [ServeOutput.step] at hs
    split at hs
    next =>
      obtain ⟨-, hs⟩ := Option.ite_none_right_eq_some.mp hs
      obtain rfl := Option.some.inj hs
      exact h.setPipe t _ rfl
    next => cases hs

end Serve

structure Inv (J : EventJson) (file : Bytes) (x : Execution) : Prop where
  run : RemoteRun.Inv J x
  cat : Cat file x.world.serve

section Step
variable {file : Bytes} {x y : Execution} {e : RemoteRun.Ev}

theorem step_run (hs : step J file x e = some y) : RemoteRun.step J x e = some y ∧
    ∀ e', e = .path (.serve e') → catAllows file x.world.serve e' = true := by
  cases e with
  | client i => exact ⟨hs, by simp⟩
  | path e =>
    cases e with
    | serve e =>
      obtain ⟨ha, hs⟩ := Option.ite_none_right_eq_some.mp hs
      exact ⟨hs, by simpa using ha⟩
    | deliver n | log b | status n | closed | daemon e => exact ⟨hs, by simp⟩

theorem inv_step (hJ : J.Lawful) (h : Inv J file x) (hk : Sound J x e)
    (hs : step J file x e = some y) : Inv J file y := by
  obtain ⟨hrun, ha⟩ := step_run hs
  refine ⟨RemoteRun.inv_step hJ h.run hk hrun, ?_⟩
  rcases serve_step hrun with ⟨e', rfl, hserve⟩ | ⟨-, hsame⟩
  · exact cat_step h.cat (ha e' rfl) hserve
  · exact hsame ▸ h.cat

theorem inv_run (hJ : J.Lawful) {req : ExecRequest} {es : List RemoteRun.Ev}
    (h : Path (step J file) (Sound J) (start req) es x) : Inv J file x :=
  h.invariant (fun _ _ _ hi hk hs => inv_step hJ hi hk hs) ⟨inv_start req, cat_init⟩

theorem Inv.whole (h : Inv J file x) {r : ExitReport} (hr : x.world.serve.report = some r)
    (hz : r.code = 0) (hd : x.world.serve.drained = some true)
    (hp : (x.world.serve.pipes .out).pump ≠ .failed) :
    payloads .out x.world.serve.queued = file :=
  (payloads_complete h.run.world.serve hr hd hp).trans (h.cat.reported r hr hz)

end Step

def sampleDownload : ExecRequest := Quoting.downloadRequest "h" "s" ['x'] none none

theorem sample_client {n : Nat} {x y : Execution}
    (h : run (RemoteRun.step sampleJson) (sampleClient n) x = some y) :
    Path (step sampleJson [104, 105]) (Sound sampleJson) x (sampleClient n) y := by
  refine path_of_run_all (sample_quiet n) ((run_congr ?_ x).trans h)
  simp [sampleClient, sampleDaemon, step]

theorem sample_pull (req : ExecRequest) : ∃ x, Path (step sampleJson [104, 105])
    (Sound sampleJson) (start req) (sampleServe 2 sampleDrain ++ sampleClient 2) x ∧
      x.client.result = some (.ok ⟨0, none, false, none⟩) ∧ x.world.serve.drained = some true ∧
        (x.world.serve.pipes .out).pump = .finished ∧ payloads .err x.world.serve.queued = [] := by
  have hfirst : ∃ x : Execution, run (step sampleJson [104, 105]) (sampleServe 2 sampleDrain)
      (start req) = some x ∧ x.world.daemon = sampleSent 2 ∧
      x.client = ClientRun.start req [] ∧ x.world.serve.drained = some true ∧
      (x.world.serve.pipes .out).pump = .finished ∧ payloads .err x.world.serve.queued = [] :=
    ⟨_, rfl, rfl, rfl, rfl, rfl, rfl⟩
  obtain ⟨x, hx, hdaemon, hclient, hdrained, hpump, herr⟩ := hfirst
  obtain ⟨y, hy, hserve, hresult, -⟩ := sample_heard (.inr rfl) hdaemon hclient
  have hshort : ∀ e ∈ sampleServe 2 sampleDrain, ∀ x, Sound sampleJson x e :=
    sample_short (by simp [sampleDrain, ServeOutput.Short])
  have hpath := (path_of_run_all hshort hx).append (sample_client hy)
  exact ⟨y, hpath, hresult, hserve ▸ hdrained, hserve ▸ hpump, hserve ▸ herr⟩

/-- The drain is cut short with a byte still in the pipe: `sp` exits with zero over a local file
without it. -/
theorem cut_drain_reported_as_success : ∃ x, Path (step sampleJson [104, 105]) (Sound sampleJson)
    (start sampleDownload)
    (sampleServe 1 [.drainStalled, .pumpAborted .out] ++ sampleClient 1) x ∧
      x.client.stdout ≠ [104, 105] ∧ ∃ o, x.client.result = some o ∧ exitCode o = 0 := by
  have hfirst : ∃ x : Execution, run (step sampleJson [104, 105])
      (sampleServe 1 [.drainStalled, .pumpAborted .out]) (start sampleDownload) = some x ∧
      x.world.daemon = sampleSent 1 ∧ x.client = ClientRun.start sampleDownload [] :=
    ⟨_, rfl, rfl, rfl⟩
  obtain ⟨x, hx, hdaemon, hclient⟩ := hfirst
  obtain ⟨y, hy, -, hresult, hstdout⟩ := sample_heard (.inl rfl) hdaemon hclient
  have hpath := (path_of_run_all (sample_short (by simp [ServeOutput.Short])) hx).append
    (sample_client hy)
  exact ⟨y, hpath, by simp [hstdout], _, hresult, rfl⟩

end ShellProxy.Pull
