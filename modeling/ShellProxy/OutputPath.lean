import ShellProxy.ServeOutput
import ShellProxy.DaemonOutput

/-! Output of one execution from the pipes of the child to the client: serve, its SSH channel and
the daemon. -/
namespace ShellProxy.OutputPath
open Frame Codec EventStream Framing Machine ServeOutput DaemonOutput
variable {J : EventJson}

/-- `delivered` is how much of serve's stdout the channel has handed over. -/
structure World where
  serve : Serve := {}
  daemon : Daemon := {}
  delivered : Nat := 0

/-- The channel hands over serve's stdout in order and in any chunks; its other messages come at
any time. -/
inductive Ev where
  | serve (e : ServeOutput.Ev)
  | deliver (n : Nat)
  | log (b : Bytes)
  | status (n : Nat)
  | closed
  | daemon (e : DaemonOutput.Ev)

namespace World

def chunk (w : World) (n : Nat) : Bytes := (w.serve.out.drop w.delivered).take n

def push (w : World) (m : Msg) : Option World :=
  (w.daemon.push m).map fun d => { w with daemon := d }

end World

def step (J : EventJson) (w : World) : Ev → Option World
  | .serve e => (ServeOutput.step J w.serve e).map fun s => { w with serve := s }
  | .deliver n =>
    if 0 < n ∧ w.delivered + n ≤ w.serve.out.length then
      (w.push (.data (w.chunk n))).map fun u => { u with delivered := w.delivered + n }
    else none
  | .log b => w.push (.log b)
  | .status n => w.push (.status n)
  | .closed => w.push .closed
  | .daemon e => (DaemonOutput.step J w.daemon e).map fun d => { w with daemon := d }

def Short (J : EventJson) (_ : World) : Ev → Prop
  | .serve e => ServeOutput.Short J e
  | _ => True

def Ev.works : Ev → Bool
  | .deliver _ => true
  | .daemon e => e.works
  | _ => false

structure Inv (J : EventJson) (w : World) : Prop where
  serve : ServeOutput.Inv J w.serve
  sent : w.delivered ≤ w.serve.out.length
  arrived : w.daemon.fed ++ w.daemon.msgs.flatMap Msg.bytes = w.serve.out.take w.delivered
  reading : Reading J w.serve.frames w.daemon
  sending : Sending w.daemon

section
variable {w u : World}

theorem inv_init : Inv J {} where
  serve := ServeOutput.inv_init
  sent := Nat.le_refl _
  arrived := rfl
  reading := ⟨List.prefix_refl _, List.prefix_refl _, fun _ => ⟨rfl, rfl⟩, fun _ => rfl,
    fun _ => by simp, by simp⟩
  sending := sending_open rfl (fun _ => rfl) (by simp)

theorem inv_push (h : Inv J w) {m : Msg} {k : Nat} {d : Daemon}
    (hk : w.delivered + k ≤ w.serve.out.length)
    (hm : (w.serve.out.drop w.delivered).take k = m.bytes) (hs : w.daemon.push m = some d) :
    Inv J { w with daemon := d, delivered := w.delivered + k } := by
  have hd : d = { w.daemon with msgs := w.daemon.msgs ++ [m] } := by
    unfold Daemon.push at hs
    rw [Option.ite_none_right_eq_some] at hs
    exact (Option.some.inj hs.2).symm
  have harrived : w.daemon.fed ++ (w.daemon.msgs ++ [m]).flatMap Msg.bytes =
      w.serve.out.take (w.delivered + k) := by
    rw [List.take_add, hm, ← h.arrived]
    simp
  refine ⟨h.serve, hk, ?_, ?_, h.sending.push hs⟩
  · rw [hd]
    exact harrived
  · refine h.reading.push ?_ hs
    rw [harrived]
    exact (List.take_prefix _ _).trans h.serve.out

theorem inv_note (h : Inv J w) {m : Msg} (hm : m.bytes = []) (hs : w.push m = some u) :
    Inv J u := by
  unfold World.push at hs
  obtain ⟨d, hd, rfl⟩ := Option.map_eq_some_iff.mp hs
  exact inv_push h (k := 0) h.sent (by rw [hm]; rfl) hd

theorem inv_step {e : Ev} (hJ : J.Lawful) (h : Inv J w) (ho : Short J w e)
    (hs : step J w e = some u) : Inv J u := by
  cases e with
  | serve e =>
    obtain ⟨s, hstep, rfl⟩ := Option.map_eq_some_iff.mp hs
    have hnext := next_step h.serve ho hstep
    obtain ⟨more, hout⟩ := hnext.out
    refine ⟨hnext.inv, ?_, ?_, h.reading.mono hnext.frames, h.sending⟩
    · rw [← hout, List.length_append]
      exact Nat.le_add_right_of_le h.sent
    · rw [← hout, List.take_append_of_le_length h.sent]
      exact h.arrived
  | deliver n =>
    simp only [step] at hs
    by_cases hc : 0 < n ∧ w.delivered + n ≤ w.serve.out.length
    · rw [if_pos hc, World.push, Option.map_map] at hs
      obtain ⟨d, hd, rfl⟩ := Option.map_eq_some_iff.mp hs
      exact inv_push h hc.2 rfl hd
    · rw [if_neg hc] at hs
      cases hs
  | log b => exact inv_note h rfl hs
  | status n => exact inv_note h rfl hs
  | closed => exact inv_note h rfl hs
  | daemon e =>
    obtain ⟨d, hstep, rfl⟩ := Option.map_eq_some_iff.mp hs
    refine ⟨h.serve, h.sent, ?_, reading_step hJ h.serve.fits h.reading hstep,
      sending_step h.sending hstep⟩
    rw [arrived_step hstep]
    exact h.arrived

theorem inv_run {es : List Ev} (hJ : J.Lawful) (h : Path (step J) (Short J) {} es w) : Inv J w :=
  h.invariant (fun _ _ _ hI ho hs => inv_step hJ hI ho hs) inv_init

theorem payloads_mono {fs gs : List EventFrame} (t : Stream) (h : fs <+: gs) :
    payloads t fs <+: payloads t gs := by
  obtain ⟨rest, rfl⟩ := h
  rw [payloads_append]
  exact List.prefix_append _ _

theorem payloads_frames (s : Serve) (t : Stream) : payloads t s.frames = payloads t s.queued := by
  unfold Serve.frames
  cases s.report <;> simp

theorem own_report (h : Inv J w) {o : ExecOutcome} (ho : w.daemon.main.outcome = some (.ok o)) :
    ∃ r, w.serve.report = some r ∧ o = ofReport r ∧ w.daemon.handled = w.serve.frames := by
  obtain ⟨q, r, hq, ho⟩ := h.reading.exit o (h.sending.own o ho)
  have hpre : q ++ [.exit r] <+: w.serve.frames :=
    hq ▸ (List.prefix_append _ _).trans h.reading.order
  have hnot : ¬ q ++ [.exit r] <+: w.serve.queued := by
    intro hin
    have hplain := h.serve.plain (.exit r) (hin.subset (by simp))
    cases hplain
  cases hr : w.serve.report with
  | none =>
    rw [Serve.frames, hr] at hpre
    exact absurd (by simpa using hpre) hnot
  | some r' =>
    have hframes : w.serve.frames = w.serve.queued ++ [.exit r'] := by
      rw [Serve.frames, hr]
      rfl
    rw [hframes] at hpre ⊢
    have hall := (List.prefix_concat_iff.mp hpre).resolve_right hnot
    have hlast : r = r' := by
      have hlast := congrArg List.getLast? hall
      simpa using hlast
    exact ⟨r', rfl, hlast ▸ ho, hq.trans hall⟩

def load (w : World) : Nat := 3 * (w.serve.out.length - w.delivered) + w.daemon.load

theorem load_works {e : Ev} (hJ : J.Lawful) (h : Inv J w) (hw : e.works = true)
    (hs : step J w e = some u) : load u < load w := by
  cases e with
  | serve | log | status | closed => cases hw
  | deliver n =>
    simp only [step] at hs
    by_cases hc : 0 < n ∧ w.delivered + n ≤ w.serve.out.length
    · rw [if_pos hc, World.push, Option.map_map] at hs
      obtain ⟨d, hd, rfl⟩ := Option.map_eq_some_iff.mp hs
      have hpush := load_push hd
      have hlen : (w.chunk n).length = n := by
        rw [World.chunk, List.length_take, List.length_drop]
        omega
      rw [Msg.bytes, hlen] at hpush
      simp only [load, Function.comp]
      omega
    · rw [if_neg hc] at hs
      cases hs
  | daemon e =>
    obtain ⟨d, hstep, rfl⟩ := Option.map_eq_some_iff.mp hs
    have hlt := load_step hJ h.serve.fits h.reading hw hstep
    simp only [load]
    omega

/-- Once serve has written its report, a daemon with all of its bytes and nothing left to do is past
the Exit frame. -/
theorem still_done (hJ : J.Lawful) (h : Inv J w) (hsent : w.serve.phase = .sent)
    (hstill : ∀ e : Ev, e.works = true → step J w e = none) :
    ∃ o, w.daemon.main = .done o ∧ w.daemon.clientQ = [] := by
  have hdaemon : ∀ e : DaemonOutput.Ev, e.works = true → DaemonOutput.step J w.daemon e = none :=
    fun e he => Option.map_eq_none_iff.mp (hstill (.daemon e) he)
  cases still_cases hdaemon with
  | inl hdone => exact hdone
  | inr hwaits =>
    obtain ⟨-, hresult, hbatch, hmsgs, hlink⟩ := hwaits
    obtain ⟨hsome, hout⟩ := h.serve.done hsent
    have hall : w.delivered = w.serve.out.length := by
      have hone := hstill (.deliver 1) rfl
      by_contra hne
      have hlt : 0 < 1 ∧ w.delivered + 1 ≤ w.serve.out.length :=
        ⟨Nat.one_pos, Nat.lt_of_le_of_ne h.sent hne⟩
      simp only [step, if_pos hlt, World.push, Daemon.push, hlink, hmsgs] at hone
      cases hone
    obtain ⟨hmore, hfed⟩ := h.reading.read hresult
    have harrived := h.arrived
    rw [hmsgs, List.flatMap_nil, List.append_nil, hall, List.take_length, hout] at harrived
    rw [hbatch, List.append_nil, harrived] at hfed
    have horder := h.reading.order
    rw [hbatch, List.append_nil] at horder
    obtain ⟨rest, hrest⟩ := horder
    rw [← hrest, encodeAll_append, List.append_cancel_left_eq] at hfed
    cases rest with
    | cons f rest =>
      -- the next frame would be whole in the buffer
      have hf : Fits J f := h.serve.fits f (hrest ▸ by simp)
      rw [← hfed, encodeAll_cons, (reads_event hJ).whole f hf] at hmore
      cases hmore
    | nil =>
      obtain ⟨r, hr⟩ := Option.isSome_iff_exists.mp hsome
      have hexit : EventFrame.exit r ∈ w.daemon.handled := by
        rw [List.append_nil] at hrest
        rw [hrest, Serve.frames, hr]
        simp
      have hplain := h.reading.plain (by simp [hresult]) _ hexit
      cases hplain

/-- In every run the client is sent output only or output and one Exit frame behind it, of each
stream a prefix of what the child wrote, and all of it when the Exit frame is serve's own report
(the daemon's errors are marked as such), the drain was complete and no read failed. The channel
and the daemon cannot work for ever, and when serve has written its report they do not stop before
the Exit frame is out. -/
theorem output_in_order (hJ : J.Lawful) {es : List Ev}
    (hrun : Path (step J) (Short J) {} es w) :
    ((∀ f ∈ w.daemon.emitted, f.isExit = false) ∨
      ∃ pre rep, w.daemon.emitted = pre ++ [.exit rep] ∧ ∀ f ∈ pre, f.isExit = false) ∧
    (∀ t, payloads t w.daemon.emitted <+: (w.serve.pipes t).written) ∧
    (∀ rep, .exit rep ∈ w.daemon.emitted → rep.error = none →
      ∃ r, w.serve.report = some r ∧ rep = { r with error := none } ∧
        ∀ t, w.serve.drained = some true → (w.serve.pipes t).pump ≠ .failed →
          payloads t w.daemon.emitted = (w.serve.pipes t).written) ∧
    (∃ n, ∀ fs u, Path (step J) (fun _ e => e.works = true) w fs u → fs.length ≤ n) ∧
    (w.serve.phase = .sent → (∀ e : Ev, e.works = true → step J w e = none) →
      ∃ pre rep, w.daemon.emitted = pre ++ [.exit rep]) := by
  have h := inv_run hJ hrun
  have hcases := emitted_cases h.sending
  refine ⟨?_, ?_, ?_, ?_, ?_⟩
  · cases hcases with
    | inl hplain => exact .inl hplain
    | inr hdone =>
      obtain ⟨o, pre, -, -, -, hemitted, hplain⟩ := hdone
      exact .inr ⟨pre, reportOf o, hemitted, hplain⟩
  · intro t
    have hsent : payloads t w.daemon.emitted <+: payloads t w.daemon.handled := by
      rw [← h.sending.path t, payloads_append, List.append_assoc]
      exact List.prefix_append _ _
    have hhandled : payloads t w.daemon.handled <+: payloads t w.serve.frames :=
      payloads_mono t ((List.prefix_append _ _).trans h.reading.order)
    rw [payloads_frames] at hhandled
    exact (hsent.trans hhandled).trans (payloads_written h.serve t)
  · intro rep hrep herror
    cases hcases with
    | inl hplain => cases hplain _ hrep
    | inr hdone =>
      obtain ⟨o, pre, hmain, hbridged, hclient, hemitted, hplain⟩ := hdone
      rw [hemitted] at hrep
      have hlast : rep = reportOf o := by
        cases List.mem_append.mp hrep with
        | inl hin => cases hplain _ hin
        | inr hin => exact EventFrame.exit.inj (List.mem_singleton.mp hin)
      cases o with
      | error m =>
        rw [hlast] at herror
        cases herror
      | ok o =>
        obtain ⟨r, hr, rfl, hhandled⟩ := own_report h (by rw [hmain, Main.outcome])
        refine ⟨r, hr, hlast, ?_⟩
        intro t hdrained hpump
        have hpath := h.sending.path t
        rw [hclient, hbridged, List.append_nil, List.map_nil, payloads_nil, List.append_nil,
          hhandled, payloads_frames] at hpath
        exact hpath.trans (payloads_complete h.serve hr hdrained hpump)
  · refine ⟨load w, ?_⟩
    intro fs u hpath
    have hworks : ∀ s e u, Inv J s → e.works = true → step J s e = some u →
        Inv J u ∧ load u < load s := by
      intro s e u hI he hs
      have hshort : Short J s e := by
        cases e with
        | serve e => cases he
        | deliver | log | status | closed | daemon => trivial
      exact ⟨inv_step hJ hI hshort hs, load_works hJ hI he hs⟩
    have hlength := (hpath.length_le load (Inv J) hworks h).2
    omega
  · intro hsent hstill
    obtain ⟨o, hmain, hclient⟩ := still_done hJ h hsent hstill
    obtain ⟨-, pre, hall, -⟩ := h.sending.last o hmain
    rw [hclient, List.append_nil] at hall
    exact ⟨pre, reportOf o, hall⟩

end

/-- A command prints two bytes and exits; the channel hands over serve's whole output at once. -/
def sampleFrames : List EventFrame := [.stdout [104, 105], .exit sampleReport]

def sampleServe : List Ev :=
  [.serve .spawn, .serve (.childWrite .out [104, 105]), .serve (.pumpRead .out 2),
    .serve (.pumpSend .out), .serve .next, .serve (.write 7), .serve (.childClose .out),
    .serve (.childClose .err), .serve .childExit, .serve .routeEnds, .serve (.pumpEof .out),
    .serve (.pumpEof .err), .serve .drainDone, .serve (.writeExit sampleReport), .serve (.write 57),
    .serve .reported, .deliver 64]

def sampleDaemon : List Ev :=
  [.daemon .handle, .daemon (.ping ⟨42⟩), .daemon .bridgeTake, .daemon .pongSent, .daemon .handle,
    .daemon .finished, .daemon .bridgeSend, .daemon .joined, .daemon .report, .daemon .emit,
    .daemon .emit, .daemon .emit]

theorem output_in_order_sample :
    ∃ w, Path (step sampleJson) (Short sampleJson) {}
        (sampleServe ++ [.daemon .recv] ++ sampleDaemon) w ∧
      w.daemon.emitted = [.pong ⟨42⟩, .stdout [104, 105], .exit sampleReport] ∧
      ∀ t, payloads t w.daemon.emitted = (w.serve.pipes t).written := by
  have hfits : ∀ f ∈ sampleFrames, Fits sampleJson f := by
    simp only [sampleFrames, List.mem_cons, List.not_mem_nil, or_false, forall_eq_or_imp, forall_eq]
    exact ⟨⟨_, _, rfl, by decide⟩, ⟨_, _, rfl, by decide⟩⟩
  have hfirst : ∃ w : World, run (step sampleJson) sampleServe {} = some w ∧
      w.daemon = { msgs := [.data (encodeAll (wire sampleJson) sampleFrames)] } ∧
      w.serve.drained = some true ∧ ∀ t, (w.serve.pipes t).pump = .finished :=
    ⟨_, rfl, rfl, rfl, by intro t; cases t <;> rfl⟩
  obtain ⟨w, hw, hdaemon, hdrained, hpumps⟩ := hfirst
  have hrecv : step sampleJson w (.daemon .recv) = some { w with
      daemon := { batch := sampleFrames, fed := encodeAll (wire sampleJson) sampleFrames } } := by
    have hpush := push_whole sampleJson_lawful sampleFrames hfits
    simp only [step, DaemonOutput.step, Daemon.polls, Daemon.onMsg, hdaemon, hpush]
    rfl
  have hsecond : ∃ u : World, run (step sampleJson) sampleDaemon { w with
      daemon := { batch := sampleFrames, fed := encodeAll (wire sampleJson) sampleFrames } } = some u ∧
      u.daemon.emitted = [.pong ⟨42⟩, .stdout [104, 105], .exit sampleReport] ∧ u.serve = w.serve :=
    ⟨_, rfl, rfl, rfl⟩
  obtain ⟨u, hu, hemitted, hserve⟩ := hsecond
  have hpath : Path (step sampleJson) (Short sampleJson) {}
      (sampleServe ++ [.daemon .recv] ++ sampleDaemon) u := by
    refine ((path_of_run_all ?_ hw).tail trivial hrecv).append (path_of_run_all ?_ hu)
    · simp only [sampleServe, List.mem_cons, List.not_mem_nil, or_false, forall_eq_or_imp, forall_eq]
      simp [Short, ServeOutput.Short, hfits (.exit sampleReport) (by simp [sampleFrames])]
    · simp [sampleDaemon, Short]
  have hown := (output_in_order sampleJson_lawful hpath).2.2.1 sampleReport (by simp [hemitted]) rfl
  obtain ⟨r, -, -, hall⟩ := hown
  refine ⟨u, hpath, hemitted, ?_⟩
  intro t
  exact hall t (by rw [hserve, hdrained]) (by simp [hserve, hpumps])

end ShellProxy.OutputPath
