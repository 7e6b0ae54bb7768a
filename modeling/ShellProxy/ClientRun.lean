import ShellProxy.FrameReader
import ShellProxy.Errors
import ShellProxy.Lib.Machine

/-! The select loop of `client::run`. Each iteration creates a new frame future; a stdin or
signal branch that wins drops the one it raced with. -/
namespace ShellProxy.ClientRun
open Frame Codec EventStream FrameReader Framing Machine
variable {J : EventJson}

def forceExitWindow : Nat := 1000
def inBuf : Nat := 64 * 1024

structure RunReport where
  code : Int
  cwd : Option String := none
  timedOut : Bool := false
  error : Option String := none
  deriving DecidableEq, Repr

def RunReport.ofExit (r : ExitReport) : RunReport := ⟨r.code, r.cwd, r.timedOut, r.error⟩

def forced : RunReport := ⟨130, none, false, none⟩

def closedBeforeExit : Errors.Error := .daemon "daemon closed the connection before exit"

/-- Variables of the loop, and the streams on both sides of it: what the daemon has written and
nobody has read, and what has been handed to the local streams. -/
structure Client where
  unread : Bytes
  reader : Reading EventKind := .new
  stdout : Bytes := []
  stderr : Bytes := []
  stdinOpen : Bool := true
  signalsOpen : Bool := true
  lastInt : Option Nat := none
  sent : List (ExecFrame ExecRequest) := []
  result : Option (Except Errors.Error RunReport) := none
  deriving DecidableEq

def start (req : ExecRequest) (wire : Bytes) : Client := { unread := wire, sent := [.exec req] }

def Client.delivered (c : Client) : Stream → Bytes
  | .out => c.stdout
  | .err => c.stderr

/-- What becomes ready in an iteration, with the outcome of the write its branch does. -/
inductive Input where
  | stdin (n : Except String Bytes) (w : Except String Unit)
  | read (n : Nat) (sink : Option (Nat × String))
  | readErr (e : String)
  | eof
  | signal (sig : Option Signal) (now : Nat) (w : Except String Unit)
  deriving DecidableEq

/-- Next iteration: every branch future of this one is dropped. -/
def Client.again (c : Client) : Client := { c with reader := .new }

def Client.finish (c : Client) (r : Except Errors.Error RunReport) : Client :=
  { c with result := some r }

def Client.put (c : Client) : Stream → Bytes → Client
  | .out, d => { c with stdout := c.stdout ++ d }
  | .err, d => { c with stderr := c.stderr ++ d }

/-- `write_exec_frame(..).await?` -/
def Client.send (c : Client) (f : ExecFrame ExecRequest) : Except String Unit → Client
  | .ok _ => { c with sent := c.sent ++ [f] }.again
  | .error e => c.finish (.error (.io e))

/-- `write_all` and `flush`; `(k, e)` is a failure after `k` bytes. -/
def Client.deliver (c : Client) (t : Stream) (d : Bytes) : Option (Nat × String) → Client
  | none => (c.put t d).again
  | some (k, e) => (c.put t (d.take k)).finish (.error (.io e))

def Client.onFrame (c : Client) (sink : Option (Nat × String)) :
    Except Error (Option EventFrame) → Client
  | .error e => c.finish (.error (Errors.Error.ofProto e))
  | .ok none => c.finish (.error closedBeforeExit)
  | .ok (some (.stdout d)) => c.deliver .out d sink
  | .ok (some (.stderr d)) => c.deliver .err d sink
  | .ok (some (.exit rep)) => c.finish (.ok (RunReport.ofExit rep))
  | .ok (some (.pong _)) => c.again

def Client.forces (c : Client) (now : Nat) : Bool :=
  match c.lastInt with
  | some t => now - t < forceExitWindow
  | none => false

def Client.onSignal (c : Client) (now : Nat) (w : Except String Unit) : Option Signal → Client
  | some .int =>
    if c.forces now then c.finish (.ok forced)
    else { c with lastInt := some now }.send (.signal .int) w
  | some sig => c.send (.signal sig) w
  | none => { c with signalsOpen := false }.again

def Client.onStdin (c : Client) (w : Except String Unit) : Except String Bytes → Client
  | .ok [] => { c with stdinOpen := false }.send .stdinEof w
  | .ok d => c.send (.stdinData d) w
  | .error _ =>
    -- the write's own error is ignored here
    { c.again with
      sent := if w.isOk then c.sent ++ [.stdinEof] else c.sent
      stdinOpen := false }

def withinBuf : Except String Bytes → Bool
  | .ok d => d.length ≤ inBuf
  | .error _ => true

def Client.take (c : Client) (n : Nat) (st : Reading EventKind) : Client :=
  { c with unread := c.unread.drop n, reader := st }

variable (J) in
def Client.onRead (c : Client) (n : Nat) (sink : Option (Nat × String)) : Client :=
  match Reading.feed EventKind.tryFrom (decodeEvent J) c.reader (c.unread.take n) with
  | .pending st => c.take n st
  | .ready r => (c.take n .new).onFrame sink r

variable (J) in
/-- One ready branch. No input is taken once the loop is left. -/
def step (c : Client) (i : Input) : Option Client :=
  if c.result.isSome then none
  else
    match i with
    | .stdin n w => if c.stdinOpen ∧ withinBuf n then some (c.onStdin w n) else none
    | .read n sink =>
      if 0 < n ∧ n ≤ c.reader.room ∧ n ≤ c.unread.length then some (c.onRead J n sink) else none
    | .readErr e => some (c.onFrame none (.error (.io e)))
    | .eof => if c.unread = [] then some (c.onFrame none c.reader.close) else none
    | .signal sig now w => if c.signalsOpen then some (c.onSignal now w sig) else none

/-- A local or IPC operation of the branch fails and its error ends the loop. -/
def Input.fails : Input → Bool
  | .stdin (.ok _) (.error _) | .read _ (some _) | .readErr _ | .signal (some _) _ (.error _) => true
  | _ => false

/-- The stdin or signal branch won and the loop goes on. -/
def Client.loops (c : Client) : Input → Bool
  | .stdin (.ok _) (.error _) => false
  | .stdin _ _ => true
  | .signal (some .int) now w => !c.forces now && w.isOk
  | .signal (some _) _ w => w.isOk
  | .signal none _ _ => true
  | _ => false

/-- The stdin or signal branch does not take the loop into its next iteration while the frame
future of this one has consumed bytes. -/
def Keeps (c : Client) (i : Input) : Prop := c.loops i = true → consumed c.reader = []

/-- The last input is an interrupt less than the window after an earlier one. -/
def DoubleInt (es : List Input) : Prop :=
  ∃ pre t now v w, es = pre ++ [.signal (some .int) now w] ∧ .signal (some .int) t v ∈ pre ∧
    now - t < forceExitWindow

/-- What the client owes for the frames on its connection after the inputs `es`: the payloads of
the frames it is done with, in order, and at the end the report of the first exit frame. -/
def Intact (frames : List EventFrame) (es : List Input) (s : Client) : Prop :=
  ∃ done left, frames = done ++ left ∧ (∀ f ∈ done, f.isExit = false) ∧
    match s.result with
    | none => (∀ t, s.delivered t = payloads t done) ∧ (s.unread = [] → left = [])
    | some (.ok r) => (∀ t, s.delivered t = payloads t done) ∧
        ((∃ rep rest, left = .exit rep :: rest ∧ r = .ofExit rep) ∨ (r = forced ∧ DoubleInt es))
    | some (.error e) =>
        (e = closedBeforeExit ∧ left = [] ∧ ∀ t, s.delivered t = payloads t frames) ∨
        ((∃ m, e = .io m) ∧ (∃ i ∈ es, i.fails = true) ∧
          ∀ t, s.delivered t <+: payloads t frames)

theorem delivered_put (c : Client) (t u : Stream) (d : Bytes) :
    (c.put t d).delivered u = c.delivered u ++ (t.frame d).payload u := by
  cases t <;> cases u <;> simp [Client.put, Client.delivered, Stream.frame, EventFrame.payload]

/-- The invariant of a running loop: the frames in `done` are handed over, and what the current
future has consumed together with what is unread are the bytes of `left`. -/
structure Live (J : EventJson) (es : List Input) (done left : List EventFrame) (c : Client) :
    Prop where
  plain : ∀ f ∈ done, f.isExit = false
  fits : ∀ f ∈ left, Fits J f
  running : c.result = none
  delivered : ∀ t, c.delivered t = payloads t done
  bytes : consumed c.reader ++ c.unread = encodeAll (wire J) left
  inside : ∀ f rest, left = f :: rest → Inside J f c.reader
  ints : ∀ t, c.lastInt = some t → ∃ v, Input.signal (some .int) t v ∈ es

theorem live_start (req : ExecRequest) (frames : List EventFrame) (hf : ∀ f ∈ frames, Fits J f) :
    Live J [] [] frames (start req (encodeAll (wire J) frames)) where
  plain := by simp
  fits := hf
  running := rfl
  delivered := by intro t; cases t <;> rfl
  bytes := rfl
  inside := by
    rintro f rest rfl
    exact inside_new (hf f (by simp))
  ints := by simp [start]

section Step
variable {es : List Input} {i : Input} {done left : List EventFrame} {c c' : Client}

/-- A new iteration may start where the old future has consumed nothing. -/
theorem Live.next (h : Live J es done left c) (hk : consumed c.reader = [])
    (hr : c'.reader = .new) (hu : c'.unread = c.unread) (hn : c'.result = none)
    (hd : ∀ t, c'.delivered t = c.delivered t)
    (hi : ∀ t, c'.lastInt = some t → ∃ v, Input.signal (some .int) t v ∈ es ++ [i]) :
    Live J (es ++ [i]) done left c' where
  plain := h.plain
  fits := h.fits
  running := hn
  delivered := by
    intro t
    rw [hd, h.delivered]
  bytes := by
    have hb := h.bytes
    rw [hk] at hb
    rw [hr, hu, ← hb]
    rfl
  inside := by
    rintro f rest rfl
    rw [hr]
    exact inside_new (h.fits f (by simp))
  ints := hi

theorem Live.ints_append (h : Live J es done left c) (t : Nat) (ht : c.lastInt = some t) :
    ∃ v, Input.signal (some .int) t v ∈ es ++ [i] := by
  obtain ⟨v, hv⟩ := h.ints t ht
  exact ⟨v, List.mem_append_left _ hv⟩

theorem Live.at_end (h : Live J es done [] c) : c.reader = .new ∧ c.unread = [] := by
  have hb : consumed c.reader = [] ∧ c.unread = [] := by simpa using h.bytes
  refine ⟨?_, hb.2⟩
  cases hc : c.reader with
  | header hdr =>
    have he : hdr = [] := by simpa [hc, consumed] using hb.1
    rw [he]
    rfl
  | payload kind len p => simp [hc, consumed] at hb

theorem Live.unread_pos {f : EventFrame} (h : Live J es done (f :: left) c) :
    0 < c.unread.length ∧ 0 < c.reader.room := by
  have hp := inside_room (h.inside f left rfl)
  have hb := congrArg List.length h.bytes
  rw [encodeAll_cons, List.length_append, List.length_append] at hb
  omega

theorem Live.intact (h : Live J es done left c) : Intact (done ++ left) es c := by
  refine ⟨done, left, rfl, h.plain, ?_⟩
  rw [h.running]
  refine ⟨h.delivered, ?_⟩
  intro hu
  cases left with
  | nil => rfl
  | cons f rest =>
    have hp := h.unread_pos.1
    rw [hu] at hp
    simp at hp

theorem Live.failed (h : Live J es done left c) (hi : i.fails = true) (m : String)
    (hr : c'.result = some (.error (.io m)))
    (hd : ∀ t, c'.delivered t <+: payloads t (done ++ left)) :
    Intact (done ++ left) (es ++ [i]) c' := by
  refine ⟨done, left, rfl, h.plain, ?_⟩
  rw [hr]
  exact .inr ⟨⟨m, rfl⟩, ⟨i, by simp, hi⟩, hd⟩

theorem Live.prefix (h : Live J es done left c) (t : Stream) :
    c.delivered t <+: payloads t (done ++ left) := by
  rw [h.delivered, payloads_append]
  exact List.prefix_append _ _

def Next (J : EventJson) (frames : List EventFrame) (es : List Input) (c : Client) : Prop :=
  (∃ done left, frames = done ++ left ∧ Live J es done left c) ∨
    (c.result ≠ none ∧ Intact frames es c)

theorem Live.send (h : Live J es done left c) (w : Except String Unit) (f : ExecFrame ExecRequest)
    {b : Client} (hk : w.isOk = true → consumed c.reader = []) (hw : w.isOk = false → i.fails = true)
    (hu : b.unread = c.unread) (hn : b.result = none) (hd : ∀ t, b.delivered t = c.delivered t)
    (hi : ∀ t, b.lastInt = some t → ∃ v, Input.signal (some .int) t v ∈ es ++ [i]) :
    Next J (done ++ left) (es ++ [i]) (b.send f w) := by
  cases w with
  | ok u =>
    left
    exact ⟨done, left, rfl, h.next (hk rfl) rfl hu hn hd hi⟩
  | error m =>
    right
    have hf : Intact (done ++ left) (es ++ [i]) (b.send f (.error m)) := by
      apply h.failed (hw rfl) m rfl
      intro t
      have hp := h.prefix t
      rw [← hd] at hp
      exact hp
    exact ⟨by simp [Client.send, Client.finish], hf⟩

theorem Live.onStdin (h : Live J es done left c) {n : Except String Bytes}
    {w : Except String Unit} (hk : Keeps c (.stdin n w)) :
    Next J (done ++ left) (es ++ [.stdin n w]) (c.onStdin w n) := by
  have hr := h.running
  cases n with
  | error e =>
    left
    have hc : consumed c.reader = [] := hk (by cases w <;> rfl)
    exact ⟨done, left, rfl, h.next hc rfl rfl hr (fun t => by cases t <;> rfl) h.ints_append⟩
  | ok d =>
    have hok : w.isOk = true → consumed c.reader = [] := by
      intro hw
      cases w with
      | ok u => exact hk rfl
      | error e => cases hw
    have hfail : w.isOk = false → (Input.stdin (.ok d) w).fails = true := by
      intro hw
      cases w with
      | ok u => cases hw
      | error e => rfl
    cases d with
    | nil => exact h.send w .stdinEof hok hfail rfl hr (fun t => by cases t <;> rfl) h.ints_append
    | cons x d => exact h.send w (.stdinData (x :: d)) hok hfail rfl hr (fun _ => rfl) h.ints_append

theorem Live.double (h : Live J es done left c) {now : Nat} (hf : c.forces now = true)
    (w : Except String Unit) : DoubleInt (es ++ [.signal (some .int) now w]) := by
  unfold Client.forces at hf
  cases hl : c.lastInt with
  | none => simp [hl] at hf
  | some t =>
    obtain ⟨v, hv⟩ := h.ints t hl
    exact ⟨es, t, now, v, w, rfl, hv, by simpa [hl] using hf⟩

theorem Live.onSignal (h : Live J es done left c) {sig : Option Signal} {now : Nat}
    {w : Except String Unit} (hk : Keeps c (.signal sig now w)) :
    Next J (done ++ left) (es ++ [.signal sig now w]) (c.onSignal now w sig) := by
  have hr := h.running
  cases sig with
  | none =>
    left
    exact ⟨done, left, rfl, h.next (hk rfl) rfl rfl hr (fun t => by cases t <;> rfl) h.ints_append⟩
  | some s =>
    have hfail : w.isOk = false → (Input.signal (some s) now w).fails = true := by
      intro hw
      cases w with
      | ok u => cases hw
      | error e => rfl
    by_cases hs : s = .int
    · subst hs
      simp only [Client.onSignal]
      by_cases hf : c.forces now = true
      · right
        rw [if_pos hf]
        refine ⟨by simp [Client.finish], done, left, rfl, h.plain, ?_⟩
        exact ⟨h.delivered, .inr ⟨rfl, h.double hf w⟩⟩
      · rw [if_neg hf]
        have hok : w.isOk = true → consumed c.reader = [] := by
          intro hw
          exact hk (by simp [Client.loops, hf, hw])
        apply h.send w (.signal .int) (b := { c with lastInt := some now }) hok hfail rfl hr
          (fun t => by cases t <;> rfl)
        intro t ht
        obtain rfl := Option.some.inj ht
        exact ⟨w, by simp⟩
    · have hok : w.isOk = true → consumed c.reader = [] := by
        intro hw
        exact hk (by cases s <;> first | exact hw | exact absurd rfl hs)
      have he : c.onSignal now w (some s) = c.send (.signal s) w := by
        cases s <;> first | rfl | exact absurd rfl hs
      rw [he]
      exact h.send w (.signal s) hok hfail rfl hr (fun _ => rfl) h.ints_append

theorem Live.plain_concat (h : Live J es done left c) {f : EventFrame} (hf : f.isExit = false) :
    ∀ g ∈ done ++ [f], g.isExit = false :=
  List.forall_mem_append.mpr ⟨h.plain, List.forall_mem_singleton.mpr hf⟩

theorem Live.deliver {f : EventFrame} {rest : List EventFrame} (t : Stream) (d : Bytes)
    (hl : ∀ g ∈ rest, Fits J g) (he : f = t.frame d) (h : Live J es done (f :: rest) c) {b : Client}
    (hu : b.unread = encodeAll (wire J) rest) (hn : b.result = none)
    (hd : ∀ t, b.delivered t = c.delivered t) (hi : b.lastInt = c.lastInt)
    (sink : Option (Nat × String)) (hs : sink.isSome = true → i.fails = true) :
    Next J (done ++ f :: rest) (es ++ [i]) (b.deliver t d sink) := by
  cases sink with
  | none =>
    left
    refine ⟨done ++ [f], rest, by simp, ?_⟩
    exact {
      plain := h.plain_concat (by rw [he, isExit_frame])
      fits := hl
      running := by cases t <;> exact hn
      delivered := by
        intro u
        have hp : (b.deliver t d none).delivered u = (b.put t d).delivered u := by
          cases u <;> rfl
        rw [hp, delivered_put, hd, h.delivered, payloads_append, he]
        simp
      bytes := by
        have hb : (b.put t d).unread = b.unread := by cases t <;> rfl
        simp only [Client.deliver, Client.again, hb, hu]
        rfl
      inside := by
        rintro g gs rfl
        exact inside_new (hl g (by simp))
      ints := by
        intro v hv
        have hb : (b.deliver t d none).lastInt = b.lastInt := by cases t <;> rfl
        rw [hb, hi] at hv
        exact h.ints_append v hv }
  | some p =>
    obtain ⟨k, m⟩ := p
    right
    refine ⟨by simp [Client.deliver, Client.finish], h.failed (hs rfl) m rfl ?_⟩
    intro u
    have hp : (b.deliver t d (some (k, m))).delivered u = (b.put t (d.take k)).delivered u := by
      cases u <;> rfl
    rw [hp, delivered_put, hd, h.delivered, he, payloads_append, payloads_cons]
    rw [List.prefix_append_right_inj]
    simp only [payload_frame]
    by_cases htu : t = u
    · rw [if_pos htu, if_pos htu]
      exact (List.take_prefix k d).trans (List.prefix_append d _)
    · rw [if_neg htu, if_neg htu]
      exact List.nil_prefix

theorem Live.onFrame {f : EventFrame} {rest : List EventFrame} (h : Live J es done (f :: rest) c)
    {b : Client} (hu : b.unread = encodeAll (wire J) rest)
    (hn : b.result = none) (hd : ∀ t, b.delivered t = c.delivered t) (hi : b.lastInt = c.lastInt)
    (sink : Option (Nat × String)) (hs : sink.isSome = true → i.fails = true) :
    Next J (done ++ f :: rest) (es ++ [i]) (b.onFrame sink (.ok (some f))) := by
  have hl : ∀ g ∈ rest, Fits J g := fun g hg => h.fits g (List.mem_cons_of_mem f hg)
  cases f with
  | stdout d => exact h.deliver .out d hl rfl hu hn hd hi sink hs
  | stderr d => exact h.deliver .err d hl rfl hu hn hd hi sink hs
  | exit rep =>
    right
    refine ⟨by simp [Client.onFrame, Client.finish], done, .exit rep :: rest, rfl, h.plain, ?_⟩
    refine ⟨?_, .inl ⟨rep, rest, rfl, rfl⟩⟩
    intro t
    rw [← h.delivered, ← hd]
    cases t <;> rfl
  | pong p =>
    left
    refine ⟨done ++ [.pong p], rest, by simp, ?_⟩
    exact {
      plain := h.plain_concat rfl
      fits := hl
      running := hn
      delivered := by
        intro t
        have hp : (b.onFrame sink (.ok (some (.pong p)))).delivered t = b.delivered t := by
          cases t <;> rfl
        rw [hp, hd, h.delivered, payloads_append]
        simp
      bytes := by
        simp only [Client.onFrame, Client.again, hu]
        rfl
      inside := by
        rintro g gs rfl
        exact inside_new (hl g (by simp))
      ints := by
        intro v hv
        exact h.ints_append v (hi ▸ hv) }

theorem Live.onRead (hJ : J.Lawful) (h : Live J es done left c) {n : Nat}
    {sink : Option (Nat × String)} (hn : 0 < n ∧ n ≤ c.reader.room ∧ n ≤ c.unread.length) :
    Next J (done ++ left) (es ++ [.read n sink]) (c.onRead J n sink) := by
  obtain ⟨hpos, hroom, hlen⟩ := hn
  cases left with
  | nil =>
    rw [h.at_end.2] at hlen
    simp only [List.length_nil] at hlen
    omega
  | cons f rest =>
    have hin := h.inside f rest rfl
    have hroom' := (inside_room hin).2
    have htl : (c.unread.take n).length = n := List.length_take_of_le hlen
    have hb : (consumed c.reader ++ c.unread.take n) ++ c.unread.drop n =
        wire J f ++ encodeAll (wire J) rest := by
      rw [List.append_assoc, List.take_append_drop, h.bytes, encodeAll_cons]
    have hpre : consumed c.reader ++ c.unread.take n <+: wire J f := by
      apply List.prefix_of_prefix_length_le ⟨_, hb⟩ (List.prefix_append _ _)
      rw [List.length_append]
      omega
    obtain ⟨tl, htail⟩ := hpre
    have hdrop : c.unread.drop n = tl ++ encodeAll (wire J) rest := by
      rw [← htail, List.append_assoc _ tl, List.append_cancel_left_eq] at hb
      exact hb
    have hfeed := feed_spec hJ hin (c.unread.take n) tl (by omega) (by rw [← List.append_assoc, htail])
    unfold Client.onRead
    rcases hfeed with ⟨st, he, hst, hc⟩ | ⟨he, rfl⟩
    · rw [he]
      left
      exact ⟨done, f :: rest, rfl, {
        plain := h.plain
        fits := h.fits
        running := h.running
        delivered := by
          intro t
          have hp : (c.take n st).delivered t = c.delivered t := by cases t <;> rfl
          exact hp.trans (h.delivered t)
        bytes := by
          have hu : consumed st ++ c.unread.drop n = encodeAll (wire J) (f :: rest) := by
            rw [hc, List.append_assoc, List.take_append_drop, h.bytes]
          exact hu
        inside := by
          intro g gs hg
          obtain ⟨rfl, rfl⟩ := List.cons.inj hg
          exact hst
        ints := h.ints_append }⟩
    · rw [he]
      apply h.onFrame (b := c.take n .new)
      · exact hdrop
      · exact h.running
      · exact fun t => by cases t <;> rfl
      · rfl
      · intro hs
        cases sink with
        | none => cases hs
        | some p => rfl

theorem Live.step (hJ : J.Lawful) (h : Live J es done left c) (hk : Keeps c i)
    (hs : step J c i = some c') : Next J (done ++ left) (es ++ [i]) c' := by
  have hr := h.running
  simp only [ClientRun.step, hr, Option.isSome_none, Bool.false_eq_true, if_false] at hs
  cases i with
  | stdin n w =>
    obtain ⟨-, hc⟩ := Option.ite_none_right_eq_some.mp hs
    obtain rfl := Option.some.inj hc
    exact h.onStdin hk
  | read n sink =>
    obtain ⟨hn, hc⟩ := Option.ite_none_right_eq_some.mp hs
    obtain rfl := Option.some.inj hc
    exact h.onRead hJ hn
  | readErr e =>
    obtain rfl := Option.some.inj hs
    right
    refine ⟨by simp [Client.onFrame, Client.finish], h.failed rfl e rfl ?_⟩
    intro t
    have hp := h.prefix t
    cases t <;> exact hp
  | eof =>
    obtain ⟨hu, hc⟩ := Option.ite_none_right_eq_some.mp hs
    obtain rfl := Option.some.inj hc
    cases left with
    | nil =>
      right
      rw [h.at_end.1, close_new]
      refine ⟨by simp [Client.onFrame, Client.finish], done, [], rfl, h.plain, ?_⟩
      refine .inl ⟨rfl, rfl, ?_⟩
      intro t
      rw [List.append_nil, ← h.delivered]
      cases t <;> rfl
    | cons f rest =>
      have hp := h.unread_pos.1
      simp [hu] at hp
  | signal sig now w =>
    obtain ⟨-, hc⟩ := Option.ite_none_right_eq_some.mp hs
    obtain rfl := Option.some.inj hc
    exact h.onSignal hk

end Step

theorem step_ended {c c' : Client} {i : Input} (h : c.result ≠ none) : step J c i ≠ some c' := by
  have hs : c.result.isSome = true := Option.isSome_iff_ne_none.mpr h
  simp [step, hs]

theorem step_running {c c' : Client} {i : Input} (h : step J c i = some c') : c.result = none := by
  by_contra hne
  exact step_ended hne h

theorem send_loops {c : Client} {f : ExecFrame ExecRequest} {w : Except String Unit}
    (hw : w.isOk = true) : c.send f w = { c with reader := .new, sent := c.sent ++ [f] } := by
  cases w with
  | ok u => rfl
  | error e => cases hw

/-- A stdin or signal branch that goes on keeps what is unread and starts a new future: the bytes
the old one had consumed are gone, and no stream got them. -/
theorem loops_drops {c c' : Client} {i : Input} (hl : c.loops i = true)
    (hs : step J c i = some c') :
    c'.unread = c.unread ∧ c'.reader = .new ∧ c'.result = none ∧
      ∀ t, c'.delivered t = c.delivered t := by
  have hr := step_running hs
  simp only [ClientRun.step, hr, Option.isSome_none, Bool.false_eq_true, if_false] at hs
  cases i with
  | stdin n w =>
    obtain ⟨-, hc⟩ := Option.ite_none_right_eq_some.mp hs
    obtain rfl := Option.some.inj hc
    cases n with
    | error e => exact ⟨rfl, rfl, hr, fun t => by cases t <;> rfl⟩
    | ok d =>
      have hw : w.isOk = true := by
        cases w with
        | ok u => rfl
        | error e => cases hl
      cases d <;> rw [Client.onStdin, send_loops hw]
      · exact ⟨rfl, rfl, hr, fun t => by cases t <;> rfl⟩
      · exact ⟨rfl, rfl, hr, fun t => by cases t <;> rfl⟩
      · simp
  | signal sig now w =>
    obtain ⟨-, hc⟩ := Option.ite_none_right_eq_some.mp hs
    obtain rfl := Option.some.inj hc
    cases sig with
    | none => exact ⟨rfl, rfl, hr, fun t => by cases t <;> rfl⟩
    | some s =>
      cases s with
      | int =>
        simp only [Client.loops, Bool.and_eq_true, Bool.not_eq_true'] at hl
        rw [Client.onSignal, if_neg (by simp [hl.1]), send_loops hl.2]
        exact ⟨rfl, rfl, hr, fun t => by cases t <;> rfl⟩
      | term | kill | hup =>
        rw [Client.onSignal, send_loops hl]
        · exact ⟨rfl, rfl, hr, fun t => by cases t <;> rfl⟩
        · simp
  | read n sink | readErr e | eof => cases hl

/-- In every run that never drops a future inside a frame, the local streams get the payloads of
the frames, in order and once, and the loop ends with the report of the first exit frame. -/
theorem run_intact (hJ : J.Lawful) (req : ExecRequest) (frames : List EventFrame)
    (hf : ∀ f ∈ frames, Fits J f) (w : Bytes) (hw : writeEventFrames J [] frames = .ok w)
    (es : List Input) (s : Client) (h : Path (step J) Keeps (start req w) es s) :
    Intact frames es s := by
  rw [writeEventFrames_eq frames [] hf] at hw
  obtain rfl : encodeAll (wire J) frames = w := by simpa using hw
  suffices hn : Next J frames es s by
    rcases hn with ⟨done, left, rfl, hl⟩ | ⟨-, hi⟩
    · exact hl.intact
    · exact hi
  induction h with
  | refl => exact .inl ⟨[], frames, rfl, live_start req frames hf⟩
  | tail _ hk hs ih =>
    rcases ih with ⟨done, left, rfl, hl⟩ | ⟨he, -⟩
    · exact hl.step hJ hk hs
    · exact absurd hs (step_ended he)

def sampleReq : ExecRequest := ⟨"h", "cat", [], none, none, none⟩
def sampleFrames : List EventFrame := [.stdout [104, 105], .exit sampleReport]

def cutInputs : List Input := [.read 1 none, .stdin (.ok [97]) (.ok ()), .read 5 none]

theorem run_intact_sample :
    ∃ w s, writeEventFrames sampleJson [] sampleFrames = .ok w ∧
      run (step sampleJson) [.stdin (.ok [97]) (.ok ()), .read 1 none, .read 4 none, .read 2 none]
        (start sampleReq w) = some s ∧
      Intact sampleFrames
        [.stdin (.ok [97]) (.ok ()), .read 1 none, .read 4 none, .read 2 none] s := by
  refine ⟨_, _, rfl, rfl, run_intact sampleJson_lawful sampleReq sampleFrames ?_ _ rfl _ _ ?_⟩
  · simp only [sampleFrames, List.mem_cons, List.not_mem_nil, or_false, forall_eq_or_imp, forall_eq]
    exact ⟨⟨_, _, rfl, by decide⟩, ⟨_, _, rfl, by decide⟩⟩
  · refine Path.head (fun _ => rfl) rfl (Path.head ?_ rfl (Path.head ?_ rfl (Path.head ?_ rfl .refl)))
    all_goals
      intro hl
      cases hl

theorem fragment_lost :
    ∃ w s, writeEventFrames sampleJson [] sampleFrames = .ok w ∧
      Path (step sampleJson) Any (start sampleReq w) cutInputs s ∧
      s.result = some (.error (.protocol "bad event frame kind 0x2")) ∧
      ¬ Intact sampleFrames cutInputs s := by
  refine ⟨_, _, rfl, path_of_run rfl, by decide, ?_⟩
  rintro ⟨done, left, -, -, h⟩
  rcases h with ⟨h, -⟩ | ⟨⟨m, h⟩, -⟩
  · revert h
    decide
  · cases h

end ShellProxy.ClientRun
