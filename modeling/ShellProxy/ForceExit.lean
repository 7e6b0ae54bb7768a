import ShellProxy.ClientRun
import ShellProxy.InputLanes

/-! The escape hatch of `client::run`. Its loop sees a signal in the select only, and its branches
wait there for the daemon and for the local streams to take what they write. -/
namespace ShellProxy.ForceExit
open Frame Codec EventStream Framing Machine ClientRun
open InputLanes (SignalsEncode)

inductive Sink where
  | daemon | stdout | stderr
  deriving DecidableEq, Repr

/-- Where `run` waits: for the connection, with the room of the one that the endpoint gives out
without the daemon if there is such; in a write with what is left of it, whose error is returned or
ignored; in the select. -/
inductive Point where
  | connecting (ready : Option Nat)
  | writing (k : Sink) (left : Bytes) (strict : Bool)
  | select
  deriving DecidableEq, Repr

/-- What ends the run: two interrupts, the exit frame, an error. -/
inductive End where
  | locally (r : RunReport)
  | exit (rep : ExitReport)
  | failed (e : Errors.Error)

def End.report : End → Except Errors.Error RunReport
  | .locally r => .ok r
  | .exit rep => .ok (RunReport.ofExit rep)
  | .failed e => .error e

/-- `room` is what a sink takes before its reader moves on, `signals` what was raised and is not
received. -/
structure Run where
  point : Point := .connecting none
  room : Sink → Nat
  lastInt : Option Nat := none
  stdinOpen : Bool := true
  signalsOpen : Bool := true
  signals : List Signal := []
  senders : Bool := true
  now : Nat := 0
  result : Option End := none

/-- The steps of `run`, the clock, the signals, and at the end the steps of the others. -/
inductive Ev where
  | connect (failure : Option Errors.Error)
  | write (n : Nat)
  | wrote
  | writeFails (e : String)
  | stdin (n : Except String Bytes)
  | frame (r : Except Error (Option EventFrame))
  | recv
  | tick (ms : Nat)
  | raise (sig : Signal) (time : Nat)
  | accepting (room : Nat)
  | drain (k : Sink) (n : Nat)
  | hangUp

def recent (last : Option Nat) (now : Nat) : Bool := last.any fun t => now - t < forceExitWindow

variable (X : ExecJson ExecRequest) (req : ExecRequest)

namespace Run

def finish (u : Run) (r : End) : Run := { u with result := some r }

/-- `write_exec_frame` up to its first await. -/
def sendFrame (u : Run) (f : ExecFrame ExecRequest) (strict : Bool) : Run :=
  match writeExecFrame X [] f with
  | .ok bytes => { u with point := .writing .daemon bytes strict }
  | .error e =>
    if strict then u.finish (.failed (Errors.Error.ofProto e)) else { u with point := .select }

def onStdin (u : Run) : Except String Bytes → Run
  | .ok [] => { u with stdinOpen := false }.sendFrame X .stdinEof true
  | .ok d => u.sendFrame X (.stdinData d) true
  | .error _ => { u with stdinOpen := false }.sendFrame X .stdinEof false

def onFrame (u : Run) : Except Error (Option EventFrame) → Run
  | .error e => u.finish (.failed (Errors.Error.ofProto e))
  | .ok none => u.finish (.failed closedBeforeExit)
  | .ok (some (.stdout d)) => { u with point := .writing .stdout d true }
  | .ok (some (.stderr d)) => { u with point := .writing .stderr d true }
  | .ok (some (.exit rep)) => u.finish (.exit rep)
  | .ok (some (.pong _)) => u

def onSignal (u : Run) (sig : Signal) : Run :=
  if sig = .int then
    if recent u.lastInt u.now then u.finish (.locally forced)
    else { u with lastInt := some u.now }.sendFrame X (.signal .int) true
  else u.sendFrame X (.signal sig) true

def take (u : Run) (k : Sink) (n : Nat) : Run :=
  { u with room := Function.update u.room k (u.room k - n) }

end Run

def act (u : Run) : Ev → Option Run
  | .connect failure =>
    match u.point, failure with
    | .connecting (some r), none =>
      some ({ u with room := Function.update u.room .daemon r }.sendFrame X (.exec req) true)
    | .connecting _, some e => some (u.finish (.failed e))
    | _, _ => none
  | .write n =>
    match u.point with
    | .writing k left strict =>
      if 0 < n ∧ n ≤ left.length ∧ n ≤ u.room k then
        some { u.take k n with point := .writing k (left.drop n) strict }
      else none
    | _ => none
  | .wrote =>
    match u.point with
    | .writing _ [] _ => some { u with point := .select }
    | _ => none
  | .writeFails e =>
    match u.point with
    | .writing _ _ true => some (u.finish (.failed (.io e)))
    | .writing _ _ false => some { u with point := .select }
    | _ => none
  | .stdin n =>
    if u.point = .select ∧ u.stdinOpen ∧ withinBuf n then some (u.onStdin X n) else none
  | .frame r => if u.point = .select then some (u.onFrame r) else none
  | .recv =>
    if u.point = .select ∧ u.signalsOpen then
      match u.signals with
      | sig :: rest => some ({ u with signals := rest }.onSignal X sig)
      | [] => if u.senders then none else some { u with signalsOpen := false }
    else none
  | .tick ms => some { u with now := u.now + ms }
  | .raise sig time =>
    if u.senders ∧ time = u.now then some { u with signals := u.signals ++ [sig] } else none
  | .accepting room =>
    match u.point with
    | .connecting _ => some { u with point := .connecting (some room) }
    | _ => none
  | .drain k n => some { u with room := Function.update u.room k (u.room k + n) }
  | .hangUp => some { u with senders := false }

def step (u : Run) (e : Ev) : Option Run := if u.result.isSome then none else act X req u e

/-- Nobody at the other ends reads what is written, or breaks the connection. -/
def Own (_ : Run) : Ev → Prop
  | .writeFails _ | .accepting _ | .drain _ _ | .hangUp => False
  | _ => True

def start (room : Sink → Nat) : Run := { room := room }

def raisedBy : Ev → List (Signal × Nat)
  | .raise sig time => [(sig, time)]
  | _ => []

/-- The signals raised in a run, with their times. -/
def raised (es : List Ev) : List (Signal × Nat) := es.flatMap raisedBy

/-- Two interrupts are raised at these times, or the run is over before. -/
def CanForce (u : Run) (t₁ t₂ : Nat) : Prop :=
  ∃ es v, Path (step X req) Own u es v ∧ raised es <+: [(.int, t₁), (.int, t₂)] ∧
    v.result = some (.locally forced)

/-! ### What has to be written first -/

def size (f : ExecFrame ExecRequest) : Nat := ((writeExecFrame X [] f).toOption.getD []).length

/-- The frames of the signals ahead of the interrupt that forces the exit. The first interrupt
does where an earlier one is recent, else the second. -/
def toll (recent : Bool) : List Signal → Nat
  | [] => 0
  | sig :: rest =>
    if sig = .int then if recent then 0 else size X (.signal sig) + toll true rest
    else size X (.signal sig) + toll recent rest

namespace Run

/-- Whether an earlier interrupt is recent when the first of these can be received. -/
def recentAt (u : Run) (coming : List (Signal × Nat)) : Bool :=
  if .int ∈ u.signals then recent u.lastInt u.now
  else (coming.find? fun s => s.1 = .int).any fun s => recent u.lastInt (max u.now s.2)

def ahead (u : Run) (coming : List (Signal × Nat)) : Nat :=
  toll X (u.recentAt coming) (u.signals ++ coming.map Prod.fst)

def left (u : Run) (k : Sink) : Nat :=
  match u.point with
  | .writing k' left _ => if k = k' then left.length else 0
  | _ => 0

end Run

/-- All that is to be written first fits into the room there is. -/
def Clear (u : Run) (coming : List (Signal × Nat)) : Prop :=
  match u.point with
  | .connecting none => False
  | .connecting (some r) =>
    ∃ bytes, writeExecFrame X [] (.exec req) = .ok bytes ∧ bytes.length + u.ahead X coming ≤ r
  | _ => ∀ k, u.left k + (if k = .daemon then u.ahead X coming else 0) ≤ u.room k

variable {X req} {u v : Run} {coming : List (Signal × Nat)}

theorem recent_anti {last : Option Nat} {a b : Nat} (hab : a ≤ b) (h : recent last b = true) :
    recent last a = true := by
  cases last with
  | none => exact h
  | some t =>
    simp only [recent, Option.any_some, decide_eq_true_eq] at h ⊢
    omega

theorem toll_le (r : Bool) (l : List Signal) : toll X true l ≤ toll X r l := by
  induction l generalizing r with
  | nil => exact Nat.le_refl _
  | cons sig rest ih =>
    rw [toll, toll]
    split
    · exact Nat.zero_le _
    · exact Nat.add_le_add_left (ih r) _

theorem toll_anti {r r' : Bool} (h : r = true → r' = true) (l : List Signal) :
    toll X r' l ≤ toll X r l := by
  cases r with
  | true =>
    rw [h rfl]
  | false =>
    cases r' with
    | true => exact toll_le false l
    | false => exact Nat.le_refl _

theorem clear_select (hp : u.point = .select) :
    Clear X req u coming ↔ u.ahead X coming ≤ u.room .daemon := by
  have hleft : ∀ k, u.left k = 0 := fun k => by rw [Run.left, hp]
  simp only [Clear, hp, hleft, Nat.zero_add]
  refine ⟨fun h => h .daemon, fun h k => ?_⟩
  split
  next hk => exact hk ▸ h
  next => exact Nat.zero_le _

theorem clear_writing {k : Sink} {bytes : Bytes} {strict : Bool}
    (hp : u.point = .writing k bytes strict) :
    Clear X req u coming ↔
      ∀ k, u.left k + (if k = .daemon then u.ahead X coming else 0) ≤ u.room k := by
  simp only [Clear, hp]

/-! ### A forced exit has been paid for -/

variable (X req) in
def Affords (u : Run) (coming : List (Signal × Nat)) : Prop :=
  u.result = some (.locally forced) ∨ u.result = none ∧ Clear X req u coming

theorem Affords.clear (h : Affords X req u coming) (hn : u.result = none) :
    Clear X req u coming := by
  rcases h with hf | ⟨-, hc⟩
  · rw [hn] at hf
    cases hf
  · exact hc

theorem not_affords {r : End} (h : u.result = some r) (hr : r ≠ .locally forced) :
    ¬ Affords X req u coming := by
  rintro (hf | ⟨hn, -⟩)
  · rw [h] at hf
    exact hr (Option.some.inj hf)
  · rw [h] at hn
    cases hn

theorem affords_sendFrame {f : ExecFrame ExecRequest} {strict : Bool}
    (hn : u.result = none) (h : Affords X req (u.sendFrame X f strict) coming) :
    size X f + u.ahead X coming ≤ u.room .daemon := by
  unfold Run.sendFrame at h
  cases hf : writeExecFrame X [] f with
  | ok bytes =>
    simp only [hf] at h
    have hd := (clear_writing rfl).mp (h.clear hn) .daemon
    have hs : size X f = bytes.length := by rw [size, hf]; rfl
    rw [hs]
    exact hd
  | error e =>
    have hs : size X f = 0 := by rw [size, hf]; rfl
    rw [hs, Nat.zero_add]
    cases strict with
    | true =>
      simp only [hf] at h
      exact absurd h (not_affords rfl End.noConfusion)
    | false =>
      simp only [hf, Bool.false_eq_true, if_false] at h
      exact (clear_select (u := { u with point := .select }) rfl).mp (h.clear hn)

theorem affords_stdin {n : Except String Bytes} (hn : u.result = none)
    (h : Affords X req (u.onStdin X n) coming) : u.ahead X coming ≤ u.room .daemon := by
  rcases n with e | _ | ⟨b, d⟩
  · exact Nat.le_trans (Nat.le_add_left _ _)
      (affords_sendFrame (u := { u with stdinOpen := false }) hn h)
  · exact Nat.le_trans (Nat.le_add_left _ _)
      (affords_sendFrame (u := { u with stdinOpen := false }) hn h)
  · exact Nat.le_trans (Nat.le_add_left _ _) (affords_sendFrame hn h)

theorem affords_frame {r : Except Error (Option EventFrame)} (hp : u.point = .select)
    (hn : u.result = none) (h : Affords X req (u.onFrame r) coming) :
    u.ahead X coming ≤ u.room .daemon := by
  rcases r with e | _ | f
  · exact absurd h (not_affords rfl End.noConfusion)
  · exact absurd h (not_affords rfl End.noConfusion)
  · cases f with
    | stdout d =>
      have hd := (clear_writing rfl).mp (h.clear hn) .daemon
      exact Nat.le_trans (Nat.le_add_left _ _) hd
    | stderr d =>
      have hd := (clear_writing rfl).mp (h.clear hn) .daemon
      exact Nat.le_trans (Nat.le_add_left _ _) hd
    | exit rep => exact absurd h (not_affords rfl End.noConfusion)
    | pong p => exact (clear_select hp).mp (h.clear hn)

theorem affords_signal {sig : Signal} {rest : List Signal} (hn : u.result = none) (hq : u.signals = sig :: rest)
    (h : Affords X req ({ u with signals := rest }.onSignal X sig) coming) :
    u.ahead X coming ≤ u.room .daemon := by
  rw [Run.ahead, hq, List.cons_append, toll]
  unfold Run.onSignal at h
  by_cases hint : sig = .int
  · subst hint
    have hrec : u.recentAt coming = recent u.lastInt u.now := by
      rw [Run.recentAt, hq, if_pos List.mem_cons_self]
    rw [if_pos rfl, hrec]
    rw [if_pos rfl] at h
    by_cases hr : recent u.lastInt u.now = true
    · rw [if_pos hr]
      exact Nat.zero_le _
    · rw [if_neg hr]
      simp only [hr] at h
      have hsent := affords_sendFrame
        (u := { u with signals := rest, lastInt := some u.now }) hn h
      exact Nat.le_trans (Nat.add_le_add_left (toll_le _ _) _) hsent
  · rw [if_neg hint]
    rw [if_neg hint] at h
    have hsent := affords_sendFrame (u := { u with signals := rest }) hn h
    have hrec : ({ u with signals := rest } : Run).recentAt coming = u.recentAt coming := by
      have hne : Signal.int ≠ sig := Ne.symm hint
      simp only [Run.recentAt, hq, List.mem_cons, hne, false_or]
    rw [Run.ahead, hrec] at hsent
    exact hsent

theorem ahead_tick (ms : Nat) :
    u.ahead X coming ≤ ({ u with now := u.now + ms } : Run).ahead X coming := by
  refine toll_anti (fun h => ?_) _
  unfold Run.recentAt at h ⊢
  split at h
  next hmem =>
    rw [if_pos hmem]
    exact recent_anti (Nat.le_add_right _ _) h
  next hmem =>
    rw [if_neg hmem]
    cases hf : coming.find? fun s => s.1 = .int with
    | none => simp [hf] at h
    | some s =>
      simp only [hf, Option.any_some] at h ⊢
      exact recent_anti (by simp; omega) h

theorem ahead_raise {sig : Signal} :
    ({ u with signals := u.signals ++ [sig] } : Run).ahead X coming =
      u.ahead X ((sig, u.now) :: coming) := by
  have hrec : ({ u with signals := u.signals ++ [sig] } : Run).recentAt coming =
      u.recentAt ((sig, u.now) :: coming) := by
    simp only [Run.recentAt, List.mem_append, List.mem_singleton]
    by_cases hmem : Signal.int ∈ u.signals
    · simp [hmem]
    · by_cases hs : sig = .int
      · simp [hmem, hs]
      · have hs' : Signal.int ≠ sig := fun he => hs he.symm
        simp [hmem, hs, hs']
  rw [Run.ahead, Run.ahead, hrec, List.append_assoc]
  rfl

theorem Clear.anti (hp : v.point = u.point) (hr : v.room = u.room) {coming' : List (Signal × Nat)}
    (ha : u.ahead X coming ≤ v.ahead X coming') (h : Clear X req v coming') :
    Clear X req u coming := by
  cases hu : u.point with
  | connecting ready =>
    rw [hu] at hp
    cases ready with
    | none => simp only [Clear, hp] at h
    | some r =>
      simp only [Clear, hp, hu] at h ⊢
      obtain ⟨bytes, hb, hle⟩ := h
      exact ⟨bytes, hb, by omega⟩
  | writing k bytes strict =>
    rw [hu] at hp
    rw [clear_writing hp] at h
    rw [clear_writing hu]
    intro k'
    have hk := h k'
    have hleft : v.left k' = u.left k' := by rw [Run.left, Run.left, hp, hu]
    rw [hr, hleft] at hk
    refine Nat.le_trans (Nat.add_le_add_left ?_ _) hk
    split
    · exact ha
    · exact Nat.le_refl _
  | select =>
    rw [hu] at hp
    rw [clear_select hp, hr] at h
    rw [clear_select hu]
    exact Nat.le_trans ha h

theorem clear_write {k : Sink} {bytes : Bytes} {strict : Bool} {n : Nat}
    (hp : u.point = .writing k bytes strict) (hn : n ≤ bytes.length) (hroom : n ≤ u.room k)
    (h : Clear X req { u.take k n with point := .writing k (bytes.drop n) strict } coming) :
    Clear X req u coming := by
  rw [clear_writing hp]
  intro k'
  have hk := (clear_writing rfl).mp h k'
  by_cases he : k' = k
  · subst he
    simp only [Run.left, Run.take, if_true, Function.update_self, List.length_drop] at hk
    simp only [Run.left, hp, if_true]
    have ha : ({ u.take k' n with point := .writing k' (bytes.drop n) strict } : Run).ahead X
        coming = u.ahead X coming := rfl
    rw [Run.take] at ha
    rw [ha] at hk
    omega
  · simp only [Run.left, Run.take, if_neg he, Function.update_of_ne he] at hk
    simp only [Run.left, hp, if_neg he]
    exact hk

theorem clear_connect {r : Nat} (hp : u.point = .connecting (some r)) (hn : u.result = none)
    (h : Affords X req
      (({ u with room := Function.update u.room .daemon r } : Run).sendFrame X (.exec req) true)
      coming) :
    Clear X req u coming := by
  unfold Run.sendFrame at h
  cases hf : writeExecFrame X [] (.exec req) with
  | ok bytes =>
    simp only [hf] at h
    have hd := (clear_writing rfl).mp (h.clear hn) .daemon
    simp only [Clear, hp]
    change _ ≤ Function.update u.room .daemon r .daemon at hd
    rw [Function.update_self] at hd
    exact ⟨bytes, hf, hd⟩
  | error e =>
    simp only [hf] at h
    exact absurd h (not_affords rfl End.noConfusion)

theorem step_some {e : Ev} : step X req u e = some v ↔ u.result = none ∧ act X req u e = some v := by
  cases hr : u.result <;> simp [step, hr]

theorem clear_of_act {e : Ev} (ho : Own u e) (hn : u.result = none)
    (hs : act X req u e = some v) (h : Affords X req v coming) :
    Clear X req u (raisedBy e ++ coming) := by
  cases e with
  | connect failure =>
    simp only [act] at hs
    split at hs
    next r hp =>
      obtain rfl := Option.some.inj hs
      exact clear_connect hp hn h
    next =>
      obtain rfl := Option.some.inj hs
      exact absurd h (not_affords rfl End.noConfusion)
    next => cases hs
  | write n =>
    simp only [act] at hs
    split at hs
    next k bytes strict hp =>
      rw [Option.ite_none_right_eq_some] at hs
      obtain ⟨⟨-, hlen, hroom⟩, hv⟩ := hs
      obtain rfl := Option.some.inj hv
      exact clear_write hp hlen hroom (h.clear hn)
    next => cases hs
  | wrote =>
    simp only [act] at hs
    split at hs
    next k strict hp =>
      obtain rfl := Option.some.inj hs
      have hsel := (clear_select (u := { u with point := .select }) rfl).mp (h.clear hn)
      refine (clear_writing hp).mpr fun k' => ?_
      have hleft : u.left k' = 0 := by simp [Run.left, hp]
      rw [hleft, Nat.zero_add]
      split
      next hk => exact hk ▸ hsel
      next => exact Nat.zero_le _
    next => cases hs
  | stdin n =>
    rw [act, Option.ite_none_right_eq_some] at hs
    obtain ⟨⟨hp, -⟩, hv⟩ := hs
    obtain rfl := Option.some.inj hv
    exact (clear_select hp).mpr (affords_stdin hn h)
  | frame r =>
    rw [act, Option.ite_none_right_eq_some] at hs
    obtain ⟨hp, hv⟩ := hs
    obtain rfl := Option.some.inj hv
    exact (clear_select hp).mpr (affords_frame hp hn h)
  | recv =>
    rw [act, Option.ite_none_right_eq_some] at hs
    obtain ⟨⟨hp, -⟩, hv⟩ := hs
    split at hv
    next sig rest hq =>
      obtain rfl := Option.some.inj hv
      exact (clear_select hp).mpr (affords_signal hn hq h)
    next =>
      rw [Option.ite_none_left_eq_some] at hv
      obtain rfl := Option.some.inj hv.2
      exact Clear.anti (v := { u with signalsOpen := false }) rfl rfl (Nat.le_refl _) (h.clear hn)
  | tick ms =>
    obtain rfl := Option.some.inj hs
    exact Clear.anti (v := { u with now := u.now + ms }) rfl rfl (ahead_tick ms) (h.clear hn)
  | raise sig time =>
    rw [act, Option.ite_none_right_eq_some] at hs
    obtain ⟨⟨-, rfl⟩, hv⟩ := hs
    obtain rfl := Option.some.inj hv
    exact Clear.anti (v := { u with signals := u.signals ++ [sig] }) rfl rfl
      (Nat.le_of_eq ahead_raise.symm) (h.clear hn)
  | writeFails | accepting | drain | hangUp => exact ho.elim

theorem affords_of_path {es : List Ev} (h : Path (step X req) Own u es v)
    (hv : Affords X req v coming) : Affords X req u (raised es ++ coming) := by
  induction h generalizing coming with
  | refl => exact hv
  | tail hp ho hs ih =>
    rename_i w x es e
    obtain ⟨hn, ha⟩ := step_some.mp hs
    have hback := ih (Or.inr ⟨hn, clear_of_act ho hn ha hv⟩)
    simpa [raised, List.append_assoc] using hback

theorem clear_of_canForce {t₁ t₂ : Nat} (hn : u.result = none)
    (h : CanForce X req u t₁ t₂) : Clear X req u [(.int, t₁), (.int, t₂)] := by
  obtain ⟨es, v, hpath, ⟨rest, hrest⟩, hforced⟩ := h
  have ha : Affords X req u (raised es ++ rest) := affords_of_path hpath (Or.inl hforced)
  rw [hrest] at ha
  exact ha.clear hn

/-! ### What has been paid for can be forced -/

variable (X req) in
def Goes (u : Run) (rs : List (Signal × Nat)) (v : Run) : Prop :=
  ∃ es, Path (step X req) Own u es v ∧ raised es = rs

theorem goes_act {e : Ev} (ho : Own u e) (hn : u.result = none) (ha : act X req u e = some v) :
    Goes X req u (raisedBy e) v :=
  ⟨[e], Path.head ho (step_some.mpr ⟨hn, ha⟩) .refl, by simp [raised]⟩

theorem Goes.trans {w : Run} {rs rs' : List (Signal × Nat)} (h : Goes X req u rs v)
    (g : Goes X req v rs' w) : Goes X req u (rs ++ rs') w := by
  obtain ⟨es, hes, rfl⟩ := h
  obtain ⟨fs, hfs, rfl⟩ := g
  exact ⟨es ++ fs, hes.append hfs, by simp [raised]⟩

def Run.selecting (u : Run) (last : Option Nat) (room : Sink → Nat) (q : List Signal) : Run :=
  { u with point := .select, room := room, lastInt := last, signals := q }

theorem goes_flush {k : Sink} {bytes : Bytes} {strict : Bool}
    (hp : u.point = .writing k bytes strict) (hn : u.result = none)
    (hfits : bytes.length ≤ u.room k) :
    Goes X req u []
      { u with point := .select, room := Function.update u.room k (u.room k - bytes.length) } := by
  by_cases hb : bytes = []
  · subst hb
    have hroom : Function.update u.room k (u.room k - ([] : Bytes).length) = u.room :=
      Function.update_eq_self k u.room
    rw [hroom]
    exact goes_act (e := .wrote) trivial hn (by simp only [act, hp])
  · have hpos : 0 < bytes.length := List.length_pos_iff.mpr hb
    have hwrite : act X req u (.write bytes.length) =
        some { u.take k bytes.length with point := .writing k [] strict } := by
      simp only [act, hp, hpos, Nat.le_refl, hfits, and_self, if_true, List.drop_length]
    exact Goes.trans (goes_act (e := .write bytes.length) trivial hn hwrite)
      (goes_act (e := .wrote) trivial hn rfl)

theorem size_signal (hX : SignalsEncode X) (sig : Signal) :
    ∃ bytes, writeExecFrame X [] (.signal sig) = .ok bytes ∧
      size X (.signal sig) = bytes.length := by
  obtain ⟨p, hp, hlen⟩ := hX sig
  have hlt : p.length < 2 ^ 32 := by
    unfold maxPayload at hlen
    omega
  have hf : writeExecFrame X [] (.signal sig) =
      .ok (ExecKind.signal.toByte :: leBytes p.length ++ p) := by
    simp only [writeExecFrame, encodeExecFrame, execPayload, toVec, hp, Except.mapError, Except.map,
      bind, Except.bind, encodeRaw, frameHeader_ok ExecKind.signal.toByte hlt]
    rfl
  exact ⟨_, hf, by rw [size, hf]; rfl⟩

theorem goes_forward (hX : SignalsEncode X) (hn : u.result = none) (hopen : u.signalsOpen = true)
    {last : Option Nat} {room : Sink → Nat} {sig : Signal} {rest : List Signal}
    (hstay : sig = .int → recent last u.now = false)
    (hfits : size X (.signal sig) ≤ room .daemon) :
    Goes X req (u.selecting last room (sig :: rest)) []
      (u.selecting (if sig = .int then some u.now else last)
        (Function.update room .daemon (room .daemon - size X (.signal sig))) rest) := by
  obtain ⟨bytes, hf, hsize⟩ := size_signal hX sig
  rw [hsize] at hfits ⊢
  have hrecv : act X req (u.selecting last room (sig :: rest)) .recv =
      some { u.selecting (if sig = .int then some u.now else last) room rest with
        point := .writing .daemon bytes true } := by
    by_cases hint : sig = .int
    · simp only [act, Run.selecting, hopen, and_self, if_true, Run.onSignal, hint, hstay hint,
        Bool.false_eq_true, if_false, Run.sendFrame]
      rw [hint] at hf
      simp only [hf]
    · simp only [act, Run.selecting, hopen, and_self, if_true, Run.onSignal, hint, if_false,
        Run.sendFrame, hf]
  refine Goes.trans (goes_act (u := u.selecting last room (sig :: rest)) (e := .recv) trivial hn
    hrecv) ?_
  exact goes_flush (k := .daemon) (u := { u.selecting (if sig = .int then some u.now else last)
    room rest with point := .writing .daemon bytes true }) rfl hn hfits

def forces (recent : Bool) : List Signal → Bool
  | [] => false
  | sig :: rest => if sig = .int then recent || forces true rest else forces recent rest

theorem recent_self (now : Nat) : recent (some now) now = true := by
  simp [recent, forceExitWindow]

variable (X) in
theorem toll_forward {last : Option Nat} {now : Nat} {sig : Signal} (rest : List Signal)
    (hstay : sig = .int → recent last now = false) :
    toll X (recent last now) (sig :: rest) =
        size X (.signal sig) + toll X (recent (if sig = .int then some now else last) now) rest ∧
      forces (recent last now) (sig :: rest) =
        forces (recent (if sig = .int then some now else last) now) rest := by
  rw [toll, forces]
  by_cases hint : sig = .int
  · simp [hint, hstay hint, recent_self]
  · simp [hint]

theorem goes_forced (hX : SignalsEncode X) (hn : u.result = none) (hopen : u.signalsOpen = true)
    {last : Option Nat} {room : Sink → Nat} {q : List Signal}
    (hf : forces (recent last u.now) q = true)
    (hroom : toll X (recent last u.now) q ≤ room .daemon) :
    ∃ v, Goes X req (u.selecting last room q) [] v ∧ v.result = some (.locally forced) := by
  induction q generalizing last room with
  | nil => cases hf
  | cons sig rest ih =>
    by_cases hnow : sig = .int ∧ recent last u.now = true
    · obtain ⟨rfl, hr⟩ := hnow
      have hrecv : act X req (u.selecting last room (.int :: rest)) .recv =
          some ((u.selecting last room rest).finish (.locally forced)) := by
        simp only [act, Run.selecting, hopen, and_self, if_true, Run.onSignal, hr]
      exact ⟨_, goes_act (u := u.selecting last room (.int :: rest)) (e := .recv) trivial hn hrecv,
        rfl⟩
    · have hstay : sig = .int → recent last u.now = false := fun hint => by
        simpa [hint] using hnow
      obtain ⟨ht, hfo⟩ := toll_forward X rest hstay
      rw [ht] at hroom
      rw [hfo] at hf
      have hfits : size X (.signal sig) ≤ room .daemon := Nat.le_trans (Nat.le_add_right _ _) hroom
      have hrest : toll X (recent (if sig = .int then some u.now else last) u.now) rest ≤
          Function.update room .daemon (room .daemon - size X (.signal sig)) .daemon := by
        rw [Function.update_self]
        omega
      obtain ⟨v, hv, hend⟩ := ih hf hrest
      exact ⟨v, (goes_forward hX hn hopen hstay hfits).trans hv, hend⟩

theorem goes_emptied (hX : SignalsEncode X) (hn : u.result = none) (hopen : u.signalsOpen = true)
    {last : Option Nat} {room : Sink → Nat} {q : List Signal}
    (hf : forces (recent last u.now) q = false)
    (hroom : toll X (recent last u.now) q ≤ room .daemon) :
    ∃ room', Goes X req (u.selecting last room q) []
      (u.selecting (if .int ∈ q then some u.now else last) room' []) := by
  induction q generalizing last room with
  | nil => exact ⟨room, [], .refl, rfl⟩
  | cons sig rest ih =>
    have hstay : sig = .int → recent last u.now = false := fun hint => by
      rw [forces, if_pos hint, Bool.or_eq_false_iff] at hf
      exact hf.1
    obtain ⟨ht, hfo⟩ := toll_forward X rest hstay
    rw [ht] at hroom
    rw [hfo] at hf
    have hfits : size X (.signal sig) ≤ room .daemon := Nat.le_trans (Nat.le_add_right _ _) hroom
    have hleft : toll X (recent (if sig = .int then some u.now else last) u.now) rest ≤
        Function.update room .daemon (room .daemon - size X (.signal sig)) .daemon := by
      rw [Function.update_self]
      omega
    obtain ⟨room', hgo⟩ := ih hf hleft
    have hlast : (if Signal.int ∈ sig :: rest then some u.now else last) =
        if Signal.int ∈ rest then some u.now else if sig = .int then some u.now else last := by
      by_cases hrest : Signal.int ∈ rest
      · simp [hrest]
      · by_cases hint : sig = .int
        · simp [hint]
        · have hint' : Signal.int ≠ sig := Ne.symm hint
          simp [hrest, hint, hint']
    rw [hlast]
    exact ⟨room', (goes_forward hX hn hopen hstay hfits).trans hgo⟩

theorem forces_true_iff (q : List Signal) : forces true q = true ↔ .int ∈ q := by
  induction q with
  | nil => simp [forces]
  | cons sig rest ih =>
    by_cases hint : sig = .int
    · simp [forces, hint]
    · have hint' : Signal.int ≠ sig := Ne.symm hint
      simp [forces, hint, hint', ih]

theorem mem_of_forces {r : Bool} {q : List Signal} (h : forces r q = true) : .int ∈ q := by
  induction q with
  | nil => cases h
  | cons sig rest ih =>
    by_cases hint : sig = .int
    · simp [hint]
    · rw [forces, if_neg hint] at h
      exact List.mem_cons_of_mem _ (ih h)

theorem toll_append_le (r : Bool) (q l : List Signal) : toll X r q ≤ toll X r (q ++ l) := by
  induction q generalizing r with
  | nil => exact Nat.zero_le _
  | cons sig rest ih =>
    rw [List.cons_append, toll, toll]
    split
    · split
      · exact Nat.le_refl _
      · exact Nat.add_le_add_left (ih true) _
    · exact Nat.add_le_add_left (ih r) _

theorem goes_select (hn : u.result = none) (h : Clear X req u coming) :
    ∃ room, Goes X req u [] (u.selecting u.lastInt room u.signals) ∧
      u.ahead X coming ≤ room .daemon := by
  cases hp : u.point with
  | connecting ready =>
    cases ready with
    | none => simp only [Clear, hp] at h
    | some r =>
      simp only [Clear, hp] at h
      obtain ⟨bytes, hf, hle⟩ := h
      have hconnect : act X req u (.connect none) =
          some { u with
            room := Function.update u.room .daemon r
            point := .writing .daemon bytes true } := by
        simp only [act, hp, Run.sendFrame, hf]
      have hfits : bytes.length ≤ Function.update u.room .daemon r .daemon := by
        rw [Function.update_self]
        omega
      refine ⟨_, (goes_act (e := .connect none) trivial hn hconnect).trans
        (goes_flush (k := .daemon) rfl hn hfits), ?_⟩
      rw [Function.update_self]
      change _ ≤ Function.update u.room .daemon r .daemon - _
      rw [Function.update_self]
      omega
  | writing k bytes strict =>
    have hk := (clear_writing hp).mp h
    have hleft : u.left k = bytes.length := by simp [Run.left, hp]
    refine ⟨_, goes_flush hp hn (by have := hk k; omega), ?_⟩
    have hd := hk .daemon
    rw [if_pos rfl] at hd
    by_cases he : k = .daemon
    · subst he
      rw [Function.update_self]
      omega
    · rw [Function.update_of_ne (Ne.symm he)]
      omega
  | select =>
    have hself : u.selecting u.lastInt u.room u.signals = u := by
      rw [Run.selecting, ← hp]
    exact ⟨u.room, hself ▸ ⟨[], .refl, rfl⟩, (clear_select hp).mp h⟩

theorem goes_raise (hn : u.result = none) (hsend : u.senders = true) {sig : Signal} {t : Nat}
    (ht : u.now ≤ t) :
    Goes X req u [(sig, t)] { u with now := t, signals := u.signals ++ [sig] } := by
  have htick : act X req u (.tick (t - u.now)) = some { u with now := t } := by
    rw [act, Nat.add_sub_cancel' ht]
  have hraise : act X req { u with now := t } (.raise sig t) =
      some { u with now := t, signals := u.signals ++ [sig] } := by
    simp only [act, hsend, and_self, if_true]
  exact Goes.trans (goes_act (e := .tick (t - u.now)) trivial hn htick)
    (goes_act (u := { u with now := t }) (e := .raise sig t) trivial hn hraise)

theorem canForce_of_clear (hX : SignalsEncode X) (hn : u.result = none)
    (hopen : u.signalsOpen = true) (hsend : u.senders = true) {t₁ t₂ : Nat} (h₁ : u.now ≤ t₁)
    (h₂ : t₁ ≤ t₂) (hw : t₂ - t₁ < forceExitWindow)
    (h : Clear X req u [(.int, t₁), (.int, t₂)]) : CanForce X req u t₁ t₂ := by
  obtain ⟨room, hselect, hroom⟩ := goes_select hn h
  rw [Run.ahead] at hroom
  by_cases hnow : forces (recent u.lastInt u.now) u.signals = true
  · -- The queue forces the exit before anything is raised.
    have hrec : u.recentAt [(.int, t₁), (.int, t₂)] = recent u.lastInt u.now := by
      rw [Run.recentAt, if_pos (mem_of_forces hnow)]
    rw [hrec] at hroom
    have hforced : ∃ v, Goes X req (u.selecting u.lastInt room u.signals) [] v ∧
        v.result = some (.locally forced) :=
      goes_forced hX hn hopen hnow (Nat.le_trans (toll_append_le _ _ _) hroom)
    obtain ⟨v, hv, hend⟩ := hforced
    obtain ⟨es, hes, hraised⟩ := hselect.trans hv
    exact ⟨es, v, hes, by simp [hraised], hend⟩
  · have hrec : u.recentAt [(.int, t₁), (.int, t₂)] = recent u.lastInt t₁ := by
      rw [Run.recentAt]
      split
      next hmem =>
        -- With an interrupt in the queue that does not force, none before it is recent.
        have hold : recent u.lastInt u.now = false := by
          by_contra hr
          rw [Bool.not_eq_false] at hr
          rw [hr, forces_true_iff] at hnow
          exact hnow hmem
        have hlater : recent u.lastInt t₁ = false := by
          by_contra hr
          rw [Bool.not_eq_false] at hr
          rw [recent_anti h₁ hr] at hold
          cases hold
        rw [hold, hlater]
      next => simp [Nat.max_eq_right h₁]
    rw [hrec] at hroom
    have hraise : Goes X req (u.selecting u.lastInt room u.signals) [(.int, t₁)]
        (({ u with now := t₁ } : Run).selecting u.lastInt room (u.signals ++ [.int])) :=
      goes_raise (u := u.selecting u.lastInt room u.signals) hn hsend h₁
    have hfront : toll X (recent u.lastInt t₁) (u.signals ++ [.int]) ≤ room .daemon := by
      refine Nat.le_trans (toll_append_le _ _ [.int]) ?_
      rw [List.append_assoc]
      exact hroom
    by_cases hone : forces (recent u.lastInt t₁) (u.signals ++ [.int]) = true
    · obtain ⟨v, hv, hend⟩ := goes_forced (u := { u with now := t₁ }) hX hn hopen hone hfront
      obtain ⟨es, hes, hraised⟩ := (hselect.trans hraise).trans hv
      exact ⟨es, v, hes, by simp [hraised], hend⟩
    · rw [Bool.not_eq_true] at hone
      obtain ⟨room', hempty⟩ := goes_emptied (u := { u with now := t₁ }) hX hn hopen hone hfront
      rw [if_pos (List.mem_append_right _ List.mem_cons_self)] at hempty
      have hraise₂ : Goes X req (({ u with now := t₁ } : Run).selecting (some t₁) room' [])
          [(.int, t₂)] (({ u with now := t₂ } : Run).selecting (some t₁) room' [.int]) :=
        goes_raise (u := ({ u with now := t₁ } : Run).selecting (some t₁) room' []) hn hsend h₂
      have hrec₂ : recent (some t₁) t₂ = true := decide_eq_true hw
      have hlast : forces (recent (some t₁) t₂) [.int] = true := by
        rw [hrec₂]
        rfl
      have hfree : toll X (recent (some t₁) t₂) [.int] ≤ room' .daemon := by
        rw [hrec₂]
        exact Nat.zero_le _
      obtain ⟨v, hv, hend⟩ := goes_forced (u := { u with now := t₂ }) hX hn hopen hlast hfree
      obtain ⟨es, hes, hraised⟩ :=
        (((hselect.trans hraise).trans hempty).trans hraise₂).trans hv
      exact ⟨es, v, hes, by simp [hraised], hend⟩

/-! ### Every reachable state -/

theorem sendFrame_channel (f : ExecFrame ExecRequest) (strict : Bool) :
    (u.sendFrame X f strict).signalsOpen = u.signalsOpen ∧
      (u.sendFrame X f strict).senders = u.senders := by
  unfold Run.sendFrame
  split
  · exact ⟨rfl, rfl⟩
  · split
    · exact ⟨rfl, rfl⟩
    · exact ⟨rfl, rfl⟩

/-- The receiver is given up only after the senders. -/
def Served (u : Run) : Prop := u.signalsOpen = false → u.senders = false

theorem Served.of_channel (h : Served u)
    (hv : v.signalsOpen = u.signalsOpen ∧ v.senders = u.senders) : Served v := by
  intro hc
  rw [hv.2]
  exact h (hv.1 ▸ hc)

theorem served_act {e : Ev} (h : Served u) (ha : act X req u e = some v) : Served v := by
  cases e with
  | connect failure =>
    simp only [act] at ha
    split at ha
    · obtain rfl := Option.some.inj ha
      exact h.of_channel (sendFrame_channel _ _)
    · obtain rfl := Option.some.inj ha
      exact h
    · cases ha
  | write n =>
    simp only [act] at ha
    split at ha
    · rw [Option.ite_none_right_eq_some] at ha
      obtain rfl := Option.some.inj ha.2
      exact h
    · cases ha
  | wrote | writeFails | accepting =>
    simp only [act] at ha
    split at ha <;> cases ha <;> exact h
  | stdin n =>
    rw [act, Option.ite_none_right_eq_some] at ha
    obtain rfl := Option.some.inj ha.2
    rcases n with e | _ | ⟨b, d⟩
    · exact h.of_channel (sendFrame_channel (u := { u with stdinOpen := false }) _ _)
    · exact h.of_channel (sendFrame_channel (u := { u with stdinOpen := false }) _ _)
    · exact h.of_channel (sendFrame_channel _ _)
  | frame r =>
    rw [act, Option.ite_none_right_eq_some] at ha
    obtain rfl := Option.some.inj ha.2
    rcases r with e | _ | f
    · exact h
    · exact h
    · cases f <;> exact h
  | recv =>
    rw [act, Option.ite_none_right_eq_some] at ha
    obtain ⟨-, hv⟩ := ha
    split at hv
    next sig rest hq =>
      obtain rfl := Option.some.inj hv
      unfold Run.onSignal
      split
      · split
        · exact h
        · exact h.of_channel
            (sendFrame_channel (u := { u with signals := rest, lastInt := some u.now }) _ _)
      · exact h.of_channel (sendFrame_channel (u := { u with signals := rest }) _ _)
    next =>
      rw [Option.ite_none_left_eq_some] at hv
      obtain rfl := Option.some.inj hv.2
      exact fun _ => by simpa using hv.1
  | tick ms =>
    obtain rfl := Option.some.inj ha
    exact h
  | raise sig time =>
    rw [act, Option.ite_none_right_eq_some] at ha
    obtain rfl := Option.some.inj ha.2
    exact h
  | drain k n =>
    obtain rfl := Option.some.inj ha
    exact h
  | hangUp =>
    obtain rfl := Option.some.inj ha
    exact fun _ => rfl

/-- In every reachable state two interrupts inside of the window force the exit exactly where the
bytes ahead of the second one fit. -/
theorem canForce_iff (X : ExecJson ExecRequest) (hX : SignalsEncode X) (req : ExecRequest)
    (room : Sink → Nat) (es : List Ev) (u : Run) (t₁ t₂ : Nat)
    (h : Path (step X req) Any (start room) es u) (hn : u.result = none)
    (hsend : u.senders = true) (h₁ : u.now ≤ t₁) (h₂ : t₁ ≤ t₂)
    (hw : t₂ - t₁ < forceExitWindow) :
    CanForce X req u t₁ t₂ ↔ Clear X req u [(.int, t₁), (.int, t₂)] := by
  have hserved : Served u :=
    h.invariant (fun _ _ _ hi _ hs => served_act hi (step_some.mp hs).2)
      (fun hc => by cases hc)
  have hopen : u.signalsOpen = true := by
    by_contra hc
    rw [Bool.not_eq_true] at hc
    rw [hserved hc] at hsend
    cases hsend
  exact ⟨clear_of_canForce hn, canForce_of_clear hX hn hopen hsend h₁ h₂ hw⟩

def forceJson : ExecJson ExecRequest where
  exec := .single sampleReq
    "\x7b\"host\":\"h\",\"command\":\"cat\",\"args\":[],\"cwd\":null,\"timeout_ms\":null,\"session\":null\x7d"
  signal := InputLanes.signalJson

theorem forceJson_signals : SignalsEncode forceJson := by
  intro s
  refine ⟨_, rfl, ?_⟩
  cases s <;> decide

/-- The request is written, on a connection that takes this much more. -/
def connected (spare : Nat) : List Ev :=
  [.accepting (87 + spare), .connect none, .write 87, .wrote]

/-- Room for one signal frame is enough for the first press. -/
theorem canForce_iff_connected :
    ∃ u, Path (step forceJson sampleReq) Any (start fun _ => 0) (connected 10) u ∧
      CanForce forceJson sampleReq u 0 999 := by
  have hrun : (run (step forceJson sampleReq) (connected 10) (start fun _ => 0)).map
      (fun u => (u.result.isNone, u.senders, u.now, u.point, u.room .daemon,
        u.ahead forceJson [(.int, 0), (.int, 999)])) = some (true, true, 0, .select, 10, 10) := by
    decide +kernel
  obtain ⟨u, hpath, hend⟩ := path_of_run_map hrun
  simp only [Prod.mk.injEq] at hend
  obtain ⟨hn, hsend, hnow, hpoint, hroom, hahead⟩ := hend
  have hclear : Clear forceJson sampleReq u [(.int, 0), (.int, 999)] := by
    rw [clear_select hpoint, hroom, hahead]
  exact ⟨u, hpath, (canForce_iff forceJson forceJson_signals sampleReq _ _ u 0 999 hpath
    (Option.isNone_iff_eq_none.mp hn) hsend (Nat.le_of_eq hnow) (Nat.zero_le _)
    (by decide)).mpr hclear⟩

/-- The daemon has stopped reading, and a chunk of stdin does not fit. -/
def stuffed : List Ev :=
  connected 14 ++ [.stdin (.ok (List.replicate 50 97)), .write 14]

/-- No two interrupts force the exit there, whenever they are raised. -/
theorem force_exit_not_always :
    ∃ u, Path (step forceJson sampleReq) Any (start fun _ => 0) stuffed u ∧ u.result = none ∧
      u.senders = true ∧ u.now = 0 ∧ ∀ t₁ t₂, ¬ CanForce forceJson sampleReq u t₁ t₂ := by
  have hrun : (run (step forceJson sampleReq) stuffed (start fun _ => 0)).map
      (fun u => (u.result.isNone, u.senders, u.now, u.point, u.room .daemon)) =
      some (true, true, 0, .writing .daemon (List.replicate 41 97) true, 0) := by
    decide +kernel
  obtain ⟨u, hpath, hend⟩ := path_of_run_map hrun
  simp only [Prod.mk.injEq] at hend
  obtain ⟨hn, hsend, hnow, hpoint, hroom⟩ := hend
  have hnone := Option.isNone_iff_eq_none.mp hn
  refine ⟨u, hpath, hnone, hsend, hnow, fun t₁ t₂ hc => ?_⟩
  have hk := (clear_writing hpoint).mp (clear_of_canForce hnone hc) .daemon
  have hleft : u.left .daemon = 41 := by simp [Run.left, hpoint]
  omega

end ShellProxy.ForceExit
