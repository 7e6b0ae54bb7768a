import ShellProxy.ControlLoop

/-! The input side of `execute` in sp-serve: the router of the transport, the stdin pump, the
control lane with the caught signals, and the control loop behind it. -/
namespace ShellProxy.ServeInput
open Frame Machine ControlLoop
variable {I : Type}

def stdinCap : Nat := 256
def ctrlCap : Nat := 16

inductive StdinMsg where
  | data (d : Bytes)
  | eof
  deriving DecidableEq, Repr

inductive Item where
  | frame (f : ExecFrame ServeExec)
  | closed
  | bad (e : String)
  deriving DecidableEq, Repr

/-- Where the router is: reading, or awaiting a send. -/
inductive Route where
  | reading
  | stdin (m : StdinMsg)
  | ctrl (c : Ctrl)
  | ended
  deriving DecidableEq, Repr

/-- The stdin pump. `writing` holds what `write_all` has still to write. -/
inductive Pump where
  | idle
  | writing (rest : Bytes)
  | ended
  deriving DecidableEq, Repr

/-- Who sends on the control lane. -/
inductive Source where
  | router | caught
  deriving DecidableEq, Repr

/-- `arrived` is all that the transport has brought, `unread` what the router has not read of it.
`childIn` is all that was written to the child's stdin, `handled` the control events of the router
that the loop has taken. -/
structure Serve (I : Type) where
  arrived : List Item := []
  unread : List Item := []
  route : Route := .reading
  stdinQ : List StdinMsg := []
  pump : Pump := .idle
  childClosed : Bool := false
  childIn : Bytes := []
  ctrlQ : List (Source × Ctrl) := []
  handled : List Ctrl := []
  loop : Loop I := {}

inductive Ev (I : Type) where
  | arrive (i : Item)
  | read
  | handOver
  | caught (s : Signal)
  | pumpTake
  | pumpWrite (n : Nat)
  | pumpWrote
  | pumpFails
  | pumpDone
  | childCloses
  | control
  | loop (e : ControlLoop.Ev I)

/-- The transport brings nothing after it. -/
def Item.terminal : Item → Bool
  | .frame _ => false
  | .closed | .bad _ => true

def Item.isStdin : Item → Bool
  | .frame (.stdinData _) | .frame .stdinEof => true
  | _ => false

def Item.route : Item → Route
  | .frame (.stdinData d) => .stdin (.data d)
  | .frame .stdinEof => .stdin .eof
  | .frame (.signal s) => .ctrl (.signal s)
  -- a reply to a ping may be dropped, a second request is ignored
  | .frame .ping | .frame (.exec _) => .reading
  | .closed => .ctrl .closed
  | .bad e => .ctrl (.bad e)

def terminal : Ctrl → Bool
  | .signal _ => false
  | .closed | .bad _ => true

def isCtrl : ControlLoop.Ev I → Bool
  | .select (.ctrl _) => true
  | _ => false

def step (K : Clock I) (s : Serve I) : Ev I → Option (Serve I)
  | .arrive i =>
    if s.arrived.all fun j => !j.terminal then
      some { s with arrived := s.arrived ++ [i], unread := s.unread ++ [i] }
    else none
  | .read =>
    match s.route, s.unread with
    | .reading, i :: rest => some { s with unread := rest, route := i.route }
    | _, _ => none
  | .handOver =>
    match s.route with
    | .stdin m =>
      -- the receiver is gone with the pump, and the router takes this for the end of the child
      if s.pump = .ended then some { s with route := .ended }
      else if s.stdinQ.length < stdinCap then
        some { s with stdinQ := s.stdinQ ++ [m], route := .reading }
      else none
    | .ctrl c =>
      -- the receiver lives as long as the loop
      if s.ctrlQ.length < ctrlCap then
        some { s with
          ctrlQ := s.ctrlQ ++ [(.router, c)]
          route := if terminal c then .ended else .reading }
      else none
    | _ => none
  | .caught sig =>
    if s.ctrlQ.length < ctrlCap then some { s with ctrlQ := s.ctrlQ ++ [(.caught, .signal sig)] }
    else none
  | .pumpTake =>
    match s.pump, s.stdinQ with
    | .idle, .data d :: rest => some { s with pump := .writing d, stdinQ := rest }
    | .idle, .eof :: rest => some { s with pump := .ended, stdinQ := rest }
    | _, _ => none
  | .pumpWrite n =>
    match s.pump with
    | .writing rest =>
      if s.childClosed = false ∧ 0 < n ∧ n ≤ rest.length then
        some { s with pump := .writing (rest.drop n), childIn := s.childIn ++ rest.take n }
      else none
    | _ => none
  | .pumpWrote => if s.pump = .writing [] then some { s with pump := .idle } else none
  | .pumpFails =>
    match s.pump with
    | .writing (_ :: _) => if s.childClosed = true then some { s with pump := .ended } else none
    | _ => none
  -- the sender is gone: the router has ended, or was aborted behind the loop
  | .pumpDone =>
    if s.pump = .idle ∧ s.stdinQ = [] ∧ (s.route = .ended ∨ s.loop.phase.loops = false) then
      some { s with pump := .ended }
    else none
  | .childCloses => some { s with childClosed := true }
  | .control =>
    match s.ctrlQ with
    | (src, c) :: rest =>
      (ControlLoop.step K s.loop (.select (.ctrl (some c)))).map fun l => { s with
        ctrlQ := rest
        handled := if src = .router then s.handled ++ [c] else s.handled
        loop := l }
    | [] => none
  -- the signal task keeps a sender: the lane is never closed while the loop runs
  | .loop e =>
    if isCtrl e then none else (ControlLoop.step K s.loop e).map fun l => { s with loop := l }

def ctrlOf (i : Item) : Option Ctrl :=
  match i.route with
  | .ctrl c => some c
  | _ => none

def held : Route → List Ctrl
  | .ctrl c => [c]
  | _ => []

def heldStdin : Route → Nat
  | .stdin _ => 1
  | _ => 0

/-- The stdin frames that stand before some control event. -/
def lead : List Item → Nat
  | [] => 0
  | i :: rest => (if i.isStdin && rest.any fun j => (ctrlOf j).isSome then 1 else 0) + lead rest

namespace Serve

def events (s : Serve I) : List Ctrl := s.arrived.filterMap ctrlOf

def queued (s : Serve I) : List Ctrl := (s.ctrlQ.filter fun p => p.1 = .router).map (·.2)

def ahead (s : Serve I) : List Ctrl := s.queued ++ (held s.route ++ s.unread.filterMap ctrlOf)

/-- The stdin frames that the router still has to hand over. -/
def waiting (s : Serve I) : Nat := heldStdin s.route + s.unread.countP Item.isStdin

/-- An item not read yet stands for a control event. -/
def pending (s : Serve I) : Bool := s.unread.any fun i => (ctrlOf i).isSome

def loops (s : Serve I) : Bool := s.loop.phase.loops

end Serve

def signals (cs : List Ctrl) : List Signal :=
  cs.filterMap fun c => match c with
    | .signal s => some s
    | _ => none

def forwarded (l : Loop I) : List Signal := (l.sent.filter fun k => k.cause = .forwarded).map (·.signal)

/-- Every signal the loop has taken from the router went to the group, and behind the end of the
transport the group was killed. -/
def Acted (s : Serve I) : Prop :=
  (signals s.handled).Sublist (forwarded s.loop) ∧
    (s.handled.any terminal = true → ⟨.bail, .kill⟩ ∈ s.loop.sent)

/-- While the command runs, no stdin frame waits for a pump that has ended, and what comes for the
loop does not come behind more stdin frames than the lane of the pump holds. -/
def Fed (s : Serve I) : Ev I → Prop
  | .arrive i => s.loops = true → (i.isStdin = true → s.pump ≠ .ended) ∧
      ((ctrlOf i).isSome = true → s.waiting + s.stdinQ.length ≤ stdinCap)
  | .pumpTake => s.loops = true → s.stdinQ.head? = some .eof → s.waiting = 0
  | .pumpFails | .pumpDone => s.loops = true → s.waiting = 0
  | _ => True

instance (s : Serve I) : (e : Ev I) → Decidable (Fed s e)
  | .arrive i => inferInstanceAs (Decidable (s.loops = true → (i.isStdin = true → s.pump ≠ .ended) ∧
      ((ctrlOf i).isSome = true → s.waiting + s.stdinQ.length ≤ stdinCap)))
  | .pumpTake =>
    inferInstanceAs (Decidable (s.loops = true → s.stdinQ.head? = some .eof → s.waiting = 0))
  | .pumpFails | .pumpDone => inferInstanceAs (Decidable (s.loops = true → s.waiting = 0))
  | .read | .handOver | .caught _ | .pumpWrite _ | .pumpWrote | .childCloses | .control
  | .loop _ => inferInstanceAs (Decidable True)

def Own (_ : Serve I) : Ev I → Prop
  | .read | .handOver | .control => True
  | _ => False

/-- The control events of the transport are taken in order, are acted on, and while the command
runs router and loop get to all that have arrived with no help of the pump or the child. -/
structure Controllable (K : Clock I) (s : Serve I) : Prop where
  order : s.handled <+: s.events
  acted : Acted s
  goes_on : s.loops = true →
    ∃ es t, Path (step K) Own s es t ∧ Acted t ∧ t.handled = s.events

structure Inv (s : Serve I) : Prop where
  order : s.handled ++ s.ahead = s.events
  last : ∀ c ∈ s.events.dropLast, terminal c = false
  acted : Acted s
  fed : s.loops = true → s.pump = .ended → s.waiting = 0
  room : s.loops = true → s.pending = true →
    heldStdin s.route + lead s.unread + s.stdinQ.length ≤ stdinCap
  stop : s.loops = true → s.route = .ended → (s.handled ++ s.queued).any terminal = true
  plain : ∀ p ∈ s.ctrlQ, p.1 = .caught → terminal p.2 = false
  opened : s.loop.ctrlOpen = true

section
variable {K : Clock I} {s u : Serve I}

theorem inv_init (l : Loop I) (h : l.ctrlOpen = true) : Inv ({ loop := l } : Serve I) where
  order := rfl
  last := by simp [Serve.events]
  acted := ⟨by simp [signals], by simp⟩
  fed _ h := by cases h
  room _ h := by cases h
  stop _ h := by cases h
  plain := by simp
  opened := h

@[simp] theorem held_reading : held .reading = [] := rfl
@[simp] theorem held_stdin (m : StdinMsg) : held (.stdin m) = [] := rfl
@[simp] theorem held_ctrl (c : Ctrl) : held (.ctrl c) = [c] := rfl
@[simp] theorem held_ended : held .ended = [] := rfl
@[simp] theorem heldStdin_reading : heldStdin .reading = 0 := rfl
@[simp] theorem heldStdin_stdin (m : StdinMsg) : heldStdin (.stdin m) = 1 := rfl
@[simp] theorem heldStdin_ctrl (c : Ctrl) : heldStdin (.ctrl c) = 0 := rfl
@[simp] theorem heldStdin_ended : heldStdin .ended = 0 := rfl

theorem ctrlOf_eq (i : Item) : held i.route = (ctrlOf i).toList ∧
    heldStdin i.route = (if i.isStdin then 1 else 0) := by
  cases i with
  | frame f => cases f <;> exact ⟨rfl, rfl⟩
  | closed => exact ⟨rfl, rfl⟩
  | bad e => exact ⟨rfl, rfl⟩

theorem terminal_ctrlOf {i : Item} {c : Ctrl} (h : ctrlOf i = some c) : terminal c = i.terminal := by
  cases i with
  | frame f =>
    cases f with
    | signal sig =>
      obtain rfl : Ctrl.signal sig = c := by simpa [ctrlOf, Item.route] using h
      rfl
    | exec req | stdinData d | stdinEof | ping => simp [ctrlOf, Item.route] at h
  | closed =>
    obtain rfl : Ctrl.closed = c := by simpa [ctrlOf, Item.route] using h
    rfl
  | bad e =>
    obtain rfl : Ctrl.bad e = c := by simpa [ctrlOf, Item.route] using h
    rfl

theorem route_not_ended (i : Item) : i.route ≠ .ended := by
  cases i with
  | frame f => cases f <;> simp [Item.route]
  | closed => simp [Item.route]
  | bad e => simp [Item.route]

theorem Acted.mono (h : Acted s) (hh : u.handled = s.handled) (hsent : s.loop.sent <+: u.loop.sent) :
    Acted u := by
  refine ⟨?_, fun ht => hsent.subset (h.2 (hh ▸ ht))⟩
  rw [hh]
  exact h.1.trans ((hsent.sublist.filter _).map _)

theorem Inv.pump (h : Inv s) {q : List StdinMsg} {p : Pump} {cc : Bool} {b : Bytes}
    (hq : q.length ≤ s.stdinQ.length)
    (hp : s.loops = true → p = .ended → s.pump = .ended ∨ s.waiting = 0) :
    Inv { s with stdinQ := q, pump := p, childClosed := cc, childIn := b } where
  order := h.order
  last := h.last
  acted := h.acted
  fed hl he := (hp hl he).elim (h.fed hl) id
  room hl hc := Nat.le_trans (Nat.add_le_add_left hq _) (h.room hl hc)
  stop := h.stop
  plain := h.plain
  opened := h.opened

theorem lead_append (is : List Item) (i : Item) : lead (is ++ [i]) =
    if (ctrlOf i).isSome then is.countP Item.isStdin else lead is := by
  have hone : lead [i] = 0 := by simp [lead]
  induction is with
  | nil => simp [hone, lead]
  | cons j rest ih =>
    rw [List.cons_append, lead, ih, List.any_append]
    cases hi : (ctrlOf i).isSome with
    | true =>
      simp only [List.any_cons, hi, Bool.true_or, Bool.or_true, Bool.and_true, if_true,
        List.countP_cons]
      omega
    | false => simp [hi, lead]

theorem inv_arrive (h : Inv s) {i : Item} (hok : Fed s (.arrive i))
    (hs : step K s (.arrive i) = some u) : Inv u := by
  simp only [step, Option.ite_none_right_eq_some, Option.some.injEq] at hs
  obtain ⟨hall, rfl⟩ := hs
  have hev : ({ s with arrived := s.arrived ++ [i], unread := s.unread ++ [i] } : Serve I).events =
      s.events ++ (ctrlOf i).toList := by
    simp only [Serve.events, List.filterMap_append]
    cases hc : ctrlOf i <;> simp [hc]
  have hplain : ∀ c ∈ s.events, terminal c = false := by
    intro c hc
    obtain ⟨j, hj, hjc⟩ := List.mem_filterMap.mp hc
    rw [terminal_ctrlOf hjc]
    simpa using List.all_eq_true.mp hall j hj
  have hwait : ({ s with arrived := s.arrived ++ [i], unread := s.unread ++ [i] } : Serve I).waiting =
      s.waiting + (if i.isStdin then 1 else 0) := by
    simp only [Serve.waiting, List.countP_append, List.countP_singleton]
    omega
  constructor
  · rw [hev, ← h.order]
    simp only [Serve.ahead, Serve.queued, List.filterMap_append]
    cases hc : ctrlOf i <;> simp [hc]
  · rw [hev]
    cases hc : ctrlOf i with
    | none =>
      rw [Option.toList_none, List.append_nil]
      exact fun c hm => hplain c (List.dropLast_subset _ hm)
    | some c => simpa using hplain
  · exact h.acted
  · intro hl he
    rw [hwait, h.fed hl he]
    cases hi : i.isStdin with
    | true => exact absurd he ((hok hl).1 hi)
    | false => rfl
  · intro hl hc
    simp only [Serve.pending, List.any_append, List.any_cons, List.any_nil, Bool.or_false,
      Bool.or_eq_true] at hc
    rw [lead_append]
    split
    · rename_i hi
      exact (hok hl).2 hi
    · rename_i hi
      exact h.room hl (hc.resolve_right hi)
  · exact h.stop
  · exact h.plain
  · exact h.opened

theorem read_spec (hs : step K s .read = some u) :
    ∃ i rest, s.route = .reading ∧ s.unread = i :: rest ∧
      u = { s with unread := rest, route := i.route } := by
  cases hr : s.route with
  | reading =>
    cases hun : s.unread with
    | nil => simp [step, hr, hun] at hs
    | cons i rest =>
      simp only [step, hr, hun, Option.some.injEq] at hs
      exact ⟨i, rest, rfl, rfl, hs.symm⟩
  | stdin m | ctrl c | ended => simp [step, hr] at hs

theorem handOver_spec (hs : step K s .handOver = some u) :
    (∃ m, s.route = .stdin m ∧ s.pump = .ended ∧ u = { s with route := .ended }) ∨
    (∃ m, s.route = .stdin m ∧ s.pump ≠ .ended ∧
      u = { s with stdinQ := s.stdinQ ++ [m], route := .reading }) ∨
    (∃ c, s.route = .ctrl c ∧ u = { s with
      ctrlQ := s.ctrlQ ++ [(.router, c)]
      route := if terminal c then .ended else .reading }) := by
  cases hr : s.route with
  | reading | ended => simp [step, hr] at hs
  | stdin m =>
    simp only [step, hr] at hs
    by_cases hp : s.pump = .ended
    · rw [if_pos hp, Option.some.injEq] at hs
      exact .inl ⟨m, rfl, hp, hs.symm⟩
    · rw [if_neg hp, Option.ite_none_right_eq_some, Option.some.injEq] at hs
      exact .inr (.inl ⟨m, rfl, hp, hs.2.symm⟩)
  | ctrl c =>
    simp only [step, hr, Option.ite_none_right_eq_some, Option.some.injEq] at hs
    exact .inr (.inr ⟨c, rfl, hs.2.symm⟩)

theorem control_spec (hs : step K s .control = some u) :
    ∃ src c rest, s.ctrlQ = (src, c) :: rest ∧ s.loops = true ∧
      u = { s with
        ctrlQ := rest
        handled := if src = .router then s.handled ++ [c] else s.handled
        loop := onSelect K s.loop (.ctrl (some c)) } := by
  cases hq : s.ctrlQ with
  | nil => simp [step, hq] at hs
  | cons p rest =>
    obtain ⟨src, c⟩ := p
    simp only [step, hq, Option.map_eq_some_iff] at hs
    obtain ⟨l, hl, rfl⟩ := hs
    cases hp : s.loop.phase with
    | looping =>
      simp only [ControlLoop.step, hp, Option.ite_none_right_eq_some, Option.some.injEq] at hl
      obtain ⟨-, rfl⟩ := hl
      exact ⟨src, c, rest, rfl, by simp [Serve.loops, hp, Phase.loops], rfl⟩
    | draining code | ended r =>
      simp only [ControlLoop.step, hp] at hl
      cases hl

theorem waiting_read (hs : step K s .read = some u) : u.waiting = s.waiting := by
  obtain ⟨i, rest, hr, hun, rfl⟩ := read_spec hs
  simp only [Serve.waiting, hr, hun, (ctrlOf_eq i).2, heldStdin_reading, List.countP_cons]
  omega

theorem inv_read (h : Inv s) (hs : step K s .read = some u) : Inv u := by
  have hwait := waiting_read hs
  obtain ⟨i, rest, hr, hun, rfl⟩ := read_spec hs
  obtain ⟨hheld, hstdin⟩ := ctrlOf_eq i
  constructor
  · refine Eq.trans ?_ h.order
    simp only [Serve.ahead, Serve.queued, hr, hun, hheld, held_reading, List.filterMap_cons]
    cases ctrlOf i <;> simp
  · exact h.last
  · exact h.acted
  · exact fun hl he => hwait.trans (h.fed hl he)
  · intro hl hc
    have hroom := h.room hl (by rw [Serve.pending, hun, List.any_cons, Bool.or_eq_true]; exact .inr hc)
    simp only [Serve.pending] at hc
    rw [hr, hun, lead, hc, Bool.and_true, heldStdin_reading, Nat.zero_add] at hroom
    rw [hstdin]
    exact hroom
  · exact fun _ he => absurd he (route_not_ended i)
  · exact h.plain
  · exact h.opened

theorem handed_over (c : Ctrl) : held (if terminal c then .ended else .reading) = [] ∧
    heldStdin (if terminal c then .ended else .reading) = 0 := by
  cases terminal c <;> exact ⟨rfl, rfl⟩

theorem inv_handOver (h : Inv s) (hs : step K s .handOver = some u) : Inv u := by
  rcases handOver_spec hs with ⟨m, hr, hp, rfl⟩ | ⟨m, hr, hp, rfl⟩ | ⟨c, hr, rfl⟩
  · -- a stdin frame that meets an ended pump is behind the loop
    have hout : s.loops = true → False := fun hl => by
      have hz := h.fed hl hp
      simp only [Serve.waiting, hr, heldStdin_stdin] at hz
      omega
    constructor
    · have ho := h.order
      simp only [Serve.ahead, Serve.queued, hr, held_stdin] at ho
      exact ho
    · exact h.last
    · exact h.acted
    · exact fun hl => absurd hl hout
    · exact fun hl => absurd hl hout
    · exact fun hl => absurd hl hout
    · exact h.plain
    · exact h.opened
  · constructor
    · have ho := h.order
      simp only [Serve.ahead, Serve.queued, hr, held_stdin] at ho
      exact ho
    · exact h.last
    · exact h.acted
    · exact fun _ he => absurd he hp
    · intro hl hc
      have hroom := h.room hl hc
      rw [hr, heldStdin_stdin] at hroom
      simp only [heldStdin_reading, List.length_append, List.length_singleton]
      omega
    · intro _ he
      cases he
    · exact h.plain
    · exact h.opened
  · have hroute := handed_over c
    have hqueue : ((s.ctrlQ ++ [(Source.router, c)]).filter fun p => p.1 = .router).map (·.2) =
        s.queued ++ [c] := by simp [Serve.queued]
    have hwait : ({ s with
        ctrlQ := s.ctrlQ ++ [(.router, c)]
        route := if terminal c then .ended else .reading } : Serve I).waiting = s.waiting := by
      simp only [Serve.waiting, hroute, hr, heldStdin_ctrl]
    constructor
    · refine Eq.trans ?_ h.order
      simp only [Serve.ahead, Serve.queued, hroute, hr, held_ctrl] at hqueue ⊢
      rw [hqueue]
      simp
    · exact h.last
    · exact h.acted
    · exact fun hl he => hwait.trans (h.fed hl he)
    · intro hl hc
      have hroom := h.room hl hc
      rw [hr, heldStdin_ctrl] at hroom
      rwa [hroute.2]
    · intro _ he
      cases hc : terminal c with
      | true =>
        rw [Serve.queued, hqueue]
        simp [hc]
      | false => simp [hc] at he
    · exact List.forall_mem_append.mpr ⟨h.plain, List.forall_mem_singleton.mpr (fun he => by cases he)⟩
    · exact h.opened

theorem inv_caught (h : Inv s) {sig : Signal} (hs : step K s (.caught sig) = some u) : Inv u := by
  simp only [step, Option.ite_none_right_eq_some, Option.some.injEq] at hs
  obtain ⟨-, rfl⟩ := hs
  have hqueue : ({ s with ctrlQ := s.ctrlQ ++ [(.caught, .signal sig)] } : Serve I).queued =
      s.queued := by simp [Serve.queued]
  constructor
  · refine Eq.trans ?_ h.order
    simp only [Serve.ahead, hqueue]
  · exact h.last
  · exact h.acted
  · exact h.fed
  · exact h.room
  · intro hl he
    rw [hqueue]
    exact h.stop hl he
  · exact List.forall_mem_append.mpr ⟨h.plain, List.forall_mem_singleton.mpr (fun _ => rfl)⟩
  · exact h.opened

theorem onSelect_ctrl (l : Loop I) (c : Ctrl) :
    (onSelect K l (.ctrl (some c))).ctrlOpen = l.ctrlOpen ∧
      (terminal c = true → ⟨.bail, .kill⟩ ∈ (onSelect K l (.ctrl (some c))).sent) ∧
      (terminal c = false → (onSelect K l (.ctrl (some c))).phase = l.phase) ∧
      forwarded (onSelect K l (.ctrl (some c))) = forwarded l ++ signals [c] := by
  cases c with
  | signal sig =>
    refine ⟨rfl, (fun h => by cases h), fun _ => rfl, ?_⟩
    simp [onSelect, Loop.send, forwarded, signals]
  | closed =>
    refine ⟨rfl, fun _ => by simp [onSelect, Loop.bail, Loop.send], (fun h => by cases h), ?_⟩
    simp [onSelect, Loop.bail, Loop.send, forwarded, signals]
  | bad e =>
    refine ⟨rfl, fun _ => by simp [onSelect, Loop.bail, Loop.send], (fun h => by cases h), ?_⟩
    simp [onSelect, Loop.bail, Loop.send, forwarded, signals]

theorem open_step {l l' : Loop I} {e : ControlLoop.Ev I} (hc : isCtrl e = false)
    (hs : ControlLoop.step K l e = some l') : l'.ctrlOpen = l.ctrlOpen := by
  cases e with
  | finish cwd state written =>
    cases hp : l.phase with
    | draining code =>
      simp only [ControlLoop.step, hp, Option.some.injEq] at hs
      subst hs
      rfl
    | looping | ended r => simp [ControlLoop.step, hp] at hs
  | select sel =>
    cases hp : l.phase with
    | draining code | ended r => simp [ControlLoop.step, hp] at hs
    | looping =>
      simp only [ControlLoop.step, hp, Option.ite_none_right_eq_some, Option.some.injEq] at hs
      obtain ⟨-, rfl⟩ := hs
      cases sel with
      | ctrl c => cases hc
      | exit st =>
        cases st with
        | error m => rfl
        | ok status =>
          simp only [onSelect]
          split <;> rfl
      | timeout now later =>
        simp only [onSelect, onTimeout]
        split
        · split <;> rfl
        · rfl
      | dead ok => cases ok <;> rfl

theorem inv_control (h : Inv s) (hs : step K s .control = some u) : Inv u := by
  obtain ⟨src, c, rest, hq, hl, rfl⟩ := control_spec hs
  obtain ⟨hopen, hkill, -, hfwd⟩ := onSelect_ctrl (K := K) s.loop c
  have hlog := sent_onSelect (K := K) s.loop (.ctrl (some c))
  have hplain : ∀ p ∈ rest, p.1 = .caught → terminal p.2 = false :=
    fun p hp => h.plain p (by rw [hq]; exact List.mem_cons_of_mem _ hp)
  cases src with
  | caught =>
    have hqueue : s.queued = (rest.filter fun p => p.1 = .router).map (·.2) := by
      simp [Serve.queued, hq]
    constructor
    · refine Eq.trans ?_ h.order
      simp only [Serve.ahead, hqueue]
      rfl
    · exact h.last
    · exact h.acted.mono rfl hlog
    · exact fun _ => h.fed hl
    · exact fun _ => h.room hl
    · intro _ he
      have hst := h.stop hl he
      rw [hqueue] at hst
      exact hst
    · exact hplain
    · exact hopen.trans h.opened
  | router =>
    have hqueue : s.queued = c :: (rest.filter fun p => p.1 = .router).map (·.2) := by
      simp [Serve.queued, hq]
    constructor
    · refine Eq.trans ?_ h.order
      simp only [Serve.ahead, hqueue]
      simp [Serve.queued]
    · exact h.last
    · constructor
      · simp only [if_true, hfwd, signals, List.filterMap_append]
        exact h.acted.1.append (List.Sublist.refl _)
      · intro ht
        simp only [if_true, List.any_append, Bool.or_eq_true] at ht
        rcases ht with ht | ht
        · exact hlog.subset (h.acted.2 ht)
        · exact hkill (by simpa using ht)
    · exact fun _ => h.fed hl
    · exact fun _ => h.room hl
    · intro _ he
      have hst := h.stop hl he
      rw [hqueue] at hst
      simpa [Serve.queued] using hst
    · exact hplain
    · exact hopen.trans h.opened

theorem inv_loop (h : Inv s) {e : ControlLoop.Ev I} (hs : step K s (.loop e) = some u) : Inv u := by
  cases hc : isCtrl e with
  | true => simp [step, hc] at hs
  | false =>
    simp only [step, hc, Bool.false_eq_true, if_false, Option.map_eq_some_iff] at hs
    obtain ⟨l, hl, rfl⟩ := hs
    obtain ⟨hlog, hback⟩ := sent_step hl
    have hopen : l.ctrlOpen = s.loop.ctrlOpen := open_step hc hl
    constructor
    · exact h.order
    · exact h.last
    · exact h.acted.mono rfl hlog
    · exact fun hlo => h.fed (hback hlo)
    · exact fun hlo => h.room (hback hlo)
    · exact fun hlo => h.stop (hback hlo)
    · exact h.plain
    · exact hopen.trans h.opened

theorem inv_pumpTake (h : Inv s) (hok : Fed s .pumpTake) (hs : step K s .pumpTake = some u) :
    Inv u := by
  cases hp : s.pump with
  | writing rest | ended => simp [step, hp] at hs
  | idle =>
    cases hq : s.stdinQ with
    | nil => simp [step, hp, hq] at hs
    | cons m rest =>
      cases m with
      | data d =>
        simp only [step, hp, hq, Option.some.injEq] at hs
        subst hs
        exact h.pump (by simp [hq]) fun _ he => by cases he
      | eof =>
        simp only [step, hp, hq, Option.some.injEq] at hs
        subst hs
        exact h.pump (by simp [hq]) fun hl _ => .inr (hok hl (by rw [hq]; rfl))

theorem inv_pumpWrite (h : Inv s) {n : Nat} (hs : step K s (.pumpWrite n) = some u) : Inv u := by
  cases hp : s.pump with
  | idle | ended => simp [step, hp] at hs
  | writing rest =>
    simp only [step, hp, Option.ite_none_right_eq_some, Option.some.injEq] at hs
    obtain ⟨-, rfl⟩ := hs
    exact h.pump (Nat.le_refl _) fun _ he => by cases he

theorem inv_pumpFails (h : Inv s) (hok : Fed s .pumpFails) (hs : step K s .pumpFails = some u) :
    Inv u := by
  cases hp : s.pump with
  | idle | ended => simp [step, hp] at hs
  | writing rest =>
    cases rest with
    | nil => simp [step, hp] at hs
    | cons b rest =>
      simp only [step, hp, Option.ite_none_right_eq_some, Option.some.injEq] at hs
      obtain ⟨-, rfl⟩ := hs
      exact h.pump (Nat.le_refl _) fun hl _ => .inr (hok hl)

theorem inv_step {e : Ev I} (h : Inv s) (hok : Fed s e) (hs : step K s e = some u) : Inv u := by
  cases e with
  | arrive i => exact inv_arrive h hok hs
  | read => exact inv_read h hs
  | handOver => exact inv_handOver h hs
  | caught sig => exact inv_caught h hs
  | pumpTake => exact inv_pumpTake h hok hs
  | pumpWrite n => exact inv_pumpWrite h hs
  | pumpWrote =>
    simp only [step, Option.ite_none_right_eq_some, Option.some.injEq] at hs
    obtain ⟨-, rfl⟩ := hs
    exact h.pump (Nat.le_refl _) fun _ he => by cases he
  | pumpFails => exact inv_pumpFails h hok hs
  | pumpDone =>
    simp only [step, Option.ite_none_right_eq_some, Option.some.injEq] at hs
    obtain ⟨-, rfl⟩ := hs
    exact h.pump (Nat.le_refl _) fun hl _ => .inr (hok hl)
  | childCloses =>
    simp only [step, Option.some.injEq] at hs
    subst hs
    exact h.pump (Nat.le_refl _) fun _ he => .inl he
  | control => exact inv_control h hs
  | loop e => exact inv_loop h hs

/-- What router and loop have still to do. -/
def work (s : Serve I) : Nat :=
  3 * s.unread.length + 2 * ((held s.route).length + heldStdin s.route) + s.ctrlQ.length

/-- What the steps of router and loop keep, counted from `s₀`. -/
structure Busy (s₀ s : Serve I) : Prop where
  inv : Inv s
  events : s.events = s₀.events
  under_way : s.loops = true ∨ s.handled.any terminal = true

theorem held_le (i : Item) : (held i.route).length + heldStdin i.route ≤ 1 := by
  cases i with
  | frame f => cases f <;> simp [Item.route]
  | closed => simp [Item.route]
  | bad e => simp [Item.route]

theorem busy_read {s₀ : Serve I} (h : Busy s₀ s) (hs : step K s .read = some u) :
    Busy s₀ u ∧ work u < work s := by
  have hinv := inv_read h.inv hs
  obtain ⟨i, rest, hr, hun, rfl⟩ := read_spec hs
  refine ⟨⟨hinv, h.events, h.under_way⟩, ?_⟩
  have hle := held_le i
  simp only [work, hr, hun, held_reading, heldStdin_reading, List.length_cons, List.length_nil]
  omega

theorem busy_handOver {s₀ : Serve I} (h : Busy s₀ s) (hs : step K s .handOver = some u) :
    Busy s₀ u ∧ work u < work s := by
  have hinv := inv_handOver h.inv hs
  rcases handOver_spec hs with ⟨m, hr, hp, rfl⟩ | ⟨m, hr, hp, rfl⟩ | ⟨c, hr, rfl⟩
  · exact ⟨⟨hinv, h.events, h.under_way⟩, by simp [work, hr]⟩
  · exact ⟨⟨hinv, h.events, h.under_way⟩, by simp [work, hr]⟩
  · obtain ⟨hheld, hstdin⟩ := handed_over c
    refine ⟨⟨hinv, h.events, h.under_way⟩, ?_⟩
    simp only [work, hr, hheld, hstdin, held_ctrl, heldStdin_ctrl, List.length_append,
      List.length_cons, List.length_nil]
    omega

theorem busy_control {s₀ : Serve I} (h : Busy s₀ s) (hs : step K s .control = some u) :
    Busy s₀ u ∧ work u < work s := by
  have hinv := inv_control h.inv hs
  obtain ⟨src, c, rest, hq, hl, rfl⟩ := control_spec hs
  obtain ⟨-, -, hgoes, -⟩ := onSelect_ctrl (K := K) s.loop c
  refine ⟨⟨hinv, h.events, ?_⟩, ?_⟩
  · have hmem : (src, c) ∈ s.ctrlQ := by simp [hq]
    cases hc : terminal c with
    | false =>
      refine h.under_way.imp (fun _ => ?_) fun ht => ?_
      · rw [← hl]
        exact congrArg Phase.loops (hgoes hc)
      · cases src <;> simp [ht]
    | true =>
      cases src with
      | caught =>
        have hno := h.inv.plain _ hmem rfl
        simp [hc] at hno
      | router => exact .inr (by simp [hc])
  · simp only [work, hq, List.length_cons]
    omega

theorem busy_step {s₀ : Serve I} {e : Ev I} (h : Busy s₀ s) (he : Own s₀ e)
    (hs : step K s e = some u) : Busy s₀ u ∧ work u < work s := by
  cases e with
  | read => exact busy_read h hs
  | handOver => exact busy_handOver h hs
  | control => exact busy_control h hs
  | arrive i | caught sig | pumpTake | pumpWrite n | pumpWrote | pumpFails | pumpDone
  | childCloses | loop e => exact he.elim

theorem Inv.all_handled (h : Inv s) (ht : s.handled.any terminal = true) : s.handled = s.events := by
  obtain ⟨c, hm, hc⟩ := List.any_eq_true.mp ht
  cases ha : s.ahead with
  | nil =>
    have ho := h.order
    rwa [ha, List.append_nil] at ho
  | cons x xs =>
    have hin : c ∈ s.events.dropLast := by
      rw [← h.order, ha, List.dropLast_append_of_ne_nil (List.cons_ne_nil x xs)]
      exact List.mem_append_left _ hm
    simp [h.last c hin] at hc

/-- Where router and loop cannot go on, they have got to everything. -/
theorem busy_final {s₀ : Serve I} (h : Busy s₀ s) (hend : ∀ e, Own s₀ e → step K s e = none) :
    s.handled = s.events := by
  rcases h.under_way with hl | ht
  · have hctrl : s.ctrlQ = [] := by
      have hc := hend .control trivial
      cases hq : s.ctrlQ with
      | nil => rfl
      | cons p rest =>
        obtain ⟨src, c⟩ := p
        cases hp : s.loop.phase with
        | looping => simp [step, hq, ControlLoop.step, hp, enabled, h.inv.opened] at hc
        | draining code | ended r => simp [Serve.loops, hp, Phase.loops] at hl
    have hqueue : s.queued = [] := by simp [Serve.queued, hctrl]
    have horder := h.inv.order
    cases hr : s.route with
    | reading =>
      have hread := hend .read trivial
      cases hun : s.unread with
      | nil =>
        simp only [Serve.ahead, hqueue, hr, hun, held_reading, List.filterMap_nil,
          List.append_nil] at horder
        exact horder
      | cons i rest => simp [step, hr, hun] at hread
    | ctrl c =>
      have hgo := hend .handOver trivial
      simp [step, hr, hctrl, ctrlCap] at hgo
    | ended =>
      have hst := h.inv.stop hl hr
      rw [hqueue, List.append_nil] at hst
      exact h.inv.all_handled hst
    | stdin m =>
      -- the lane is full, so nothing for the loop is behind the frame in the router's hands
      have hgo := hend .handOver trivial
      have hp : s.pump ≠ .ended := by
        intro hp
        simp [step, hr, hp] at hgo
      have hfull : stdinCap ≤ s.stdinQ.length := by
        by_contra hlt
        simp [step, hr, hp, Nat.lt_of_not_le hlt] at hgo
      have hnone : s.unread.filterMap ctrlOf = [] := by
        rw [List.filterMap_eq_nil_iff]
        intro i hi
        cases hc : ctrlOf i with
        | none => rfl
        | some c =>
          have hroom := h.inv.room hl (List.any_eq_true.mpr ⟨i, hi, by rw [hc]; rfl⟩)
          rw [hr, heldStdin_stdin] at hroom
          omega
      simp only [Serve.ahead, hqueue, hr, hnone, held_stdin, List.append_nil] at horder
      exact horder
  · exact h.inv.all_handled ht

theorem controllable_of_inv (h : Inv s) : Controllable K s where
  order := ⟨_, h.order⟩
  acted := h.acted
  goes_on hl := by
    have hbusy : Busy s s := ⟨h, rfl, .inl hl⟩
    obtain ⟨es, t, hpath, ht, hend⟩ :=
      exists_final work (Busy s) (Own s) (fun _ _ _ hb he hs => busy_step hb he hs) s hbusy
    refine ⟨es, t, hpath.mono fun _ e he => ?_, ht.inv.acted, ?_⟩
    · cases e <;> exact he
    · rw [← ht.events]
      exact busy_final ht hend

/-- Serve stays controllable in every run in which no stdin frame meets an ended pump and nothing
for the loop comes behind more stdin frames than fit in the lane of the pump. -/
theorem controllable_run (timeoutMs : Option Nat) (now : I) (es : List (Ev I))
    (h : Path (step K) Fed { loop := start K timeoutMs now } es s) : Controllable K s :=
  controllable_of_inv (h.invariant (fun _ _ _ hi hok hs => inv_step hi hok hs) (inv_init _ rfl))

/-- The child neither reads its stdin nor closes it. -/
def Unread (_ : Serve I) : Ev I → Prop
  | .pumpWrite _ | .childCloses => False
  | _ => True

/-- The router awaits room in the lane of a pump whose child reads nothing. -/
structure Stalled (s : Serve I) : Prop where
  route : ∃ m, s.route = .stdin m
  full : stdinCap ≤ s.stdinQ.length
  pump : ∃ b rest, s.pump = .writing (b :: rest)
  opened : s.childClosed = false

theorem stalled_step {e : Ev I} (h : Stalled s) (he : Unread s e) (hs : step K s e = some u) :
    Stalled u ∧ s.unread <+: u.unread := by
  obtain ⟨m, hr⟩ := h.route
  obtain ⟨b, rest, hp⟩ := h.pump
  cases e with
  | read => simp [step, hr] at hs
  | handOver => simp [step, hr, hp, Nat.not_lt.mpr h.full] at hs
  | pumpTake | pumpWrote | pumpDone => simp [step, hp] at hs
  | pumpFails => simp [step, hp, h.opened] at hs
  | pumpWrite n | childCloses => exact he.elim
  | arrive i | caught sig =>
    simp only [step, Option.ite_none_right_eq_some, Option.some.injEq] at hs
    obtain ⟨-, rfl⟩ := hs
    exact ⟨⟨h.route, h.full, h.pump, h.opened⟩, by simp⟩
  | control =>
    obtain ⟨src, c, todo, -, -, rfl⟩ := control_spec hs
    exact ⟨⟨h.route, h.full, h.pump, h.opened⟩, List.prefix_rfl⟩
  | loop l =>
    simp only [step] at hs
    split at hs
    · cases hs
    · obtain ⟨l', -, rfl⟩ := Option.map_eq_some_iff.mp hs
      exact ⟨⟨h.route, h.full, h.pump, h.opened⟩, List.prefix_rfl⟩

/-- A child that reads nothing holds back whatever is behind a full lane. -/
theorem held_back {es : List (Ev I)} (h : Stalled s) (hp : Path (step K) Unread s es u) :
    Stalled u ∧ s.unread <+: u.unread := by
  refine hp.invariant (I := fun u => Stalled u ∧ s.unread <+: u.unread) ?_ ⟨h, List.prefix_rfl⟩
  rintro x e y ⟨hx, hpre⟩ he hs
  obtain ⟨hy, hstep⟩ := stalled_step hx he hs
  exact ⟨hy, hpre.trans hstep⟩

/-- The router is gone and has left nothing behind. -/
def Deaf (s : Serve I) : Prop :=
  s.route = .ended ∧ (∀ p ∈ s.ctrlQ, p.1 = .caught) ∧ s.handled = []

theorem deaf_step {e : Ev I} (h : Deaf s) (hs : step K s e = some u) : Deaf u := by
  obtain ⟨hr, hq, hh⟩ := h
  cases e with
  | read | handOver => simp [step, hr] at hs
  | arrive i | caught sig =>
    simp only [step, Option.ite_none_right_eq_some, Option.some.injEq] at hs
    obtain ⟨-, rfl⟩ := hs
    refine ⟨hr, ?_, hh⟩
    first
      | exact hq
      | exact List.forall_mem_append.mpr ⟨hq, List.forall_mem_singleton.mpr rfl⟩
  | pumpWrote | pumpDone =>
    simp only [step, Option.ite_none_right_eq_some, Option.some.injEq] at hs
    obtain ⟨-, rfl⟩ := hs
    exact ⟨hr, hq, hh⟩
  | childCloses =>
    simp only [step, Option.some.injEq] at hs
    subst hs
    exact ⟨hr, hq, hh⟩
  | pumpTake | pumpWrite n | pumpFails =>
    simp only [step] at hs
    split at hs
    all_goals first
      | cases hs; exact ⟨hr, hq, hh⟩
      | split at hs
        · cases hs
          exact ⟨hr, hq, hh⟩
        · cases hs
      | cases hs
  | control =>
    obtain ⟨src, c, rest, hc, -, rfl⟩ := control_spec hs
    have hsrc : src = .caught := hq (src, c) (by simp [hc])
    refine ⟨hr, fun p hp => hq p (by rw [hc]; exact List.mem_cons_of_mem _ hp), ?_⟩
    simp [hsrc, hh]
  | loop e =>
    simp only [step] at hs
    split at hs
    · cases hs
    · obtain ⟨l, -, rfl⟩ := Option.map_eq_some_iff.mp hs
      exact ⟨hr, hq, hh⟩

theorem deaf_run {es : List (Ev I)} (h : Deaf s) (hp : Path (step K) Any s es u) : Deaf u :=
  hp.invariant (fun _ _ _ hd _ hs => deaf_step hd hs) h

end

/-- The child closes its stdin and runs on. The pump fails on the first chunk, the router on the
second; the TERM and the end of the transport behind them are never read. -/
def deafRun : List (Ev Nat) :=
  [.childCloses, .arrive (.frame (.stdinData [1])), .read, .handOver, .pumpTake, .pumpFails,
    .arrive (.frame (.stdinData [2])), .read, .handOver, .arrive (.frame (.signal .term)),
    .arrive .closed]

def deafEnd : Serve Nat where
  arrived := [.frame (.stdinData [1]), .frame (.stdinData [2]), .frame (.signal .term), .closed]
  unread := [.frame (.signal .term), .closed]
  route := .ended
  pump := .ended
  childClosed := true
  loop := start sampleClock none 0

theorem signal_never_forwarded :
    ∃ es s, Path (step sampleClock) Any { loop := start sampleClock none 0 } es s ∧
      s.loops = true ∧ s.events = [.signal .term, .closed] ∧
      (∀ fs t, Path (step sampleClock) Any s fs t → t.handled = []) ∧
      ¬ Controllable sampleClock s := by
  have hdeaf : Deaf deafEnd := ⟨rfl, by simp [deafEnd], rfl⟩
  have hrun : run (step sampleClock) deafRun { loop := start sampleClock none 0 } = some deafEnd := rfl
  refine ⟨deafRun, deafEnd, path_of_run hrun, rfl, rfl, fun fs t ht => (deaf_run hdeaf ht).2.2, ?_⟩
  intro hc
  obtain ⟨fs, t, ht, -, hend⟩ := hc.goes_on rfl
  obtain ⟨-, -, hh⟩ := deaf_run hdeaf (ht.mono fun _ _ _ => trivial)
  rw [hh] at hend
  cases hend

def fedRun : List (Ev Nat) :=
  [.arrive (.frame (.stdinData [1, 2])), .read, .handOver, .arrive (.frame .stdinEof), .pumpTake,
    .pumpWrite 2, .pumpWrote, .read, .handOver, .arrive (.frame (.signal .term)), .pumpTake,
    .read, .handOver, .control]

def fedEnd : Serve Nat where
  arrived := [.frame (.stdinData [1, 2]), .frame .stdinEof, .frame (.signal .term)]
  pump := .ended
  childIn := [1, 2]
  handled := [.signal .term]
  loop := { start sampleClock (some 1500) 0 with sent := [⟨.forwarded, .term⟩] }

theorem controllable_run_sample : Controllable sampleClock fedEnd :=
  controllable_run (some 1500) 0 fedRun (path_of_guarded
    (rfl : run (guarded (step sampleClock) Fed) fedRun { loop := start sampleClock (some 1500) 0 } =
      some fedEnd))

end ShellProxy.ServeInput
