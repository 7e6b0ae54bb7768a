import ShellProxy.ExecChannel

/-! The two routes of an interrupt: the SSH channel request that sshd turns into a signal to
serve, and the in-band frame that serve's router reads. Both end in serve's control loop. -/
namespace ShellProxy.Interrupts
open Frame Machine ExecChannel

def ctrlCap : Nat := 16

/-- One execution. `sent` are the signal frames the client has sent, `ipc` those of them the loop
of `handle_exec` has not taken. `oobSeen` of the channel's requests have reached sshd, `wireSeen`
of its written frames serve's router. `caught` are the kinds pending at the signal streams, which
coalesce repeats. -/
structure Exec where
  sent : List Signal := []
  ipc : List Signal := []
  chan : Chan := opened
  oobSeen : Nat := 0
  caught : List Signal := []
  sigHeld : Option Signal := none
  wireSeen : Nat := 0
  routeHeld : Option Signal := none
  ctrl : List Signal := []
  exited : Bool := false
  delivered : List Signal := []
  deriving DecidableEq

inductive Ev where
  | client (s : Signal)
  | forward
  | chan (e : ExecChannel.Ev)
  | sshd (delivers : Bool)
  | caughtRecv (s : Signal)
  | caughtSend
  | routeRecv
  | routeSend
  | control
  | childExit
  deriving DecidableEq

/-- `sig_tx.try_send(s)`: a full or closed lane drops the signal. -/
def trySend (c : Chan) (s : Signal) : Chan := (ExecChannel.step c (.pushSignal s)).getD c

/-- The signal of a frame, as the router passes it on. -/
def signalOf : ExecFrame ServeExec → Option Signal
  | .signal s => some s
  | _ => none

def step (x : Exec) : Ev → Option Exec
  | .client s => some { x with sent := x.sent ++ [s], ipc := x.ipc ++ [s] }
  | .forward =>
    match x.ipc with
    | s :: rest => some { x with ipc := rest, chan := trySend x.chan s }
    | [] => none
  | .chan (.pushSignal _) => none
  | .chan e => (ExecChannel.step x.chan e).map fun c => { x with chan := c }
  | .sshd delivers =>
    (x.chan.requests[x.oobSeen]?).map fun s => { x with
      oobSeen := x.oobSeen + 1
      caught := if delivers then x.caught.insert s else x.caught }
  | .caughtRecv s =>
    if s ∈ x.caught ∧ x.sigHeld = none then
      some { x with caught := x.caught.erase s, sigHeld := some s }
    else none
  | .caughtSend =>
    match x.sigHeld with
    | some s =>
      if x.ctrl.length < ctrlCap then some { x with sigHeld := none, ctrl := x.ctrl ++ [s] } else none
    | none => none
  | .routeRecv =>
    if x.routeHeld = none then
      (x.chan.written[x.wireSeen]?).map fun f => { x with
        wireSeen := x.wireSeen + 1
        routeHeld := signalOf f }
    else none
  | .routeSend =>
    match x.routeHeld with
    | some s =>
      if x.ctrl.length < ctrlCap then some { x with routeHeld := none, ctrl := x.ctrl ++ [s] } else none
    | none => none
  | .control =>
    match x.ctrl with
    | s :: rest =>
      if x.exited then none else some { x with ctrl := rest, delivered := x.delivered ++ [s] }
    | [] => none
  | .childExit => some { x with exited := true }

def ints (l : List Signal) : Nat := l.count .int

def requesting : Sender → List Signal
  | .requesting s => [s]
  | _ => []

def writing : Phase → List Signal
  | .writing f => (signalOf f).toList
  | _ => []

def waiting (c : Chan) : Nat := ints c.signals + ints (requesting c.sender)

/-- Copies the channel tasks have made: requests accepted, and frames queued, being written or
written. -/
def copies (c : Chan) : Nat :=
  ints c.requests + (ints c.inband + ints (writing c.phase)) + ints (c.written.filterMap signalOf)

/-- The in-band copy of an interrupt is queued although its request went out. -/
def Doubles (c : Chan) : ExecChannel.Ev → Prop
  | .sigRequested ok => ok = true ∧ c.sender = .requesting .int ∧ c.inband.length < inbandCap
  | _ => False

/-- The signal sender does not queue the in-band copy of an interrupt whose request went out. -/
def Single (x : Exec) : Ev → Prop
  | .chan e => ¬ Doubles x.chan e
  | _ => True

@[simp] theorem ints_nil : ints [] = 0 := rfl

theorem ints_cons (s : Signal) (l : List Signal) : ints (s :: l) = ints l + ints [s] := by
  simp [ints, List.count_cons]

@[simp] theorem ints_append (l m : List Signal) : ints (l ++ m) = ints l + ints m :=
  List.count_append

theorem ints_single_ne {s : Signal} (h : s ≠ .int) : ints [s] = 0 := by
  simp [ints, h]

theorem copies_relay (c : Chan) (s : Signal) :
    copies (c.relay s) ≤ copies c + ints [s] ∧
      (inbandCap ≤ c.inband.length → copies (c.relay s) = copies c) ∧
      waiting (c.relay s) = waiting c ∧
      (c.relay s).requests = c.requests ∧ (c.relay s).written = c.written := by
  unfold Chan.relay
  by_cases h : c.inband.length < inbandCap
  · rw [if_pos h]
    refine ⟨?_, fun hf => absurd h (Nat.not_lt.mpr hf), rfl, rfl, rfl⟩
    simp only [copies, ints_append]
    omega
  · rw [if_neg h]
    exact ⟨Nat.le_add_right _ _, fun _ => rfl, rfl, rfl, rfl⟩

theorem copies_take (c : Chan) (b : Branch) (hp : c.phase = .top) :
    copies (c.take b) = copies c ∧ waiting (c.take b) = waiting c ∧
      (c.take b).requests = c.requests ∧ (c.take b).written = c.written := by
  cases b with
  | shutdown => simp [Chan.take, copies, waiting, hp, writing]
  | inband =>
    cases hi : c.inband with
    | nil => cases ho : c.stdinOpen <;> simp [Chan.take, copies, waiting, hi, hp, ho, writing]
    | cons s rest =>
      have hc := ints_cons s rest
      simp [Chan.take, copies, waiting, hi, hp, writing, signalOf, hc]
  | stdin =>
    cases hs : c.stdin with
    | nil => simp [Chan.take, copies, waiting, hs, hp]
    | cons e rest => cases e <;> simp [Chan.take, copies, waiting, hs, hp, writing, signalOf]

theorem copies_afterWrite (c : Chan) (f : ExecFrame ServeExec) (r : WriteEnd)
    (hp : c.phase = .writing f) :
    copies (c.afterWrite f r) ≤ copies c ∧ waiting (c.afterWrite f r) = waiting c ∧
      (c.afterWrite f r).requests = c.requests ∧ c.written <+: (c.afterWrite f r).written := by
  cases r with
  | ok =>
    refine ⟨?_, rfl, rfl, List.prefix_append _ _⟩
    have hf : [f].filterMap signalOf = (signalOf f).toList := by cases f <;> rfl
    simp only [Chan.afterWrite, copies, hp, writing, List.filterMap_append, hf, ints_append,
      ints_nil]
    omega
  | err =>
    unfold Chan.afterWrite
    by_cases hf : f = .stdinEof
    · rw [if_pos hf]
      refine ⟨?_, rfl, rfl, List.prefix_rfl⟩
      simp only [copies, writing, ints_nil]
      omega
    · rw [if_neg hf]
      refine ⟨?_, rfl, rfl, List.prefix_rfl⟩
      simp only [copies, writing, ints_nil]
      omega
  | cancelled =>
    refine ⟨?_, rfl, rfl, List.prefix_rfl⟩
    simp only [Chan.afterWrite, copies, writing, ints_nil]
    omega

theorem copies_requested (w : Nat) (c : Chan) (s : Signal) (ok : Bool)
    (hx : c.sender = .requesting s) (hw : w = 2 ∨ w = 1 ∧ ¬ Doubles c (.sigRequested ok)) :
    let b : Chan := { c with
      sender := .waiting
      requests := if ok then c.requests ++ [s] else c.requests }
    w * waiting (b.relay s) + copies (b.relay s) ≤ w * waiting c + copies c ∧
      c.requests <+: (b.relay s).requests ∧ c.written <+: (b.relay s).written := by
  intro b
  obtain ⟨hc, hfull, hwt, hr, hwr⟩ := copies_relay b s
  have hcw : waiting c = ints c.signals + ints [s] := by simp only [waiting, hx, requesting]
  have hbw : waiting b = ints c.signals := by simp [waiting, b, requesting]
  rw [hwt, hr, hwr, hbw, hcw]
  cases ok with
  | false =>
    have hb : copies b = copies c := rfl
    refine ⟨?_, List.prefix_rfl, List.prefix_rfl⟩
    rcases hw with rfl | ⟨rfl, -⟩ <;> omega
  | true =>
    have hb : copies b = copies c + ints [s] := by
      simp only [copies, b, if_true, ints_append]
      omega
    refine ⟨?_, List.prefix_append _ _, List.prefix_rfl⟩
    rcases hw with rfl | ⟨rfl, hd⟩
    · omega
    · by_cases hs : s = .int
      · have hlen : inbandCap ≤ b.inband.length := by
          apply Nat.not_lt.mp
          intro hlt
          exact hd ⟨rfl, by rw [hx, hs], hlt⟩
        have he := hfull hlen
        omega
      · have hz := ints_single_ne hs
        omega

/-- What the channel tasks do with interrupts: with weight `w` on one that waits, no step of them
raises the sum, when either every interrupt counts for two copies or none is doubled. -/
theorem chan_step (w : Nat) (c d : Chan) (e : ExecChannel.Ev) (hw : w = 2 ∨ w = 1 ∧ ¬ Doubles c e)
    (hp : ∀ s, e ≠ .pushSignal s) (hs : ExecChannel.step c e = some d) :
    w * waiting d + copies d ≤ w * waiting c + copies c ∧
      c.requests <+: d.requests ∧ c.written <+: d.written := by
  cases e with
  | pushSignal s => exact absurd rfl (hp s)
  | pushStdin x =>
    obtain ⟨-, hs⟩ := Option.ite_none_right_eq_some.mp hs
    obtain rfl := Option.some.inj hs
    exact ⟨Nat.le_refl _, List.prefix_rfl, List.prefix_rfl⟩
  | dropSignals | dropStdin | fire =>
    obtain rfl := Option.some.inj hs
    exact ⟨Nat.le_refl _, List.prefix_rfl, List.prefix_rfl⟩
  | sigRecv =>
    simp only [ExecChannel.step] at hs
    split at hs
    · rename_i s rest hx hg
      have hcw : waiting c = ints rest + ints [s] := by
        simp only [waiting, hg, hx, requesting, ints_cons s rest, ints_nil, Nat.add_zero]
      split at hs
      · obtain rfl := Option.some.inj hs
        refine ⟨Nat.add_le_add_right (Nat.mul_le_mul_left w ?_) _, List.prefix_rfl, List.prefix_rfl⟩
        rw [hcw]
        exact Nat.le_refl _
      · rename_i ho
        obtain rfl := Option.some.inj hs
        have hz : ints [s] = 0 := ints_single_ne (by simpa [goesOutOfBand] using ho)
        obtain ⟨hc, -, hwt, hr, hwr⟩ := copies_relay { c with signals := rest } s
        have hbw : waiting { c with signals := rest } = waiting c := by
          rw [hcw, hz]
          simp [waiting, hx, requesting]
        rw [hwt, hr, hwr, hbw]
        rw [hz] at hc
        exact ⟨Nat.add_le_add_left hc _, List.prefix_rfl, List.prefix_rfl⟩
    · cases hs
  | sigNone =>
    obtain ⟨hg, hs⟩ := Option.ite_none_right_eq_some.mp hs
    obtain rfl := Option.some.inj hs
    refine ⟨Nat.add_le_add_right (Nat.mul_le_mul_left w ?_) _, List.prefix_rfl, List.prefix_rfl⟩
    simp [waiting, requesting]
  | sigStop =>
    obtain ⟨-, hs⟩ := Option.ite_none_right_eq_some.mp hs
    obtain rfl := Option.some.inj hs
    refine ⟨Nat.add_le_add_right (Nat.mul_le_mul_left w ?_) _, List.prefix_rfl, List.prefix_rfl⟩
    simp [waiting, requesting]
  | sigRequested ok =>
    simp only [ExecChannel.step] at hs
    split at hs
    · rename_i s hx
      obtain rfl := Option.some.inj hs
      exact copies_requested w c s ok hx hw
    · cases hs
  | poll b =>
    obtain ⟨hg, hs⟩ := Option.ite_none_right_eq_some.mp hs
    obtain rfl := Option.some.inj hs
    obtain ⟨hc, hwt, hr, hwr⟩ := copies_take c b hg.1
    rw [hc, hwt, hr, hwr]
    exact ⟨Nat.le_refl _, List.prefix_rfl, List.prefix_rfl⟩
  | wrote r =>
    simp only [ExecChannel.step] at hs
    split at hs
    · rename_i f hph
      split at hs
      · cases hs
      · obtain rfl := Option.some.inj hs
        obtain ⟨hc, hwt, hr, hwr⟩ := copies_afterWrite c f r hph
        rw [hwt, hr]
        exact ⟨Nat.add_le_add_left hc _, List.prefix_rfl, hwr⟩
    · cases hs

theorem trySend_spec (c : Chan) (s : Signal) :
    waiting (trySend c s) ≤ waiting c + ints [s] ∧ copies (trySend c s) = copies c ∧
      (trySend c s).requests = c.requests ∧ (trySend c s).written = c.written := by
  unfold trySend
  cases h : ExecChannel.step c (.pushSignal s) with
  | none => exact ⟨Nat.le_add_right _ _, rfl, rfl, rfl⟩
  | some d =>
    obtain ⟨-, hs⟩ := Option.ite_none_right_eq_some.mp h
    obtain rfl := Option.some.inj hs
    refine ⟨?_, rfl, rfl, rfl⟩
    simp only [Option.getD_some, waiting, ints_append]
    omega

theorem ints_insert (l : List Signal) (s : Signal) : ints (l.insert s) ≤ ints l + ints [s] := by
  by_cases h : s ∈ l
  · rw [List.insert_of_mem h]
    omega
  · exact Nat.le_of_eq (by rw [List.insert_of_not_mem h, ints_cons])

theorem ints_erase {l : List Signal} {s : Signal} (h : s ∈ l) :
    ints l = ints (l.erase s) + ints [s] := by
  rw [← ints_cons]
  exact (List.perm_cons_erase h).count_eq _

/-- What holds in every state, with `w` copies allowed for each interrupt: those on their way and
those sent out come from interrupts of the client, and serve's come from those sent out. -/
structure Inv (w : Nat) (x : Exec) : Prop where
  oob : x.oobSeen ≤ x.chan.requests.length
  wire : x.wireSeen ≤ x.chan.written.length
  made : w * (ints x.ipc + waiting x.chan) + copies x.chan ≤ w * ints x.sent
  served : ints x.delivered + (ints x.ctrl + (ints x.caught + ints x.sigHeld.toList) +
      ints x.routeHeld.toList) ≤
    ints (x.chan.requests.take x.oobSeen) + ints ((x.chan.written.take x.wireSeen).filterMap signalOf)

theorem inv_init (w : Nat) : Inv w {} where
  oob := Nat.le_refl _
  wire := Nat.le_refl _
  made := by simp [waiting, copies, opened, requesting, writing]
  served := by simp

theorem ints_prefix {l m : List Signal} (h : l <+: m) : ints l ≤ ints m := by
  obtain ⟨t, rfl⟩ := h
  rw [ints_append]
  omega

theorem Inv.delivered_le {w : Nat} {x : Exec} (h : Inv w x) : ints x.delivered ≤ w * ints x.sent := by
  have hs := h.served
  have hm := h.made
  have hr : ints (x.chan.requests.take x.oobSeen) ≤ ints x.chan.requests :=
    ints_prefix (List.take_prefix _ _)
  have hw : ints ((x.chan.written.take x.wireSeen).filterMap signalOf) ≤
      ints (x.chan.written.filterMap signalOf) :=
    ints_prefix ((List.take_prefix _ _).filterMap signalOf)
  simp only [copies] at hm
  omega

theorem Inv.chan {w : Nat} {x : Exec} (h : Inv w x) (d : Chan)
    (hm : w * waiting d + copies d ≤ w * waiting x.chan + copies x.chan)
    (hr : x.chan.requests <+: d.requests) (hw : x.chan.written <+: d.written) :
    Inv w { x with chan := d } := by
  obtain ⟨rs, hrs⟩ := hr
  obtain ⟨fs, hfs⟩ := hw
  refine ⟨?_, ?_, ?_, ?_⟩
  · have ho := h.oob
    simp only [← hrs, List.length_append]
    omega
  · have ho := h.wire
    simp only [← hfs, List.length_append]
    omega
  · have hmade := h.made
    rw [Nat.mul_add] at hmade ⊢
    simp only
    omega
  · have hs := h.served
    simp only [← hrs, ← hfs, List.take_append_of_le_length h.oob, List.take_append_of_le_length h.wire]
    exact hs

theorem inv_step (w : Nat) (x y : Exec) (e : Ev) (h : Inv w x) (hw : w = 2 ∨ w = 1 ∧ Single x e)
    (hs : step x e = some y) : Inv w y := by
  cases e with
  | client s =>
    obtain rfl := Option.some.inj hs
    refine ⟨h.oob, h.wire, ?_, h.served⟩
    have hm := h.made
    simp only [ints_append, Nat.mul_add] at hm ⊢
    omega
  | forward =>
    simp only [step] at hs
    split at hs
    · rename_i s rest hi
      obtain rfl := Option.some.inj hs
      obtain ⟨hwt, hc, hr, hwr⟩ := trySend_spec x.chan s
      refine ⟨by rw [hr]; exact h.oob, by rw [hwr]; exact h.wire, ?_, by rw [hr, hwr]; exact h.served⟩
      have hm := h.made
      rw [hi, ints_cons] at hm
      have hle : w * (ints rest + waiting (trySend x.chan s)) ≤
          w * (ints rest + ints [s] + waiting x.chan) := by
        apply Nat.mul_le_mul_left
        omega
      simp only [hc]
      omega
    · cases hs
  | chan e =>
    have hp : ∀ s, e ≠ .pushSignal s := by
      rintro s rfl
      cases hs
    have he : (ExecChannel.step x.chan e).map (fun c => { x with chan := c }) = some y := by
      rw [← hs]
      cases e <;> first | rfl | exact absurd rfl (hp _)
    obtain ⟨d, hd, rfl⟩ := Option.map_eq_some_iff.mp he
    obtain ⟨hm, hr, hwr⟩ := chan_step w x.chan d e hw hp hd
    exact h.chan d hm hr hwr
  | sshd delivers =>
    obtain ⟨s, hg, rfl⟩ := Option.map_eq_some_iff.mp hs
    obtain ⟨hlt, -⟩ := List.getElem?_eq_some_iff.mp hg
    refine ⟨hlt, h.wire, h.made, ?_⟩
    have hsv := h.served
    have hc : ints (if delivers then x.caught.insert s else x.caught) ≤ ints x.caught + ints [s] := by
      cases delivers with
      | false => exact Nat.le_add_right _ _
      | true => exact ints_insert x.caught s
    simp only [List.take_add_one, hg, Option.toList_some, ints_append]
    omega
  | caughtRecv s =>
    obtain ⟨⟨hmem, hn⟩, hs⟩ := Option.ite_none_right_eq_some.mp hs
    obtain rfl := Option.some.inj hs
    refine ⟨h.oob, h.wire, h.made, ?_⟩
    have hsv := h.served
    have he := ints_erase hmem
    simp only [hn, Option.toList_none, Option.toList_some, ints_nil] at hsv ⊢
    omega
  | caughtSend =>
    simp only [step] at hs
    split at hs
    · rename_i s hh
      obtain ⟨-, hs⟩ := Option.ite_none_right_eq_some.mp hs
      obtain rfl := Option.some.inj hs
      refine ⟨h.oob, h.wire, h.made, ?_⟩
      have hsv := h.served
      simp only [hh, Option.toList_none, Option.toList_some, ints_nil, ints_append] at hsv ⊢
      omega
    · cases hs
  | routeRecv =>
    obtain ⟨hn, hs⟩ := Option.ite_none_right_eq_some.mp hs
    obtain ⟨f, hg, rfl⟩ := Option.map_eq_some_iff.mp hs
    obtain ⟨hlt, -⟩ := List.getElem?_eq_some_iff.mp hg
    refine ⟨h.oob, hlt, h.made, ?_⟩
    have hsv := h.served
    have hf : [f].filterMap signalOf = (signalOf f).toList := by cases f <;> rfl
    simp only [hn, Option.toList_none, ints_nil] at hsv
    simp only [List.take_add_one, hg, Option.toList_some, List.filterMap_append, hf, ints_append]
    omega
  | routeSend =>
    simp only [step] at hs
    split at hs
    · rename_i s hh
      obtain ⟨-, hs⟩ := Option.ite_none_right_eq_some.mp hs
      obtain rfl := Option.some.inj hs
      refine ⟨h.oob, h.wire, h.made, ?_⟩
      have hsv := h.served
      simp only [hh, Option.toList_none, Option.toList_some, ints_nil, ints_append] at hsv ⊢
      omega
    · cases hs
  | control =>
    simp only [step] at hs
    split at hs
    · rename_i s rest hc
      split at hs
      · cases hs
      · obtain rfl := Option.some.inj hs
        refine ⟨h.oob, h.wire, h.made, ?_⟩
        have hsv := h.served
        rw [hc, ints_cons] at hsv
        simp only [ints_append]
        omega
    · cases hs
  | childExit =>
    obtain rfl := Option.some.inj hs
    exact ⟨h.oob, h.wire, h.made, h.served⟩

/-- Where the signal sender never doubles an interrupt, serve delivers no more interrupts than the
client sent. -/
theorem single_delivery (es : List Ev) (x : Exec) (h : Path step Single {} es x) :
    ints x.delivered ≤ ints x.sent := by
  have hi := h.invariant (I := Inv 1)
    (fun y e z hy ho hs => inv_step 1 y z e hy (.inr ⟨rfl, ho⟩) hs) (inv_init 1)
  simpa using hi.delivered_le

def refusedRun : List Ev :=
  [.client .int, .forward, .chan .sigRecv, .chan (.sigRequested false), .chan (.poll .inband),
    .chan (.wrote .ok), .routeRecv, .routeSend, .control]

theorem single_delivery_sample :
    ∃ x, run step refusedRun {} = some x ∧ ints x.delivered ≤ ints x.sent := by
  refine ⟨_, rfl, single_delivery refusedRun _ ?_⟩
  have hr : Single { chan := { opened with sender := .requesting .int }, sent := [.int] }
      (.chan (.sigRequested false)) := fun h => Bool.noConfusion h.1
  exact Path.head trivial rfl (Path.head trivial rfl (Path.head id rfl (Path.head hr rfl
    (Path.head id rfl (Path.head id rfl (Path.head trivial rfl (Path.head trivial rfl
      (Path.head trivial rfl .refl))))))))

/-- The request goes out and is delivered; the frame follows it. -/
def bothRoutesRun : List Ev :=
  [.client .int, .forward, .chan .sigRecv, .chan (.sigRequested true), .sshd true,
    .caughtRecv .int, .caughtSend, .control, .chan (.poll .inband), .chan (.wrote .ok),
    .routeRecv, .routeSend, .control]

theorem both_routes_deliver :
    ∃ x, Path step Any {} bothRoutesRun x ∧ x.sent = [.int] ∧ x.delivered = [.int, .int] ∧
      ¬ ints x.delivered ≤ ints x.sent :=
  ⟨_, path_of_run rfl, rfl, rfl, by decide⟩

/-- Two deliveries for each interrupt is the most there can be. -/
theorem double_delivery_bound (es : List Ev) (x : Exec) (h : Path step Any {} es x) :
    ints x.delivered ≤ 2 * ints x.sent := by
  have hi := h.invariant (I := Inv 2)
    (fun y e z hy _ hs => inv_step 2 y z e hy (.inl rfl) hs) (inv_init 2)
  exact hi.delivered_le

end ShellProxy.Interrupts
