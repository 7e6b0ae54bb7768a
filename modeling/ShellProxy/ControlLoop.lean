import ShellProxy.Reports
import ShellProxy.Lib.Machine

/-! The control loop of `execute` in sp-serve with its two deadlines, the make-up KILL behind it
and the report: what is sent to the process group of the command, and when. -/
namespace ShellProxy.ControlLoop
open Frame Machine Reports
variable {I : Type}

/-- The clock. `due d now` says that the instant `d` has come. -/
structure Clock (I : Type) where
  due : I → I → Bool
  checkedAdd : I → Nat → Option I

/-- Milliseconds between the timeout TERM and the escalating KILL. -/
def termGrace : Nat := 5000

inductive ExitStatus where
  | code (c : Int)
  | signal (s : Int)
  | other
  deriving DecidableEq, Repr

def statusCode : ExitStatus → Int
  | .code c => c
  | .signal s => 128 + s
  | .other => 255

inductive Ctrl where
  | signal (s : Signal)
  | closed
  | bad (e : String)
  deriving DecidableEq, Repr

/-- What the select returns. A deadline is found due at `now`; the clock is read again, as
`later`, to schedule the grace. -/
inductive Sel (I : Type) where
  | ctrl (c : Option Ctrl)
  | exit (s : Except String ExitStatus)
  | timeout (now later : I)
  | dead (ok : Bool)

inductive Cause where
  | forwarded | timeoutTerm | escalation | makeUp | bail
  deriving DecidableEq, Repr

structure Kill where
  cause : Cause
  signal : Signal
  deriving DecidableEq, Repr

/-- In the loop, past it with the exit code of the child, or returned. -/
inductive Phase where
  | looping
  | draining (code : Int)
  | ended (r : Except String ExitReport)

def Phase.loops : Phase → Bool
  | .looping => true
  | _ => false

/-- The variables of the loop, and all that was sent to the group, oldest first. -/
structure Loop (I : Type) where
  termDeadline : Option I := none
  killDeadline : Option I := none
  timedOut : Bool := false
  ctrlOpen : Bool := true
  deadDone : Bool := false
  sent : List Kill := []
  phase : Phase := .looping

inductive Ev (I : Type) where
  | select (s : Sel I)
  | finish (cwd state : Join) (written : Bool)

namespace Loop

def send (s : Loop I) (cause : Cause) (signal : Signal) : Loop I :=
  { s with sent := s.sent ++ [⟨cause, signal⟩] }

def bail (s : Loop I) (m : String) : Loop I :=
  { s.send .bail .kill with phase := .ended (.error m) }

end Loop

variable (K : Clock I)

/-- The loop as it is entered. A timeout the clock cannot represent is none. -/
def start (timeoutMs : Option Nat) (now : I) : Loop I :=
  { termDeadline := (timeoutMs.filter fun ms => 0 < ms).bind (K.checkedAdd now) }

def onTimeout (s : Loop I) (later : I) : Loop I :=
  let s := { s with timedOut := true }
  if s.killDeadline.isNone then
    let s := { s.send .timeoutTerm .term with termDeadline := none }
    match K.checkedAdd later termGrace with
    | some d => { s with killDeadline := some d }
    | none => { s.send .escalation .kill with killDeadline := none }
  else { s.send .escalation .kill with killDeadline := none }

def onSelect (s : Loop I) : Sel I → Loop I
  | .ctrl (some (.signal sig)) => s.send .forwarded sig
  | .ctrl (some .closed) => s.bail "transport closed while the command was running"
  | .ctrl (some (.bad e)) => s.bail ("bad frame: " ++ e)
  | .ctrl none => { s with ctrlOpen := false }
  | .exit (.error _) => { s with phase := .ended (.error "wait on child") }
  | .exit (.ok status) =>
    -- an armed kill deadline here is an escalation that has not fired yet
    let s := if s.killDeadline.isSome then s.send .makeUp .kill else s
    { s with phase := .draining (statusCode status) }
  | .timeout _ later => onTimeout K s later
  | .dead ok =>
    let s := { s with deadDone := true }
    if ok then s.bail "daemon vanished while the command was running" else s

def enabled (s : Loop I) : Sel I → Bool
  | .ctrl _ => s.ctrlOpen
  | .exit _ => true
  | .timeout now _ => (s.killDeadline <|> s.termDeadline).any fun d => K.due d now
  | .dead _ => !s.deadDone

def step (s : Loop I) : Ev I → Option (Loop I)
  | .select sel =>
    match s.phase with
    | .looping => if enabled K s sel then some (onSelect K s sel) else none
    | _ => none
  | .finish cwd state written =>
    match s.phase with
    | .draining code =>
      let report := (finish s.timedOut code cwd state).1
      some { s with phase := .ended (if written then .ok report else .error "write exit") }
    | _ => none

def WaitOk (_ : Loop I) (e : Ev I) : Prop := ∀ m, e ≠ .select (.exit (.error m))

def Ev.fires : Ev I → Bool
  | .select (.timeout _ _) => true
  | _ => false

def Plain (l : List Kill) : Prop := ∀ k ∈ l, k.cause ≠ .timeoutTerm ∧ k.cause ≠ .escalation

/-- The stages of the escalation: nothing sent, TERM sent and the KILL scheduled, KILL sent. -/
inductive Stage (s : Loop I) : Prop where
  | calm : s.timedOut = false → s.killDeadline = none → Plain s.sent → Stage s
  | grace (pre post : List Kill) : s.timedOut = true → s.termDeadline = none →
      s.killDeadline.isSome = true → s.sent = pre ++ ⟨.timeoutTerm, .term⟩ :: post →
      Plain pre → Plain post →
      (s.phase = .looping ∨ ∃ k ∈ post, k.signal = .kill ∧ k.cause ≠ .forwarded) → Stage s
  | expired (pre mid post : List Kill) : s.timedOut = true → s.termDeadline = none →
      s.killDeadline = none →
      s.sent = pre ++ ⟨.timeoutTerm, .term⟩ :: (mid ++ ⟨.escalation, .kill⟩ :: post) →
      Plain pre → Plain mid → Plain post → Stage s

/-- What is returned as a report says whether a deadline has fired. -/
def Reported (s : Loop I) : Prop :=
  ∀ r, s.phase = .ended (.ok r) →
    r.timedOut = s.timedOut ∧ (r.timedOut = true → r.code = timeoutExitCode)

section
variable {K} {s u : Loop I}

theorem plain_nil : Plain [] := by simp [Plain]

theorem Plain.concat {l : List Kill} (h : Plain l) {k : Kill}
    (h1 : k.cause ≠ .timeoutTerm) (h2 : k.cause ≠ .escalation) : Plain (l ++ [k]) :=
  List.forall_mem_append.mpr ⟨h, List.forall_mem_singleton.mpr ⟨h1, h2⟩⟩

theorem sent_onTimeout (s : Loop I) (later : I) : s.sent <+: (onTimeout K s later).sent := by
  simp only [onTimeout]
  split
  · split
    · exact List.prefix_append _ _
    · simp [Loop.send]
  · exact List.prefix_append _ _

theorem sent_onSelect (s : Loop I) (sel : Sel I) : s.sent <+: (onSelect K s sel).sent := by
  cases sel with
  | ctrl c =>
    cases c with
    | none => exact List.prefix_rfl
    | some c => cases c <;> exact List.prefix_append _ _
  | exit st =>
    cases st with
    | error m => exact List.prefix_rfl
    | ok status =>
      simp only [onSelect]
      split
      · exact List.prefix_append _ _
      · exact List.prefix_rfl
  | timeout now later => exact sent_onTimeout s later
  | dead ok =>
    cases ok with
    | true => exact List.prefix_append _ _
    | false => exact List.prefix_rfl

theorem sent_step {e : Ev I} (hs : step K s e = some u) :
    s.sent <+: u.sent ∧ (u.phase.loops = true → s.phase.loops = true) := by
  cases e with
  | select sel =>
    cases hp : s.phase with
    | looping =>
      simp only [step, hp, Option.ite_none_right_eq_some, Option.some.injEq] at hs
      obtain ⟨-, rfl⟩ := hs
      exact ⟨sent_onSelect s sel, fun _ => rfl⟩
    | draining code | ended r =>
      simp only [step, hp] at hs
      cases hs
  | finish cwd state written =>
    cases hp : s.phase with
    | draining code =>
      simp only [step, hp, Option.some.injEq] at hs
      subst hs
      exact ⟨List.prefix_rfl, fun h => by cases h⟩
    | looping | ended r =>
      simp only [step, hp] at hs
      cases hs

theorem stage_start (timeoutMs : Option Nat) (now : I) : Stage (start K timeoutMs now) :=
  .calm rfl rfl plain_nil

theorem Stage.send (h : Stage s) {cause : Cause} (h1 : cause ≠ .timeoutTerm)
    (h2 : cause ≠ .escalation) (sig : Signal) : Stage (s.send cause sig) := by
  cases h with
  | calm ht hk hp => exact .calm ht hk (hp.concat h1 h2)
  | grace pre post ht htd hk hs hpre hpost hkill =>
    refine .grace pre (post ++ [⟨cause, sig⟩]) ht htd hk ?_ hpre (hpost.concat h1 h2) ?_
    · simp [Loop.send, hs]
    · rcases hkill with hl | ⟨k, hm, hk⟩
      · exact .inl hl
      · exact .inr ⟨k, List.mem_append_left _ hm, hk⟩
  | expired pre mid post ht htd hk hs hpre hmid hpost =>
    refine .expired pre mid (post ++ [⟨cause, sig⟩]) ht htd hk ?_ hpre hmid (hpost.concat h1 h2)
    simp [Loop.send, hs]

theorem Stage.leave (h : Stage s) {cause : Cause} (h1 : cause ≠ .timeoutTerm)
    (h2 : cause ≠ .escalation) (h3 : cause ≠ .forwarded) (p : Phase) :
    Stage { s.send cause .kill with phase := p } := by
  cases h with
  | calm ht hk hp => exact .calm ht hk (hp.concat h1 h2)
  | grace pre post ht htd hk hs hpre hpost hkill =>
    refine .grace pre (post ++ [⟨cause, .kill⟩]) ht htd hk ?_ hpre (hpost.concat h1 h2) (.inr ?_)
    · simp [Loop.send, hs]
    · exact ⟨⟨cause, .kill⟩, by simp, rfl, h3⟩
  | expired pre mid post ht htd hk hs hpre hmid hpost =>
    refine .expired pre mid (post ++ [⟨cause, .kill⟩]) ht htd hk ?_ hpre hmid (hpost.concat h1 h2)
    simp [Loop.send, hs]

theorem stage_timeout (h : Stage s) (hl : s.phase = .looping) {now : I} (later : I)
    (hen : enabled K s (.timeout now later) = true) :
    Stage (onTimeout K s later) ∧ (onTimeout K s later).timedOut = true ∧
      (onTimeout K s later).phase = .looping := by
  cases h with
  | calm ht hk hp =>
    cases ha : K.checkedAdd later termGrace with
    | some d =>
      simp only [onTimeout, hk, Option.isNone_none, if_true, ha]
      refine ⟨.grace s.sent [] rfl rfl rfl ?_ hp plain_nil (.inl hl), rfl, hl⟩
      rfl
    | none =>
      simp only [onTimeout, hk, Option.isNone_none, if_true, ha]
      refine ⟨.expired s.sent [] [] rfl rfl rfl ?_ hp plain_nil plain_nil, rfl, hl⟩
      simp [Loop.send]
  | grace pre post ht htd hk hs hpre hpost hkill =>
    have hn : s.killDeadline.isNone = false := by
      rw [Option.isNone_eq_false_iff]
      exact hk
    simp only [onTimeout, hn, Bool.false_eq_true, if_false]
    refine ⟨.expired pre post [] rfl htd rfl ?_ hpre hpost plain_nil, rfl, hl⟩
    simp [Loop.send, hs]
  | expired pre mid post ht htd hk hs hpre hmid hpost =>
    simp [enabled, hk, htd] at hen

theorem Stage.move (h : Stage s) (hsent : u.sent = s.sent) (ht : u.timedOut = s.timedOut)
    (htd : u.termDeadline = s.termDeadline) (hk : u.killDeadline = s.killDeadline)
    (hp : u.phase = s.phase ∨ s.phase ≠ .looping ∨ s.killDeadline.isSome = false) : Stage u := by
  cases h with
  | calm hto hkd hplain => exact .calm (ht.trans hto) (hk.trans hkd) (hsent ▸ hplain)
  | grace pre post hto hterm hkd hs hpre hpost hkill =>
    refine .grace pre post (ht.trans hto) (htd.trans hterm) (hk ▸ hkd) (hsent.trans hs) hpre hpost ?_
    rcases hp with heq | hne | hno
    · rw [heq]
      exact hkill
    · exact .inr (hkill.resolve_left hne)
    · rw [hno] at hkd
      cases hkd
  | expired pre mid post hto hterm hkd hs hpre hmid hpost =>
    exact .expired pre mid post (ht.trans hto) (htd.trans hterm) (hk.trans hkd) (hsent.trans hs)
      hpre hmid hpost

theorem reported_of_ne (h : ∀ r, s.phase ≠ .ended (.ok r)) : Reported s :=
  fun r hr => absurd hr (h r)

theorem stage_select (h : Stage s) (hl : s.phase = .looping) {sel : Sel I}
    (hen : enabled K s sel = true) (hok : WaitOk s (.select sel)) :
    Stage (onSelect K s sel) ∧ Reported (onSelect K s sel) ∧
      (onSelect K s sel).timedOut = (s.timedOut || (Ev.select sel).fires) := by
  have hsame : s.timedOut = (s.timedOut || false) := (Bool.or_false _).symm
  cases sel with
  | ctrl c =>
    cases c with
    | none => exact ⟨h.move rfl rfl rfl rfl (.inl rfl), reported_of_ne (by simp [onSelect, hl]), hsame⟩
    | some c =>
      cases c with
      | signal sig =>
        exact ⟨h.send (by decide) (by decide) sig, reported_of_ne (by simp [onSelect, Loop.send, hl]),
          hsame⟩
      | closed =>
        exact ⟨h.leave (by decide) (by decide) (by decide) _,
          reported_of_ne (by simp [onSelect, Loop.bail]), hsame⟩
      | bad e =>
        exact ⟨h.leave (by decide) (by decide) (by decide) _,
          reported_of_ne (by simp [onSelect, Loop.bail]), hsame⟩
  | exit st =>
    cases st with
    | error m => exact absurd rfl (hok m)
    | ok status =>
      simp only [onSelect]
      cases hk : s.killDeadline.isSome with
      | true =>
        exact ⟨h.leave (by decide) (by decide) (by decide) _, reported_of_ne (by simp), hsame⟩
      | false =>
        exact ⟨h.move rfl rfl rfl rfl (.inr (.inr hk)), reported_of_ne (by simp), hsame⟩
  | timeout now later =>
    obtain ⟨hst, hto, hph⟩ := stage_timeout h hl later hen
    refine ⟨hst, reported_of_ne (by simp [onSelect, hph]), ?_⟩
    rw [onSelect, hto]
    simp [Ev.fires]
  | dead ok =>
    have hdone : Stage { s with deadDone := true } := h.move rfl rfl rfl rfl (.inl rfl)
    cases ok with
    | true =>
      exact ⟨hdone.leave (by decide) (by decide) (by decide) _,
        reported_of_ne (by simp [onSelect, Loop.bail]), hsame⟩
    | false => exact ⟨hdone, reported_of_ne (by simp [onSelect, hl]), hsame⟩

/-- What a step preserves: the escalation goes on in its order, and it is at its beginning exactly
while no deadline has fired. -/
theorem stage_step {e : Ev I} (h : Stage s) (hok : WaitOk s e) (hs : step K s e = some u) :
    Stage u ∧ Reported u ∧ u.timedOut = (s.timedOut || e.fires) := by
  cases e with
  | select sel =>
    cases hp : s.phase with
    | looping =>
      simp only [step, hp] at hs
      by_cases hen : enabled K s sel = true
      · rw [if_pos hen, Option.some.injEq] at hs
        subst hs
        exact stage_select h hp hen hok
      · rw [if_neg hen] at hs
        cases hs
    | draining code | ended r =>
      simp only [step, hp] at hs
      cases hs
  | finish cwd state written =>
    cases hp : s.phase with
    | draining code =>
      simp only [step, hp, Option.some.injEq] at hs
      subst hs
      refine ⟨h.move rfl rfl rfl rfl (.inr (.inl (by simp [hp]))), ?_, (Bool.or_false _).symm⟩
      intro r hr
      cases written with
      | false => simp at hr
      | true =>
        simp only [if_true, Phase.ended.injEq, Except.ok.injEq] at hr
        subst hr
        exact ⟨rfl, fun ht => if_pos ht⟩
    | looping | ended r =>
      simp only [step, hp] at hs
      cases hs

theorem stage_run {es : List (Ev I)} {timeoutMs : Option Nat} {now : I}
    (h : Path (step K) WaitOk (start K timeoutMs now) es s) :
    Stage s ∧ Reported s ∧ s.timedOut = es.any Ev.fires := by
  induction h with
  | refl => exact ⟨stage_start timeoutMs now, reported_of_ne (by simp [start]), rfl⟩
  | tail _ hok hs ih =>
    obtain ⟨hst, -, hto⟩ := ih
    obtain ⟨hst', hrep, hto'⟩ := stage_step hst hok hs
    refine ⟨hst', hrep, ?_⟩
    rw [hto', hto]
    simp

def Loop.times (s : Loop I) (c : Cause) : Nat := s.sent.countP fun k => k.cause = c

theorem plain_count {l : List Kill} (h : Plain l) {c : Cause}
    (hc : c = .timeoutTerm ∨ c = .escalation) : l.countP (fun k => k.cause = c) = 0 := by
  rw [List.countP_eq_zero]
  intro k hk
  obtain ⟨h1, h2⟩ := h k hk
  rcases hc with rfl | rfl
  · simpa using h1
  · simpa using h2

theorem Stage.counts (h : Stage s) : s.times .timeoutTerm ≤ 1 ∧ s.times .escalation ≤ 1 := by
  have ht : ∀ {l : List Kill}, Plain l → l.countP (fun k => k.cause = .timeoutTerm) = 0 :=
    fun hl => plain_count hl (.inl rfl)
  have he : ∀ {l : List Kill}, Plain l → l.countP (fun k => k.cause = .escalation) = 0 :=
    fun hl => plain_count hl (.inr rfl)
  cases h with
  | calm _ _ hp => simp only [Loop.times, ht hp, he hp]; omega
  | grace pre post _ _ _ hs hpre hpost _ =>
    simp [Loop.times, hs, List.countP_append, ht hpre, ht hpost, he hpre, he hpost]
  | expired pre mid post _ _ _ hs hpre hmid hpost =>
    simp [Loop.times, hs, List.countP_append, ht hpre, ht hmid, ht hpost, he hpre, he hmid, he hpost]

theorem Stage.behind (h : Stage s) {pre post : List Kill} {k : Kill}
    (hs : s.sent = pre ++ k :: post) (hk : k.cause = .escalation) :
    ∃ t ∈ pre, t.cause = .timeoutTerm := by
  have hmem : k ∈ s.sent := by simp [hs]
  have hplain : ∀ {l : List Kill}, Plain l → k ∉ l := fun hl hm => (hl k hm).2 hk
  cases h with
  | calm _ _ hp => exact absurd hmem (hplain hp)
  | grace p q _ _ _ hsent hp hq _ =>
    rw [hsent, List.mem_append, List.mem_cons] at hmem
    rcases hmem with hm | rfl | hm
    · exact absurd hm (hplain hp)
    · cases hk
    · exact absurd hm (hplain hq)
  | expired p m q _ _ _ hsent hp hm hq =>
    have hfront : k ∉ p ++ ⟨.timeoutTerm, .term⟩ :: m := by
      rw [List.mem_append, List.mem_cons]
      rintro (hin | rfl | hin)
      · exact hplain hp hin
      · cases hk
      · exact hplain hm hin
    have heq : pre ++ k :: post = (p ++ ⟨.timeoutTerm, .term⟩ :: m) ++ ⟨.escalation, .kill⟩ :: q := by
      rw [← hs, hsent]
      simp
    rcases List.append_eq_append_iff.mp heq with ⟨c, hc, hrest⟩ | ⟨c, rfl, -⟩
    · cases c with
      | nil =>
        rw [List.append_nil] at hc
        exact ⟨⟨.timeoutTerm, .term⟩, by simp [← hc], rfl⟩
      | cons x c =>
        obtain ⟨rfl, -⟩ : k = x ∧ _ := by simpa using hrest
        exact absurd (by simp [hc]) hfront
    · exact ⟨⟨.timeoutTerm, .term⟩, by simp, rfl⟩

theorem Stage.killed (h : Stage s) (hp : s.phase ≠ .looping)
    (ht : ∃ t ∈ s.sent, t.cause = .timeoutTerm) :
    ∃ pre t post, s.sent = pre ++ t :: post ∧ t.cause = .timeoutTerm ∧
      ∃ k ∈ post, k.signal = .kill ∧ k.cause ≠ .forwarded := by
  cases h with
  | calm _ _ hplain =>
    obtain ⟨t, hm, hc⟩ := ht
    exact absurd hc (hplain t hm).1
  | grace pre post _ _ _ hs _ _ hkill => exact ⟨pre, _, post, hs, rfl, hkill.resolve_left hp⟩
  | expired pre mid post _ _ _ hs _ _ _ =>
    exact ⟨pre, _, _, hs, rfl, ⟨.escalation, .kill⟩, by simp, rfl, by decide⟩

theorem Stage.one_deadline (h : Stage s) :
    ¬ (s.termDeadline.isSome = true ∧ s.killDeadline.isSome = true) := by
  rintro ⟨h1, h2⟩
  cases h with
  | calm _ hk _ => simp [hk] at h2
  | grace _ _ _ htd _ _ _ _ _ => simp [htd] at h1
  | expired _ _ _ _ _ hk _ _ _ _ => simp [hk] at h2

/-- Every run of the loop, whatever the timeout and the clock. -/
theorem escalation_exact (timeoutMs : Option Nat) (now : I) (es : List (Ev I))
    (h : Path (step K) WaitOk (start K timeoutMs now) es s) :
    s.times .timeoutTerm ≤ 1 ∧ s.times .escalation ≤ 1 ∧
      (∀ pre k post, s.sent = pre ++ k :: post → k.cause = .escalation →
        ∃ t ∈ pre, t.cause = .timeoutTerm) ∧
      (∀ r, s.phase = .ended r → (∃ t ∈ s.sent, t.cause = .timeoutTerm) →
        ∃ pre t post, s.sent = pre ++ t :: post ∧ t.cause = .timeoutTerm ∧
          ∃ k ∈ post, k.signal = .kill ∧ k.cause ≠ .forwarded) ∧
      ¬ (s.termDeadline.isSome = true ∧ s.killDeadline.isSome = true) ∧
      (∀ r, s.phase = .ended (.ok r) → (r.timedOut = true ∧ r.code = timeoutExitCode ↔
        ∃ due later, Ev.select (.timeout due later) ∈ es)) := by
  obtain ⟨hst, hrep, hto⟩ := stage_run h
  have hfires : es.any Ev.fires = true ↔ ∃ due later, Ev.select (.timeout due later) ∈ es := by
    rw [List.any_eq_true]
    constructor
    · rintro ⟨e, hm, hf⟩
      cases e with
      | finish cwd state written => cases hf
      | select sel =>
        cases sel with
        | timeout due later => exact ⟨due, later, hm⟩
        | ctrl c | exit st | dead ok => cases hf
    · rintro ⟨due, later, hm⟩
      exact ⟨_, hm, rfl⟩
  refine ⟨hst.counts.1, hst.counts.2, fun pre k post hs hk => hst.behind hs hk,
    fun r hr ht => hst.killed (by simp [hr]) ht, hst.one_deadline, fun r hr => ?_⟩
  obtain ⟨heq, hcode⟩ := hrep r hr
  rw [← hfires, ← hto, ← heq]
  exact ⟨fun hb => hb.1, fun hb => ⟨hb, hcode hb⟩⟩

end

/-- Milliseconds up to a last instant. -/
def sampleClock : Clock Nat where
  due d now := decide (d ≤ now)
  checkedAdd now ms := if now + ms ≤ 0x10000000000 then some (now + ms) else none

def sampleRun : List (Ev Nat) :=
  [.select (.timeout 1500 1501), .select (.exit (.ok (.signal 15))),
    .finish (.ready (some "/srv")) (.ready none) true]

def sampleEnd : Loop Nat where
  killDeadline := some 6501
  timedOut := true
  sent := [⟨.timeoutTerm, .term⟩, ⟨.makeUp, .kill⟩]
  phase := .ended (.ok ⟨124, some "/srv", none, true⟩)

theorem escalation_exact_sample :
    sampleEnd.times .timeoutTerm ≤ 1 ∧ sampleEnd.times .escalation ≤ 1 ∧
      (∀ pre k post, sampleEnd.sent = pre ++ k :: post → k.cause = .escalation →
        ∃ t ∈ pre, t.cause = .timeoutTerm) ∧
      (∀ r, sampleEnd.phase = .ended r → (∃ t ∈ sampleEnd.sent, t.cause = .timeoutTerm) →
        ∃ pre t post, sampleEnd.sent = pre ++ t :: post ∧ t.cause = .timeoutTerm ∧
          ∃ k ∈ post, k.signal = .kill ∧ k.cause ≠ .forwarded) ∧
      ¬ (sampleEnd.termDeadline.isSome = true ∧ sampleEnd.killDeadline.isSome = true) ∧
      (∀ r, sampleEnd.phase = .ended (.ok r) → (r.timedOut = true ∧ r.code = timeoutExitCode ↔
        ∃ due later, Ev.select (.timeout due later) ∈ sampleRun)) :=
  escalation_exact (some 1500) 0 sampleRun
    (path_of_run_all (by
      simp only [sampleRun, List.mem_cons, List.not_mem_nil, or_false, forall_eq_or_imp, forall_eq]
      exact ⟨fun _ _ => by simp, fun _ _ => by simp, fun _ _ => by simp⟩)
      (rfl : run (step sampleClock) sampleRun (start sampleClock (some 1500) 0) = some sampleEnd))

end ShellProxy.ControlLoop
