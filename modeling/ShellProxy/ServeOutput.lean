import ShellProxy.EventStream
import ShellProxy.Lib.Machine
import Mathlib.Logic.Function.Basic

/-! The output side of `execute` in sp-serve: the two pumps, the writer task and the end of the
main loop, from the pipes of the child to the bytes on serve's stdout. -/
namespace ShellProxy.ServeOutput
open Frame Codec EventStream Framing
variable {J : EventJson}

def outCap : Nat := 256
def pumpBuf : Nat := 32 * 1024

/-- A pump task. `finished` has seen the end of its pipe, `failed` a read error, and `gone` was
aborted or found the writer gone. -/
inductive Pump where
  | reading
  | holding (chunk : Bytes)
  | finished
  | failed
  | gone
  deriving DecidableEq, Repr

def Pump.ended : Pump → Bool
  | .reading | .holding _ => false
  | _ => true

/-- A pipe of the child: all that was ever written into it, what of it is still there, and whether
every write end is closed. -/
structure Pipe where
  written : Bytes := []
  unread : Bytes := []
  closed : Bool := false
  pump : Pump := .reading
  deriving DecidableEq, Repr

/-- The main task: before the spawn, in its loop, draining, waiting for the writer, writing the
Exit frame, finished. -/
inductive Phase where
  | starting | running | draining | closing | reporting | sent | dead
  deriving DecidableEq, Repr

/-- The tasks beside the main one are there. -/
def Phase.works : Phase → Bool
  | .running | .draining | .closing => true
  | _ => false

/-- `hand` is what the writer has still to write of its frame. `out` is all that was ever written
to stdout, `queued` and `report` all frames that were ever to go there. -/
structure Serve where
  pipes : Stream → Pipe := fun _ => {}
  outQ : List EventFrame := []
  hand : Bytes := []
  broken : Bool := false
  route : Bool := true
  phase : Phase := .starting
  drained : Option Bool := none
  out : Bytes := []
  queued : List EventFrame := []
  report : Option ExitReport := none

inductive Ev where
  | refuse (r : ExitReport)
  | spawn
  | childWrite (t : Stream) (b : Bytes)
  | childClose (t : Stream)
  | childExit
  | pong (p : Pong)
  | routeEnds
  | pumpRead (t : Stream) (n : Nat)
  | pumpEof (t : Stream)
  | pumpFails (t : Stream)
  | pumpSend (t : Stream)
  | pumpLost (t : Stream)
  | pumpAborted (t : Stream)
  | drainDone
  | drainStalled
  | next
  | write (n : Nat)
  | writeFails
  | writeExit (r : ExitReport)
  | reported
  | die

namespace Serve

def setPipe (s : Serve) (t : Stream) (p : Pipe) : Serve :=
  { s with pipes := Function.update s.pipes t p }

def queue (s : Serve) (f : EventFrame) : Serve :=
  { s with outQ := s.outQ ++ [f], queued := s.queued ++ [f] }

def bothEnded (s : Serve) : Bool := (s.pipes .out).pump.ended && (s.pipes .err).pump.ended

/-- `write_exit`, up to its first write. -/
def beginExit (J : EventJson) (s : Serve) (r : ExitReport) : Serve :=
  match encodeEventFrame J (.exit r) with
  | .ok b => { s with hand := b, report := some r, phase := .reporting }
  | .error _ => { s with phase := .dead }

def frames (s : Serve) : List EventFrame := s.queued ++ s.report.toList.map .exit

end Serve

def step (J : EventJson) (s : Serve) : Ev → Option Serve
  | .refuse r => if s.phase = .starting then some (s.beginExit J r) else none
  | .spawn => if s.phase = .starting then some { s with phase := .running } else none
  | .childWrite t b =>
    if s.phase ≠ .starting ∧ (s.pipes t).closed = false then
      some (s.setPipe t { s.pipes t with
        written := (s.pipes t).written ++ b
        unread := (s.pipes t).unread ++ b })
    else none
  | .childClose t => some (s.setPipe t { s.pipes t with closed := true })
  | .childExit => if s.phase = .running then some { s with phase := .draining } else none
  | .pong p =>
    if s.phase.works ∧ s.route = true then
      some (if s.broken = false ∧ s.outQ.length < outCap then s.queue (.pong p) else s)
    else none
  | .routeEnds => some { s with route := false }
  | .pumpRead t n =>
    if s.phase.works ∧ (s.pipes t).pump = .reading ∧ 0 < n ∧ n ≤ pumpBuf ∧
        n ≤ (s.pipes t).unread.length then
      some (s.setPipe t { s.pipes t with
        pump := .holding ((s.pipes t).unread.take n)
        unread := (s.pipes t).unread.drop n })
    else none
  | .pumpEof t =>
    if s.phase.works ∧ (s.pipes t).pump = .reading ∧ (s.pipes t).unread = [] ∧
        (s.pipes t).closed = true then
      some (s.setPipe t { s.pipes t with pump := .finished })
    else none
  | .pumpFails t =>
    if s.phase.works ∧ (s.pipes t).pump = .reading then
      some (s.setPipe t { s.pipes t with pump := .failed })
    else none
  | .pumpSend t =>
    match (s.pipes t).pump with
    | .holding c =>
      if s.phase.works ∧ s.broken = false ∧ s.outQ.length < outCap then
        some ((s.queue (t.frame c)).setPipe t { s.pipes t with pump := .reading })
      else none
    | _ => none
  | .pumpLost t =>
    match (s.pipes t).pump with
    | .holding _ =>
      if s.phase.works ∧ s.broken = true then
        some (s.setPipe t { s.pipes t with pump := .gone })
      else none
    | _ => none
  | .pumpAborted t =>
    if s.phase = .closing ∧ s.drained = some false ∧ (s.pipes t).pump.ended = false then
      some (s.setPipe t { s.pipes t with pump := .gone })
    else none
  | .drainDone =>
    if s.phase = .draining ∧ s.bothEnded = true then
      some { s with drained := some true, phase := .closing }
    else none
  | .drainStalled =>
    if s.phase = .draining then some { s with drained := some false, phase := .closing } else none
  | .next =>
    match s.outQ with
    | [] => none
    | f :: rest =>
      if s.phase.works ∧ s.broken = false ∧ s.hand = [] then
        match encodeEventFrame J f with
        | .ok b => some { s with hand := b, outQ := rest }
        | .error _ => some { s with broken := true, hand := [] }
      else none
  | .write n =>
    if s.phase ≠ .dead ∧ s.broken = false ∧ 0 < n ∧ n ≤ s.hand.length then
      some { s with out := s.out ++ s.hand.take n, hand := s.hand.drop n }
    else none
  -- a failed write fails for good: the reader of the other end is gone
  | .writeFails =>
    if s.phase.works ∨ s.phase = .reporting then
      some { s with
        broken := true
        hand := []
        phase := if s.phase = .reporting then .dead else s.phase }
    else none
  -- the writer has ended: no sender is left and the queue is empty, or its write failed
  | .writeExit r =>
    if s.phase = .closing ∧ s.bothEnded = true ∧ s.route = false then
      if s.broken = true then some { s with phase := .dead }
      else if s.outQ = [] ∧ s.hand = [] then some (s.beginExit J r)
      else none
    else none
  | .reported =>
    if s.phase = .reporting ∧ s.hand = [] then some { s with phase := .sent } else none
  -- every other end of the process
  | .die => if s.phase = .sent then none else some { s with phase := .dead }

/-- Where the bytes of one pipe are. -/
def PumpInv (s : Serve) (t : Stream) : Prop :=
  match (s.pipes t).pump with
  | .reading => payloads t s.queued ++ (s.pipes t).unread = (s.pipes t).written
  | .holding c => payloads t s.queued ++ c ++ (s.pipes t).unread = (s.pipes t).written ∧
      c.length ≤ pumpBuf
  | .finished => payloads t s.queued = (s.pipes t).written ∧ (s.pipes t).closed = true
  | .failed | .gone => payloads t s.queued <+: (s.pipes t).written

structure Inv (J : EventJson) (s : Serve) : Prop where
  pump : ∀ t, PumpInv s t
  plain : ∀ f ∈ s.queued, f.isExit = false
  fits : ∀ f ∈ s.frames, Fits J f
  before : s.phase.works = true ∨ s.phase = .starting → s.report = none
  whole : s.broken = false → s.phase ≠ .dead →
    s.out ++ s.hand ++ encodeAll (wire J) s.outQ = encodeAll (wire J) s.frames
  out : s.out <+: encodeAll (wire J) s.frames
  reporting : s.phase = .reporting → s.report.isSome = true ∧ s.outQ = [] ∧ s.broken = false
  done : s.phase = .sent → s.report.isSome = true ∧ s.out = encodeAll (wire J) s.frames
  drained : s.drained = some true → s.bothEnded = true
  gone : ∀ t, (s.pipes t).pump = .gone → s.drained = some false ∨
    (s.broken = true ∧ s.report = none)
  early : s.phase = .starting → s.queued = [] ∧ s.outQ = [] ∧ s.hand = [] ∧ s.out = [] ∧
    s.broken = false
  fresh : s.phase = .starting ∨ s.phase = .running ∨ s.phase = .draining → s.drained = none

/-- A step has kept the invariant and only added to what is to be written and what is. -/
structure Next (J : EventJson) (s d : Serve) : Prop where
  inv : Inv J d
  frames : s.frames <+: d.frames
  out : s.out <+: d.out

def Short (J : EventJson) : Ev → Prop
  | .pong p => Fits J (.pong p)
  | .refuse r | .writeExit r => Fits J (.exit r)
  | _ => True

section
variable {s d : Serve}

theorem pipes_self (s : Serve) (t : Stream) (p : Pipe) : (s.setPipe t p).pipes t = p :=
  Function.update_self _ _ _

theorem pipes_ne (s : Serve) {t u : Stream} (p : Pipe) (h : u ≠ t) :
    (s.setPipe t p).pipes u = s.pipes u := Function.update_of_ne h _ _

theorem bothEnded_iff (s : Serve) :
    s.bothEnded = true ↔ ∀ t, (s.pipes t).pump.ended = true := by
  unfold Serve.bothEnded
  rw [Bool.and_eq_true]
  constructor
  · intro h t
    cases t with
    | out => exact h.1
    | err => exact h.2
  · exact fun h => ⟨h .out, h .err⟩

theorem pumpInv_congr {t : Stream} (hp : d.pipes t = s.pipes t) (hq : d.queued = s.queued)
    (h : PumpInv s t) : PumpInv d t := by
  unfold PumpInv at h ⊢
  rw [hp, hq]
  exact h

theorem payloads_written (h : Inv J s) (t : Stream) :
    payloads t s.queued <+: (s.pipes t).written := by
  have hp := h.pump t
  unfold PumpInv at hp
  cases hpump : (s.pipes t).pump with
  | reading =>
    simp only [hpump] at hp
    exact ⟨_, hp⟩
  | holding c =>
    simp only [hpump] at hp
    exact ⟨c ++ (s.pipes t).unread, (List.append_assoc _ _ _).symm.trans hp.1⟩
  | finished =>
    simp only [hpump] at hp
    exact hp.1 ▸ List.prefix_refl _
  | failed =>
    simp only [hpump] at hp
    exact hp
  | gone =>
    simp only [hpump] at hp
    exact hp

theorem inv_init : Inv J {} where
  pump t := rfl
  plain := by simp
  fits := by simp [Serve.frames]
  before _ := rfl
  whole _ _ := rfl
  out := List.prefix_refl _
  reporting := by simp
  done := by simp
  drained := by simp
  gone := by simp
  early := by simp
  fresh _ := rfl

theorem next_setPipe (h : Inv J s) (t : Stream) (p : Pipe) (hpump : PumpInv (s.setPipe t p) t)
    (hended : (s.pipes t).pump.ended = true → p.pump.ended = true)
    (hgone : p.pump = .gone → s.drained = some false ∨ (s.broken = true ∧ s.report = none)) :
    Next J s (s.setPipe t p) := by
  refine ⟨?_, List.prefix_refl _, List.prefix_refl _⟩
  refine ⟨?_, h.plain, h.fits, h.before, h.whole, h.out, h.reporting, h.done, ?_, ?_, h.early,
    h.fresh⟩
  · intro u
    by_cases hu : u = t
    · exact hu ▸ hpump
    · exact pumpInv_congr (pipes_ne s p hu) rfl (h.pump u)
  · intro hd
    have hold := (bothEnded_iff s).mp (h.drained hd)
    rw [bothEnded_iff]
    intro u
    by_cases hu : u = t
    · rw [hu, pipes_self]
      exact hended (hold t)
    · rw [pipes_ne s p hu]
      exact hold u
  · intro u hg
    by_cases hu : u = t
    · rw [hu, pipes_self] at hg
      exact hgone hg
    · rw [pipes_ne s p hu] at hg
      exact h.gone u hg

theorem next_queue (h : Inv J s) (f : EventFrame) (q : Stream → Pipe) (hf : Fits J f)
    (hplain : f.isExit = false) (hw : s.phase.works = true)
    (hpump : ∀ t, PumpInv { s.queue f with pipes := q } t)
    (hended : ∀ t, (s.pipes t).pump.ended = true → (q t).pump.ended = true)
    (hgone : ∀ t, (q t).pump = .gone → (s.pipes t).pump = .gone) :
    Next J s { s.queue f with pipes := q } := by
  have hrep := h.before (.inl hw)
  have hframes : ({ s.queue f with pipes := q } : Serve).frames = s.frames ++ [f] := by
    simp [Serve.frames, Serve.queue, hrep]
  refine ⟨?_, hframes ▸ List.prefix_append _ _, List.prefix_refl _⟩
  refine ⟨hpump, ?_, ?_, h.before, ?_, ?_, ?_, ?_, ?_, fun t hg => h.gone t (hgone t hg), ?_,
    h.fresh⟩
  · exact List.forall_mem_append.mpr ⟨h.plain, List.forall_mem_singleton.mpr hplain⟩
  · rw [hframes]
    exact List.forall_mem_append.mpr ⟨h.fits, List.forall_mem_singleton.mpr hf⟩
  · intro hb hd
    have hwhole := h.whole hb hd
    rw [hframes, encodeAll_append, ← hwhole]
    simp [Serve.queue]
  · rw [hframes, encodeAll_append]
    exact h.out.trans (List.prefix_append _ _)
  · intro hs
    change s.phase = .reporting at hs
    rw [hs] at hw
    cases hw
  · intro hs
    change s.phase = .sent at hs
    rw [hs] at hw
    cases hw
  · intro hd
    rw [bothEnded_iff]
    exact fun t => hended t ((bothEnded_iff s).mp (h.drained hd) t)
  · intro hs
    change s.phase = .starting at hs
    rw [hs] at hw
    cases hw

theorem next_pong (h : Inv J s) (p : Pong) (hf : Fits J (.pong p)) (hw : s.phase.works = true) :
    Next J s (s.queue (.pong p)) := by
  apply next_queue h (.pong p) s.pipes hf rfl hw ?_ (fun _ he => he) (fun _ hg => hg)
  intro t
  have hp := h.pump t
  unfold PumpInv at hp ⊢
  simpa [Serve.queue] using hp

theorem fits_frame {t : Stream} {c : Bytes} (hc : c.length ≤ pumpBuf) : Fits J (t.frame c) := by
  have hl : c.length ≤ maxPayload := Nat.le_trans hc (by decide)
  cases t with
  | out => exact ⟨.stdout, c, rfl, hl⟩
  | err => exact ⟨.stderr, c, rfl, hl⟩

theorem next_pumpSend (h : Inv J s) {t : Stream} {c : Bytes} (hc : (s.pipes t).pump = .holding c)
    (hw : s.phase.works = true) :
    Next J s ((s.queue (t.frame c)).setPipe t { s.pipes t with pump := .reading }) := by
  have hp := h.pump t
  unfold PumpInv at hp
  rw [hc] at hp
  obtain ⟨hp, hlen⟩ := hp
  have hself : Function.update s.pipes t { s.pipes t with pump := .reading } t =
      { s.pipes t with pump := .reading } := Function.update_self _ _ _
  have hother : ∀ u, u ≠ t → Function.update s.pipes t { s.pipes t with pump := .reading } u =
      s.pipes u := fun u hu => Function.update_of_ne hu _ _
  refine next_queue h (t.frame c) _ (fits_frame hlen) (isExit_frame t c) hw ?_ ?_ ?_
  · intro u
    by_cases hu : u = t
    · subst hu
      unfold PumpInv
      simp only [Serve.queue, hself, payloads_append, payloads_cons, payload_frame, if_true,
        payloads_nil, List.append_nil]
      exact hp
    · have hpu := h.pump u
      have hne : ¬ t = u := fun he => hu he.symm
      unfold PumpInv at hpu ⊢
      simp only [Serve.queue, hother u hu, payloads_append, payloads_cons, payload_frame,
        if_neg hne, payloads_nil, List.append_nil]
      exact hpu
  · intro u he
    by_cases hu : u = t
    · rw [hu, hc] at he
      cases he
    · exact (congrArg (fun p => p.pump.ended) (hother u hu)).trans he
  · intro u hg
    by_cases hu : u = t
    · have hg' : (Function.update s.pipes t { s.pipes t with pump := .reading } u).pump = .gone := hg
      rw [hu, hself] at hg'
      cases hg'
    · exact (congrArg Pipe.pump (hother u hu)).symm.trans hg

theorem Inv.out_same (h : Inv J s) : s.out <+: s.out ∧ s.out <+: encodeAll (wire J) s.frames :=
  ⟨List.prefix_refl _, h.out⟩

theorem next_main (h : Inv J s) (hpipes : d.pipes = s.pipes) (hqueued : d.queued = s.queued)
    (hreport : d.report = s.report)
    (hout : s.out <+: d.out ∧ d.out <+: encodeAll (wire J) s.frames)
    (hbefore : d.phase.works = true ∨ d.phase = .starting → s.report = none)
    (hwhole : d.broken = false → d.phase ≠ .dead →
      d.out ++ d.hand ++ encodeAll (wire J) d.outQ = encodeAll (wire J) s.frames)
    (hreporting : d.phase = .reporting → s.report.isSome = true ∧ d.outQ = [] ∧ d.broken = false)
    (hdone : d.phase = .sent → s.report.isSome = true ∧ d.out = encodeAll (wire J) s.frames)
    (hdrained : d.drained = some true → s.bothEnded = true)
    (hgone : ∀ t, (s.pipes t).pump = .gone → d.drained = some false ∨
      (d.broken = true ∧ s.report = none))
    (hearly : d.phase = .starting → d = s)
    (hfresh : d.phase = .starting ∨ d.phase = .running ∨ d.phase = .draining → d.drained = none) :
    Next J s d := by
  have hframes : d.frames = s.frames := by rw [Serve.frames, Serve.frames, hqueued, hreport]
  refine ⟨?_, hframes ▸ List.prefix_refl _, hout.1⟩
  constructor
  case pump =>
    intro t
    exact pumpInv_congr (by rw [hpipes]) hqueued (h.pump t)
  case plain =>
    rw [hqueued]
    exact h.plain
  case fits =>
    rw [hframes]
    exact h.fits
  case before =>
    rw [hreport]
    exact hbefore
  case whole =>
    rw [hframes]
    exact hwhole
  case out =>
    rw [hframes]
    exact hout.2
  case reporting =>
    rw [hreport]
    exact hreporting
  case done =>
    rw [hframes, hreport]
    exact hdone
  case drained =>
    intro hd
    rw [bothEnded_iff, hpipes, ← bothEnded_iff]
    exact hdrained hd
  case gone =>
    rw [hpipes, hreport]
    exact hgone
  case early =>
    intro hs
    obtain rfl := hearly hs
    exact h.early hs
  case fresh =>
    exact hfresh

theorem next_beginExit (h : Inv J s) (r : ExitReport) (hf : Fits J (.exit r))
    (hrep : s.report = none) (hb : s.broken = false) (hd : s.phase ≠ .dead) (hq : s.outQ = [])
    (hhand : s.hand = []) : Next J s (s.beginExit J r) := by
  have hwhole := h.whole hb hd
  rw [hq, hhand, encodeAll_nil, List.append_nil, List.append_nil] at hwhole
  have henc : s.beginExit J r =
      { s with hand := wire J (.exit r), report := some r, phase := .reporting } := by
    unfold Serve.beginExit
    rw [encode_of_fits hf]
  have hframes : (s.beginExit J r).frames = s.frames ++ [.exit r] := by
    simp [henc, Serve.frames, hrep]
  have hout : (s.beginExit J r).out = s.out := by rw [henc]
  refine ⟨?_, hframes ▸ List.prefix_append _ _, hout ▸ List.prefix_refl _⟩
  constructor
  case pump =>
    intro t
    exact pumpInv_congr (by rw [henc]) (by rw [henc]) (h.pump t)
  case plain =>
    rw [henc]
    exact h.plain
  case fits =>
    rw [hframes]
    exact List.forall_mem_append.mpr ⟨h.fits, List.forall_mem_singleton.mpr hf⟩
  case before =>
    rw [henc]
    simp [Phase.works]
  case whole =>
    intro _ _
    rw [hframes, encodeAll_append, ← hwhole, henc]
    simp [hq]
  case out =>
    rw [hframes, encodeAll_append, ← hwhole, henc]
    exact List.prefix_append _ _
  case reporting =>
    rw [henc]
    exact fun _ => ⟨rfl, hq, hb⟩
  case done =>
    rw [henc]
    simp
  case drained =>
    rw [henc]
    exact h.drained
  case gone =>
    rw [henc]
    intro t hg
    cases h.gone t hg with
    | inl hf => exact .inl hf
    | inr hbr =>
      rw [hb] at hbr
      cases hbr.1
  case early =>
    rw [henc]
    simp
  case fresh =>
    rw [henc]
    simp

theorem next_spawn (h : Inv J s) (hp : s.phase = .starting) :
    Next J s { s with phase := .running } := by
  have hwhole := h.whole (h.early hp).2.2.2.2 (by simp [hp])
  exact next_main h rfl rfl rfl h.out_same (fun _ => h.before (.inr hp)) (fun _ _ => hwhole)
    (by simp) (by simp) h.drained h.gone (by simp) (fun _ => h.fresh (.inl hp))

theorem next_childWrite (h : Inv J s) {t : Stream} (b : Bytes) (hc : (s.pipes t).closed = false) :
    Next J s (s.setPipe t { s.pipes t with
      written := (s.pipes t).written ++ b
      unread := (s.pipes t).unread ++ b }) := by
  refine next_setPipe h t _ ?_ (fun he => he) (h.gone t)
  have hp := h.pump t
  unfold PumpInv at hp ⊢
  rw [pipes_self]
  cases hpump : (s.pipes t).pump with
  | reading =>
    simp only [hpump] at hp ⊢
    rw [← hp]
    exact (List.append_assoc _ _ _).symm
  | holding c =>
    simp only [hpump] at hp ⊢
    refine ⟨?_, hp.2⟩
    rw [← hp.1]
    exact (List.append_assoc _ _ _).symm
  | finished =>
    simp only [hpump] at hp
    rw [hp.2] at hc
    cases hc
  | failed =>
    simp only [hpump] at hp ⊢
    exact hp.trans (List.prefix_append _ _)
  | gone =>
    simp only [hpump] at hp ⊢
    exact hp.trans (List.prefix_append _ _)

theorem next_childClose (h : Inv J s) (t : Stream) :
    Next J s (s.setPipe t { s.pipes t with closed := true }) := by
  refine next_setPipe h t _ ?_ (fun he => he) (h.gone t)
  have hp := h.pump t
  unfold PumpInv at hp ⊢
  rw [pipes_self]
  cases hpump : (s.pipes t).pump with
  | finished =>
    simp only [hpump] at hp ⊢
    exact ⟨hp.1, trivial⟩
  | reading | holding | failed | gone =>
    simp only [hpump] at hp ⊢
    exact hp

theorem next_childExit (h : Inv J s) (hp : s.phase = .running) :
    Next J s { s with phase := .draining } :=
  next_main h rfl rfl rfl h.out_same (fun _ => h.before (.inl (by simp [hp, Phase.works])))
    (fun hb _ => h.whole hb (by simp [hp])) (by simp) (by simp) h.drained h.gone (by simp)
    (fun _ => h.fresh (.inr (.inl hp)))

theorem next_pumpRead (h : Inv J s) {t : Stream} {n : Nat} (hpump : (s.pipes t).pump = .reading)
    (hn : n ≤ pumpBuf) :
    Next J s (s.setPipe t { s.pipes t with
      pump := .holding ((s.pipes t).unread.take n)
      unread := (s.pipes t).unread.drop n }) := by
  refine next_setPipe h t _ ?_ (by simp [hpump, Pump.ended]) (by simp)
  have hp := h.pump t
  unfold PumpInv at hp ⊢
  rw [pipes_self]
  simp only [hpump] at hp ⊢
  refine ⟨?_, Nat.le_trans (List.length_take_le n _) hn⟩
  calc
    payloads t s.queued ++ (s.pipes t).unread.take n ++ (s.pipes t).unread.drop n
      = payloads t s.queued ++ ((s.pipes t).unread.take n ++ (s.pipes t).unread.drop n) :=
        List.append_assoc _ _ _
    _ = payloads t s.queued ++ (s.pipes t).unread := by rw [List.take_append_drop]
    _ = (s.pipes t).written := hp

theorem next_pumpEof (h : Inv J s) {t : Stream} (hpump : (s.pipes t).pump = .reading)
    (hunread : (s.pipes t).unread = []) (hclosed : (s.pipes t).closed = true) :
    Next J s (s.setPipe t { s.pipes t with pump := .finished }) := by
  refine next_setPipe h t _ ?_ (by simp [Pump.ended]) (by simp)
  have hp := h.pump t
  unfold PumpInv at hp ⊢
  rw [pipes_self]
  simp only [hpump, hunread, List.append_nil] at hp ⊢
  exact ⟨hp, hclosed⟩

theorem next_pumpStops (h : Inv J s) (t : Stream) {p : Pump} (hp : p = .failed ∨ p = .gone)
    (hgone : p = .gone → s.drained = some false ∨ (s.broken = true ∧ s.report = none)) :
    Next J s (s.setPipe t { s.pipes t with pump := p }) := by
  have hwritten := payloads_written h t
  cases hp with
  | inl hp =>
    subst hp
    refine next_setPipe h t _ ?_ (by simp [Pump.ended]) (by simp)
    unfold PumpInv
    rw [pipes_self]
    exact hwritten
  | inr hp =>
    subst hp
    refine next_setPipe h t _ ?_ (by simp [Pump.ended]) (fun _ => hgone rfl)
    unfold PumpInv
    rw [pipes_self]
    exact hwritten

theorem next_drainDone (h : Inv J s) (hp : s.phase = .draining) (he : s.bothEnded = true) :
    Next J s { s with drained := some true, phase := .closing } := by
  have hrep := h.before (.inl (by simp [hp, Phase.works]))
  refine next_main h rfl rfl rfl h.out_same (fun _ => hrep) (fun hb _ => h.whole hb (by simp [hp]))
    (by simp) (by simp) (fun _ => he) ?_ (by simp) (by simp)
  intro t hg
  cases h.gone t hg with
  | inl hf =>
    rw [h.fresh (.inr (.inr hp))] at hf
    cases hf
  | inr hb => exact .inr hb

theorem next_drainStalled (h : Inv J s) (hp : s.phase = .draining) :
    Next J s { s with drained := some false, phase := .closing } :=
  next_main h rfl rfl rfl h.out_same (fun _ => h.before (.inl (by simp [hp, Phase.works])))
    (fun hb _ => h.whole hb (by simp [hp])) (by simp) (by simp) (by simp) (fun _ _ => .inl rfl)
    (by simp) (by simp)

theorem works_ne {p : Phase} (hw : p.works = true) :
    p ≠ .starting ∧ p ≠ .reporting ∧ p ≠ .sent ∧ p ≠ .dead := by
  cases p <;> simp_all [Phase.works]

theorem next_next (h : Inv J s) {f : EventFrame} {rest : List EventFrame} {b : Bytes}
    (hq : s.outQ = f :: rest) (hw : s.phase.works = true) (hb : s.broken = false)
    (hhand : s.hand = []) (henc : encodeEventFrame J f = .ok b) :
    Next J s { s with hand := b, outQ := rest } := by
  obtain ⟨hstart, hreporting, hsent, hdead⟩ := works_ne hw
  refine next_main h rfl rfl rfl h.out_same h.before ?_ (fun hp => absurd hp hreporting)
    (fun hp => absurd hp hsent) h.drained h.gone (fun hp => absurd hp hstart) h.fresh
  intro _ _
  have hwhole := h.whole hb hdead
  have hwire : wire J f = b := by simp only [wire, henc]
  rw [hq, hhand, encodeAll_cons, hwire, List.append_nil] at hwhole
  rw [← hwhole, List.append_assoc]

theorem next_write (h : Inv J s) {n : Nat} (hdead : s.phase ≠ .dead) (hb : s.broken = false)
    (hn : 0 < n) (hlen : n ≤ s.hand.length) :
    Next J s { s with out := s.out ++ s.hand.take n, hand := s.hand.drop n } := by
  have hwhole := h.whole hb hdead
  have hsplit : s.out ++ s.hand.take n ++ s.hand.drop n ++ encodeAll (wire J) s.outQ =
      encodeAll (wire J) s.frames := by
    rw [← hwhole, List.append_assoc s.out, List.take_append_drop]
  refine next_main h rfl rfl rfl ⟨List.prefix_append _ _, ?_⟩ h.before (fun _ _ => hsplit)
    h.reporting ?_ h.drained h.gone ?_ h.fresh
  · rw [← hsplit, List.append_assoc]
    exact List.prefix_append _ _
  · intro hp
    have hout := congrArg List.length (h.done hp).2
    have hl := congrArg List.length hwhole
    simp only [List.length_append] at hl
    omega
  · intro hp
    rw [(h.early hp).2.2.1, List.length_nil] at hlen
    omega

theorem next_breaks (h : Inv J s) {p : Phase} (hp : p = .dead ∨ p = s.phase ∧ p.works = true) :
    Next J s { s with broken := true, hand := [], phase := p } := by
  have hgone : ∀ t, (s.pipes t).pump = .gone →
      s.drained = some false ∨ (true = true ∧ s.report = none) := by
    intro t hg
    exact (h.gone t hg).imp_right fun hg => ⟨rfl, hg.2⟩
  cases hp with
  | inl hp =>
    subst hp
    exact next_main h rfl rfl rfl h.out_same (by simp [Phase.works]) (by simp) (by simp) (by simp)
      h.drained hgone (by simp) (by simp)
  | inr hp =>
    obtain ⟨rfl, hw⟩ := hp
    obtain ⟨hstart, hreporting, hsent, -⟩ := works_ne hw
    exact next_main h rfl rfl rfl h.out_same h.before (by simp) (fun hp => absurd hp hreporting)
      (fun hp => absurd hp hsent) h.drained hgone (fun hp => absurd hp hstart) h.fresh

theorem next_reported (h : Inv J s) (hp : s.phase = .reporting) (hhand : s.hand = []) :
    Next J s { s with phase := .sent } := by
  obtain ⟨hsome, hq, hb⟩ := h.reporting hp
  have hwhole := h.whole hb (by simp [hp])
  refine next_main h rfl rfl rfl h.out_same (by simp [Phase.works]) (fun _ _ => hwhole) (by simp) ?_
    h.drained h.gone (by simp) (by simp)
  rw [hq, hhand, encodeAll_nil, List.append_nil, List.append_nil] at hwhole
  exact fun _ => ⟨hsome, hwhole⟩

theorem next_dies (h : Inv J s) : Next J s { s with phase := .dead } :=
  next_main h rfl rfl rfl h.out_same (by simp [Phase.works]) (by simp) (by simp) (by simp) h.drained
    h.gone (by simp) (by simp)

theorem next_step {e : Ev} (h : Inv J s) (ho : Short J e) (hs : step J s e = some d) :
    Next J s d := by
  cases e with
  | refuse r =>
    simp only [step, Option.ite_none_right_eq_some, Option.some.injEq] at hs
    obtain ⟨hp, rfl⟩ := hs
    obtain ⟨-, hq, hhand, -, hb⟩ := h.early hp
    exact next_beginExit h r ho (h.before (.inr hp)) hb (by simp [hp]) hq hhand
  | spawn =>
    simp only [step, Option.ite_none_right_eq_some, Option.some.injEq] at hs
    obtain ⟨hp, rfl⟩ := hs
    exact next_spawn h hp
  | childWrite t b =>
    simp only [step, Option.ite_none_right_eq_some, Option.some.injEq] at hs
    obtain ⟨⟨-, hc⟩, rfl⟩ := hs
    exact next_childWrite h b hc
  | childClose t =>
    simp only [step, Option.some.injEq] at hs
    subst hs
    exact next_childClose h t
  | childExit =>
    simp only [step, Option.ite_none_right_eq_some, Option.some.injEq] at hs
    obtain ⟨hp, rfl⟩ := hs
    exact next_childExit h hp
  | pong p =>
    simp only [step, Option.ite_none_right_eq_some, Option.some.injEq] at hs
    obtain ⟨⟨hw, -⟩, rfl⟩ := hs
    by_cases hl : s.broken = false ∧ s.outQ.length < outCap
    · rw [if_pos hl]
      exact next_pong h p ho hw
    · rw [if_neg hl]
      exact ⟨h, List.prefix_refl _, List.prefix_refl _⟩
  | routeEnds =>
    simp only [step, Option.some.injEq] at hs
    subst hs
    refine ⟨?_, List.prefix_refl _, List.prefix_refl _⟩
    exact ⟨h.pump, h.plain, h.fits, h.before, h.whole, h.out, h.reporting, h.done, h.drained,
      h.gone, h.early, h.fresh⟩
  | pumpRead t n =>
    simp only [step, Option.ite_none_right_eq_some, Option.some.injEq] at hs
    obtain ⟨⟨-, hpump, -, hn, -⟩, rfl⟩ := hs
    exact next_pumpRead h hpump hn
  | pumpEof t =>
    simp only [step, Option.ite_none_right_eq_some, Option.some.injEq] at hs
    obtain ⟨⟨-, hpump, hunread, hclosed⟩, rfl⟩ := hs
    exact next_pumpEof h hpump hunread hclosed
  | pumpFails t =>
    simp only [step, Option.ite_none_right_eq_some, Option.some.injEq] at hs
    obtain ⟨-, rfl⟩ := hs
    exact next_pumpStops h t (.inl rfl) (by simp)
  | pumpSend t =>
    simp only [step] at hs
    cases hpump : (s.pipes t).pump with
    | holding c =>
      simp only [hpump, Option.ite_none_right_eq_some, Option.some.injEq] at hs
      obtain ⟨⟨hw, -, -⟩, rfl⟩ := hs
      exact next_pumpSend h hpump hw
    | reading | finished | failed | gone => simp only [hpump, reduceCtorEq] at hs
  | pumpLost t =>
    simp only [step] at hs
    cases hpump : (s.pipes t).pump with
    | holding c =>
      simp only [hpump, Option.ite_none_right_eq_some, Option.some.injEq] at hs
      obtain ⟨⟨hw, hb⟩, rfl⟩ := hs
      exact next_pumpStops h t (.inr rfl) fun _ => .inr ⟨hb, h.before (.inl hw)⟩
    | reading | finished | failed | gone => simp only [hpump, reduceCtorEq] at hs
  | pumpAborted t =>
    simp only [step, Option.ite_none_right_eq_some, Option.some.injEq] at hs
    obtain ⟨⟨-, hd, -⟩, rfl⟩ := hs
    exact next_pumpStops h t (.inr rfl) fun _ => .inl hd
  | drainDone =>
    simp only [step, Option.ite_none_right_eq_some, Option.some.injEq] at hs
    obtain ⟨⟨hp, he⟩, rfl⟩ := hs
    exact next_drainDone h hp he
  | drainStalled =>
    simp only [step, Option.ite_none_right_eq_some, Option.some.injEq] at hs
    obtain ⟨hp, rfl⟩ := hs
    exact next_drainStalled h hp
  | next =>
    simp only [step] at hs
    cases hq : s.outQ with
    | nil => simp only [hq, reduceCtorEq] at hs
    | cons f rest =>
      simp only [hq, Option.ite_none_right_eq_some] at hs
      obtain ⟨⟨hw, hb, hhand⟩, hs⟩ := hs
      cases henc : encodeEventFrame J f with
      | ok b =>
        simp only [henc, Option.some.injEq] at hs
        subst hs
        exact next_next h hq hw hb hhand henc
      | error e =>
        simp only [henc, Option.some.injEq, ← hq] at hs
        subst hs
        exact next_breaks h (.inr ⟨rfl, hw⟩)
  | write n =>
    simp only [step, Option.ite_none_right_eq_some, Option.some.injEq] at hs
    obtain ⟨⟨hdead, hb, hn, hlen⟩, rfl⟩ := hs
    exact next_write h hdead hb hn hlen
  | writeFails =>
    simp only [step, Option.ite_none_right_eq_some, Option.some.injEq] at hs
    obtain ⟨hc, rfl⟩ := hs
    by_cases hp : s.phase = .reporting
    · rw [if_pos hp]
      exact next_breaks h (.inl rfl)
    · rw [if_neg hp]
      exact next_breaks h (.inr ⟨rfl, hc.resolve_right hp⟩)
  | writeExit r =>
    simp only [step, Option.ite_none_right_eq_some] at hs
    obtain ⟨⟨hp, -, -⟩, hs⟩ := hs
    by_cases hb : s.broken = true
    · rw [if_pos hb, Option.some.injEq] at hs
      subst hs
      exact next_dies h
    · simp only [if_neg hb, Option.ite_none_right_eq_some, Option.some.injEq] at hs
      obtain ⟨⟨hq, hhand⟩, rfl⟩ := hs
      have hrep := h.before (.inl (by simp [hp, Phase.works]))
      exact next_beginExit h r ho hrep (by simpa using hb) (by simp [hp]) hq hhand
  | reported =>
    simp only [step, Option.ite_none_right_eq_some, Option.some.injEq] at hs
    obtain ⟨⟨hp, hhand⟩, rfl⟩ := hs
    exact next_reported h hp hhand
  | die =>
    simp only [step, Option.ite_none_left_eq_some, Option.some.injEq] at hs
    obtain ⟨-, rfl⟩ := hs
    exact next_dies h

/-- The frames of a serve that reported end in the report and hold all that the child wrote, when
the drain was complete and the reads did not fail. -/
theorem payloads_complete (h : Inv J s) {r : ExitReport} (hr : s.report = some r)
    (hd : s.drained = some true) {t : Stream} (ht : (s.pipes t).pump ≠ .failed) :
    payloads t s.queued = (s.pipes t).written := by
  have hended := (bothEnded_iff s).mp (h.drained hd) t
  have hp := h.pump t
  unfold PumpInv at hp
  cases hpump : (s.pipes t).pump with
  | reading | holding =>
    rw [hpump] at hended
    cases hended
  | finished =>
    simp only [hpump] at hp
    exact hp.1
  | failed => exact absurd hpump ht
  | gone =>
    cases h.gone t hpump with
    | inl hf =>
      rw [hd] at hf
      cases hf
    | inr hb =>
      rw [hr] at hb
      cases hb.2

end

end ShellProxy.ServeOutput
