import ShellProxy.SessionCwd
import ShellProxy.Lib.FairLock

/-! How commands queue for the lock of their session: first for `SESSION_QUEUE_WARN` at most, then
a second time and without an end, which is a new place in the line. -/
namespace ShellProxy.SessionQueue
open HandleExec Machine SessionCwd FairLock

def sessionQueueWarn : Nat := 2000

/-- How far a queued command is, and since when it waits: not polled yet, in the first `lock()`
under the timeout, warned and out of the line, in the second `lock()`. -/
inductive Wait where
  | fresh
  | timed (since : Nat)
  | warned (since : Nat)
  | untimed (since : Nat)
  deriving DecidableEq

def Wait.inLine : Wait → Bool
  | .timed _ | .untimed _ => true
  | _ => false

/-- `queued_at`. -/
def Wait.since : Wait → Option Nat
  | .fresh => none
  | .timed a | .warned a | .untimed a => some a

/-- The tasks of the daemon, the lock of each bucket, and the clock. -/
structure Sys where
  daemon : Daemon := {}
  locks : Nat → Lock Nat := fun _ => {}
  waits : Nat → Wait := fun _ => .fresh
  now : Nat := 0

inductive Ev where
  | own (e : HandleExec.Ev)
  | pass (d : Nat)
  | queue (t : Nat)
  | timeUp (t : Nat)
  | requeue (t : Nat)
  | lock (t : Nat)
  | release (t : Nat)

/-- The steps of a task at the lock, which this machine makes itself. -/
def atLock : HandleExec.Ev → Bool
  | .lock _ | .release _ => true
  | _ => false

namespace Sys

/-- The bucket a task queues at. -/
def queuing (s : Sys) (t : Nat) : Option Nat := (s.daemon.taskAt t .queued).bind Task.bucket

def enter (s : Sys) (b t : Nat) (w : Wait) : Sys :=
  { s with
    locks := Function.update s.locks b ((s.locks b).acquire t)
    waits := Function.update s.waits t w }

def quit (s : Sys) (b t : Nat) (w : Wait) : Sys :=
  { s with
    locks := Function.update s.locks b ((s.locks b).leave t)
    waits := Function.update s.waits t w }

end Sys

def step (s : Sys) : Ev → Option Sys
  | .own e =>
    if atLock e then none
    else do
      let d ← HandleExec.step s.daemon e
      some { s with daemon := d }
  | .pass d => some { s with now := s.now + d }
  | .queue t => do
    let b ← s.queuing t
    if s.waits t = .fresh then some (s.enter b t (.timed s.now)) else none
  -- also when the lock was just handed over and the task has not seen it yet
  | .timeUp t => do
    let b ← s.queuing t
    match s.waits t with
    | .timed a => if a + sessionQueueWarn ≤ s.now then some (s.quit b t (.warned a)) else none
    | _ => none
  | .requeue t => do
    let b ← s.queuing t
    match s.waits t with
    | .warned a => some (s.enter b t (.untimed a))
    | _ => none
  | .lock t => do
    let b ← s.queuing t
    let d ← HandleExec.step s.daemon (.lock t)
    if (s.locks b).owner = some t then some { s with daemon := d } else none
  | .release t => do
    let x ← s.daemon.taskAt t .updated
    let b ← x.bucket
    let d ← HandleExec.step s.daemon (.release t)
    some { s.quit b t (s.waits t) with daemon := d }

section Places
variable {s d : Daemon}

def InBucket (s : Daemon) (t b : Nat) : Prop := ∃ x, s.tasks t = some x ∧ x.bucket = some b

def QueuedAt (s : Daemon) (t b : Nat) : Prop :=
  ∃ x, s.tasks t = some x ∧ x.bucket = some b ∧ x.stage = .queued

def HoldsAt (s : Daemon) (t b : Nat) : Prop :=
  ∃ x, s.tasks t = some x ∧ x.bucket = some b ∧ x.stage.holds = true

theorem QueuedAt.inBucket {t b : Nat} (h : QueuedAt s t b) : InBucket s t b := by
  obtain ⟨x, hx, hb, -⟩ := h
  exact ⟨x, hx, hb⟩

theorem HoldsAt.inBucket {t b : Nat} (h : HoldsAt s t b) : InBucket s t b := by
  obtain ⟨x, hx, hb, -⟩ := h
  exact ⟨x, hx, hb⟩

theorem InBucket.unique {t b c : Nat} (h : InBucket s t b) (g : InBucket s t c) : b = c := by
  obtain ⟨x, hx, hb⟩ := h
  obtain ⟨y, hy, hc⟩ := g
  obtain rfl := Option.some.inj (hx.symm.trans hy)
  exact Option.some.inj (hb.symm.trans hc)

theorem HoldsAt.not_queued {t b c : Nat} (h : HoldsAt s t b) : ¬ QueuedAt s t c := by
  rintro ⟨y, hy, -, hg⟩
  obtain ⟨x, hx, -, hh⟩ := h
  obtain rfl := Option.some.inj (hx.symm.trans hy)
  rw [hg] at hh
  cases hh

/-- A step away from the locks: who holds one or queues for it goes on, and only a task that had
no bucket begins to queue. -/
structure Quiet (s d : Daemon) : Prop where
  order : d.order = s.order
  holds : ∀ t b, HoldsAt d t b ↔ HoldsAt s t b
  kept : ∀ t b, InBucket s t b → InBucket d t b
  queued : ∀ t c b, InBucket s t c → (QueuedAt d t b ↔ QueuedAt s t b)

theorem quiet_same (ho : d.order = s.order) (ht : d.tasks = s.tasks) : Quiet s d where
  order := ho
  holds := by simp [HoldsAt, ht]
  kept := by simp [InBucket, ht]
  queued := by simp [QueuedAt, ht]

theorem quiet_set {t : Nat} {y : Task} (ho : d.order = s.order)
    (ht : d.tasks = (s.set t y).tasks) (hy : y.bucket = none ∨ ¬ y.stage.holds = true ∨
      ∃ x, s.tasks t = some x ∧ x.bucket = y.bucket ∧ x.stage.holds = true)
    (hx : ∀ x b, s.tasks t = some x → x.bucket = some b → y.bucket = some b ∧
      (y.stage = .queued ↔ x.stage = .queued) ∧ (x.stage.holds = true → y.stage.holds = true)) :
    Quiet s d := by
  have hself : d.tasks t = some y := by rw [ht, set_tasks_self]
  have hother : ∀ u, u ≠ t → d.tasks u = s.tasks u := by
    intro u hu
    rw [ht, set_tasks_ne s y hu]
  constructor
  case order => exact ho
  case holds =>
    intro u b
    by_cases hu : u = t
    · subst hu
      constructor
      · rintro ⟨z, hz, hb, hh⟩
        obtain rfl := Option.some.inj (hself.symm.trans hz)
        rcases hy with hn | hn | ⟨x, hx', hxb, hxh⟩
        · rw [hn] at hb
          cases hb
        · exact absurd hh hn
        · exact ⟨x, hx', hxb.trans hb, hxh⟩
      · rintro ⟨x, hx', hb, hh⟩
        obtain ⟨hyb, -, hyh⟩ := hx x b hx' hb
        exact ⟨y, hself, hyb, hyh hh⟩
    · simp only [HoldsAt, hother u hu]
  case kept =>
    rintro u b ⟨x, hx', hb⟩
    by_cases hu : u = t
    · subst hu
      exact ⟨y, hself, (hx x b hx' hb).1⟩
    · exact ⟨x, by rw [hother u hu, hx'], hb⟩
  case queued =>
    rintro u c b ⟨x, hx', hc⟩
    by_cases hu : u = t
    · subst hu
      obtain ⟨hyc, hyq, -⟩ := hx x c hx' hc
      constructor
      · rintro ⟨z, hz, hb, hg⟩
        obtain rfl := Option.some.inj (hself.symm.trans hz)
        exact ⟨x, hx', by rw [hc, ← hyc, hb], hyq.mp hg⟩
      · rintro ⟨z, hz, hb, hg⟩
        obtain rfl := Option.some.inj (hx'.symm.trans hz)
        exact ⟨y, hself, by rw [hyc, ← hc, hb], hyq.mpr hg⟩
    · simp only [QueuedAt, hother u hu]

theorem quiet_early {t : Nat} {y : Task} (ho : d.order = s.order)
    (ht : d.tasks = (s.set t y).tasks) (hn : ∀ x, s.tasks t = some x → x.bucket = none)
    (hy : y.bucket = none ∨ ¬ y.stage.holds = true) : Quiet s d := by
  refine quiet_set ho ht ?_ ?_
  · exact hy.imp_right .inl
  · intro x b hx hb
    rw [hn x hx] at hb
    cases hb

theorem quiet_held {t : Nat} {x y : Task} (ho : d.order = s.order)
    (ht : d.tasks = (s.set t y).tasks) (hx : s.tasks t = some x) (hb : y.bucket = x.bucket)
    (hxh : x.stage.holds = true) (hyh : y.stage.holds = true) : Quiet s d := by
  refine quiet_set ho ht (.inr (.inr ⟨x, hx, hb.symm, hxh⟩)) ?_
  intro z b hz hzb
  obtain rfl := Option.some.inj (hx.symm.trans hz)
  refine ⟨hb.trans hzb, ?_, fun _ => hyh⟩
  constructor
  · intro hq
    rw [hq] at hyh
    cases hyh
  · intro hq
    rw [hq] at hxh
    cases hxh

theorem quiet_step {e : HandleExec.Ev} (h : SessionCwd.Inv s) (he : atLock e = false)
    (hs : HandleExec.step s e = some d) : Quiet s d := by
  cases e with
  | lock t => cases he
  | release t => cases he
  | arrive t req =>
    obtain ⟨hn, hs⟩ := Option.ite_none_right_eq_some.mp hs
    obtain rfl := Option.some.inj hs
    refine quiet_early rfl rfl ?_ (.inl rfl)
    intro x hx
    simp [hx] at hn
  | lose c =>
    obtain rfl := Option.some.inj hs
    exact quiet_same rfl rfl
  | parse t =>
    obtain ⟨x, hat, hs⟩ := bind_some hs
    obtain ⟨hx, hg⟩ := taskAt_some hat
    obtain ⟨hb, -⟩ := h.early t x hx (.inl hg)
    have hn : ∀ z, s.tasks t = some z → z.bucket = none := by
      intro z hz
      obtain rfl := Option.some.inj (hx.symm.trans hz)
      exact hb
    split at hs <;> obtain rfl := Option.some.inj hs <;> exact quiet_early rfl rfl hn (.inl hb)
  | reuse t | connect t | connectFailed t =>
    obtain ⟨x, hat, hs⟩ := bind_some hs
    obtain ⟨hx, hg⟩ := taskAt_some hat
    obtain ⟨hb, -⟩ := h.early t x hx (.inr (.inl hg))
    have hn : ∀ z, s.tasks t = some z → z.bucket = none := by
      intro z hz
      obtain rfl := Option.some.inj (hx.symm.trans hz)
      exact hb
    first
    | obtain ⟨c, -, hs⟩ := bind_some hs
      obtain rfl := Option.some.inj hs
      exact quiet_early rfl rfl hn (.inl hb)
    | obtain ⟨-, hs⟩ := Option.ite_none_left_eq_some.mp hs
      obtain rfl := Option.some.inj hs
      exact quiet_early rfl rfl hn (.inl hb)
    | obtain rfl := Option.some.inj hs
      exact quiet_early rfl rfl hn (.inl hb)
  | getSession t =>
    obtain ⟨x, hat, hs⟩ := bind_some hs
    obtain ⟨k, -, hs⟩ := bind_some hs
    obtain ⟨hx, hg⟩ := taskAt_some hat
    obtain ⟨hb, -⟩ := h.early t x hx (.inr (.inr hg))
    obtain rfl := Option.some.inj hs
    have hmade : (s.getSession k).2.tasks = s.tasks ∧ (s.getSession k).2.order = s.order := by
      unfold Daemon.getSession
      cases s.sessions k <;> exact ⟨rfl, rfl⟩
    have htasks : ((s.getSession k).2.set t { x with
        stage := .queued, bucket := some (s.getSession k).1 }).tasks =
        (s.set t { x with stage := .queued, bucket := some (s.getSession k).1 }).tasks := by
      unfold Daemon.set
      rw [hmade.1]
    refine quiet_early hmade.2 htasks ?_ (.inr (by simp [Stage.holds]))
    intro z hz
    obtain rfl := Option.some.inj (hx.symm.trans hz)
    exact hb
  | assemble t =>
    obtain ⟨x, hat, hs⟩ := bind_some hs
    obtain ⟨i, -, hs⟩ := bind_some hs
    obtain ⟨b, -, hs⟩ := bind_some hs
    obtain ⟨hx, hg⟩ := taskAt_some hat
    obtain rfl := Option.some.inj hs
    exact quiet_held rfl rfl hx rfl (by rw [hg]; rfl) rfl
  | finish t o =>
    obtain ⟨x, hat, hs⟩ := bind_some hs
    obtain ⟨hx, hg⟩ := taskAt_some hat
    obtain rfl := Option.some.inj hs
    exact quiet_held rfl rfl hx rfl (by rw [hg]; rfl) rfl
  | evict t | update t =>
    obtain ⟨x, hat, hs⟩ := bind_some hs
    obtain ⟨b, -, hs⟩ := bind_some hs
    obtain ⟨hx, hg⟩ := taskAt_some hat
    obtain rfl := Option.some.inj hs
    exact quiet_held rfl rfl hx rfl (by rw [hg]; rfl) rfl

theorem sessions_kept {e : HandleExec.Ev} (hs : HandleExec.step s e = some d) {k : SessionKey}
    {b : Nat} (hk : s.sessions k = some b) : d.sessions k = some b := by
  cases e with
  | arrive t req =>
    obtain ⟨-, hs⟩ := Option.ite_none_right_eq_some.mp hs
    obtain rfl := Option.some.inj hs
    exact hk
  | lose c =>
    obtain rfl := Option.some.inj hs
    exact hk
  | parse t =>
    obtain ⟨x, -, hs⟩ := bind_some hs
    split at hs <;> obtain rfl := Option.some.inj hs <;> exact hk
  | connect t =>
    obtain ⟨x, -, hs⟩ := bind_some hs
    obtain ⟨-, hs⟩ := Option.ite_none_left_eq_some.mp hs
    obtain rfl := Option.some.inj hs
    exact hk
  | connectFailed t | finish t o =>
    obtain ⟨x, -, hs⟩ := bind_some hs
    obtain rfl := Option.some.inj hs
    exact hk
  | reuse t | evict t | update t | release t =>
    obtain ⟨x, -, hs⟩ := bind_some hs
    obtain ⟨c, -, hs⟩ := bind_some hs
    obtain rfl := Option.some.inj hs
    exact hk
  | assemble t =>
    obtain ⟨x, -, hs⟩ := bind_some hs
    obtain ⟨i, -, hs⟩ := bind_some hs
    obtain ⟨c, -, hs⟩ := bind_some hs
    obtain rfl := Option.some.inj hs
    exact hk
  | lock t =>
    obtain ⟨x, -, hs⟩ := bind_some hs
    obtain ⟨i, -, hs⟩ := bind_some hs
    obtain ⟨c, -, hs⟩ := bind_some hs
    obtain ⟨-, hs⟩ := Option.ite_none_left_eq_some.mp hs
    obtain rfl := Option.some.inj hs
    exact hk
  | getSession t =>
    obtain ⟨x, -, hs⟩ := bind_some hs
    obtain ⟨k', -, hs⟩ := bind_some hs
    obtain rfl := Option.some.inj hs
    change (s.getSession k').2.sessions k = some b
    unfold Daemon.getSession
    cases hk' : s.sessions k' with
    | some c => exact hk
    | none =>
      have hne : k ≠ k' := by
        rintro rfl
        rw [hk'] at hk
        cases hk
      simpa [Daemon.makeSession, Daemon.setBucket, Function.update_of_ne hne] using hk

theorem lock_moves {t b : Nat} (h : SessionCwd.Inv s) (hq : QueuedAt s t b)
    (hs : HandleExec.step s (.lock t) = some d) :
    (∀ u c, HoldsAt d u c ↔ HoldsAt s u c ∨ (u = t ∧ c = b)) ∧
      (∀ u c, QueuedAt d u c ↔ QueuedAt s u c ∧ u ≠ t) ∧
      (∀ u c, InBucket s u c → InBucket d u c) ∧
      ∃ k, s.sessions k = some b ∧ d.order = s.order ++ [(k, t)] := by
  obtain ⟨x, hat, hs⟩ := bind_some hs
  obtain ⟨k, hk, hs⟩ := bind_some hs
  obtain ⟨c, hc, hs⟩ := bind_some hs
  obtain ⟨hx, hg⟩ := taskAt_some hat
  obtain ⟨-, hd⟩ := Option.ite_none_left_eq_some.mp hs
  obtain rfl := hq.inBucket.unique ⟨x, hx, hc⟩
  obtain ⟨k', hk', hkb⟩ := h.bound t x b hx hc
  obtain rfl := Option.some.inj (hk.symm.trans hk')
  have hd := Option.some.inj hd
  have htasks : d.tasks = (s.set t { x with stage := .locked }).tasks := by rw [← hd]; rfl
  have hself : d.tasks t = some { x with stage := .locked } := by rw [htasks, set_tasks_self]
  have hother : ∀ u, u ≠ t → d.tasks u = s.tasks u := by
    intro u hu
    rw [htasks, set_tasks_ne s _ hu]
  refine ⟨?_, ?_, ?_, k, hkb, by rw [← hd]; rfl⟩
  · intro u a
    by_cases hu : u = t
    · subst hu
      constructor
      · rintro ⟨z, hz, hb, -⟩
        obtain rfl := Option.some.inj (hself.symm.trans hz)
        exact .inr ⟨rfl, Option.some.inj (hb.symm.trans hc)⟩
      · rintro (hold | ⟨-, rfl⟩)
        · exact absurd hq hold.not_queued
        · exact ⟨_, hself, hc, rfl⟩
    · simp [HoldsAt, hother u hu, hu]
  · intro u a
    by_cases hu : u = t
    · subst hu
      simp [QueuedAt, hself]
    · simp [QueuedAt, hother u hu, hu]
  · intro u a
    by_cases hu : u = t
    · subst hu
      simp [InBucket, hself, hx]
    · simp [InBucket, hother u hu]

theorem release_moves {t b : Nat} (hh : InBucket s t b)
    (hs : HandleExec.step s (.release t) = some d) :
    (∀ u c, HoldsAt d u c ↔ HoldsAt s u c ∧ u ≠ t) ∧
      (∀ u c, QueuedAt d u c ↔ QueuedAt s u c) ∧
      (∀ u c, InBucket s u c → InBucket d u c) ∧ d.order = s.order ∧ HoldsAt s t b := by
  obtain ⟨x, hat, hs⟩ := bind_some hs
  obtain ⟨c, hc, hs⟩ := bind_some hs
  obtain ⟨hx, hg⟩ := taskAt_some hat
  obtain rfl := hh.unique ⟨x, hx, hc⟩
  have hd := Option.some.inj hs
  have htasks : d.tasks = (s.set t { x with stage := .done }).tasks := by rw [← hd]; rfl
  have hself : d.tasks t = some { x with stage := .done } := by rw [htasks, set_tasks_self]
  have hother : ∀ u, u ≠ t → d.tasks u = s.tasks u := by
    intro u hu
    rw [htasks, set_tasks_ne s _ hu]
  refine ⟨?_, ?_, ?_, by rw [← hd]; rfl, x, hx, hc, by rw [hg]; rfl⟩
  · intro u a
    by_cases hu : u = t
    · subst hu
      simp [HoldsAt, hself, Stage.holds]
    · simp [HoldsAt, hother u hu, hu]
  · intro u a
    by_cases hu : u = t
    · subst hu
      simp [QueuedAt, hself, hx, hg]
    · simp [QueuedAt, hother u hu]
  · intro u a
    by_cases hu : u = t
    · subst hu
      simp [InBucket, hself, hx]
    · simp [InBucket, hother u hu]

end Places

theorem queuing_some {s : Sys} {t b : Nat} (h : s.queuing t = some b) : QueuedAt s.daemon t b := by
  obtain ⟨x, hat, hb⟩ := bind_some h
  obtain ⟨hx, hg⟩ := taskAt_some hat
  exact ⟨x, hx, hb, hg⟩

inductive Move (s : Sys) (e : Ev) (v : Sys) : Prop where
  | own (g : HandleExec.Ev) (d : Daemon) (he : e = .own g) (hg : atLock g = false)
      (hd : HandleExec.step s.daemon g = some d) (hv : v = { s with daemon := d })
  | pass (n : Nat) (he : e = .pass n) (hv : v = { s with now := s.now + n })
  | enter (t b : Nat) (w : Wait) (hq : QueuedAt s.daemon t b) (hl : (s.waits t).inLine = false)
      (hw : w = .timed s.now ∧ s.waits t = .fresh ∨ ∃ a, w = .untimed a ∧ s.waits t = .warned a)
      (hv : v = s.enter b t w)
  | quit (t b a : Nat) (he : e = .timeUp t) (hq : QueuedAt s.daemon t b)
      (hw : s.waits t = .timed a) (ha : a + sessionQueueWarn ≤ s.now)
      (hv : v = s.quit b t (.warned a))
  | lock (t b : Nat) (d : Daemon) (hq : QueuedAt s.daemon t b)
      (ho : (s.locks b).owner = some t) (hd : HandleExec.step s.daemon (.lock t) = some d)
      (hv : v = { s with daemon := d })
  | release (t b : Nat) (d : Daemon) (he : e = .release t) (hb : InBucket s.daemon t b)
      (hd : HandleExec.step s.daemon (.release t) = some d)
      (hv : v = { s.quit b t (s.waits t) with daemon := d })

theorem step_move {s v : Sys} {e : Ev} (hs : step s e = some v) : Move s e v := by
  cases e with
  | own g =>
    obtain ⟨hg, hs⟩ := Option.ite_none_left_eq_some.mp hs
    obtain ⟨d, hd, hs⟩ := bind_some hs
    exact .own g d rfl (by simpa using hg) hd (Option.some.inj hs).symm
  | pass n => exact .pass n rfl (Option.some.inj hs).symm
  | queue t =>
    obtain ⟨b, hb, hs⟩ := bind_some hs
    obtain ⟨hw, hs⟩ := Option.ite_none_right_eq_some.mp hs
    exact .enter t b _ (queuing_some hb) (by rw [hw]; rfl) (.inl ⟨rfl, hw⟩)
      (Option.some.inj hs).symm
  | timeUp t =>
    obtain ⟨b, hb, hs⟩ := bind_some hs
    split at hs
    · rename_i a hw
      obtain ⟨ha, hs⟩ := Option.ite_none_right_eq_some.mp hs
      exact .quit t b a rfl (queuing_some hb) hw ha (Option.some.inj hs).symm
    · cases hs
  | requeue t =>
    obtain ⟨b, hb, hs⟩ := bind_some hs
    split at hs
    · rename_i a hw
      exact .enter t b _ (queuing_some hb) (by rw [hw]; rfl) (.inr ⟨a, rfl, hw⟩)
        (Option.some.inj hs).symm
    · cases hs
  | lock t =>
    obtain ⟨b, hb, hs⟩ := bind_some hs
    obtain ⟨d, hd, hs⟩ := bind_some hs
    obtain ⟨ho, hs⟩ := Option.ite_none_right_eq_some.mp hs
    exact .lock t b d (queuing_some hb) ho hd (Option.some.inj hs).symm
  | release t =>
    obtain ⟨x, hat, hs⟩ := bind_some hs
    obtain ⟨b, hb, hs⟩ := bind_some hs
    obtain ⟨d, hd, hs⟩ := bind_some hs
    exact .release t b d rfl ⟨x, (taskAt_some hat).1, hb⟩ hd (Option.some.inj hs).symm

/-- Who is in the line of a lock: its holder first, then the tasks in one of the two `lock()`. -/
structure Inv (s : Sys) : Prop where
  daemon : SessionCwd.Inv s.daemon
  nodup : ∀ b, (s.locks b).line.Nodup
  mem : ∀ b t, t ∈ (s.locks b).line ↔
    HoldsAt s.daemon t b ∨ QueuedAt s.daemon t b ∧ (s.waits t).inLine = true
  head : ∀ b t, HoldsAt s.daemon t b → (s.locks b).owner = some t
  fresh : ∀ t, s.waits t ≠ .fresh → ∃ b, InBucket s.daemon t b

theorem inv_init : Inv {} where
  daemon := SessionCwd.inv_init
  nodup := by simp
  mem := by simp [HoldsAt, QueuedAt]
  head := by simp [HoldsAt]
  fresh := by simp

theorem not_fresh {w : Wait} (h : w.inLine = true) : w ≠ .fresh := by
  rintro rfl
  cases h

theorem inv_own {s : Sys} {d : Daemon} (h : Inv s) (hd : SessionCwd.Inv d)
    (hq : Quiet s.daemon d) : Inv { s with daemon := d } where
  daemon := hd
  nodup := h.nodup
  mem := by
    intro b t
    rw [h.mem b t, hq.holds]
    refine or_congr_right (and_congr_left fun hl => ?_)
    obtain ⟨c, hc⟩ := h.fresh t (not_fresh hl)
    exact (hq.queued t c b hc).symm
  head := fun b t ht => h.head b t ((hq.holds t b).mp ht)
  fresh := by
    intro t ht
    obtain ⟨b, hb⟩ := h.fresh t ht
    exact ⟨b, hq.kept t b hb⟩

theorem inv_enter {s : Sys} {t b : Nat} {w : Wait} (h : Inv s) (hq : QueuedAt s.daemon t b)
    (hl : (s.waits t).inLine = false) (hw : w.inLine = true) : Inv (s.enter b t w) := by
  have hout : ∀ c, t ∉ (s.locks c).line := by
    intro c hc
    rcases (h.mem c t).mp hc with hh | ⟨-, hi⟩
    · exact hh.not_queued hq
    · rw [hl] at hi
      cases hi
  constructor
  case daemon => exact h.daemon
  case nodup =>
    intro c
    by_cases hc : c = b
    · subst hc
      simp only [Sys.enter, Function.update_self, Lock.line_acquire]
      rw [← List.concat_eq_append]
      exact List.Nodup.concat (hout c) (h.nodup c)
    · simp only [Sys.enter, Function.update_of_ne hc]
      exact h.nodup c
  case mem =>
    intro c u
    have hline : u ∈ ((s.enter b t w).locks c).line ↔ u ∈ (s.locks c).line ∨ u = t ∧ c = b := by
      by_cases hc : c = b
      · subst hc
        simp [Sys.enter]
      · simp [Sys.enter, hc]
    rw [hline, h.mem c u]
    by_cases hu : u = t
    · subst hu
      simp only [Sys.enter, Function.update_self, hl, hw]
      constructor
      · rintro ((hh | ⟨-, hf⟩) | ⟨-, rfl⟩)
        · exact .inl hh
        · cases hf
        · exact .inr ⟨hq, trivial⟩
      · rintro (hh | ⟨hc, -⟩)
        · exact .inl (.inl hh)
        · exact .inr ⟨trivial, hc.inBucket.unique hq.inBucket⟩
    · simp [Sys.enter, hu]
  case head =>
    intro c u hu
    have ho := h.head c u hu
    by_cases hc : c = b
    · subst hc
      simp only [Sys.enter, Function.update_self]
      exact Lock.owner_acquire _ ho
    · simpa only [Sys.enter, Function.update_of_ne hc] using ho
  case fresh =>
    intro u hu
    by_cases hut : u = t
    · exact ⟨b, hut ▸ hq.inBucket⟩
    · simp only [Sys.enter, Function.update_of_ne hut] at hu
      exact h.fresh u hu

theorem mem_quit {s : Sys} (h : Inv s) (b t : Nat) (w : Wait) (c u : Nat) :
    u ∈ ((s.quit b t w).locks c).line ↔ u ∈ (s.locks c).line ∧ ¬ (u = t ∧ c = b) := by
  by_cases hc : c = b
  · subst hc
    simp [Sys.quit, (h.nodup c).mem_erase_iff, and_comm]
  · simp [Sys.quit, hc]

theorem nodup_quit {s : Sys} (h : Inv s) (b t : Nat) (w : Wait) (c : Nat) :
    ((s.quit b t w).locks c).line.Nodup := by
  by_cases hc : c = b
  · subst hc
    simpa [Sys.quit] using (h.nodup c).erase t
  · simpa [Sys.quit, hc] using h.nodup c

theorem head_quit {s : Sys} {b t c u : Nat} {w : Wait} (ho : (s.locks c).owner = some u)
    (hu : u ≠ t) : ((s.quit b t w).locks c).owner = some u := by
  by_cases hc : c = b
  · subst hc
    simp only [Sys.quit, Function.update_self]
    exact Lock.owner_leave _ ho hu
  · simpa only [Sys.quit, Function.update_of_ne hc] using ho

theorem inv_timeUp {s : Sys} {t b a : Nat} (h : Inv s) (hq : QueuedAt s.daemon t b) :
    Inv (s.quit b t (.warned a)) where
  daemon := h.daemon
  nodup := nodup_quit h b t _
  mem := by
    intro c u
    rw [mem_quit h, h.mem c u]
    by_cases hu : u = t
    · subst hu
      simp only [Sys.quit, Function.update_self]
      constructor
      · rintro ⟨hh | ⟨hc, -⟩, hn⟩
        · exact .inl hh
        · exact absurd ⟨trivial, hc.inBucket.unique hq.inBucket⟩ hn
      · rintro (hh | ⟨-, hf⟩)
        · exact absurd hq hh.not_queued
        · cases hf
    · simp [Sys.quit, hu]
  head := by
    intro c u hu
    refine head_quit (h.head c u hu) ?_
    rintro rfl
    exact hu.not_queued hq
  fresh := by
    intro u hu
    by_cases hut : u = t
    · exact ⟨b, hut ▸ hq.inBucket⟩
    · simp only [Sys.quit, Function.update_of_ne hut] at hu
      exact h.fresh u hu

theorem inv_lock {s : Sys} {d : Daemon} {t b : Nat} (h : Inv s) (hq : QueuedAt s.daemon t b)
    (ho : (s.locks b).owner = some t) (hd : HandleExec.step s.daemon (.lock t) = some d) :
    Inv { s with daemon := d } := by
  obtain ⟨hholds, hqueued, hkept, -⟩ := lock_moves h.daemon hq hd
  constructor
  case daemon => exact inv_step h.daemon hd
  case nodup => exact h.nodup
  case mem =>
    intro c u
    rw [hholds, hqueued]
    by_cases hu : u = t
    · subst hu
      have hmem : u ∈ (s.locks c).line ↔ c = b := by
        constructor
        · intro hm
          rcases (h.mem c u).mp hm with hh | ⟨hc, -⟩
          · exact hh.inBucket.unique hq.inBucket
          · exact hc.inBucket.unique hq.inBucket
        · rintro rfl
          simp [Lock.line, ho]
      simp only [hmem, ne_eq, not_true_eq_false, and_false, false_and, or_false, true_and]
      exact ⟨.inr, fun hor => hor.elim (fun hh => absurd hq hh.not_queued) id⟩
    · simp [h.mem c u, hu]
  case head =>
    intro c u hu
    rcases (hholds u c).mp hu with hh | ⟨rfl, rfl⟩
    · exact h.head c u hh
    · exact ho
  case fresh =>
    intro u hu
    obtain ⟨c, hc⟩ := h.fresh u hu
    exact ⟨c, hkept u c hc⟩

theorem inv_release {s : Sys} {d : Daemon} {t b : Nat} (h : Inv s) (hb : InBucket s.daemon t b)
    (hd : HandleExec.step s.daemon (.release t) = some d) :
    Inv { s.quit b t (s.waits t) with daemon := d } := by
  obtain ⟨hholds, hqueued, hkept, -, hh⟩ := release_moves hb hd
  have hwaits : (s.quit b t (s.waits t)).waits = s.waits := by
    simp [Sys.quit]
  constructor
  case daemon => exact inv_step h.daemon hd
  case nodup => exact nodup_quit h b t (s.waits t)
  case mem =>
    intro c u
    rw [hholds, hqueued, hwaits, mem_quit h, h.mem c u]
    by_cases hu : u = t
    · subst hu
      constructor
      · rintro ⟨hh' | ⟨hc, -⟩, hn⟩
        · exact absurd ⟨rfl, hh'.inBucket.unique hb⟩ hn
        · exact absurd hc hh.not_queued
      · rintro (⟨-, hn⟩ | ⟨hc, -⟩)
        · exact absurd rfl hn
        · exact absurd hc hh.not_queued
    · simp [hu]
  case head =>
    intro c u hu
    obtain ⟨hu, hne⟩ := (hholds u c).mp hu
    exact head_quit (w := s.waits t) (h.head c u hu) hne
  case fresh =>
    intro u hu
    rw [hwaits] at hu
    obtain ⟨c, hc⟩ := h.fresh u hu
    exact ⟨c, hkept u c hc⟩

theorem inv_step {s v : Sys} {e : Ev} (h : Inv s) (hs : step s e = some v) : Inv v := by
  cases step_move hs with
  | own g d _ hg hd hv =>
    rw [hv]
    exact inv_own h (SessionCwd.inv_step h.daemon hd) (quiet_step h.daemon hg hd)
  | pass n _ hv =>
    rw [hv]
    exact ⟨h.daemon, h.nodup, h.mem, h.head, h.fresh⟩
  | enter t b w hq hl hw hv =>
    rw [hv]
    refine inv_enter h hq hl ?_
    rcases hw with ⟨rfl, -⟩ | ⟨a, rfl, -⟩ <;> rfl
  | quit t b a _ hq _ _ hv =>
    rw [hv]
    exact inv_timeUp h hq
  | lock t b d hq ho hd hv =>
    rw [hv]
    exact inv_lock h hq ho hd
  | release t b d _ hb hd hv =>
    rw [hv]
    exact inv_release h hb hd

end ShellProxy.SessionQueue
