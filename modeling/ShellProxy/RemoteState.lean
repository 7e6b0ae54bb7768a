import ShellProxy.SessionCwd

/-! The commands of the daemon together with their serve processes, which read and replace the
state file of their session on the remote host. -/
namespace ShellProxy.RemoteState
open Frame Session HandleExec SessionCwd Machine Latest

inductive Phase where
  | absent
  | started
  | loaded
  | saved
  | reported (cwd : Option String)
  | gone
  deriving DecidableEq, Repr

/-- `restored` is the result of `load_state`, `saved` the dump a completed `save_state` stored. -/
structure Serve where
  phase : Phase := .absent
  restored : Option (Option String) := none
  saved : Option String := none

/-- It can still replace the state file. -/
def Serve.pending (v : Serve) : Bool :=
  match v.phase with
  | .started | .loaded => true
  | _ => false

/-- `late` marks the tasks whose serve process was pending when another task had already got the
lock of the session after them. -/
structure World where
  daemon : Daemon := {}
  serves : Nat → Serve := fun _ => {}
  files : SessionKey → Option String := fun _ => none
  late : Nat → Bool := fun _ => false

inductive Ev where
  | daemon (e : HandleExec.Ev)
  | launch (t : Nat)
  | load (t : Nat)
  | save (t : Nat) (dump : Option String)
  | report (t : Nat) (cwd : Option String)
  | die (t : Nat)

namespace World

def key (w : World) (t : Nat) : Option SessionKey := (w.daemon.tasks t).bind Task.key

/-- An execution ends well only with what its own serve process reported. -/
def allows (w : World) : HandleExec.Ev → Bool
  | .finish t (.ok c) => (w.serves t).phase == .reported c
  | _ => true

def overtakes (w : World) : HandleExec.Ev → Nat → Bool
  | .lock u, t => match w.key u with
    | some k => t ∈ history w.daemon k && (w.serves t).pending
    | none => false
  | _, _ => false

def put (w : World) (t : Nat) (v : Serve) : World :=
  { w with serves := Function.update w.serves t v }

/-- A process that runs leaves the state file behind. -/
def leave (w : World) (t : Nat) (g : Phase) : Option World :=
  match (w.serves t).phase with
  | .started | .loaded | .saved => some (w.put t { w.serves t with phase := g })
  | _ => none

end World

def step (w : World) : Ev → Option World
  | .daemon e =>
    if w.allows e then
      (HandleExec.step w.daemon e).map fun daemon =>
        { w with daemon, late := fun t => w.late t || w.overtakes e t }
    else none
  -- the request is on its way from the assembly on, also to a channel that is given up
  | .launch t => do
    let x ← w.daemon.tasks t
    let k ← x.key
    if x.served.isSome ∧ (w.serves t).phase = .absent then
      some { w.put t { phase := .started } with
        late := fun u => w.late u || (u == t && (history w.daemon k).getLast? != some t) }
    else none
  | .load t => do
    let k ← w.key t
    if (w.serves t).phase = .started then
      some (w.put t { w.serves t with phase := .loaded, restored := some (w.files k) })
    else none
  | .save t dump => do
    let k ← w.key t
    if (w.serves t).phase = .loaded then
      some { w.put t { w.serves t with phase := .saved, saved := dump } with
        files := Function.update w.files k (dump.or (w.files k)) }
    else none
  -- without a save when the session name, the load or the spawn failed
  | .report t cwd => w.leave t (.reported cwd)
  | .die t => w.leave t .gone

structure Moved (e : HandleExec.Ev) (t : Nat) (x y : Task) : Prop where
  open_ : x.stage ≠ .done
  parsed : y.stage ≠ .arrived
  key : y.key = x.key ∨ x.stage = .arrived
  served : y.served = x.served ∨ (y.served.isSome = true ∧ y.stage = .running)
  outcome : y.outcome = x.outcome ∨ ∃ o, e = .finish t o ∧ y.outcome = some o
  ended : x.stage = .running → y.outcome.isSome = true

/-- A step changes the record of at most one task, and only getting a lock adds to the order. -/
inductive Change (s : Daemon) (e : HandleExec.Ev) (d : Daemon) : Prop where
  | same (htasks : d.tasks = s.tasks) (horder : d.order = s.order)
  | arrive (t : Nat) (req : ExecRequest) (hn : s.tasks t = none)
      (htasks : d.tasks = (s.set t { req }).tasks) (horder : d.order = s.order)
  | move (t : Nat) (x y : Task) (hx : s.tasks t = some x) (htasks : d.tasks = (s.set t y).tasks)
      (horder : d.order = s.order ∨ e = .lock t) (hm : Moved e t x y)

theorem change_of_step {s d : Daemon} {e : HandleExec.Ev} (hs : HandleExec.step s e = some d) :
    Change s e d := by
  cases e with
  | arrive t req =>
    obtain ⟨hn, hs⟩ := Option.ite_none_right_eq_some.mp hs
    obtain rfl := Option.some.inj hs
    exact .arrive t req (by simpa using hn) rfl rfl
  | lose c =>
    obtain rfl := Option.some.inj hs
    exact .same rfl rfl
  | parse t =>
    obtain ⟨x, hat, hs⟩ := bind_some hs
    obtain ⟨hx, hg⟩ := taskAt_some hat
    split at hs
    · obtain rfl := Option.some.inj hs
      refine .move t x _ hx rfl (.inl rfl) ⟨?_, ?_, .inr hg, .inl rfl, .inl rfl, ?_⟩ <;> simp [hg]
    · obtain rfl := Option.some.inj hs
      refine .move t x _ hx rfl (.inl rfl) ⟨?_, ?_, .inr hg, .inl rfl, .inl rfl, ?_⟩ <;> simp [hg]
  | reuse t =>
    obtain ⟨x, hat, hs⟩ := bind_some hs
    obtain ⟨c, -, hs⟩ := bind_some hs
    obtain ⟨hx, hg⟩ := taskAt_some hat
    obtain rfl := Option.some.inj hs
    refine .move t x _ hx rfl (.inl rfl) ⟨?_, ?_, .inl rfl, .inl rfl, .inl rfl, ?_⟩ <;> simp [hg]
  | connect t =>
    obtain ⟨x, hat, hs⟩ := bind_some hs
    obtain ⟨-, hs⟩ := Option.ite_none_left_eq_some.mp hs
    obtain ⟨hx, hg⟩ := taskAt_some hat
    obtain rfl := Option.some.inj hs
    refine .move t x _ hx rfl (.inl rfl) ⟨?_, ?_, .inl rfl, .inl rfl, .inl rfl, ?_⟩ <;> simp [hg]
  | connectFailed t =>
    obtain ⟨x, hat, hs⟩ := bind_some hs
    obtain ⟨hx, hg⟩ := taskAt_some hat
    obtain rfl := Option.some.inj hs
    refine .move t x _ hx rfl (.inl rfl) ⟨?_, ?_, .inl rfl, .inl rfl, .inl rfl, ?_⟩ <;> simp [hg]
  | getSession t =>
    obtain ⟨x, hat, hs⟩ := bind_some hs
    obtain ⟨k, -, hs⟩ := bind_some hs
    obtain ⟨hx, hg⟩ := taskAt_some hat
    obtain rfl := Option.some.inj hs
    refine .move t x { x with stage := .queued, bucket := some (s.getSession k).1 } hx ?_ (.inl ?_)
      ⟨?_, ?_, .inl rfl, .inl rfl, .inl rfl, ?_⟩
    · unfold Daemon.getSession
      cases s.sessions k <;> rfl
    · cases s.sessions k <;> rfl
    all_goals simp [hg]
  | lock t =>
    obtain ⟨x, hat, hs⟩ := bind_some hs
    obtain ⟨k, -, hs⟩ := bind_some hs
    obtain ⟨b, -, hs⟩ := bind_some hs
    obtain ⟨-, hs⟩ := Option.ite_none_left_eq_some.mp hs
    obtain ⟨hx, hg⟩ := taskAt_some hat
    obtain rfl := Option.some.inj hs
    refine .move t x _ hx rfl (.inr rfl) ⟨?_, ?_, .inl rfl, .inl rfl, .inl rfl, ?_⟩ <;> simp [hg]
  | assemble t =>
    obtain ⟨x, hat, hs⟩ := bind_some hs
    obtain ⟨i, -, hs⟩ := bind_some hs
    obtain ⟨b, -, hs⟩ := bind_some hs
    obtain ⟨hx, hg⟩ := taskAt_some hat
    obtain rfl := Option.some.inj hs
    refine .move t x _ hx rfl (.inl rfl) ⟨?_, ?_, .inl rfl, .inr ⟨rfl, rfl⟩, .inl rfl, ?_⟩ <;> simp [hg]
  | finish t o =>
    obtain ⟨x, hat, hs⟩ := bind_some hs
    obtain ⟨hx, hg⟩ := taskAt_some hat
    obtain rfl := Option.some.inj hs
    refine .move t x _ hx rfl (.inl rfl) ⟨?_, ?_, .inl rfl, .inl rfl, .inr ⟨o, rfl, rfl⟩, ?_⟩ <;> simp [hg]
  | evict t | update t | release t =>
    obtain ⟨x, hat, hs⟩ := bind_some hs
    obtain ⟨b, -, hs⟩ := bind_some hs
    obtain ⟨hx, hg⟩ := taskAt_some hat
    obtain rfl := Option.some.inj hs
    refine .move t x _ hx rfl (.inl rfl) ⟨?_, ?_, .inl rfl, .inl rfl, .inl rfl, ?_⟩ <;> simp [hg]

theorem Change.back {s d : Daemon} {e : HandleExec.Ev} (h : Change s e d) {u : Nat} {y : Task}
    (hy : d.tasks u = some y) :
    s.tasks u = some y ∨ (∃ x, s.tasks u = some x ∧ Moved e u x y) ∨
      (s.tasks u = none ∧ y.served = none ∧ y.outcome = none) := by
  cases h with
  | same htasks => exact .inl (by rw [← htasks, hy])
  | arrive t req hn htasks =>
    rw [htasks] at hy
    by_cases hu : u = t
    · subst hu
      obtain rfl := Option.some.inj ((set_tasks_self s u _).symm.trans hy)
      exact .inr (.inr ⟨hn, rfl, rfl⟩)
    · exact .inl ((set_tasks_ne s _ hu).symm.trans hy)
  | move t x z hx htasks _ hm =>
    rw [htasks] at hy
    by_cases hu : u = t
    · subst hu
      obtain rfl := Option.some.inj ((set_tasks_self s u _).symm.trans hy)
      exact .inr (.inl ⟨x, hx, hm⟩)
    · exact .inl ((set_tasks_ne s _ hu).symm.trans hy)

theorem Change.on {s d : Daemon} {e : HandleExec.Ev} (h : Change s e d) {u : Nat} {x : Task}
    (hx : s.tasks u = some x) : ∃ y, d.tasks u = some y ∧ (y = x ∨ Moved e u x y) := by
  cases h with
  | same htasks => exact ⟨x, by rw [htasks, hx], .inl rfl⟩
  | arrive t req hn htasks =>
    have hu : u ≠ t := by
      intro hu
      rw [hu, hn] at hx
      cases hx
    exact ⟨x, by rw [htasks, set_tasks_ne s _ hu, hx], .inl rfl⟩
  | move t z y hz htasks _ hm =>
    by_cases hu : u = t
    · subst hu
      obtain rfl := Option.some.inj (hx.symm.trans hz)
      exact ⟨y, by rw [htasks, set_tasks_self], .inr hm⟩
    · exact ⟨x, by rw [htasks, set_tasks_ne s _ hu, hx], .inl rfl⟩

theorem Change.kept {s d : Daemon} {e : HandleExec.Ev} (h : Change s e d) {t : Nat} {x : Task}
    (hx : s.tasks t = some x) (ha : x.stage ≠ .arrived) :
    ∃ y, d.tasks t = some y ∧ y.key = x.key ∧ y.stage ≠ .arrived := by
  obtain ⟨y, hy, hm⟩ := h.on hx
  cases hm with
  | inl he => exact ⟨y, hy, by rw [he], by rwa [he]⟩
  | inr hm => exact ⟨y, hy, hm.key.resolve_right ha, hm.parsed⟩

/-- The lock is free only when everyone who had it is over. -/
theorem lock_spec {s d : Daemon} {t : Nat} (h : SessionCwd.Inv s)
    (hs : HandleExec.step s (.lock t) = some d) :
    ∃ x k, s.tasks t = some x ∧ x.stage = .queued ∧ x.key = some k ∧
      (∀ u ∈ history s k, Finished s u) ∧ d.order = s.order ++ [(k, t)] := by
  obtain ⟨x, hat, hs⟩ := bind_some hs
  obtain ⟨k, hk, hs⟩ := bind_some hs
  obtain ⟨b, hb, hs⟩ := bind_some hs
  obtain ⟨hx, hg⟩ := taskAt_some hat
  obtain ⟨hfree, hd⟩ := Option.ite_none_left_eq_some.mp hs
  obtain ⟨k', hk', hkb⟩ := h.bound t x b hx hb
  obtain rfl := Option.some.inj (hk.symm.trans hk')
  have hlog := h.log k b hkb
  unfold Log at hlog
  rw [show (s.buckets b).holder = none by simpa using hfree] at hlog
  refine ⟨x, k, hx, hg, hk, hlog.1, ?_⟩
  rw [← Option.some.inj hd]
  rfl

theorem finished_of_not_last {s : Daemon} (h : SessionCwd.Inv s) {k : SessionKey} {t : Nat}
    (ht : t ∈ history s k) (hl : (history s k).getLast? ≠ some t) : Finished s t := by
  cases hk : s.sessions k with
  | none =>
    rw [h.unknown k hk] at ht
    cases ht
  | some b =>
    have hlog := h.log k b hk
    unfold Log at hlog
    cases hb : (s.buckets b).holder with
    | none =>
      rw [hb] at hlog
      exact hlog.1 t ht
    | some u =>
      rw [hb] at hlog
      obtain ⟨pre, x, hh, hfin, -⟩ := hlog
      rw [hh] at ht hl
      cases List.mem_append.mp ht with
      | inl ht => exact hfin t ht
      | inr ht =>
        rw [List.mem_singleton.mp ht] at hl
        exact absurd List.getLast?_concat hl

theorem history_step {s d : Daemon} {e : HandleExec.Ev} (h : SessionCwd.Inv s)
    (hs : HandleExec.step s e = some d) (k : SessionKey) :
    history d k = history s k ∨ ∃ u x, e = .lock u ∧ s.tasks u = some x ∧ x.stage = .queued ∧
      x.key = some k ∧ (∀ v ∈ history s k, Finished s v) ∧ history d k = history s k ++ [u] := by
  have hlock : ∀ u, e = .lock u → history d k = history s k ∨ ∃ u x, e = .lock u ∧
      s.tasks u = some x ∧ x.stage = .queued ∧ x.key = some k ∧
      (∀ v ∈ history s k, Finished s v) ∧ history d k = history s k ++ [u] := by
    intro u he
    subst he
    obtain ⟨x, k', hx, hg, hk, hfin, ho⟩ := lock_spec h hs
    by_cases hkk : k' = k
    · subst hkk
      exact .inr ⟨u, x, rfl, hx, hg, hk, hfin, by simp [history, ho]⟩
    · exact .inl (by simp [history, ho, hkk])
  cases change_of_step hs with
  | same _ ho => exact .inl (by rw [history, history, ho])
  | arrive t req _ _ ho => exact .inl (by rw [history, history, ho])
  | move t x y _ _ ho _ =>
    cases ho with
    | inl ho => exact .inl (by rw [history, history, ho])
    | inr he => exact hlock t he

/-- The dump a task's serve process stored, if it got that far. -/
def savedBy (w : World) (t : Nat) : Option String := (w.serves t).saved

/-- What the invariants say of the state files: `init` is what they held at the start. -/
structure Held (init : SessionKey → Option String) (w : World) : Prop where
  cwd : SessionCwd.Inv w.daemon
  keyed : ∀ k t, t ∈ history w.daemon k →
    ∃ x, w.daemon.tasks t = some x ∧ x.key = some k ∧ x.stage ≠ .arrived
  answered : ∀ t x, w.daemon.tasks t = some x → x.served.isSome = true →
    x.stage = .running ∨ x.outcome.isSome = true
  served : ∀ t, (w.serves t).phase ≠ .absent →
    ∃ x, w.daemon.tasks t = some x ∧ x.served.isSome = true
  fresh : ∀ t, (w.serves t).phase = .absent → (w.serves t).restored = none
  unsaved : ∀ t, (w.serves t).phase = .absent ∨ (w.serves t).pending = true →
    savedBy w t = none
  last : ∀ t k, (w.serves t).pending = true → w.late t = false → w.key t = some k →
    (history w.daemon k).getLast? = some t
  given : ∀ t, w.late t = true →
    ∃ x m, w.daemon.tasks t = some x ∧ x.stage = .done ∧ x.outcome = some (.error m)
  reported : ∀ t x c, w.daemon.tasks t = some x → x.outcome = some (.ok c) →
    (w.serves t).phase = .reported c
  files : ∀ k, (∀ t ∈ history w.daemon k, w.late t = false) →
    w.files k = (latest (savedBy w) (history w.daemon k)).or (init k)
  restored : ∀ k pre t post r, history w.daemon k = pre ++ t :: post →
    (∀ u ∈ pre ++ [t], w.late u = false) → (w.serves t).restored = some r →
    r = (latest (savedBy w) pre).or (init k)

theorem held_init (init : SessionKey → Option String) : Held init { files := init } where
  cwd := inv_init
  keyed := by simp [history]
  answered := by simp
  served := by simp
  fresh := by simp
  unsaved := by simp [savedBy]
  last := by simp [Serve.pending]
  given := by simp
  reported := by simp
  files := by simp [history]
  restored := by simp

section
variable {init : SessionKey → Option String} {w : World}

theorem pending_present {v : Serve} (h : v.pending = true) : v.phase ≠ .absent := by
  intro ha
  simp [Serve.pending, ha] at h

theorem pending_unreported {v : Serve} (h : v.pending = true) (c : Option String) :
    v.phase ≠ .reported c := by
  intro ha
  simp [Serve.pending, ha] at h

theorem Held.served_mem (h : Held init w) {t : Nat} {x : Task} (hx : w.daemon.tasks t = some x)
    (hs : x.served.isSome = true) :
    ∃ k, x.key = some k ∧ t ∈ history w.daemon k ∧ x.stage ≠ .arrived := by
  obtain ⟨sv, hsv⟩ := Option.isSome_iff_exists.mp hs
  obtain ⟨k, pre, post, hk, hh, -⟩ := h.cwd.served t x sv hx hsv
  refine ⟨k, hk, by simp [hh], ?_⟩
  intro ha
  rw [(h.cwd.early t x hx (.inl ha)).2] at hsv
  cases hsv

theorem Held.gave_up (h : Held init w) {t : Nat} {x : Task} (hx : w.daemon.tasks t = some x)
    (hs : x.served.isSome = true) (hf : Finished w.daemon t)
    (hr : ∀ c, (w.serves t).phase ≠ .reported c) :
    ∃ y m, w.daemon.tasks t = some y ∧ y.stage = .done ∧ y.outcome = some (.error m) := by
  obtain ⟨y, hy, hd⟩ := hf
  obtain rfl := Option.some.inj (hx.symm.trans hy)
  cases h.answered t x hx hs with
  | inl hg =>
    rw [hd] at hg
    cases hg
  | inr ho =>
    obtain ⟨o, ho⟩ := Option.isSome_iff_exists.mp ho
    cases o with
    | error m => exact ⟨x, m, hx, hd, ho⟩
    | ok c => exact absurd (h.reported t x c hx ho) (hr c)

theorem Held.absent (h : Held init w) {t : Nat} {x : Task} {k : SessionKey}
    (hx : w.daemon.tasks t = some x) (hg : x.stage = .queued) (hk : x.key = some k)
    (hfin : ∀ u ∈ history w.daemon k, Finished w.daemon u) : (w.serves t).phase = .absent := by
  by_contra hp
  obtain ⟨y, hy, hv⟩ := h.served t hp
  obtain rfl := Option.some.inj (hx.symm.trans hy)
  obtain ⟨k', hk', hm, -⟩ := h.served_mem hx hv
  obtain rfl := Option.some.inj (hk.symm.trans hk')
  obtain ⟨z, hz, hdone⟩ := hfin t hm
  obtain rfl := Option.some.inj (hx.symm.trans hz)
  rw [hg] at hdone
  cases hdone

section
variable {d : Daemon} {e : HandleExec.Ev}

theorem Held.keyed_step (h : Held init w) (hd : HandleExec.step w.daemon e = some d)
    {k : SessionKey} {t : Nat} (ht : t ∈ history d k) :
    ∃ x, d.tasks t = some x ∧ x.key = some k ∧ x.stage ≠ .arrived := by
  have hch := change_of_step hd
  have hold : ∀ u ∈ history w.daemon k,
      ∃ x, d.tasks u = some x ∧ x.key = some k ∧ x.stage ≠ .arrived := by
    intro u hu
    obtain ⟨x, hx, hk, ha⟩ := h.keyed k u hu
    obtain ⟨y, hy, hky, hay⟩ := hch.kept hx ha
    exact ⟨y, hy, hky.trans hk, hay⟩
  cases history_step h.cwd hd k with
  | inl hh => exact hold t (hh ▸ ht)
  | inr hh =>
    obtain ⟨u, z, -, hz, hg, hkz, -, hh⟩ := hh
    rw [hh] at ht
    cases List.mem_append.mp ht with
    | inl ht => exact hold t ht
    | inr ht =>
      obtain rfl := List.mem_singleton.mp ht
      obtain ⟨y, hy, hky, hay⟩ := hch.kept hz (by simp [hg])
      exact ⟨y, hy, hky.trans hkz, hay⟩

theorem Held.answered_step (h : Held init w) (hd : HandleExec.step w.daemon e = some d)
    {t : Nat} {y : Task} (hy : d.tasks t = some y) (hv : y.served.isSome = true) :
    y.stage = .running ∨ y.outcome.isSome = true := by
  rcases (change_of_step hd).back hy with hx | ⟨x, hx, hm⟩ | ⟨-, hn, -⟩
  · exact h.answered t y hx hv
  · cases hm.served with
    | inr hr => exact .inl hr.2
    | inl he =>
      right
      cases h.answered t x hx (he ▸ hv) with
      | inl hr => exact hm.ended hr
      | inr ho =>
        cases hm.outcome with
        | inl he => rwa [he]
        | inr hf =>
          obtain ⟨o, -, ho⟩ := hf
          rw [ho]
          rfl
  · rw [hn] at hv
    cases hv

theorem Held.served_step (h : Held init w) (hd : HandleExec.step w.daemon e = some d) {t : Nat}
    (hp : (w.serves t).phase ≠ .absent) :
    ∃ x, d.tasks t = some x ∧ x.served.isSome = true := by
  obtain ⟨x, hx, hv⟩ := h.served t hp
  obtain ⟨y, hy, hm⟩ := (change_of_step hd).on hx
  refine ⟨y, hy, ?_⟩
  cases hm with
  | inl he => rwa [he]
  | inr hm =>
    cases hm.served with
    | inl he => rwa [he]
    | inr hr => exact hr.1

theorem Held.last_step (h : Held init w) (hd : HandleExec.step w.daemon e = some d) {t : Nat}
    {k : SessionKey} (hp : (w.serves t).pending = true) (hl : w.late t = false)
    (ho : w.overtakes e t = false) (hk : (d.tasks t).bind Task.key = some k) :
    (history d k).getLast? = some t := by
  obtain ⟨x, hx, hv⟩ := h.served t (pending_present hp)
  obtain ⟨k', hk', hm, ha⟩ := h.served_mem hx hv
  obtain ⟨y, hy, hky, -⟩ := (change_of_step hd).kept hx ha
  have hkk : k' = k := by
    have hky' : y.key = some k := by simpa [hy] using hk
    exact Option.some.inj ((hky.trans hk').symm.trans hky')
  subst hkk
  have hlast := h.last t k' hp hl (by simp [World.key, hx, hk'])
  cases history_step h.cwd hd k' with
  | inl hh => exact hh ▸ hlast
  | inr hh =>
    obtain ⟨u, z, he, hz, -, hkz, -⟩ := hh
    subst he
    simp [World.overtakes, World.key, hz, hkz, hm, hp] at ho

/-- Only a task that was given up is overtaken. -/
theorem Held.given_step (h : Held init w) (hd : HandleExec.step w.daemon e = some d) {t : Nat}
    (hl : (w.late t || w.overtakes e t) = true) :
    ∃ x m, d.tasks t = some x ∧ x.stage = .done ∧ x.outcome = some (.error m) := by
  have hgave : ∃ x m, w.daemon.tasks t = some x ∧ x.stage = .done ∧
      x.outcome = some (.error m) := by
    by_cases hlt : w.late t = true
    · exact h.given t hlt
    · have ho : w.overtakes e t = true := (Bool.or_eq_true_iff.mp hl).resolve_left hlt
      cases e with
      | lock u =>
        obtain ⟨z, k, hz, -, hkz, hfin, -⟩ := lock_spec h.cwd hd
        simp only [World.overtakes, World.key, hz, Option.bind_some, hkz, Bool.and_eq_true,
          decide_eq_true_eq] at ho
        obtain ⟨x, hx, hv⟩ := h.served t (pending_present ho.2)
        exact h.gave_up hx hv (hfin t ho.1) (pending_unreported ho.2)
      | _ => simp [World.overtakes] at ho
  obtain ⟨x, m, hx, hdone, ho⟩ := hgave
  obtain ⟨y, hy, hm⟩ := (change_of_step hd).on hx
  cases hm with
  | inl he => exact ⟨x, m, by rw [← he]; exact he ▸ hy, hdone, ho⟩
  | inr hm => exact absurd hdone hm.open_

theorem Held.files_step (h : Held init w) (hd : HandleExec.step w.daemon e = some d)
    {k : SessionKey} (hl : ∀ t ∈ history d k, w.late t = false) :
    w.files k = (latest (savedBy w) (history d k)).or (init k) := by
  cases history_step h.cwd hd k with
  | inl hh =>
    rw [hh]
    exact h.files k fun t ht => hl t (hh ▸ ht)
  | inr hh =>
    obtain ⟨u, z, -, hz, hg, hkz, hfin, hh⟩ := hh
    rw [hh, latest_concat, h.unsaved u (.inl (h.absent hz hg hkz hfin)), Option.none_or]
    apply h.files k
    intro t ht
    exact hl t (by rw [hh]; exact List.mem_append_left _ ht)

theorem Held.restored_step (h : Held init w) (hd : HandleExec.step w.daemon e = some d)
    {k : SessionKey} {pre post : List Nat} {t : Nat} {r : Option String}
    (hh : history d k = pre ++ t :: post) (hl : ∀ u ∈ pre ++ [t], w.late u = false)
    (hr : (w.serves t).restored = some r) : r = (latest (savedBy w) pre).or (init k) := by
  cases history_step h.cwd hd k with
  | inl hk => exact h.restored k pre t post r (hk ▸ hh) hl hr
  | inr hk =>
    obtain ⟨u, z, -, hz, hg, hkz, hfin, hk⟩ := hk
    rw [hk] at hh
    induction post using List.reverseRecOn with
    | nil =>
      obtain ⟨-, hu⟩ := List.append_inj' hh rfl
      obtain rfl : u = t := by simpa using hu
      rw [h.fresh u (h.absent hz hg hkz hfin)] at hr
      cases hr
    | append_singleton post q =>
      have hh' : history w.daemon k ++ [u] = (pre ++ t :: post) ++ [q] := by simpa using hh
      exact h.restored k pre t post r (List.append_inj' hh' rfl).1 hl hr

end

theorem held_daemon {v : World} {e : HandleExec.Ev} (h : Held init w)
    (hs : step w (.daemon e) = some v) : Held init v := by
  obtain ⟨hallow, hs⟩ := Option.ite_none_right_eq_some.mp hs
  obtain ⟨d, hd, rfl⟩ := Option.map_eq_some_iff.mp hs
  have hlate : ∀ t, (w.late t || w.overtakes e t) = false →
      w.late t = false ∧ w.overtakes e t = false := fun t ht => Bool.or_eq_false_iff.mp ht
  refine ⟨inv_step h.cwd hd, fun k t => h.keyed_step hd, fun t y => h.answered_step hd,
    fun t => h.served_step hd, h.fresh, h.unsaved, ?_, fun t => h.given_step hd, ?_, ?_, ?_⟩
  · intro t k hp hl hk
    obtain ⟨hl, ho⟩ := hlate t hl
    exact h.last_step hd hp hl ho hk
  · intro t y c hy ho
    rcases (change_of_step hd).back hy with hx | ⟨x, hx, hm⟩ | ⟨-, -, hn⟩
    · exact h.reported t y c hx ho
    · cases hm.outcome with
      | inl he => exact h.reported t x c hx (he ▸ ho)
      | inr hf =>
        obtain ⟨o, he, ho'⟩ := hf
        obtain rfl := Option.some.inj (ho'.symm.trans ho)
        subst he
        simpa [World.allows] using hallow
    · rw [hn] at ho
      cases ho
  · intro k hl
    exact h.files_step hd fun t ht => (hlate t (hl t ht)).1
  · intro k pre t post r hh hl hr
    exact h.restored_step hd hh (fun u hu => (hlate u (hl u hu)).1) hr

theorem put_serves_self (w : World) (t : Nat) (y : Serve) : (w.put t y).serves t = y :=
  Function.update_self _ _ _

theorem put_serves_ne (w : World) {t u : Nat} (y : Serve) (h : u ≠ t) :
    (w.put t y).serves u = w.serves u := Function.update_of_ne h _ _

/-- A step of one serve process; what it does to the files is for the caller to say. -/
theorem held_put {v : World} (h : Held init w) (t : Nat) (y : Serve) (hd : v.daemon = w.daemon)
    (hs : v.serves = (w.put t y).serves) (hlate : ∀ u, u ≠ t → v.late u = w.late u)
    (hmono : w.late t = true → v.late t = true)
    (hserved : ∃ x, w.daemon.tasks t = some x ∧ x.served.isSome = true)
    (hr : ∀ c, (w.serves t).phase ≠ .reported c) (hy : y.phase ≠ .absent)
    (hunsaved : y.pending = true → y.saved = none)
    (hlast : ∀ k, y.pending = true → v.late t = false → w.key t = some k →
      (history w.daemon k).getLast? = some t)
    (hgiven : v.late t = true → w.late t = true ∨
      ∃ x m, w.daemon.tasks t = some x ∧ x.stage = .done ∧ x.outcome = some (.error m))
    (hfiles : ∀ k, (∀ u ∈ history w.daemon k, w.late u = false) →
      v.files k = (latest (savedBy v) (history w.daemon k)).or (init k))
    (hrestored : ∀ k pre u post r, history w.daemon k = pre ++ u :: post →
      (∀ q ∈ pre ++ [u], w.late q = false) → (v.serves u).restored = some r →
      r = (latest (savedBy v) pre).or (init k)) : Held init v := by
  have hself : v.serves t = y := by rw [hs, put_serves_self]
  have hother : ∀ u, u ≠ t → v.serves u = w.serves u := by
    intro u hu
    rw [hs, put_serves_ne w y hu]
  have hback : ∀ u, v.late u = false → w.late u = false := by
    intro u hu
    by_cases he : u = t
    · rw [he] at hu ⊢
      cases hw : w.late t with
      | false => rfl
      | true => rw [hmono hw] at hu; cases hu
    · rwa [hlate u he] at hu
  refine ⟨hd ▸ h.cwd, hd ▸ h.keyed, hd ▸ h.answered, ?_, ?_, ?_, ?_, ?_, ?_, ?_, ?_⟩
  · intro u hp
    rw [hd]
    by_cases he : u = t
    · exact he ▸ hserved
    · exact h.served u (hother u he ▸ hp)
  · intro u hp
    by_cases he : u = t
    · rw [he, hself] at hp
      exact absurd hp hy
    · rw [hother u he] at hp ⊢
      exact h.fresh u hp
  · intro u hp
    unfold savedBy
    by_cases he : u = t
    · rw [he, hself] at hp ⊢
      exact hunsaved (hp.resolve_left hy)
    · rw [hother u he] at hp ⊢
      exact h.unsaved u hp
  · intro u k hp hl hk
    have hk' : w.key u = some k := by rwa [World.key, hd] at hk
    rw [hd]
    by_cases he : u = t
    · subst he
      exact hlast k (hself ▸ hp) hl hk'
    · exact h.last u k (hother u he ▸ hp) (hback u hl) hk'
  · intro u hl
    rw [hd]
    by_cases he : u = t
    · subst he
      cases hgiven hl with
      | inl hw => exact h.given u hw
      | inr hg => exact hg
    · exact h.given u (hlate u he ▸ hl)
  · intro u x c hx ho
    rw [hd] at hx
    have hrep := h.reported u x c hx ho
    by_cases he : u = t
    · exact absurd (he ▸ hrep) (hr c)
    · rwa [hother u he]
  · intro k hl
    rw [hd] at hl ⊢
    exact hfiles k fun u hu => hback u (hl u hu)
  · intro k pre u post r hh hl hres
    rw [hd] at hh
    exact hrestored k pre u post r hh (fun q hq => hback q (hl q hq)) hres

theorem Held.at_end (h : Held init w) {k : SessionKey} {t : Nat} {pre post : List Nat}
    (hp : (w.serves t).pending = true) (hl : w.late t = false)
    (hh : history w.daemon k = pre ++ t :: post) : post = [] := by
  obtain ⟨x, hx, hk, -⟩ := h.keyed k t (by simp [hh])
  have hlast := h.last t k hp hl (by simp [World.key, hx, hk])
  have hnd := h.cwd.nodup k
  rw [hh] at hlast hnd
  induction post using List.reverseRecOn with
  | nil => rfl
  | append_singleton post q =>
    have hsplit : pre ++ t :: (post ++ [q]) = (pre ++ t :: post) ++ [q] := by simp
    rw [hsplit, List.getLast?_concat] at hlast
    obtain rfl := Option.some.inj hlast
    simp [List.nodup_append] at hnd

theorem held_quiet {v : World} (h : Held init w) (t : Nat) (y : Serve) (hd : v.daemon = w.daemon)
    (hs : v.serves = (w.put t y).serves) (hf : v.files = w.files)
    (hlate : ∀ u, u ≠ t → v.late u = w.late u) (hmono : w.late t = true → v.late t = true)
    (hserved : ∃ x, w.daemon.tasks t = some x ∧ x.served.isSome = true)
    (hr : ∀ c, (w.serves t).phase ≠ .reported c) (hy : y.phase ≠ .absent)
    (hpend : y.pending = true → (w.serves t).phase = .absent ∨ (w.serves t).pending = true)
    (hsaved : y.saved = (w.serves t).saved)
    (hlast : ∀ k, y.pending = true → v.late t = false → w.key t = some k →
      (history w.daemon k).getLast? = some t)
    (hgiven : v.late t = true → w.late t = true ∨
      ∃ x m, w.daemon.tasks t = some x ∧ x.stage = .done ∧ x.outcome = some (.error m))
    (hrestored : ∀ k pre post r, history w.daemon k = pre ++ t :: post →
      (∀ q ∈ pre ++ [t], w.late q = false) → y.restored = some r →
      (w.serves t).restored = some r ∨ r = (latest (savedBy w) pre).or (init k)) :
    Held init v := by
  have hself : v.serves t = y := by rw [hs, put_serves_self]
  have hother : ∀ u, u ≠ t → v.serves u = w.serves u := by
    intro u hu
    rw [hs, put_serves_ne w y hu]
  have hby : savedBy v = savedBy w := by
    funext u
    unfold savedBy
    by_cases he : u = t
    · rw [he, hself, hsaved]
    · rw [hother u he]
  refine held_put h t y hd hs hlate hmono hserved hr hy ?_ hlast hgiven ?_ ?_
  · intro hp
    exact hsaved.trans (h.unsaved t (hpend hp))
  · intro k hl
    rw [hby, hf]
    exact h.files k hl
  · intro k pre u post r hh hl hres
    rw [hby]
    by_cases he : u = t
    · subst he
      cases hrestored k pre post r hh hl (hself ▸ hres) with
      | inl hw => exact h.restored k pre u post r hh hl hw
      | inr hw => exact hw
    · exact h.restored k pre u post r hh hl (hother u he ▸ hres)

theorem held_launch {v : World} {t : Nat} (h : Held init w) (hs : step w (.launch t) = some v) :
    Held init v := by
  obtain ⟨x, hx, hs⟩ := bind_some hs
  obtain ⟨k, hk, hs⟩ := bind_some hs
  obtain ⟨⟨hv, ha⟩, hs⟩ := Option.ite_none_right_eq_some.mp hs
  have hw := Option.some.inj hs
  obtain ⟨k', hk', hm, -⟩ := h.served_mem hx hv
  obtain rfl := Option.some.inj (hk.symm.trans hk')
  have hkey : w.key t = some k := by simp [World.key, hx, hk]
  have hunrep : ∀ c, (w.serves t).phase ≠ .reported c := by
    intro c hc
    rw [ha] at hc
    cases hc
  have hlate : ∀ u, v.late u =
      (w.late u || (u == t && (history w.daemon k).getLast? != some t)) := by
    intro u
    rw [← hw]
  refine held_quiet h t { phase := .started } (by rw [← hw]; rfl) (by rw [← hw]) (by rw [← hw]; rfl)
    ?_ ?_ ⟨x, hx, hv⟩ hunrep (by simp) (fun _ => .inl ha) (h.unsaved t (.inl ha)).symm ?_ ?_
    (by simp)
  · intro u hu
    simp [hlate, hu]
  · intro hl
    simp [hlate, hl]
  · intro j _ hl hj
    obtain rfl := Option.some.inj (hkey.symm.trans hj)
    rw [hlate] at hl
    simpa using (Bool.or_eq_false_iff.mp hl).2
  · intro hl
    rw [hlate] at hl
    cases Bool.or_eq_true_iff.mp hl with
    | inl hl => exact .inl hl
    | inr hl =>
      have hnl : (history w.daemon k).getLast? ≠ some t := by simpa using hl
      exact .inr (h.gave_up hx hv (finished_of_not_last h.cwd hm hnl) hunrep)

theorem held_load {v : World} {t : Nat} (h : Held init w) (hs : step w (.load t) = some v) :
    Held init v := by
  obtain ⟨k, hk, hs⟩ := bind_some hs
  obtain ⟨hg, hs⟩ := Option.ite_none_right_eq_some.mp hs
  obtain rfl := Option.some.inj hs
  have hpend : (w.serves t).pending = true := by simp [Serve.pending, hg]
  refine held_quiet h t _ rfl rfl rfl (fun _ _ => rfl) id (h.served t (pending_present hpend))
    (pending_unreported hpend) (by simp) (fun _ => .inr hpend) rfl
    (fun j _ hl hj => h.last t j hpend hl hj) .inl ?_
  intro j pre post r hh hl hres
  right
  obtain rfl := Option.some.inj hres
  obtain ⟨x, hx, hkx, -⟩ := h.keyed j t (by simp [hh])
  have hkj : k = j := by
    rw [World.key, hx, Option.bind_some, hkx] at hk
    exact (Option.some.inj hk).symm
  subst hkj
  have hpost := h.at_end hpend (hl t (by simp)) hh
  rw [hpost] at hh
  rw [h.files k (by rw [hh]; exact hl), hh, latest_concat, h.unsaved t (.inr hpend),
    Option.none_or]

theorem held_leave {v : World} {t : Nat} {g : Phase} (h : Held init w) (hg : g ≠ .absent)
    (hp : ({ w.serves t with phase := g } : Serve).pending ≠ true)
    (hs : w.leave t g = some v) : Held init v := by
  have hrun : (w.serves t).phase ≠ .absent ∧ (∀ c, (w.serves t).phase ≠ .reported c) ∧
      v = w.put t { w.serves t with phase := g } := by
    unfold World.leave at hs
    split at hs
    case h_4 => cases hs
    all_goals
      rename_i hph
      exact ⟨by simp [hph], by simp [hph], Option.some.inj hs.symm⟩
  obtain ⟨ha, hr, rfl⟩ := hrun
  exact held_quiet h t _ rfl rfl rfl (fun _ _ => rfl) id (h.served t ha) hr hg
    (fun hq => absurd hq hp) rfl (fun _ hq => absurd hq hp) .inl (fun _ _ _ _ _ _ hres => .inl hres)

theorem held_save {v : World} {t : Nat} {dump : Option String} (h : Held init w)
    (hs : step w (.save t dump) = some v) : Held init v := by
  obtain ⟨k, hk, hs⟩ := bind_some hs
  obtain ⟨hg, hs⟩ := Option.ite_none_right_eq_some.mp hs
  have hw := Option.some.inj hs
  have hserves : v.serves = (w.put t { w.serves t with phase := .saved, saved := dump }).serves := by
    rw [← hw]
  have hself : v.serves t = { w.serves t with phase := .saved, saved := dump } := by
    rw [hserves, put_serves_self]
  have hother : ∀ u, u ≠ t → v.serves u = w.serves u := by
    intro u hu
    rw [hserves, put_serves_ne w _ hu]
  have hfiles : v.files = Function.update w.files k (dump.or (w.files k)) := by rw [← hw]
  have hpend : (w.serves t).pending = true := by simp [Serve.pending, hg]
  have hsame : ∀ l, t ∉ l → latest (savedBy v) l = latest (savedBy w) l := by
    intro l hl
    apply latest_congr
    intro u hu
    have hne : u ≠ t := by
      rintro rfl
      exact hl hu
    rw [savedBy, savedBy, hother u hne]
  refine held_put h t _ (by rw [← hw]; rfl) hserves (fun _ _ => by rw [← hw]; rfl)
    (by rw [← hw]; exact id) (h.served t (pending_present hpend)) (pending_unreported hpend)
    (by simp) (by simp [Serve.pending]) (by simp [Serve.pending]) (by rw [← hw]; exact .inl) ?_ ?_
  · intro j hl
    rw [hfiles]
    by_cases hj : j = k
    · subst hj
      obtain ⟨x, hx, hv⟩ := h.served t (pending_present hpend)
      obtain ⟨k', hk', hm, -⟩ := h.served_mem hx hv
      have hkk : k' = j := by
        rw [World.key, hx, Option.bind_some, hk'] at hk
        exact Option.some.inj hk
      subst hkk
      obtain ⟨pre, post, hh⟩ := List.mem_iff_append.mp hm
      have hpost := h.at_end hpend (hl t hm) hh
      rw [hpost] at hh
      have hnd := h.cwd.nodup k'
      have hold := h.files k' hl
      rw [hh] at hnd
      rw [hh, latest_concat, h.unsaved t (.inr hpend), Option.none_or] at hold
      have hnot : t ∉ pre := by
        intro hp
        simp [List.nodup_append] at hnd
        exact hnd.2 t hp rfl
      rw [Function.update_self, hold, hh, latest_concat, hsame pre hnot, savedBy, hself,
        Option.or_assoc]
    · have hnot : t ∉ history w.daemon j := by
        intro hm
        obtain ⟨x, hx, hkx, -⟩ := h.keyed j t hm
        rw [World.key, hx, Option.bind_some, hkx] at hk
        exact hj (Option.some.inj hk)
      rw [Function.update_of_ne hj, hsame _ hnot]
      exact h.files j hl
  · intro j pre u post r hh hl hres
    have hnot : t ∉ pre := by
      intro hm
      obtain ⟨a, b, rfl⟩ := List.mem_iff_append.mp hm
      have hmid : history w.daemon j = a ++ t :: (b ++ u :: post) := by simpa using hh
      have hnil := h.at_end hpend (hl t (by simp)) hmid
      simp at hnil
    rw [hsame pre hnot]
    by_cases he : u = t
    · subst he
      rw [hself] at hres
      exact h.restored j pre u post r hh hl hres
    · exact h.restored j pre u post r hh hl (hother u he ▸ hres)

theorem held_step {v : World} {e : Ev} (h : Held init w) (hs : step w e = some v) :
    Held init v := by
  cases e with
  | daemon e => exact held_daemon h hs
  | launch t => exact held_launch h hs
  | load t => exact held_load h hs
  | save t dump => exact held_save h hs
  | report t c => exact held_leave h (by simp) (by simp [Serve.pending]) hs
  | die t => exact held_leave h (by simp) (by simp [Serve.pending]) hs

end

def Inside (w : World) (t : Nat) : Prop := (w.serves t).phase = .loaded

/-- A serve process is inside together with that of a task after it only if it was pending when
another task had already got the lock, which happens only to executions that were given up. Where
no task up to this one was so overtaken, its process restores the dump stored last before it in
lock order; where none at all was, the file holds the dump stored last. -/
theorem overlap_only_given_up (init : SessionKey → Option String) (es : List Ev) (w : World)
    (h : Path step Any { files := init } es w) :
    (∀ k pre u post t, history w.daemon k = pre ++ u :: post → t ∈ pre →
      Inside w t → Inside w u → w.late t = true) ∧
      (∀ t, w.late t = true →
        ∃ x m, w.daemon.tasks t = some x ∧ x.stage = .done ∧ x.outcome = some (.error m)) ∧
      (∀ k pre t post r, history w.daemon k = pre ++ t :: post →
        (∀ u ∈ pre ++ [t], w.late u = false) → (w.serves t).restored = some r →
        r = (latest (savedBy w) pre).or (init k)) ∧
      ∀ k, (∀ t ∈ history w.daemon k, w.late t = false) →
        w.files k = (latest (savedBy w) (history w.daemon k)).or (init k) := by
  have hi := h.invariant (I := Held init) (fun u e v hu _ hs => held_step hu hs) (held_init init)
  refine ⟨?_, hi.given, hi.restored, hi.files⟩
  intro k pre u post t hh ht hit _
  by_contra hl
  obtain ⟨a, b, rfl⟩ := List.mem_iff_append.mp ht
  have hpend : (w.serves t).pending = true := by simp [Serve.pending, show _ = _ from hit]
  have hmid : history w.daemon k = a ++ t :: (b ++ u :: post) := by simpa using hh
  have hnil := hi.at_end hpend (by simpa using hl) hmid
  simp at hnil

/-- Two commands of the default session. The client of the first breaks the protocol while it
runs, so its execution is given up and the second starts. -/
def overtakenRun : List Ev :=
  [.daemon (.arrive 0 ⟨"h", "make", [], none, none, none⟩), .daemon (.parse 0),
    .daemon (.connect 0), .daemon (.getSession 0), .daemon (.lock 0), .daemon (.assemble 0),
    .launch 0, .load 0,
    .daemon (.finish 0 (.error "nested exec on one connection is not supported")),
    .daemon (.evict 0), .daemon (.update 0), .daemon (.release 0),
    .daemon (.arrive 1 ⟨"h", "make", [], none, none, none⟩), .daemon (.parse 1),
    .daemon (.reuse 1), .daemon (.getSession 1), .daemon (.lock 1), .daemon (.assemble 1),
    .launch 1, .load 1]

def defaultKey : SessionKey := ⟨"h", ⟨defaultName, by decide, by decide, by simp [defaultName, isAllowed]⟩⟩

/-- Both processes are between load and save, the second has not seen the dump of the first, and
the late save of the first replaces the dump of the second. -/
theorem late_save_overwrites :
    ∃ w v, run step overtakenRun { files := fun _ => none } = some w ∧
      history w.daemon defaultKey = [0, 1] ∧ Inside w 0 ∧ Inside w 1 ∧
      run step [.save 1 (some "new"), .save 0 (some "old")] w = some v ∧
      (v.serves 1).saved = some "new" ∧ v.files defaultKey = some "old" :=
  ⟨_, _, rfl, rfl, rfl, rfl, rfl, rfl, rfl⟩

/-- The first command reports, and the second restores what it saved. -/
def sampleRun : List Ev :=
  [.daemon (.arrive 0 ⟨"h", "make", [], none, none, none⟩), .daemon (.parse 0),
    .daemon (.connect 0), .daemon (.getSession 0), .daemon (.lock 0), .daemon (.assemble 0),
    .launch 0, .load 0, .save 0 (some "x=1"), .report 0 none, .daemon (.finish 0 (.ok none)),
    .daemon (.evict 0), .daemon (.update 0), .daemon (.release 0),
    .daemon (.arrive 1 ⟨"h", "make", [], none, none, none⟩), .daemon (.parse 1),
    .daemon (.reuse 1), .daemon (.getSession 1), .daemon (.lock 1), .daemon (.assemble 1),
    .launch 1, .load 1]

theorem overlap_only_given_up_sample :
    ∃ w, run step sampleRun { files := fun _ => none } = some w ∧
      (w.serves 1).restored = some (some "x=1") ∧
      (∀ k pre u post t, history w.daemon k = pre ++ u :: post → t ∈ pre →
        Inside w t → Inside w u → w.late t = true) ∧
      (∀ t, w.late t = true →
        ∃ x m, w.daemon.tasks t = some x ∧ x.stage = .done ∧ x.outcome = some (.error m)) ∧
      (∀ k pre t post r, history w.daemon k = pre ++ t :: post →
        (∀ u ∈ pre ++ [t], w.late u = false) → (w.serves t).restored = some r →
        r = (latest (savedBy w) pre).or none) ∧
      ∀ k, (∀ t ∈ history w.daemon k, w.late t = false) →
        w.files k = (latest (savedBy w) (history w.daemon k)).or none :=
  ⟨_, rfl, rfl, overlap_only_given_up (fun _ => none) sampleRun _ (path_of_run rfl)⟩

end ShellProxy.RemoteState
