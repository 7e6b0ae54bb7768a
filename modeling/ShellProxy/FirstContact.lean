import ShellProxy.Lib.Machine
import Mathlib.Logic.Function.Basic

/-! First contact with a host: `get_or_connect` with its table of per-host locks, and the eviction
of a lost connection at the end of `handle_exec`. -/
namespace ShellProxy.FirstContact
open Machine

/-- Where a task is. Each step from one stage to the next is one critical section of the code. -/
inductive Stage where
  | arrived
  | missed
  /-- awaits the lock `m` of its host -/
  | waiting (m : Nat)
  /-- has the lock, and will look again -/
  | holding (m : Nat)
  /-- `connect_host` is in flight -/
  | connecting (m : Nat)
  | connected (m c : Nat)
  /-- returns from `get_or_connect`, which drops the guard of the lock -/
  | leaving (m : Nat) (result : Option Nat)
  | running (c : Nat)
  /-- the execution failed and its connection was seen closed -/
  | lost (c : Nat)
  | done
  deriving DecidableEq, Repr

structure Task where
  host : String
  stage : Stage
  deriving DecidableEq, Repr

/-- `Shared`, as far as connections go. Connections and locks are numbered in the order they are
made; `locks` gives the task that holds a lock. -/
structure Shared where
  tasks : Nat → Option Task := fun _ => none
  hosts : String → Option Nat := fun _ => none
  closed : Nat → Bool := fun _ => false
  conns : Nat := 0
  connecting : String → Option Nat := fun _ => none
  locks : Nat → Option Nat := fun _ => none
  made : Nat := 0

namespace Shared

def set (s : Shared) (t : Nat) (x : Task) : Shared :=
  { s with tasks := Function.update s.tasks t (some x) }

def live (s : Shared) (host : String) : Option Nat := (s.hosts host).filter fun c => !s.closed c

/-- `connecting.entry(host).or_default()` -/
def entry (s : Shared) (host : String) : Nat × Shared :=
  match s.connecting host with
  | some m => (m, s)
  | none =>
    (s.made, { s with
      connecting := Function.update s.connecting host (some s.made), made := s.made + 1 })

def lock (s : Shared) (m t : Nat) : Shared :=
  { s with locks := Function.update s.locks m (some t) }

def unlock (s : Shared) (m : Nat) : Shared := { s with locks := Function.update s.locks m none }

def insert (s : Shared) (host : String) (c : Nat) : Shared :=
  { s with hosts := Function.update s.hosts host (some c) }

def remove (s : Shared) (host : String) : Shared :=
  { s with hosts := Function.update s.hosts host none }

end Shared

/-- The next step of a task; `ok` is the outcome of what it awaits, where that can fail. -/
def act (s : Shared) (t : Nat) (host : String) (ok : Bool) : Stage → Option Shared
  | .arrived =>
    match s.live host with
    | some c => some (s.set t ⟨host, .running c⟩)
    | none => some (s.set t ⟨host, .missed⟩)
  | .missed =>
    let (m, s) := s.entry host
    some (s.set t ⟨host, .waiting m⟩)
  | .waiting m =>
    if s.locks m = none then some ((s.lock m t).set t ⟨host, .holding m⟩) else none
  | .holding m =>
    -- the previous lock holder may have connected in the meantime
    match s.live host with
    | some c => some (s.set t ⟨host, .leaving m (some c)⟩)
    | none => some (s.set t ⟨host, .connecting m⟩)
  | .connecting m =>
    if ok then some ({ s with conns := s.conns + 1 }.set t ⟨host, .connected m s.conns⟩)
    else some (s.set t ⟨host, .leaving m none⟩)
  | .connected m c =>
    match s.live host with
    | some c' => some (s.set t ⟨host, .leaving m (some c')⟩)
    | none => some ((s.insert host c).set t ⟨host, .leaving m (some c)⟩)
  | .leaving m (some c) => some ((s.unlock m).set t ⟨host, .running c⟩)
  | .leaving m none => some ((s.unlock m).set t ⟨host, .done⟩)
  | .running c =>
    if !ok && s.closed c then some (s.set t ⟨host, .lost c⟩) else some (s.set t ⟨host, .done⟩)
  | .lost c =>
    -- only the exact instance that failed is evicted
    if s.hosts host = some c then some ((s.remove host).set t ⟨host, .done⟩)
    else some (s.set t ⟨host, .done⟩)
  | .done => none

inductive Ev where
  | arrive (t : Nat) (host : String)
  | act (t : Nat) (ok : Bool)
  | lose (c : Nat)

/-- A closed connection never reopens. -/
def step (s : Shared) : Ev → Option Shared
  | .arrive t host => if s.tasks t = none then some (s.set t ⟨host, .arrived⟩) else none
  | .act t ok => (s.tasks t).bind fun x => act s t x.host ok x.stage
  | .lose c => some { s with closed := Function.update s.closed c true }

theorem live_iff {s : Shared} {h : String} {c : Nat} :
    s.live h = some c ↔ s.hosts h = some c ∧ s.closed c = false := by
  simp [Shared.live, Option.filter_eq_some_iff]

theorem live_insert (s : Shared) (h : String) (c : Nat) {k : String} (hk : k ≠ h) :
    (s.insert h c).live k = s.live k := by
  simp [Shared.live, Shared.insert, Function.update_of_ne hk]

/-- What a task at this stage relies on. One that connects has the lock of its host, and no live
connection of the host is cached meanwhile. -/
def Sound (s : Shared) (t : Nat) (host : String) : Stage → Prop
  | .waiting m => s.connecting host = some m
  | .holding m | .leaving m _ => s.connecting host = some m ∧ s.locks m = some t
  | .connecting m | .connected m _ =>
    s.connecting host = some m ∧ s.locks m = some t ∧ s.live host = none
  | .lost c => s.closed c = true
  | .arrived | .missed | .running _ | .done => True

def Inv (s : Shared) : Prop := ∀ t x, s.tasks t = some x → Sound s t x.host x.stage

/-- What a step leaves as it is for the tasks other than `t`. -/
structure Keeps (s d : Shared) (t : Nat) : Prop where
  connecting : ∀ h m, s.connecting h = some m → d.connecting h = some m
  locks : ∀ m u, s.locks m = some u → u ≠ t → d.locks m = some u
  closed : ∀ c, s.closed c = true → d.closed c = true
  live : ∀ h, s.live h = none → d.live h = none ∨ ∃ m, s.connecting h = some m ∧ s.locks m = some t

theorem Keeps.of_eq {s d : Shared} {t : Nat} (hc : d.connecting = s.connecting)
    (hl : d.locks = s.locks) (hx : d.closed = s.closed) (hh : d.hosts = s.hosts) :
    Keeps s d t where
  connecting h m hm := by rw [hc, hm]
  locks m u hu _ := by rw [hl, hu]
  closed c h := by rw [hx, h]
  live h hn := .inl (by rw [Shared.live, hh, hx]; exact hn)

theorem Keeps.sound {s d : Shared} {t u : Nat} (h : Keeps s d t) (hu : u ≠ t) {host : String}
    {g : Stage} (hs : Sound s u host g) : Sound d u host g := by
  have hlock : ∀ m, s.connecting host = some m ∧ s.locks m = some u →
      d.connecting host = some m ∧ d.locks m = some u :=
    fun m hm => ⟨h.connecting host m hm.1, h.locks m u hm.2 hu⟩
  have hnone : ∀ m, s.connecting host = some m ∧ s.locks m = some u ∧ s.live host = none →
      d.connecting host = some m ∧ d.locks m = some u ∧ d.live host = none := by
    rintro m ⟨hm, hl, hn⟩
    refine ⟨(hlock m ⟨hm, hl⟩).1, (hlock m ⟨hm, hl⟩).2, ?_⟩
    rcases h.live host hn with hd | ⟨m', hm', hl'⟩
    · exact hd
    · -- only the holder of the lock of this host makes it live
      obtain rfl := Option.some.inj (hm.symm.trans hm')
      exact absurd (Option.some.inj (hl.symm.trans hl')) hu
  cases g with
  | waiting m => exact h.connecting host m hs
  | holding m => exact hlock m hs
  | leaving m r => exact hlock m hs
  | connecting m => exact hnone m hs
  | connected m c => exact hnone m hs
  | lost c => exact h.closed c hs
  | arrived | missed | running c | done => trivial

/-- The stages of a task that waited for the lock while `c` was connected. -/
def Reuses (c : Nat) : Stage → Prop
  | .waiting _ | .holding _ | .done => True
  | .leaving _ (some c') | .running c' => c' = c
  | _ => False

structure Acts (s d : Shared) (t : Nat) (host : String) (g g' : Stage) : Prop where
  tasks : d.tasks = Function.update s.tasks t (some ⟨host, g'⟩)
  keeps : Keeps s d t
  sound : Sound d t host g'
  closed : d.closed = s.closed
  kept : ∀ h c, s.live h = some c → d.hosts h = some c
  reuses : ∀ c, s.live host = some c → Reuses c g → Reuses c g'

theorem kept_of_eq {s d : Shared} (h : d.hosts = s.hosts) {k : String} {c : Nat}
    (hl : s.live k = some c) : d.hosts k = some c := by
  rw [h]
  exact (live_iff.mp hl).1

theorem acts_set {s : Shared} {t : Nat} {host : String} {g g' : Stage} (hs : Sound s t host g')
    (hr : ∀ c, s.live host = some c → Reuses c g → Reuses c g') :
    Acts s (s.set t ⟨host, g'⟩) t host g g' where
  tasks := rfl
  keeps := .of_eq rfl rfl rfl rfl
  sound := by cases g' <;> exact hs
  closed := rfl
  kept _ _ := kept_of_eq rfl
  reuses := hr

theorem act_missed {s : Shared} {t : Nat} {host : String} :
    Acts s ((s.entry host).2.set t ⟨host, .waiting (s.entry host).1⟩) t host .missed
      (.waiting (s.entry host).1) := by
  unfold Shared.entry
  cases hm : s.connecting host with
  | some m => exact acts_set hm (fun _ _ h => h.elim)
  | none =>
    refine ⟨rfl, ⟨?_, fun _ _ h _ => h, fun _ h => h, fun _ h => .inl h⟩, ?_, rfl,
      fun _ _ => kept_of_eq rfl, fun _ _ h => h.elim⟩
    · intro h m hk
      have hne : h ≠ host := by
        rintro rfl
        rw [hm] at hk
        cases hk
      rw [← hk]
      exact Function.update_of_ne hne _ _
    · exact Function.update_self _ _ _

theorem act_waiting {s : Shared} {t m : Nat} {host : String} (hs : Sound s t host (.waiting m))
    (hfree : s.locks m = none) :
    Acts s ((s.lock m t).set t ⟨host, .holding m⟩) t host (.waiting m) (.holding m) := by
  refine ⟨rfl, ⟨fun _ _ h => h, ?_, fun _ h => h, fun _ h => .inl h⟩, ⟨hs, ?_⟩, rfl,
    fun _ _ => kept_of_eq rfl, fun _ _ _ => trivial⟩
  · intro k u hk _
    have hne : k ≠ m := by
      rintro rfl
      rw [hfree] at hk
      cases hk
    rw [← hk]
    exact Function.update_of_ne hne _ _
  · exact Function.update_self _ _ _

theorem act_leaving {s : Shared} {t m : Nat} {host : String} {r : Option Nat} {g : Stage}
    (hs : Sound s t host (.leaving m r)) (hg : Sound (s.unlock m) t host g)
    (hr : ∀ c, s.live host = some c → Reuses c (.leaving m r) → Reuses c g) :
    Acts s ((s.unlock m).set t ⟨host, g⟩) t host (.leaving m r) g := by
  refine ⟨rfl, ⟨fun _ _ h => h, ?_, fun _ h => h, fun _ h => .inl h⟩, ?_, rfl,
    fun _ _ => kept_of_eq rfl, hr⟩
  · intro k u hk hu
    have hne : k ≠ m := by
      rintro rfl
      exact hu (Option.some.inj (hk.symm.trans hs.2))
    rw [← hk]
    exact Function.update_of_ne hne _ _
  · cases g <;> exact hg

theorem act_connected {s : Shared} {t m c : Nat} {host : String}
    (hs : Sound s t host (.connected m c)) :
    Acts s ((s.insert host c).set t ⟨host, .leaving m (some c)⟩) t host (.connected m c)
      (.leaving m (some c)) := by
  obtain ⟨hm, hl, hn⟩ := hs
  refine ⟨rfl, ⟨fun _ _ h => h, fun _ _ h _ => h, fun _ h => h, ?_⟩, ⟨hm, hl⟩, rfl, ?_,
    fun _ _ h => h.elim⟩
  · intro h hn'
    by_cases hh : h = host
    · exact .inr ⟨m, hh ▸ hm, hl⟩
    · exact .inl ((live_insert s host c hh).trans hn')
  · intro h c' hc
    have hne : h ≠ host := by
      rintro rfl
      rw [hn] at hc
      cases hc
    rw [← (live_iff.mp hc).1]
    exact Function.update_of_ne hne _ _

theorem act_lost {s : Shared} {t c : Nat} {host : String} (hs : Sound s t host (.lost c))
    (hc : s.hosts host = some c) :
    Acts s ((s.remove host).set t ⟨host, .done⟩) t host (.lost c) .done := by
  have hclosed : s.closed c = true := hs
  refine ⟨rfl, ⟨fun _ _ h => h, fun _ _ h _ => h, fun _ h => h, ?_⟩, trivial, rfl, ?_,
    fun _ _ h => h.elim⟩
  · intro h hn
    left
    by_cases hh : h = host
    · subst hh
      simp [Shared.live, Shared.remove, Shared.set]
    · have hr : (s.remove host).live h = s.live h := by
        simp [Shared.live, Shared.remove, Function.update_of_ne hh]
      exact hr.trans hn
  · intro h c' hl
    obtain ⟨hh, ho⟩ := live_iff.mp hl
    have hne : h ≠ host := by
      rintro rfl
      obtain rfl := Option.some.inj (hh.symm.trans hc)
      rw [hclosed] at ho
      cases ho
    rw [← hh]
    exact Function.update_of_ne hne _ _

theorem act_spec {s d : Shared} {t : Nat} {host : String} {ok : Bool} {g : Stage}
    (hs : Sound s t host g) (h : act s t host ok g = some d) : ∃ g', Acts s d t host g g' := by
  cases g with
  | arrived =>
    unfold act at h
    cases hl : s.live host with
    | some c =>
      rw [hl] at h
      obtain rfl := Option.some.inj h
      exact ⟨_, acts_set trivial fun _ _ h => h.elim⟩
    | none =>
      rw [hl] at h
      obtain rfl := Option.some.inj h
      exact ⟨_, acts_set trivial fun _ _ h => h.elim⟩
  | missed =>
    obtain rfl := Option.some.inj h
    exact ⟨_, act_missed⟩
  | waiting m =>
    obtain ⟨hfree, hd⟩ := Option.ite_none_right_eq_some.mp h
    obtain rfl := Option.some.inj hd
    exact ⟨_, act_waiting hs hfree⟩
  | holding m =>
    unfold act at h
    cases hl : s.live host with
    | some c =>
      rw [hl] at h
      obtain rfl := Option.some.inj h
      exact ⟨_, acts_set hs fun c' hc' _ => Option.some.inj (hl.symm.trans hc')⟩
    | none =>
      rw [hl] at h
      obtain rfl := Option.some.inj h
      exact ⟨_, acts_set ⟨hs.1, hs.2, hl⟩ fun c' hc' _ => by rw [hl] at hc'; cases hc'⟩
  | connecting m =>
    cases ok with
    | true =>
      obtain rfl := Option.some.inj h
      exact ⟨.connected m s.conns, rfl, .of_eq rfl rfl rfl rfl, hs, rfl,
        fun _ _ => kept_of_eq rfl, fun _ _ h => h.elim⟩
    | false =>
      obtain rfl := Option.some.inj h
      exact ⟨_, acts_set ⟨hs.1, hs.2.1⟩ fun _ _ h => h.elim⟩
  | connected m c =>
    unfold act at h
    rw [hs.2.2] at h
    obtain rfl := Option.some.inj h
    exact ⟨_, act_connected hs⟩
  | leaving m r =>
    cases r with
    | some c =>
      obtain rfl := Option.some.inj h
      exact ⟨_, act_leaving hs trivial fun _ _ h => h⟩
    | none =>
      obtain rfl := Option.some.inj h
      exact ⟨_, act_leaving hs trivial fun _ _ _ => trivial⟩
  | running c =>
    simp only [act] at h
    split at h
    · rename_i hc
      obtain rfl := Option.some.inj h
      have hclosed : s.closed c = true := (Bool.and_eq_true_iff.mp hc).2
      refine ⟨_, acts_set hclosed ?_⟩
      intro c' hl he
      obtain rfl : c = c' := he
      rw [(live_iff.mp hl).2] at hclosed
      cases hclosed
    · obtain rfl := Option.some.inj h
      exact ⟨_, acts_set trivial fun _ _ _ => trivial⟩
  | lost c =>
    simp only [act] at h
    split at h
    · rename_i hc
      obtain rfl := Option.some.inj h
      exact ⟨_, act_lost hs hc⟩
    · obtain rfl := Option.some.inj h
      exact ⟨_, acts_set trivial fun _ _ h => h.elim⟩
  | done => cases h

theorem inv_init : Inv {} := by
  intro t x h
  cases h

theorem Acts.inv {s d : Shared} {t : Nat} {host : String} {g g' : Stage}
    (h : Acts s d t host g g') (hi : Inv s) : Inv d := by
  intro u x hx
  rw [h.tasks] at hx
  by_cases hu : u = t
  · subst hu
    rw [Function.update_self, Option.some.injEq] at hx
    subst hx
    exact h.sound
  · rw [Function.update_of_ne hu] at hx
    exact h.keeps.sound hu (hi u x hx)

theorem acts_arrive (s : Shared) (t : Nat) (host : String) :
    Acts s (s.set t ⟨host, .arrived⟩) t host .missed .arrived :=
  acts_set trivial fun _ _ h => h.elim

structure Loses (s d : Shared) : Prop where
  tasks : d.tasks = s.tasks
  hosts : d.hosts = s.hosts
  keeps : ∀ t, Keeps s d t

theorem loses (s : Shared) (c : Nat) :
    Loses s { s with closed := Function.update s.closed c true } := by
  have hmono : ∀ k, s.closed k = true → Function.update s.closed c true k = true := by
    intro k hk
    by_cases h : k = c
    · rw [h, Function.update_self]
    · rw [Function.update_of_ne h, hk]
  refine ⟨rfl, rfl, fun t => ⟨fun _ _ h => h, fun _ _ h _ => h, hmono, ?_⟩⟩
  intro h hn
  left
  rw [Shared.live, Option.filter_eq_none_iff] at hn ⊢
  intro k hk
  have hc := hmono k (by simpa using hn k hk)
  simp [hc]

theorem step_cases {s d : Shared} {e : Ev} (hi : Inv s) (h : step s e = some d) :
    Loses s d ∨ ∃ t host g g', Acts s d t host g g' ∧
      (s.tasks t = none ∨ s.tasks t = some ⟨host, g⟩) := by
  cases e with
  | arrive t host =>
    obtain ⟨hn, hd⟩ := Option.ite_none_right_eq_some.mp h
    obtain rfl := Option.some.inj hd
    exact .inr ⟨t, host, _, _, acts_arrive s t host, .inl hn⟩
  | act t ok =>
    obtain ⟨x, hx, ha⟩ := Option.bind_eq_some_iff.mp h
    obtain ⟨g', hg⟩ := act_spec (hi t x hx) ha
    exact .inr ⟨t, x.host, x.stage, g', hg, .inr hx⟩
  | lose c =>
    obtain rfl := Option.some.inj h
    exact .inl (loses s c)

theorem inv_step {s d : Shared} {e : Ev} (hi : Inv s) (h : step s e = some d) : Inv d := by
  rcases step_cases hi h with hl | ⟨t, host, g, g', ha, -⟩
  · intro u x hx
    rw [hl.tasks] at hx
    exact (hl.keeps (u + 1)).sound (by omega) (hi u x hx)
  · exact ha.inv hi

theorem inv_run {s d : Shared} {es : List Ev} (hi : Inv s) (h : Path step Any s es d) : Inv d :=
  h.invariant (fun _ _ _ hi _ hs => inv_step hi hs) hi

theorem live_kept {s d : Shared} {e : Ev} (hi : Inv s) (h : step s e = some d) {host : String}
    {c : Nat} (hl : s.live host = some c) : d.hosts host = some c := by
  rcases step_cases hi h with hs | ⟨t, k, g, g', ha, -⟩
  · rw [hs.hosts]
    exact (live_iff.mp hl).1
  · exact ha.kept host c hl

theorem closed_mono {s d : Shared} {e : Ev} (hi : Inv s) (h : step s e = some d) {c : Nat}
    (hc : d.closed c = false) : s.closed c = false := by
  rw [Bool.eq_false_iff] at hc ⊢
  intro ho
  apply hc
  rcases step_cases hi h with hs | ⟨t, k, g, g', ha, -⟩
  · exact (hs.keeps 0).closed c ho
  · exact ha.keeps.closed c ho

/-- `t` got, or will get, the connection `c` from the cache. -/
def Reusing (t : Nat) (host : String) (c : Nat) (s : Shared) : Prop :=
  s.closed c = false → s.hosts host = some c ∧ ∃ g, s.tasks t = some ⟨host, g⟩ ∧ Reuses c g

theorem reusing_step {s d : Shared} {e : Ev} {t : Nat} {host : String} {c : Nat} (hi : Inv s)
    (hr : Reusing t host c s) (h : step s e = some d) : Reusing t host c d := by
  intro hc
  have hcs : s.closed c = false := closed_mono hi h hc
  obtain ⟨hh, g, ht, hg⟩ := hr hcs
  have hl : s.live host = some c := live_iff.mpr ⟨hh, hcs⟩
  refine ⟨live_kept hi h hl, ?_⟩
  rcases step_cases hi h with hs | ⟨u, k, f, f', ha, hu⟩
  · exact ⟨g, hs.tasks ▸ ht, hg⟩
  · by_cases he : u = t
    · subst he
      rcases hu with hn | hu
      · rw [ht] at hn
        cases hn
      · rw [ht] at hu
        obtain ⟨rfl, rfl⟩ := Task.mk.inj (Option.some.inj hu)
        exact ⟨f', by rw [ha.tasks, Function.update_self], ha.reuses c hl hg⟩
    · exact ⟨g, by rw [ha.tasks, Function.update_of_ne (Ne.symm he), ht], hg⟩

def InFlight (s : Shared) (t : Nat) (host : String) : Prop :=
  ∃ m, s.tasks t = some ⟨host, .connecting m⟩

/-- What a state promises: one `connect_host` in flight for a host; the connection a task installs is
the cached one, and whoever waits for the lock then is given it as long as it is live; no step
replaces or removes a connection that is not closed. -/
structure Serialized (s : Shared) : Prop where
  one_in_flight : ∀ t u host, InFlight s t host → InFlight s u host → t = u
  waiter_reuses : ∀ t u host m m' c ok s', s.tasks t = some ⟨host, .waiting m⟩ →
    s.tasks u = some ⟨host, .connected m' c⟩ → step s (.act u ok) = some s' →
    ∀ es d, Path step Any s' es d → d.closed c = false →
      d.hosts host = some c ∧ ∃ g, d.tasks t = some ⟨host, g⟩ ∧ Reuses c g
  live_stays : ∀ e s', step s e = some s' → ∀ host c, s.hosts host = some c →
    s.closed c = false → s'.hosts host = some c

theorem reusing_run {s d : Shared} {es : List Ev} {t : Nat} {host : String} {c : Nat} (hi : Inv s)
    (hr : Reusing t host c s) (h : Path step Any s es d) : Reusing t host c d := by
  have hrun : Inv d ∧ Reusing t host c d :=
    h.invariant (I := fun s => Inv s ∧ Reusing t host c s)
      (fun _ _ _ hI _ hst => ⟨inv_step hI.1 hst, reusing_step hI.1 hI.2 hst⟩) ⟨hi, hr⟩
  exact hrun.2

theorem one_connect {s : Shared} (hi : Inv s) {t u : Nat} {host : String}
    (ht : InFlight s t host) (hu : InFlight s u host) : t = u := by
  obtain ⟨m, ht⟩ := ht
  obtain ⟨m', hu⟩ := hu
  obtain ⟨hm, hl, -⟩ := hi t _ ht
  obtain ⟨hm', hl', -⟩ := hi u _ hu
  obtain rfl := Option.some.inj (hm.symm.trans hm')
  exact Option.some.inj (hl.symm.trans hl')

/-- Where a task installs its connection, one that waits for the lock will find it. -/
theorem install_reusing {s d : Shared} (hi : Inv s) {t u m m' c : Nat} {host : String} {ok : Bool}
    (ht : s.tasks t = some ⟨host, .waiting m⟩) (hu : s.tasks u = some ⟨host, .connected m' c⟩)
    (h : step s (.act u ok) = some d) : Reusing t host c d := by
  have hne : t ≠ u := by
    rintro rfl
    rw [ht] at hu
    cases hu
  have hlive : s.live host = none := (hi u _ hu).2.2
  simp only [step, hu, Option.bind_some, act, hlive] at h
  obtain rfl := Option.some.inj h
  intro _
  refine ⟨Function.update_self _ _ _, .waiting m, ?_, trivial⟩
  rw [← ht]
  exact Function.update_of_ne hne _ _

theorem first_contact_serialized {es : List Ev} {s : Shared} (h : Path step Any {} es s) :
    Serialized s := by
  have hi : Inv s := inv_run inv_init h
  refine ⟨fun t u host => one_connect hi, ?_, ?_⟩
  · intro t u host m m' c ok s' ht hu hs fs d hp
    exact reusing_run (inv_step hi hs) (install_reusing hi ht hu hs) hp
  · intro e s' hs host c hh hc
    exact live_kept hi hs (live_iff.mpr ⟨hh, hc⟩)

def sampleRun : List Ev :=
  [.arrive 0 "h", .arrive 1 "h", .act 0 true, .act 1 true, .act 0 true, .act 1 true, .act 0 true,
    .act 0 true, .act 0 true]

theorem first_contact_serialized_sample :
    ∃ s, run step sampleRun {} = some s ∧ s.tasks 0 = some ⟨"h", .connected 0 0⟩ ∧
      s.tasks 1 = some ⟨"h", .waiting 0⟩ ∧ Serialized s :=
  ⟨_, rfl, rfl, rfl, @first_contact_serialized sampleRun _ (path_of_run rfl)⟩

end ShellProxy.FirstContact
