import ShellProxy.HandleExec
import ShellProxy.Lib.Latest
import Mathlib.Data.List.Nodup

/-! The cwd of a session over any interleaving of its commands: a command starts where the last
one before it, in the order of the session's lock, said it ended. -/
namespace ShellProxy.SessionCwd
open Frame Session HandleExec Machine Latest

/-- The tasks that got the lock of this session, oldest first. -/
def history (s : Daemon) (k : SessionKey) : List Nat :=
  s.order.filterMap fun p => if p.1 = k then some p.2 else none

/-- The cwd a task's execution reported, if it ended well and reported one. -/
def report (s : Daemon) (t : Nat) : Option String := (s.tasks t).bind Task.report

def Finished (s : Daemon) (t : Nat) : Prop := ∃ x, s.tasks t = some x ∧ x.stage = .done

/-- The cwd a command of this session would start in now. -/
def cwd (s : Daemon) (k : SessionKey) : Option String :=
  (s.sessions k).bind fun b => (s.buckets b).cwd

theorem taskAt_some {s : Daemon} {t : Nat} {g : Stage} {x : Task} (h : s.taskAt t g = some x) :
    s.tasks t = some x ∧ x.stage = g := by
  obtain ⟨hx, hg⟩ := Option.filter_eq_some_iff.mp h
  exact ⟨hx, by simpa using hg⟩

/-- The request of task `t` carries the client's cwd, or else the last report of the tasks that
had the session's lock before it, all of which are over. -/
def ServedAt (s : Daemon) (t : Nat) (x : Task) (sv : ServeExec) : Prop :=
  ∃ k pre post, x.key = some k ∧ history s k = pre ++ t :: post ∧ (∀ u ∈ pre, Finished s u) ∧
    sv.cwd = x.req.cwd.or (latest (report s) pre)

/-- What a bucket holds for the tasks of its session. -/
def Log (s : Daemon) (k : SessionKey) (b : Nat) : Prop :=
  match (s.buckets b).holder with
  | none => (∀ u ∈ history s k, Finished s u) ∧
      (s.buckets b).cwd = latest (report s) (history s k)
  | some t => ∃ pre x, history s k = pre ++ [t] ∧ (∀ u ∈ pre, Finished s u) ∧
      s.tasks t = some x ∧ x.stage.holds = true ∧ x.bucket = some b ∧
      (s.buckets b).cwd =
        if x.stage = .updated then latest (report s) (pre ++ [t]) else latest (report s) pre

def Early (g : Stage) : Prop := g = .arrived ∨ g = .parsed ∨ g = .connected

structure Inv (s : Daemon) : Prop where
  early : ∀ t x, s.tasks t = some x → Early x.stage → x.bucket = none ∧ x.served = none
  bound : ∀ t x b, s.tasks t = some x → x.bucket = some b →
    ∃ k, x.key = some k ∧ s.sessions k = some b
  below : ∀ k b, s.sessions k = some b → b < s.made
  inj : ∀ k k' b, s.sessions k = some b → s.sessions k' = some b → k = k'
  fresh : ∀ b, s.made ≤ b → s.buckets b = {}
  unknown : ∀ k, s.sessions k = none → history s k = []
  nodup : ∀ k, (history s k).Nodup
  holds : ∀ t x b, s.tasks t = some x → x.bucket = some b → x.stage.holds = true →
    (s.buckets b).holder = some t
  log : ∀ k b, s.sessions k = some b → Log s k b
  served : ∀ t x sv, s.tasks t = some x → x.served = some sv → ServedAt s t x sv

theorem inv_init : Inv {} where
  early := by simp
  bound := by simp
  below := by simp
  inj := by simp
  fresh := by simp
  unknown := by simp [history]
  nodup := by simp [history]
  holds := by simp
  log := by simp
  served := by simp

section Frozen
variable {s d : Daemon}

/-- A task that is over keeps its record, and so its report. -/
def Frozen (s d : Daemon) : Prop := ∀ u, Finished s u → d.tasks u = s.tasks u

theorem Frozen.finished (h : Frozen s d) {u : Nat} (hu : Finished s u) : Finished d u := by
  obtain ⟨x, hx, hd⟩ := hu
  exact ⟨x, by rw [h u ⟨x, hx, hd⟩, hx], hd⟩

theorem Frozen.latest (h : Frozen s d) {ts : List Nat} (hts : ∀ u ∈ ts, Finished s u) :
    latest (report d) ts = latest (report s) ts := by
  apply latest_congr
  intro u hu
  rw [report, report, h u (hts u hu)]

theorem Frozen.served (h : Frozen s d) {t : Nat} {x : Task} {sv : ServeExec}
    (hl : ∀ k, ∃ l, history d k = history s k ++ l) (hs : ServedAt s t x sv) :
    ServedAt d t x sv := by
  obtain ⟨k, pre, post, hk, hh, hf, hc⟩ := hs
  obtain ⟨l, hl⟩ := hl k
  refine ⟨k, pre, post ++ l, hk, by rw [hl, hh]; simp, ?_, ?_⟩
  · intro u hu
    exact h.finished (hf u hu)
  · rw [h.latest hf]
    exact hc

theorem frozen_set {t : Nat} {x : Task} (h : ∀ y, s.tasks t = some y → y.stage ≠ .done)
    (hd : d.tasks = (s.set t x).tasks) : Frozen s d := by
  intro u hu
  have hne : u ≠ t := by
    rintro rfl
    obtain ⟨y, hy, hs⟩ := hu
    exact h y hy hs
  rw [hd]
  exact Function.update_of_ne hne _ _

theorem Frozen.log (h : Frozen s d) {k : SessionKey} {b : Nat} (hlog : Log s k b)
    (hb : d.buckets b = s.buckets b) (hk : history d k = history s k)
    (hhold : ∀ u, (s.buckets b).holder = some u → d.tasks u = s.tasks u) : Log d k b := by
  unfold Log at hlog ⊢
  rw [hb, hk]
  cases hu : (s.buckets b).holder with
  | none =>
    rw [hu] at hlog
    obtain ⟨hfin, hc⟩ := hlog
    refine ⟨fun u hu => h.finished (hfin u hu), ?_⟩
    rw [h.latest hfin]
    exact hc
  | some u =>
    rw [hu] at hlog
    obtain ⟨pre, x, hh, hfin, hx, hxh, hxb, hc⟩ := hlog
    have hsame := hhold u hu
    have hrep : report d u = report s u := by rw [report, report, hsame]
    refine ⟨pre, x, hh, fun v hv => h.finished (hfin v hv), hsame.trans hx, hxh, hxb, ?_⟩
    rw [latest_concat, hrep, h.latest hfin, ← latest_concat]
    exact hc

end Frozen

theorem set_tasks_self (s : Daemon) (t : Nat) (x : Task) : (s.set t x).tasks t = some x :=
  Function.update_self _ _ _

theorem set_tasks_ne (s : Daemon) {t u : Nat} (x : Task) (h : u ≠ t) :
    (s.set t x).tasks u = s.tasks u := Function.update_of_ne h _ _

theorem tasks_set_all {s d : Daemon} {t : Nat} {y : Task} (htasks : d.tasks = (s.set t y).tasks)
    {P : Nat → Task → Prop} (hy : P t y) (hs : ∀ u x, u ≠ t → s.tasks u = some x → P u x) :
    ∀ u x, d.tasks u = some x → P u x := by
  intro u x hx
  rw [htasks] at hx
  by_cases hu : u = t
  · subst hu
    rw [set_tasks_self] at hx
    obtain rfl := Option.some.inj hx
    exact hy
  · rw [set_tasks_ne s y hu] at hx
    exact hs u x hu hx

theorem inv_local {s d : Daemon} (h : Inv s) (t : Nat) (y : Task)
    (htasks : d.tasks = (s.set t y).tasks) (hsess : d.sessions = s.sessions)
    (hbuck : d.buckets = s.buckets) (hmade : d.made = s.made) (horder : d.order = s.order)
    (hopen : ∀ x, s.tasks t = some x → x.stage ≠ .done)
    (hearly : Early y.stage → y.bucket = none ∧ y.served = none)
    (hbound : ∀ b, y.bucket = some b → ∃ k, y.key = some k ∧ s.sessions k = some b)
    (hholds : ∀ b, y.bucket = some b → y.stage.holds = true → (s.buckets b).holder = some t)
    (hkeep : ∀ x b, s.tasks t = some x → x.bucket = some b → x.stage.holds = true →
      y.bucket = some b ∧ y.stage.holds = true ∧ x.stage ≠ .updated ∧ y.stage ≠ .updated)
    (hserved : ∀ sv, y.served = some sv → ServedAt s t y sv) : Inv d := by
  have hfr : Frozen s d := frozen_set hopen htasks
  have hhist : ∀ k, history d k = history s k := by
    intro k
    rw [history, history, horder]
  have hself : d.tasks t = some y := by rw [htasks, set_tasks_self]
  have hother : ∀ u, u ≠ t → d.tasks u = s.tasks u := by
    intro u hu
    rw [htasks, set_tasks_ne s y hu]
  constructor
  case early =>
    exact tasks_set_all htasks (P := fun _ x => Early x.stage → x.bucket = none ∧ x.served = none)
      hearly fun u x _ hx => h.early u x hx
  case bound =>
    rw [hsess]
    intro u x b hx
    exact tasks_set_all htasks
      (P := fun _ x => x.bucket = some b → ∃ k, x.key = some k ∧ s.sessions k = some b)
      (hbound b) (fun u x _ hx => h.bound u x b hx) u x hx
  case below =>
    rw [hsess, hmade]
    exact h.below
  case inj =>
    rw [hsess]
    exact h.inj
  case fresh =>
    rw [hmade, hbuck]
    exact h.fresh
  case unknown =>
    intro k hk
    rw [hsess] at hk
    rw [hhist, h.unknown k hk]
  case nodup =>
    intro k
    rw [hhist]
    exact h.nodup k
  case holds =>
    rw [hbuck]
    intro u x b hx
    exact tasks_set_all htasks (P := fun u x => x.bucket = some b → x.stage.holds = true →
      (s.buckets b).holder = some u) (hholds b) (fun u x _ hx => h.holds u x b hx) u x hx
  case log =>
    intro k b hk
    rw [hsess] at hk
    have hlog := h.log k b hk
    by_cases ht : (s.buckets b).holder = some t
    · unfold Log at hlog ⊢
      rw [ht] at hlog
      obtain ⟨pre, x, hh, hfin, hx, hxh, hxb, hc⟩ := hlog
      obtain ⟨hyb, hyh, hxu, hyu⟩ := hkeep x b hx hxb hxh
      rw [hbuck, ht]
      refine ⟨pre, y, by rw [hhist, hh], fun v hv => hfr.finished (hfin v hv), hself, hyh, hyb, ?_⟩
      rw [if_neg hxu] at hc
      rw [if_neg hyu, hfr.latest hfin]
      exact hc
    · refine hfr.log hlog (by rw [hbuck]) (hhist k) ?_
      intro u hu
      exact hother u (by rintro rfl; exact ht hu)
  case served =>
    intro u x sv hx hsv
    apply hfr.served (fun k => ⟨[], by rw [hhist, List.append_nil]⟩)
    exact tasks_set_all htasks (P := fun u x => x.served = some sv → ServedAt s u x sv)
      (fun hy => hserved sv hy) (fun u x _ hx hy => h.served u x sv hx hy) u x hx hsv

theorem ServedAt.congr {s : Daemon} {t : Nat} {x y : Task} {sv : ServeExec}
    (h : ServedAt s t x sv) (hk : y.key = x.key) (hr : y.req = x.req) : ServedAt s t y sv := by
  obtain ⟨k, pre, post, hxk, hh, hf, hc⟩ := h
  exact ⟨k, pre, post, hk.trans hxk, hh, hf, hr ▸ hc⟩

theorem stage_done {s : Daemon} {t : Nat} {x : Task} (hx : s.tasks t = some x)
    (hg : x.stage ≠ .done) : ∀ y, s.tasks t = some y → y.stage ≠ .done := by
  intro y hy
  obtain rfl := Option.some.inj (hx.symm.trans hy)
  exact hg

theorem inv_early {s d : Daemon} (h : Inv s) (t : Nat) (y : Task)
    (hd : d.tasks = (s.set t y).tasks ∧ d.sessions = s.sessions ∧ d.buckets = s.buckets ∧
      d.made = s.made ∧ d.order = s.order)
    (hx : ∀ x, s.tasks t = some x → Early x.stage) (hb : y.bucket = none) (hv : y.served = none) :
    Inv d := by
  obtain ⟨h1, h2, h3, h4, h5⟩ := hd
  refine inv_local h t y h1 h2 h3 h4 h5 ?_ (fun _ => ⟨hb, hv⟩) ?_ ?_ ?_ ?_
  · intro x hs hdone
    have he := hx x hs
    simp [Early, hdone] at he
  · intro b hyb
    rw [hb] at hyb
    cases hyb
  · intro b hyb
    rw [hb] at hyb
    cases hyb
  · intro x b hs hxb
    rw [(h.early t x hs (hx x hs)).1] at hxb
    cases hxb
  · intro sv hsv
    rw [hv] at hsv
    cases hsv

theorem inv_held {s d : Daemon} (h : Inv s) (t : Nat) (x y : Task) (hx : s.tasks t = some x)
    (hd : d.tasks = (s.set t y).tasks ∧ d.sessions = s.sessions ∧ d.buckets = s.buckets ∧
      d.made = s.made ∧ d.order = s.order)
    (hxh : x.stage.holds = true) (hyh : y.stage.holds = true) (hxu : x.stage ≠ .updated)
    (hyu : y.stage ≠ .updated) (hb : y.bucket = x.bucket) (hk : y.key = x.key)
    (hsv : ∀ sv, y.served = some sv → ServedAt s t y sv) : Inv d := by
  obtain ⟨h1, h2, h3, h4, h5⟩ := hd
  refine inv_local h t y h1 h2 h3 h4 h5 (stage_done hx ?_) ?_ ?_ ?_ ?_ hsv
  · intro hdone
    simp [hdone, Stage.holds] at hxh
  · rintro (he | he | he) <;> simp [he, Stage.holds] at hyh
  · intro b hyb
    rw [hk]
    exact h.bound t x b hx (hb ▸ hyb)
  · intro b hyb _
    exact h.holds t x b hx (hb ▸ hyb) hxh
  · intro z b hz hzb _
    obtain rfl := Option.some.inj (hx.symm.trans hz)
    exact ⟨hb.trans hzb, hyh, hxu, hyu⟩

theorem history_append (s : Daemon) (k : SessionKey) (l : List (SessionKey × Nat)) :
    history { s with order := s.order ++ l } k =
      history s k ++ history { s with order := l } k := by
  simp [history]

theorem inv_owner {s d : Daemon} (h : Inv s) (t : Nat) (x y : Task) (k : SessionKey) (b : Nat)
    (v : SessionState) (l : List (SessionKey × Nat)) (hx : s.tasks t = some x)
    (hxk : x.key = some k) (hxb : x.bucket = some b) (hxd : x.stage ≠ .done)
    (htasks : d.tasks = (s.set t y).tasks) (hsess : d.sessions = s.sessions)
    (hmade : d.made = s.made) (hbuck : d.buckets = (s.setBucket b v).buckets)
    (horder : d.order = s.order ++ l) (hl : ∀ p ∈ l, p.1 = k) (hyb : y.bucket = some b)
    (hyk : y.key = x.key) (hreq : y.req = x.req) (hsv : y.served = x.served)
    (hye : ¬ Early y.stage)
    (hown : ∀ u z, s.tasks u = some z → z.bucket = some b → z.stage.holds = true → u = t)
    (hhold : y.stage.holds = true → v.holder = some t) (hnodup : (history d k).Nodup)
    (hlog : Log d k b) : Inv d := by
  have hfr : Frozen s d := frozen_set (stage_done hx hxd) htasks
  have hother : ∀ u, u ≠ t → d.tasks u = s.tasks u := by
    intro u hu
    rw [htasks, set_tasks_ne s y hu]
  have hkb : s.sessions k = some b := by
    obtain ⟨k', hk', hs⟩ := h.bound t x b hx hxb
    obtain rfl := Option.some.inj (hxk.symm.trans hk')
    exact hs
  have hbelow := h.below k b hkb
  have hself_b : d.buckets b = v := by rw [hbuck]; exact Function.update_self _ _ _
  have hother_b : ∀ c, c ≠ b → d.buckets c = s.buckets c := by
    intro c hc
    rw [hbuck]
    exact Function.update_of_ne hc _ _
  have hhist : ∀ k', ∃ m, history d k' = history s k' ++ m ∧ (k' ≠ k → m = []) := by
    intro k'
    refine ⟨history { s with order := l } k', ?_, ?_⟩
    · rw [← history_append, history, horder]
      rfl
    · intro hne
      apply List.filterMap_eq_nil_iff.mpr
      intro p hp
      rw [if_neg]
      intro he
      exact hne (he.symm.trans (hl p hp))
  constructor
  case early =>
    exact tasks_set_all htasks (P := fun _ z => Early z.stage → z.bucket = none ∧ z.served = none)
      (fun he => absurd he hye) fun u z _ hz => h.early u z hz
  case bound =>
    rw [hsess]
    intro u z c hz
    refine tasks_set_all htasks
      (P := fun _ z => z.bucket = some c → ∃ k', z.key = some k' ∧ s.sessions k' = some c)
      (fun hc => ?_) (fun u z _ hz => h.bound u z c hz) u z hz
    obtain rfl := Option.some.inj (hyb.symm.trans hc)
    exact ⟨k, hyk.trans hxk, hkb⟩
  case below =>
    rw [hsess, hmade]
    exact h.below
  case inj =>
    rw [hsess]
    exact h.inj
  case fresh =>
    intro c hc
    rw [hmade] at hc
    rw [hother_b c (by omega)]
    exact h.fresh c hc
  case unknown =>
    intro k' hk'
    rw [hsess] at hk'
    obtain ⟨m, hm, hne⟩ := hhist k'
    have hkk : k' ≠ k := by
      rintro rfl
      rw [hkb] at hk'
      cases hk'
    rw [hm, hne hkk, h.unknown k' hk']
    rfl
  case nodup =>
    intro k'
    by_cases hkk : k' = k
    · rw [hkk]
      exact hnodup
    · obtain ⟨m, hm, hne⟩ := hhist k'
      rw [hm, hne hkk, List.append_nil]
      exact h.nodup k'
  case holds =>
    intro u z c hz
    refine tasks_set_all htasks (P := fun u z => z.bucket = some c → z.stage.holds = true →
      (d.buckets c).holder = some u) (fun hc hh => ?_) (fun u z hu hz hc hh => ?_) u z hz
    · obtain rfl := Option.some.inj (hyb.symm.trans hc)
      rw [hself_b]
      exact hhold hh
    · have hcb : c ≠ b := by
        rintro rfl
        exact hu (hown u z hz hc hh)
      rw [hother_b c hcb]
      exact h.holds u z c hz hc hh
  case log =>
    intro k' c hc
    rw [hsess] at hc
    by_cases hcb : c = b
    · subst hcb
      obtain rfl := h.inj k' k c hc hkb
      exact hlog
    · have hkk : k' ≠ k := by
        rintro rfl
        exact hcb (Option.some.inj (hc.symm.trans hkb))
      obtain ⟨m, hm, hne⟩ := hhist k'
      rw [hne hkk, List.append_nil] at hm
      refine hfr.log (h.log k' c hc) (hother_b c hcb) hm ?_
      intro u hu
      apply hother
      rintro rfl
      -- the task has the lock of its own bucket only
      have hlog := h.log k' c hc
      unfold Log at hlog
      rw [hu] at hlog
      obtain ⟨-, z, -, -, hz, -, hzb, -⟩ := hlog
      obtain rfl := Option.some.inj (hx.symm.trans hz)
      exact hcb (Option.some.inj (hzb.symm.trans hxb))
  case served =>
    intro u z sv hz hsv'
    apply hfr.served
    · intro k'
      obtain ⟨m, hm, -⟩ := hhist k'
      exact ⟨m, hm⟩
    · exact tasks_set_all htasks (P := fun u z => z.served = some sv → ServedAt s u z sv)
        (fun hy => (h.served t x sv hx (hsv ▸ hy)).congr hyk hreq)
        (fun u z _ hz hy => h.served u z sv hz hy) u z hz hsv'

theorem inv_makeSession {s : Daemon} (h : Inv s) (k : SessionKey) (hk : s.sessions k = none) :
    Inv (s.makeSession k) := by
  have hinv : ∀ k' b, (s.makeSession k).sessions k' = some b ↔
      (k' = k ∧ b = s.made) ∨ s.sessions k' = some b := by
    intro k' b
    simp only [Daemon.makeSession, Function.update_apply]
    by_cases he : k' = k
    · simp [he, hk, eq_comm]
    · simp [he]
  have hnone : ∀ k', (s.makeSession k).sessions k' = none → s.sessions k' = none := by
    intro k' hn
    by_contra hne
    obtain ⟨b, hb⟩ := Option.ne_none_iff_exists'.mp hne
    rw [(hinv k' b).mpr (.inr hb)] at hn
    cases hn
  have hbuck : ∀ b, b ≠ s.made → (s.makeSession k).buckets b = s.buckets b :=
    fun b hb => Function.update_of_ne hb _ _
  have hnew : (s.makeSession k).buckets s.made = {} := Function.update_self _ _ _
  have hhist : ∀ k', history (s.makeSession k) k' = history s k' := fun _ => rfl
  refine ⟨h.early, ?_, ?_, ?_, ?_, ?_, h.nodup, ?_, ?_, h.served⟩
  · intro t x b hx hb
    obtain ⟨k', hk', hs⟩ := h.bound t x b hx hb
    exact ⟨k', hk', (hinv k' b).mpr (.inr hs)⟩
  · intro k' b hb
    rcases (hinv k' b).mp hb with ⟨-, rfl⟩ | hb
    · exact Nat.lt_succ_self _
    · exact Nat.lt_succ_of_lt (h.below k' b hb)
  · intro k' k'' b hb hb'
    have hlt : ∀ j, s.sessions j ≠ some s.made := fun j hj => Nat.lt_irrefl _ (h.below j _ hj)
    rcases (hinv k' b).mp hb with ⟨h1, h2⟩ | h1 <;> rcases (hinv k'' b).mp hb' with ⟨h3, h4⟩ | h3
    · rw [h1, h3]
    · rw [h2] at h3
      exact absurd h3 (hlt k'')
    · rw [h4] at h1
      exact absurd h1 (hlt k')
    · exact h.inj k' k'' b h1 h3
  · intro b hb
    by_cases he : b = s.made
    · rw [he, hnew]
    · exact (hbuck b he).trans (h.fresh b (Nat.le_of_succ_le hb))
  · intro k' hk'
    rw [hhist]
    exact h.unknown k' (hnone k' hk')
  · intro t x b hx hb hh
    obtain ⟨k', -, hs⟩ := h.bound t x b hx hb
    have hlt := h.below k' b hs
    rw [hbuck b (by omega)]
    exact h.holds t x b hx hb hh
  · intro k' b hb
    rcases (hinv k' b).mp hb with ⟨rfl, rfl⟩ | hb
    · unfold Log
      rw [hnew, hhist, h.unknown k' hk]
      exact ⟨by simp, rfl⟩
    · have hlt := h.below k' b hb
      have hold := h.log k' b hb
      unfold Log at hold ⊢
      rw [hbuck b (by omega)]
      exact hold

theorem inv_getSession {s : Daemon} (h : Inv s) (k : SessionKey) :
    Inv (s.getSession k).2 ∧ (s.getSession k).2.sessions k = some (s.getSession k).1 ∧
      (s.getSession k).2.tasks = s.tasks := by
  unfold Daemon.getSession
  cases hk : s.sessions k with
  | some b => exact ⟨h, hk, rfl⟩
  | none => exact ⟨inv_makeSession h k hk, Function.update_self _ _ _, rfl⟩

theorem bind_some {α β : Type} {o : Option α} {f : α → Option β} {y : β} (h : o.bind f = some y) :
    ∃ x, o = some x ∧ f x = some y := Option.bind_eq_some_iff.mp h

/-- Getting the lock: the history of the session grows by the task, and the bucket still holds
the last report of those before it. -/
theorem inv_lock {s d : Daemon} (h : Inv s) (t : Nat) (hs : step s (.lock t) = some d) : Inv d := by
  obtain ⟨x, hat, hs⟩ := bind_some hs
  obtain ⟨k, hk, hs⟩ := bind_some hs
  obtain ⟨b, hb, hs⟩ := bind_some hs
  obtain ⟨hx, hg⟩ := taskAt_some hat
  obtain ⟨hfree, hd⟩ := Option.ite_none_left_eq_some.mp hs
  have hd := Option.some.inj hd
  have hfree : (s.buckets b).holder = none := by simpa using hfree
  obtain ⟨k', hk', hkb⟩ := h.bound t x b hx hb
  obtain rfl := Option.some.inj (hk.symm.trans hk')
  have hold := h.log k b hkb
  unfold Log at hold
  rw [hfree] at hold
  obtain ⟨hfin, hc⟩ := hold
  have htasks : d.tasks = (s.set t { x with stage := .locked }).tasks := by rw [← hd]; rfl
  have hbuck : d.buckets = (s.setBucket b { s.buckets b with holder := some t }).buckets := by
    rw [← hd]
    rfl
  have horder : d.order = s.order ++ [(k, t)] := by rw [← hd]; rfl
  have hhist : history d k = history s k ++ [t] := by simp [history, horder]
  refine inv_owner h t x { x with stage := .locked } k b _ [(k, t)] hx hk hb (by simp [hg]) htasks
    (by rw [← hd]; rfl) (by rw [← hd]; rfl) hbuck horder (by simp) hb rfl rfl rfl
    (by simp [Early]) ?_ (fun _ => rfl) ?_ ?_
  · intro u z hz hzb hzh
    have hh := h.holds u z b hz hzb hzh
    rw [hfree] at hh
    cases hh
  · have hnot : t ∉ history s k := by
      intro ht
      obtain ⟨z, hz, hdone⟩ := hfin t ht
      obtain rfl := Option.some.inj (hx.symm.trans hz)
      rw [hg] at hdone
      cases hdone
    rw [hhist, ← List.concat_eq_append]
    exact List.Nodup.concat hnot (h.nodup k)
  · have hfr : Frozen s d := frozen_set (stage_done hx (by simp [hg])) htasks
    unfold Log
    rw [hbuck]
    simp only [Daemon.setBucket, Function.update_self]
    refine ⟨history s k, { x with stage := .locked }, hhist, fun u hu => hfr.finished (hfin u hu),
      by rw [htasks, set_tasks_self], rfl, hb, ?_⟩
    rw [if_neg (by simp), hfr.latest hfin]
    exact hc

theorem Inv.held {s : Daemon} (h : Inv s) {t : Nat} {x : Task} {b : Nat} (hx : s.tasks t = some x)
    (hb : x.bucket = some b) (hh : x.stage.holds = true) :
    ∃ k pre, x.key = some k ∧ s.sessions k = some b ∧ history s k = pre ++ [t] ∧
      (∀ u ∈ pre, Finished s u) ∧ (s.buckets b).holder = some t ∧
      (s.buckets b).cwd =
        if x.stage = .updated then latest (report s) (pre ++ [t]) else latest (report s) pre := by
  obtain ⟨k, hk, hkb⟩ := h.bound t x b hx hb
  have hhold := h.holds t x b hx hb hh
  have hlog := h.log k b hkb
  unfold Log at hlog
  rw [hhold] at hlog
  obtain ⟨pre, y, hhist, hfin, hy, -, -, hc⟩ := hlog
  obtain rfl := Option.some.inj (hx.symm.trans hy)
  exact ⟨k, pre, hk, hkb, hhist, hfin, hhold, hc⟩

theorem Inv.owner {s : Daemon} (h : Inv s) {t b : Nat} (hb : (s.buckets b).holder = some t) :
    ∀ u z, s.tasks u = some z → z.bucket = some b → z.stage.holds = true → u = t := by
  intro u z hz hzb hzh
  exact Option.some.inj ((h.holds u z b hz hzb hzh).symm.trans hb)

theorem inv_update {s d : Daemon} (h : Inv s) (t : Nat) (hs : step s (.update t) = some d) :
    Inv d := by
  obtain ⟨x, hat, hs⟩ := bind_some hs
  obtain ⟨b, hb, hs⟩ := bind_some hs
  obtain ⟨hx, hg⟩ := taskAt_some hat
  have hd := Option.some.inj hs
  have hh : x.stage.holds = true := by rw [hg]; rfl
  obtain ⟨k, pre, hk, hkb, hhist, hfin, hhold, hc⟩ := h.held hx hb hh
  rw [if_neg (by simp [hg])] at hc
  have htasks : d.tasks = (s.set t { x with stage := .updated }).tasks := by rw [← hd]; rfl
  have hself : d.tasks t = some { x with stage := .updated } := by rw [htasks, set_tasks_self]
  refine inv_owner h t x { x with stage := .updated } k b
    { s.buckets b with cwd := x.report.or (s.buckets b).cwd } [] hx hk hb (by simp [hg]) htasks
    (by rw [← hd]; rfl) (by rw [← hd]; rfl) ?_ (by rw [← hd]; simp [Daemon.set, Daemon.setBucket])
    (by simp) hb rfl rfl rfl (by simp [Early]) (h.owner hhold) (fun _ => hhold)
    (by rw [← hd]; exact h.nodup k) ?_
  · rw [← hd]
    cases x.report <;> rfl
  · have hfr : Frozen s d := frozen_set (stage_done hx (by simp [hg])) htasks
    have hhd : history d k = pre ++ [t] := by
      rw [← hhist, ← hd]
      rfl
    have hrep : report d t = x.report := by
      rw [report, hself]
      rfl
    have hbuck : d.buckets b = { s.buckets b with cwd := x.report.or (s.buckets b).cwd } := by
      rw [← hd]
      cases x.report <;> exact Function.update_self _ _ _
    unfold Log
    rw [hbuck]
    simp only [hhold]
    refine ⟨pre, { x with stage := .updated }, hhd, fun u hu => hfr.finished (hfin u hu), hself,
      rfl, hb, ?_⟩
    rw [if_pos rfl, latest_concat, hrep, hfr.latest hfin, hc]

/-- Letting the lock go: the task is over and everything in the history is. -/
theorem inv_release {s d : Daemon} (h : Inv s) (t : Nat) (hs : step s (.release t) = some d) :
    Inv d := by
  obtain ⟨x, hat, hs⟩ := bind_some hs
  obtain ⟨b, hb, hs⟩ := bind_some hs
  obtain ⟨hx, hg⟩ := taskAt_some hat
  have hd := Option.some.inj hs
  have hh : x.stage.holds = true := by rw [hg]; rfl
  obtain ⟨k, pre, hk, hkb, hhist, hfin, hhold, hc⟩ := h.held hx hb hh
  rw [if_pos hg] at hc
  have htasks : d.tasks = (s.set t { x with stage := .done }).tasks := by rw [← hd]; rfl
  have hself : d.tasks t = some { x with stage := .done } := by rw [htasks, set_tasks_self]
  refine inv_owner h t x { x with stage := .done } k b { s.buckets b with holder := none } [] hx hk
    hb (by simp [hg]) htasks (by rw [← hd]; rfl) (by rw [← hd]; rfl) (by rw [← hd]; rfl)
    (by rw [← hd]; simp [Daemon.set, Daemon.setBucket]) (by simp) hb rfl rfl rfl (by simp [Early])
    (h.owner hhold) (by simp [Stage.holds]) (by rw [← hd]; exact h.nodup k) ?_
  have hfr : Frozen s d := frozen_set (stage_done hx (by simp [hg])) htasks
  have hhd : history d k = pre ++ [t] := by
    rw [← hhist, ← hd]
    rfl
  have hrep : report d t = report s t := by
    rw [report, report, hself, hx]
    rfl
  have hbuck : d.buckets b = { s.buckets b with holder := none } := by
    rw [← hd]
    exact Function.update_self _ _ _
  unfold Log
  rw [hbuck, hhd]
  refine ⟨?_, ?_⟩
  · intro u hu
    rcases List.mem_append.mp hu with hu | hu
    · exact hfr.finished (hfin u hu)
    · obtain rfl := List.mem_singleton.mp hu
      exact ⟨_, hself, rfl⟩
  · rw [latest_concat, hrep, hfr.latest hfin, ← latest_concat]
    exact hc

theorem inv_join {s d : Daemon} (h : Inv s) (t : Nat) (hs : step s (.getSession t) = some d) :
    Inv d := by
  obtain ⟨x, hat, hs⟩ := bind_some hs
  obtain ⟨k, hk, hs⟩ := bind_some hs
  obtain ⟨hx, hg⟩ := taskAt_some hat
  have hd := Option.some.inj hs
  have he : Early x.stage := .inr (.inr hg)
  obtain ⟨hb, hv⟩ := h.early t x hx he
  obtain ⟨hi, hkb, ht⟩ := inv_getSession h k
  have hx' : (s.getSession k).2.tasks t = some x := by rw [ht, hx]
  refine inv_local hi t { x with stage := .queued, bucket := some (s.getSession k).1 }
    (by rw [← hd]; rfl) (by rw [← hd]; rfl) (by rw [← hd]; rfl) (by rw [← hd]; rfl) (by rw [← hd]; rfl)
    (stage_done hx' (by simp [hg])) (by simp [Early]) ?_ (by simp [Stage.holds]) ?_ ?_
  · intro b hyb
    obtain rfl := Option.some.inj hyb
    exact ⟨k, hk, hkb⟩
  · intro z c hz hzc
    obtain rfl := Option.some.inj (hx'.symm.trans hz)
    rw [hb] at hzc
    cases hzc
  · intro sv hsv
    rw [show ({ x with stage := .queued, bucket := some (s.getSession k).1 } : Task).served =
      x.served from rfl, hv] at hsv
    cases hsv

theorem inv_assemble {s d : Daemon} (h : Inv s) (t : Nat) (hs : step s (.assemble t) = some d) :
    Inv d := by
  obtain ⟨x, hat, hs⟩ := bind_some hs
  obtain ⟨i, hi, hs⟩ := bind_some hs
  obtain ⟨b, hb, hs⟩ := bind_some hs
  obtain ⟨hx, hg⟩ := taskAt_some hat
  obtain rfl := Option.some.inj hs
  have hh : x.stage.holds = true := by rw [hg]; rfl
  obtain ⟨k, pre, hk, hkb, hhist, hfin, hhold, hc⟩ := h.held hx hb hh
  rw [if_neg (by simp [hg])] at hc
  refine inv_held h t x _ hx ⟨rfl, rfl, rfl, rfl, rfl⟩ hh rfl (by simp [hg]) (by simp) rfl rfl ?_
  intro sv hsv
  obtain rfl := Option.some.inj hsv
  exact ⟨k, pre, [], hk, hhist, hfin, by rw [← hc]; rfl⟩

theorem inv_step {s d : Daemon} {e : Ev} (h : Inv s) (hs : step s e = some d) : Inv d := by
  cases e with
  | arrive t req =>
    obtain ⟨hn, hs⟩ := Option.ite_none_right_eq_some.mp hs
    obtain rfl := Option.some.inj hs
    refine inv_early h t { req := req } ⟨rfl, rfl, rfl, rfl, rfl⟩ ?_ rfl rfl
    intro x hx
    simp [hx] at hn
  | parse t =>
    obtain ⟨x, hat, hs⟩ := bind_some hs
    obtain ⟨hx, hg⟩ := taskAt_some hat
    obtain ⟨hb, hv⟩ := h.early t x hx (.inl hg)
    have he : ∀ z, s.tasks t = some z → Early z.stage := by
      intro z hz
      obtain rfl := Option.some.inj (hx.symm.trans hz)
      exact .inl hg
    split at hs
    · obtain rfl := Option.some.inj hs
      exact inv_early h t _ ⟨rfl, rfl, rfl, rfl, rfl⟩ he hb hv
    · obtain rfl := Option.some.inj hs
      exact inv_early h t _ ⟨rfl, rfl, rfl, rfl, rfl⟩ he hb hv
  | reuse t | connect t | connectFailed t =>
    obtain ⟨x, hat, hs⟩ := bind_some hs
    obtain ⟨hx, hg⟩ := taskAt_some hat
    obtain ⟨hb, hv⟩ := h.early t x hx (.inr (.inl hg))
    have he : ∀ z, s.tasks t = some z → Early z.stage := by
      intro z hz
      obtain rfl := Option.some.inj (hx.symm.trans hz)
      exact .inr (.inl hg)
    first
    | obtain ⟨c, -, hs⟩ := bind_some hs
      obtain rfl := Option.some.inj hs
      exact inv_early h t _ ⟨rfl, rfl, rfl, rfl, rfl⟩ he hb hv
    | obtain ⟨-, hs⟩ := Option.ite_none_left_eq_some.mp hs
      obtain rfl := Option.some.inj hs
      exact inv_early h t _ ⟨rfl, rfl, rfl, rfl, rfl⟩ he hb hv
    | obtain rfl := Option.some.inj hs
      exact inv_early h t _ ⟨rfl, rfl, rfl, rfl, rfl⟩ he hb hv
  | lose c =>
    obtain rfl := Option.some.inj hs
    exact ⟨h.early, h.bound, h.below, h.inj, h.fresh, h.unknown, h.nodup, h.holds, h.log, h.served⟩
  | getSession t => exact inv_join h t hs
  | lock t => exact inv_lock h t hs
  | assemble t => exact inv_assemble h t hs
  | finish t o =>
    obtain ⟨x, hat, hs⟩ := bind_some hs
    obtain ⟨hx, hg⟩ := taskAt_some hat
    obtain rfl := Option.some.inj hs
    refine inv_held h t x _ hx ⟨rfl, rfl, rfl, rfl, rfl⟩ (by rw [hg]; rfl) rfl (by simp [hg])
      (by simp) rfl rfl ?_
    intro sv hsv
    exact (h.served t x sv hx hsv).congr rfl rfl
  | evict t =>
    obtain ⟨x, hat, hs⟩ := bind_some hs
    obtain ⟨c, -, hs⟩ := bind_some hs
    obtain ⟨hx, hg⟩ := taskAt_some hat
    obtain rfl := Option.some.inj hs
    refine inv_held h t x { x with stage := .settled } hx ⟨rfl, rfl, rfl, rfl, rfl⟩
      (by rw [hg]; rfl) rfl (by simp [hg]) (by simp) rfl rfl ?_
    intro sv hsv
    exact (h.served t x sv hx hsv).congr rfl rfl
  | update t => exact inv_update h t hs
  | release t => exact inv_release h t hs

/-- The task applies the cwd its execution reported to the bucket of this session. -/
def Applies (s : Daemon) (k : SessionKey) (e : Ev) (c : String) : Prop :=
  ∃ t x, e = .update t ∧ s.tasks t = some x ∧ x.key = some k ∧ x.outcome = some (.ok (some c))

theorem cwd_setBucket {s d : Daemon} (b : Nat) (v : SessionState) (hsess : d.sessions = s.sessions)
    (hbuck : d.buckets = (s.setBucket b v).buckets) (hv : v.cwd = (s.buckets b).cwd)
    (k : SessionKey) : cwd d k = cwd s k := by
  unfold cwd
  rw [hsess, hbuck]
  cases s.sessions k with
  | none => rfl
  | some c =>
    by_cases hc : c = b
    · rw [Option.bind_some, Option.bind_some, hc, ← hv]
      exact congrArg SessionState.cwd (Function.update_self _ _ _)
    · exact congrArg SessionState.cwd (Function.update_of_ne hc _ _)

theorem cwd_getSession {s : Daemon} (h : Inv s) (k k' : SessionKey) :
    cwd (s.getSession k).2 k' = cwd s k' := by
  unfold Daemon.getSession
  cases hk : s.sessions k with
  | some b => rfl
  | none =>
    unfold cwd Daemon.makeSession Daemon.setBucket
    by_cases he : k' = k
    · subst he
      simp [hk]
    · simp only [Function.update_of_ne he]
      cases hb : s.sessions k' with
      | none => rfl
      | some b =>
        have hlt := h.below k' b hb
        simp only [Option.bind_some, Function.update_of_ne (Nat.ne_of_lt hlt)]

theorem cwd_update {s d : Daemon} (h : Inv s) (t : Nat) (hs : step s (.update t) = some d)
    (k : SessionKey) :
    cwd d k = cwd s k ∨ ∃ c, Applies s k (.update t) c ∧ cwd d k = some c := by
  obtain ⟨x, hat, hs⟩ := bind_some hs
  obtain ⟨b, hb, hs⟩ := bind_some hs
  obtain ⟨hx, hg⟩ := taskAt_some hat
  have hd := Option.some.inj hs
  obtain ⟨k', hk', hkb⟩ := h.bound t x b hx hb
  cases hr : x.report with
  | none =>
    left
    exact cwd_setBucket b (s.buckets b) (by rw [← hd]; rfl) (by rw [← hd, hr]; rfl) rfl k
  | some c =>
    have ho : x.outcome = some (.ok (some c)) := by
      unfold Task.report at hr
      split at hr
      · rename_i c' hc'
        rw [hc', hr]
      · cases hr
    rw [hr] at hd
    by_cases he : k = k'
    · subst he
      right
      refine ⟨c, ⟨t, x, rfl, hx, hk', ho⟩, ?_⟩
      rw [← hd]
      simp [cwd, Daemon.set, Daemon.setBucket, hkb]
    · left
      rw [← hd]
      unfold cwd
      simp only [Daemon.set, Daemon.setBucket]
      cases hc : s.sessions k with
      | none => rfl
      | some b' =>
        have hne : b' ≠ b := by
          rintro rfl
          exact he (h.inj k k' b' hc hkb)
        simp only [Option.bind_some, Function.update_of_ne hne]

/-- Nothing but the report of one of its own tasks ever changes the cwd of a session. -/
theorem cwd_step {s d : Daemon} {e : Ev} (h : Inv s) (hs : step s e = some d) (k : SessionKey) :
    cwd d k = cwd s k ∨ ∃ c, Applies s k e c ∧ cwd d k = some c := by
  cases e with
  | update t => exact cwd_update h t hs k
  | arrive t req =>
    left
    obtain ⟨-, hs⟩ := Option.ite_none_right_eq_some.mp hs
    obtain rfl := Option.some.inj hs
    rfl
  | parse t =>
    left
    obtain ⟨x, -, hs⟩ := bind_some hs
    split at hs <;> obtain rfl := Option.some.inj hs <;> rfl
  | connect t =>
    left
    obtain ⟨x, -, hs⟩ := bind_some hs
    obtain ⟨-, hs⟩ := Option.ite_none_left_eq_some.mp hs
    obtain rfl := Option.some.inj hs
    rfl
  | connectFailed t | finish t o =>
    left
    obtain ⟨x, -, hs⟩ := bind_some hs
    obtain rfl := Option.some.inj hs
    rfl
  | lose c =>
    left
    obtain rfl := Option.some.inj hs
    rfl
  | getSession t =>
    left
    obtain ⟨x, -, hs⟩ := bind_some hs
    obtain ⟨k', -, hs⟩ := bind_some hs
    obtain rfl := Option.some.inj hs
    exact cwd_getSession h k' k
  | lock t =>
    left
    obtain ⟨x, -, hs⟩ := bind_some hs
    obtain ⟨k', -, hs⟩ := bind_some hs
    obtain ⟨b, -, hs⟩ := bind_some hs
    obtain ⟨-, hs⟩ := Option.ite_none_left_eq_some.mp hs
    obtain rfl := Option.some.inj hs
    apply cwd_setBucket b { s.buckets b with holder := some t }
    · rfl
    · rfl
    · rfl
  | assemble t =>
    left
    obtain ⟨x, -, hs⟩ := bind_some hs
    obtain ⟨i, -, hs⟩ := bind_some hs
    obtain ⟨b, -, hs⟩ := bind_some hs
    obtain rfl := Option.some.inj hs
    rfl
  | reuse t | evict t =>
    left
    obtain ⟨x, -, hs⟩ := bind_some hs
    obtain ⟨c, -, hs⟩ := bind_some hs
    obtain rfl := Option.some.inj hs
    rfl
  | release t =>
    left
    obtain ⟨x, -, hs⟩ := bind_some hs
    obtain ⟨b, -, hs⟩ := bind_some hs
    obtain rfl := Option.some.inj hs
    apply cwd_setBucket b { s.buckets b with holder := none }
    · rfl
    · rfl
    · rfl

/-- In every state of every run, each assembled request carries the client's cwd, or the last
report of the tasks that had the lock of the same session before, each of which had it once and
is over; and a step leaves the cwd of a session as it is unless it is such a report. -/
theorem cwd_is_last_report (es : List Ev) (s : Daemon) (h : Path step Any {} es s) :
    (∀ t x sv, s.tasks t = some x → x.served = some sv → ServedAt s t x sv) ∧
      (∀ k, (history s k).Nodup) ∧
      ∀ e d k, step s e = some d →
        cwd d k = cwd s k ∨ ∃ c, Applies s k e c ∧ cwd d k = some c := by
  have hi := h.invariant (I := Inv) (fun u e v hu _ hs => inv_step hu hs) inv_init
  exact ⟨hi.served, hi.nodup, fun e d k hs => cwd_step hi hs k⟩

def sampleRun : List Ev :=
  [.arrive 0 ⟨"h", "cd", ["/tmp"], none, none, none⟩, .parse 0, .connect 0, .getSession 0,
    .arrive 1 ⟨"h", "pwd", [], none, none, none⟩, .parse 1, .reuse 1, .getSession 1, .lock 0,
    .assemble 0, .finish 0 (.ok (some "/tmp")), .evict 0, .update 0, .release 0, .lock 1,
    .assemble 1]

theorem cwd_is_last_report_sample :
    ∃ s, run step sampleRun {} = some s ∧
      (((s.tasks 1).bind Task.served).bind fun sv => sv.cwd) = some "/tmp" ∧
      (∀ t x sv, s.tasks t = some x → x.served = some sv → ServedAt s t x sv) ∧
      (∀ k, (history s k).Nodup) ∧
      ∀ e d k, step s e = some d →
        cwd d k = cwd s k ∨ ∃ c, Applies s k e c ∧ cwd d k = some c :=
  ⟨_, rfl, rfl, cwd_is_last_report sampleRun _ (path_of_run rfl)⟩

end ShellProxy.SessionCwd
