import ShellProxy.SessionQueue

/-! The order in which the commands of one session get its lock: who stands before whom, what a
wait of `SESSION_QUEUE_WARN` costs, and that commands far enough apart keep their order. -/
namespace ShellProxy.SessionQueue
open HandleExec Machine SessionCwd FairLock

section Service
variable {s v : Sys} {k : SessionKey} {b : Nat}

/-- Those of a line that have not got the lock yet. -/
def pending (got line : List Nat) : List Nat := line.filter fun t => !decide (t ∈ got)

/-- The tasks of a session in the order of its lock: those that got it, then those in the line. -/
def service (s : Sys) (k : SessionKey) (b : Nat) : List Nat :=
  history s.daemon k ++ pending (history s.daemon k) (s.locks b).line

theorem pending_append {got : List Nat} {t : Nat} (line : List Nat) (h : t ∉ got) :
    pending got (line ++ [t]) = pending got line ++ [t] := by
  simp [pending, h]

theorem pending_erase (got line : List Nat) (t : Nat) :
    pending got (line.erase t) = (pending got line).erase t := List.erase_filter.symm

theorem pending_first {got line : List Nat} {t : Nat} (h : t ∉ got) (hl : t ∉ line) :
    pending got (t :: line) = t :: pending (got ++ [t]) (t :: line) := by
  have hrest : pending (got ++ [t]) line = pending got line := by
    apply List.filter_congr
    intro u hu
    have hut : u ≠ t := by
      rintro rfl
      exact hl hu
    simp [hut]
  have htail : pending (got ++ [t]) (t :: line) = pending (got ++ [t]) line := by
    simp [pending]
  rw [htail, hrest]
  simp [pending, h]

theorem holder_in_history (h : Inv s) (hk : s.daemon.sessions k = some b) {t : Nat}
    (ht : HoldsAt s.daemon t b) : t ∈ history s.daemon k := by
  obtain ⟨x, hx, hb, hh⟩ := ht
  obtain ⟨k', pre, -, hkb, hhist, -⟩ := h.daemon.held hx hb hh
  obtain rfl := h.daemon.inj k k' b hk hkb
  simp [hhist]

theorem queued_not_in_history (h : Inv s) (hk : s.daemon.sessions k = some b) {t c : Nat}
    (ht : QueuedAt s.daemon t c) : t ∉ history s.daemon k := by
  obtain ⟨x, hx, -, hg⟩ := ht
  have hopen : ¬ Finished s.daemon t := by
    rintro ⟨y, hy, hd⟩
    obtain rfl := Option.some.inj (hx.symm.trans hy)
    rw [hg] at hd
    cases hd
  have hlog := h.daemon.log k b hk
  unfold Log at hlog
  intro hm
  split at hlog
  · exact hopen (hlog.1 t hm)
  · obtain ⟨pre, y, hhist, hfin, hy, hyh, -⟩ := hlog
    rw [hhist] at hm
    rcases List.mem_append.mp hm with hm | hm
    · exact hopen (hfin t hm)
    · obtain rfl := List.mem_singleton.mp hm
      obtain rfl := Option.some.inj (hx.symm.trans hy)
      rw [hg] at hyh
      cases hyh

theorem service_nodup (h : Inv s) : (service s k b).Nodup := by
  refine List.Nodup.append (h.daemon.nodup k) ((h.nodup b).filter _) ?_
  intro t ht hl
  simp [pending, ht] at hl

theorem mem_service (h : Inv s) (hk : s.daemon.sessions k = some b) {t : Nat} :
    t ∈ service s k b ↔
      t ∈ history s.daemon k ∨ QueuedAt s.daemon t b ∧ (s.waits t).inLine = true := by
  simp only [service, pending, List.mem_append, List.mem_filter, h.mem b t, Bool.not_eq_true',
    decide_eq_false_iff_not]
  constructor
  · rintro (hm | ⟨hh | hq, -⟩)
    · exact .inl hm
    · exact .inl (holder_in_history h hk hh)
    · exact .inr hq
  · rintro (hm | hq)
    · exact .inl hm
    · exact .inr ⟨.inr hq, queued_not_in_history h hk hq.1⟩

theorem service_own {d : Daemon} (ho : d.order = s.daemon.order) :
    service { s with daemon := d } k b = service s k b := by
  have hhist : history d k = history s.daemon k := by rw [history, history, ho]
  simp only [service, hhist]

theorem service_enter (h : Inv s) (hk : s.daemon.sessions k = some b) {t : Nat} (w : Wait)
    (hq : QueuedAt s.daemon t b) : service (s.enter b t w) k b = service s k b ++ [t] := by
  have hn := queued_not_in_history h hk hq
  simp [service, Sys.enter, pending_append _ hn]

theorem service_timeUp (h : Inv s) (hk : s.daemon.sessions k = some b) {t : Nat} (w : Wait)
    (hq : QueuedAt s.daemon t b) : service (s.quit b t w) k b = (service s k b).erase t := by
  have hn := queued_not_in_history h hk hq
  simp only [service, Sys.quit, Function.update_self, Lock.line_leave]
  rw [List.erase_append_right _ hn, pending_erase]

theorem service_lock (h : Inv s) (hk : s.daemon.sessions k = some b) {t c : Nat} {d : Daemon}
    (hq : QueuedAt s.daemon t c) (ho : (s.locks c).owner = some t)
    (hd : HandleExec.step s.daemon (.lock t) = some d) :
    service { s with daemon := d } k b = service s k b := by
  obtain ⟨-, -, -, k', hk', horder⟩ := lock_moves h.daemon hq hd
  by_cases hc : c = b
  · subst hc
    obtain rfl := h.daemon.inj k k' c hk hk'
    have hn := queued_not_in_history h hk hq
    have hhist : history d k = history s.daemon k ++ [t] := by simp [history, horder]
    have hline : (s.locks c).line = t :: (s.locks c).waiting := by simp [Lock.line, ho]
    have hnodup := h.nodup c
    rw [hline, List.nodup_cons] at hnodup
    simp only [service, hhist, hline]
    rw [pending_first hn hnodup.1, List.append_assoc, List.singleton_append]
  · have hkk : k' ≠ k := by
      rintro rfl
      exact hc (Option.some.inj (hk'.symm.trans hk))
    have hhist : history d k = history s.daemon k := by simp [history, horder, hkk]
    simp only [service, hhist]

theorem service_release (h : Inv s) (hk : s.daemon.sessions k = some b) {t c : Nat} {d : Daemon}
    (hb : InBucket s.daemon t c) (hd : HandleExec.step s.daemon (.release t) = some d) :
    service { s.quit c t (s.waits t) with daemon := d } k b = service s k b := by
  obtain ⟨-, -, -, horder, hh⟩ := release_moves hb hd
  have hhist : history d k = history s.daemon k := by rw [history, history, horder]
  by_cases hc : c = b
  · subst hc
    have hm := holder_in_history h hk hh
    simp only [service, hhist, Sys.quit, Function.update_self, Lock.line_leave]
    rw [pending_erase, List.erase_of_not_mem (by simp [pending, hm])]
  · have hb' : b ≠ c := fun he => hc he.symm
    simp only [service, hhist, Sys.quit, Function.update_of_ne hb']

theorem service_step {e : Ev} (h : Inv s) (hk : s.daemon.sessions k = some b)
    (hs : step s e = some v) :
    service v k b = service s k b ∨
      (∃ t, QueuedAt s.daemon t b ∧ (s.waits t).inLine = false ∧ (v.waits t).inLine = true ∧
        service v k b = service s k b ++ [t]) ∨
      ∃ t a, e = .timeUp t ∧ QueuedAt s.daemon t b ∧ s.waits t = .timed a ∧
        service v k b = (service s k b).erase t := by
  cases step_move hs with
  | own g d _ hg hd hv =>
    left
    rw [hv]
    exact service_own (quiet_step h.daemon hg hd).order
  | pass n _ hv =>
    left
    rw [hv]
    rfl
  | enter t c w hq hl hw hv =>
    rw [hv]
    by_cases hc : c = b
    · subst hc
      refine .inr (.inl ⟨t, hq, hl, ?_, service_enter h hk w hq⟩)
      rcases hw with ⟨rfl, -⟩ | ⟨a, rfl, -⟩ <;> simp [Sys.enter, Wait.inLine]
    · have hb : b ≠ c := fun he => hc he.symm
      exact .inl (by simp only [service, Sys.enter, Function.update_of_ne hb])
  | quit t c a he hq hw _ hv =>
    rw [hv]
    by_cases hc : c = b
    · subst hc
      exact .inr (.inr ⟨t, a, he, hq, hw, service_timeUp h hk _ hq⟩)
    · have hb : b ≠ c := fun he => hc he.symm
      exact .inl (by simp only [service, Sys.quit, Function.update_of_ne hb])
  | lock t c d hq ho hd hv =>
    left
    rw [hv]
    exact service_lock h hk hq ho hd
  | release t c d _ hb hd hv =>
    left
    rw [hv]
    exact service_release h hk hb hd

theorem key_step {e : Ev} (hk : s.daemon.sessions k = some b) (hs : step s e = some v) :
    v.daemon.sessions k = some b := by
  cases step_move hs with
  | own g d _ _ hd hv =>
    rw [hv]
    exact sessions_kept hd hk
  | pass n _ hv | enter t c w _ _ _ hv | quit t c a _ _ _ _ hv =>
    rw [hv]
    exact hk
  | lock t c d _ _ hd hv | release t c d _ _ hd hv =>
    rw [hv]
    exact sessions_kept hd hk

theorem history_grows {e : Ev} (h : Inv s) (hs : step s e = some v) (k : SessionKey) :
    history s.daemon k <+: history v.daemon k := by
  have hsame : ∀ d : Daemon, d.order = s.daemon.order → history s.daemon k <+: history d k := by
    intro d ho
    have hd : history d k = history s.daemon k := by rw [history, history, ho]
    exact hd ▸ List.prefix_rfl
  cases step_move hs with
  | own g d _ hg hd hv =>
    rw [hv]
    exact hsame d (quiet_step h.daemon hg hd).order
  | pass n _ hv | enter t c w _ _ _ hv | quit t c a _ _ _ _ hv =>
    subst hv
    exact hsame _ rfl
  | lock t c d hq ho hd hv =>
    obtain ⟨-, -, -, k', -, horder⟩ := lock_moves h.daemon hq hd
    rw [hv]
    simp [history, horder]
  | release t c d _ hb hd hv =>
    obtain ⟨-, -, -, horder, -⟩ := release_moves hb hd
    rw [hv]
    exact hsame d horder

/-- A task without its first deadline keeps its place: those before it can only become fewer. -/
theorem place_kept {e : Ev} {u : Nat} {got ahead behind : List Nat} (h : Inv s)
    (hk : s.daemon.sessions k = some b) (hs : step s e = some v) (hu : e ≠ .timeUp u)
    (hgot : got <+: history s.daemon k) (hline : service s k b = got ++ ahead ++ u :: behind) :
    ∃ ahead' behind', service v k b = got ++ ahead' ++ u :: behind' ∧ ahead'.Sublist ahead := by
  rcases service_step h hk hs with hsame | ⟨t, -, -, -, happ⟩ | ⟨t, a, he, hq, -, herase⟩
  · exact ⟨ahead, behind, by rw [hsame, hline], List.Sublist.refl _⟩
  · exact ⟨ahead, behind ++ [t], by rw [happ, hline]; simp, List.Sublist.refl _⟩
  · have hut : u ≠ t := by
      rintro rfl
      exact hu he
    have hn : t ∉ got := fun hm => queued_not_in_history h hk hq (hgot.subset hm)
    rw [hline, List.append_assoc, List.erase_append_right _ hn] at herase
    by_cases ht : t ∈ ahead
    · refine ⟨ahead.erase t, behind, ?_, List.erase_sublist⟩
      rw [herase, List.erase_append_left _ ht, List.append_assoc]
    · refine ⟨ahead, behind.erase t, ?_, List.Sublist.refl _⟩
      rw [herase, List.erase_append_right _ ht, List.erase_cons_tail (by simpa using hut),
        List.append_assoc]

theorem history_cut {got ahead' behind' : List Nat} {u : Nat} (hgot : got <+: history s.daemon k)
    (hline : service s k b = got ++ ahead' ++ u :: behind') :
    ∃ new rest, history s.daemon k = got ++ new ++ rest ∧ new.Sublist ahead' ∧
      (rest = [] ∨ rest.head? = some u) := by
  obtain ⟨new, hnew⟩ := hgot
  rw [service, List.append_eq_append_iff] at hline
  rcases hline with ⟨more, hmore, -⟩ | ⟨rest, hrest, hbehind⟩
  · rw [← hnew, List.append_assoc, List.append_cancel_left_eq] at hmore
    refine ⟨new, [], by rw [List.append_nil, hnew], ?_, .inl rfl⟩
    rw [hmore]
    exact List.sublist_append_left _ _
  · refine ⟨ahead', rest, hrest, List.Sublist.refl _, ?_⟩
    cases rest with
    | nil => exact .inl rfl
    | cons w rest =>
      rw [List.cons_append, List.cons.injEq] at hbehind
      exact .inr (by rw [List.head?_cons, hbehind.1])

end Service

theorem inv_run {es : List Ev} {s : Sys} {ok : Sys → Ev → Prop} (h : Path step ok {} es s) :
    Inv s := h.invariant (fun _ _ _ hi _ hs => inv_step hi hs) inv_init

/-- While a task waits and its first deadline does not fire, only tasks that stood before it get
the lock before it, and in the order they stood. -/
theorem only_those_ahead {es fs : List Ev} {s d : Sys} {k : SessionKey} {b u : Nat}
    {ahead behind : List Nat} (h : Path step Any {} es s) (hk : s.daemon.sessions k = some b)
    (hline : pending (history s.daemon k) (s.locks b).line = ahead ++ u :: behind)
    (g : Path step (fun _ e => e ≠ .timeUp u) s fs d) :
    ∃ new rest, history d.daemon k = history s.daemon k ++ new ++ rest ∧ new.Sublist ahead ∧
      (rest = [] ∨ rest.head? = some u) := by
  have hrun := g.invariant (I := fun d => Inv d ∧ d.daemon.sessions k = some b ∧
    history s.daemon k <+: history d.daemon k ∧ ∃ ahead' behind',
      service d k b = history s.daemon k ++ ahead' ++ u :: behind' ∧ ahead'.Sublist ahead) ?_ ?_
  · obtain ⟨-, -, hgot, ahead', behind', hd, hsub⟩ := hrun
    obtain ⟨new, rest, hhist, hnew, hrest⟩ := history_cut hgot hd
    exact ⟨new, rest, hhist, hnew.trans hsub, hrest⟩
  · rintro t e v ⟨hi, hkt, hgot, ahead', behind', ht, hsub⟩ hne hs
    obtain ⟨ahead'', behind'', hv, hsub'⟩ := place_kept hi hkt hs hne hgot ht
    exact ⟨inv_step hi hs, key_step hkt hs, hgot.trans (history_grows hi hs k), ahead'', behind'',
      hv, hsub'.trans hsub⟩
  · refine ⟨inv_run h, hk, List.prefix_rfl, ahead, behind, ?_, List.Sublist.refl _⟩
    rw [service, hline, List.append_assoc]

def comes (t : Nat) : List Ev :=
  [.own (.arrive t ⟨"h", "ls", [], none, none, none⟩), .own (.parse t),
    .own (if t = 0 then .connect t else .reuse t), .own (.getSession t), .queue t]

def runs (t : Nat) : List Ev :=
  [.lock t, .own (.assemble t), .own (.finish t (.ok none)), .own (.evict t), .own (.update t),
    .release t]

theorem nonempty_defaultName : Session.defaultName ≠ "" := by decide
theorem short_defaultName : Session.defaultName.utf8ByteSize ≤ Session.maxLen := by decide
theorem allowed_defaultName : ∀ c ∈ Session.defaultName.toList, Session.isAllowed c = true := by
  simp [Session.defaultName, Session.isAllowed]

def defaultKey : SessionKey :=
  ⟨"h", ⟨Session.defaultName, nonempty_defaultName, short_defaultName, allowed_defaultName⟩⟩

theorem only_those_ahead_sample :
    ∃ s d, run step (comes 0 ++ [.lock 0] ++ comes 1 ++ comes 2) {} = some s ∧
      run step ([.pass 2000, .timeUp 1, .requeue 1] ++ (runs 0).tail ++ runs 2) s = some d ∧
      ∃ new rest, history d.daemon defaultKey = history s.daemon defaultKey ++ new ++ rest ∧
        new.Sublist [1] ∧ (rest = [] ∨ rest.head? = some 2) := by
  have hne : ∀ e ∈ [.pass 2000, .timeUp 1, .requeue 1] ++ (runs 0).tail ++ runs 2,
      ∀ _ : Sys, e ≠ .timeUp 2 := by
    simp [runs]
  obtain ⟨s, d, hs, hd, hk, hline⟩ : ∃ s d,
      run step (comes 0 ++ [.lock 0] ++ comes 1 ++ comes 2) {} = some s ∧
      run step ([.pass 2000, .timeUp 1, .requeue 1] ++ (runs 0).tail ++ runs 2) s = some d ∧
      s.daemon.sessions defaultKey = some 0 ∧
      pending (history s.daemon defaultKey) (s.locks 0).line = [1] ++ 2 :: [] :=
    ⟨_, _, rfl, rfl, rfl, rfl⟩
  exact ⟨s, d, hs, hd, only_those_ahead (path_of_run hs) hk hline (path_of_run_all hne hd)⟩

/-- The timer of a queued task is heeded at most `slack` late: no time passes over a task whose
first wait or warning is overdue. -/
def Prompt (slack : Nat) (s : Sys) : Ev → Prop
  | .pass n => ∀ t b a, QueuedAt s.daemon t b → s.waits t = .timed a ∨ s.waits t = .warned a →
      s.now + n ≤ a + sessionQueueWarn + slack
  | _ => True

section Timed
variable {slack : Nat} {s v : Sys}

theorem bucket_back {e : Ev} (h : Inv s) (hs : step s e = some v) {u b : Nat}
    (hb : InBucket v.daemon u b) (hw : v.waits u ≠ .fresh) : InBucket s.daemon u b := by
  have hkept : ∀ d : Daemon, (∀ t c, InBucket s.daemon t c → InBucket d t c) →
      InBucket d u b → s.waits u ≠ .fresh → InBucket s.daemon u b := by
    intro d hkept hb hw
    obtain ⟨c, hc⟩ := h.fresh u hw
    rw [hb.unique (hkept u c hc)]
    exact hc
  cases step_move hs with
  | own g d _ hg hd hv =>
    rw [hv] at hb hw
    exact hkept d (quiet_step h.daemon hg hd).kept hb hw
  | pass n _ hv | enter t c w _ _ _ hv | quit t c a _ _ _ _ hv =>
    rw [hv] at hb
    exact hb
  | lock t c d hq _ hd hv =>
    rw [hv] at hb hw
    exact hkept d (lock_moves h.daemon hq hd).2.2.1 hb hw
  | release t c d _ hc hd hv =>
    rw [hv] at hb hw
    refine hkept d (release_moves hc hd).2.2.1 hb ?_
    simpa [Sys.quit] using hw

theorem since_back {e : Ev} (hs : step s e = some v) {u a : Nat}
    (ha : (v.waits u).since = some a) :
    (s.waits u).since = some a ∨ s.waits u = .fresh ∧ a = s.now := by
  cases step_move hs with
  | own g d _ _ _ hv | pass n _ hv | lock t c d _ _ _ hv =>
    rw [hv] at ha
    exact .inl ha
  | release t c d _ _ _ hv =>
    rw [hv] at ha
    simp only [Sys.quit, Function.update_eq_self] at ha
    exact .inl ha
  | enter t c w _ _ hw hv =>
    rw [hv] at ha
    by_cases hu : u = t
    · subst hu
      simp only [Sys.enter, Function.update_self] at ha
      rcases hw with ⟨rfl, hf⟩ | ⟨a', rfl, hwarn⟩
      · exact .inr ⟨hf, (Option.some.inj ha).symm⟩
      · rw [hwarn]
        exact .inl ha
    · simp only [Sys.enter, Function.update_of_ne hu] at ha
      exact .inl ha
  | quit t c a' _ _ hw _ hv =>
    rw [hv] at ha
    by_cases hu : u = t
    · subst hu
      simp only [Sys.quit, Function.update_self] at ha
      rw [hw]
      exact .inl ha
    · simp only [Sys.quit, Function.update_of_ne hu] at ha
      exact .inl ha

/-- What holds when timers are heeded in time: nobody is under its first deadline, or out of the
line, long after it began to wait; and of two tasks of a session that came far enough apart the
later one is not before the earlier one. -/
structure Timely (slack : Nat) (s : Sys) : Prop where
  inv : Inv s
  past : ∀ t a, (s.waits t).since = some a → a ≤ s.now
  due : ∀ t b a, QueuedAt s.daemon t b → s.waits t = .timed a ∨ s.waits t = .warned a →
    s.now ≤ a + sessionQueueWarn + slack
  met : ∀ k b t, s.daemon.sessions k = some b → InBucket s.daemon t b → s.waits t ≠ .fresh →
    t ∈ history s.daemon k ∨ QueuedAt s.daemon t b
  served : ∀ k t, t ∈ history s.daemon k → s.waits t ≠ .fresh
  order : ∀ k b t u a c, s.daemon.sessions k = some b → InBucket s.daemon t b →
    InBucket s.daemon u b → (s.waits t).since = some a → (s.waits u).since = some c →
    a + sessionQueueWarn + slack < c → u ∈ service s k b → [t, u].Sublist (service s k b)

theorem timely_init : Timely slack {} where
  inv := inv_init
  past := by simp [Wait.since]
  due := by simp [QueuedAt]
  met := by simp
  served := by simp [history]
  order := by simp [Wait.since]

theorem InBucket.session (h : Inv s) {t b : Nat} (hb : InBucket s.daemon t b) :
    ∃ k, s.daemon.sessions k = some b := by
  obtain ⟨x, hx, hxb⟩ := hb
  obtain ⟨k, -, hk⟩ := h.daemon.bound t x b hx hxb
  exact ⟨k, hk⟩

theorem session_back {e : Ev} (h : Inv s) (hs : step s e = some v) (hi : Inv v) {k : SessionKey}
    {t b : Nat} (hk : v.daemon.sessions k = some b) (hb : InBucket v.daemon t b)
    (hw : v.waits t ≠ .fresh) : s.daemon.sessions k = some b := by
  obtain ⟨k', hk'⟩ := (bucket_back h hs hb hw).session h
  have hv := key_step hk' hs
  rw [hi.daemon.inj k k' b hk hv]
  exact hk'

/-- Long after it began to wait a task is in the order of service. -/
theorem Timely.in_service (h : Timely slack s) {k : SessionKey} {b t a : Nat}
    (hk : s.daemon.sessions k = some b) (hb : InBucket s.daemon t b)
    (ha : (s.waits t).since = some a) (hlate : a + sessionQueueWarn + slack < s.now) :
    t ∈ service s k b := by
  have hf : s.waits t ≠ .fresh := by
    intro hf
    rw [hf] at ha
    cases ha
  rw [mem_service h.inv hk]
  rcases h.met k b t hk hb hf with hm | hq
  · exact .inl hm
  · refine .inr ⟨hq, ?_⟩
    cases hw : s.waits t with
    | fresh => exact absurd hw hf
    | untimed a' => rfl
    | timed a' =>
      rw [hw] at ha
      obtain rfl := Option.some.inj ha
      have hd := h.due t b a' hq (.inl hw)
      omega
    | warned a' =>
      rw [hw] at ha
      obtain rfl := Option.some.inj ha
      have hd := h.due t b a' hq (.inr hw)
      omega

theorem now_mono {e : Ev} (hs : step s e = some v) : s.now ≤ v.now := by
  cases step_move hs with
  | pass n _ hv =>
    subst hv
    exact Nat.le_add_right _ _
  | own g d _ _ _ hv | lock t c d _ _ _ hv | release t c d _ _ _ hv | enter t c w _ _ _ hv
  | quit t c a _ _ _ _ hv =>
    subst hv
    exact Nat.le_refl _

theorem past_step {e : Ev} (h : Timely slack s) (hs : step s e = some v) {t a : Nat}
    (ha : (v.waits t).since = some a) : a ≤ v.now := by
  have hn := now_mono hs
  rcases since_back hs ha with ha | ⟨-, rfl⟩
  · exact (h.past t a ha).trans hn
  · exact hn

theorem due_step {e : Ev} (h : Timely slack s) (hp : Prompt slack s e) (hs : step s e = some v)
    {t b a : Nat} (hq : QueuedAt v.daemon t b)
    (hw : v.waits t = .timed a ∨ v.waits t = .warned a) :
    v.now ≤ a + sessionQueueWarn + slack := by
  cases step_move hs with
  | own g d _ hg hd hv =>
    rw [hv] at hq hw ⊢
    have hf : s.waits t ≠ .fresh := by
      rintro hf
      rcases hw with hw | hw <;> exact absurd (hf.symm.trans hw) (by simp)
    obtain ⟨c, hc⟩ := h.inv.fresh t hf
    exact h.due t b a (((quiet_step h.inv.daemon hg hd).queued t c b hc).mp hq) hw
  | pass n he hv =>
    rw [hv] at hq hw ⊢
    rw [he] at hp
    exact hp t b a hq hw
  | enter u c w hqu _ hwu hv =>
    rw [hv] at hq hw ⊢
    by_cases hu : t = u
    · subst hu
      simp only [Sys.enter, Function.update_self] at hw ⊢
      rcases hwu with ⟨rfl, -⟩ | ⟨a', rfl, -⟩
      · simp only [Wait.timed.injEq, reduceCtorEq, or_false] at hw
        omega
      · simp at hw
    · simp only [Sys.enter, Function.update_of_ne hu] at hw
      exact h.due t b a hq hw
  | quit u c a' _ hqu hwu _ hv =>
    rw [hv] at hq hw ⊢
    by_cases hu : t = u
    · subst hu
      simp only [Sys.quit, Function.update_self, reduceCtorEq, Wait.warned.injEq, false_or] at hw
      subst hw
      exact h.due t c a' hqu (.inl hwu)
    · simp only [Sys.quit, Function.update_of_ne hu] at hw
      exact h.due t b a hq hw
  | lock u c d hqu _ hd hv =>
    rw [hv] at hq hw ⊢
    exact h.due t b a (((lock_moves h.inv.daemon hqu hd).2.1 t b).mp hq).1 hw
  | release u c d _ hc hd hv =>
    rw [hv] at hq hw ⊢
    simp only [Sys.quit, Function.update_eq_self] at hw
    exact h.due t b a (((release_moves hc hd).2.1 t b).mp hq) hw

theorem met_step {e : Ev} (h : Timely slack s) (hs : step s e = some v) {k : SessionKey}
    {b t : Nat} (hk : v.daemon.sessions k = some b) (hb : InBucket v.daemon t b)
    (hf : v.waits t ≠ .fresh) : t ∈ history v.daemon k ∨ QueuedAt v.daemon t b := by
  have hks := session_back h.inv hs (inv_step h.inv hs) hk hb hf
  have hbs := bucket_back h.inv hs hb hf
  have hgrow := history_grows h.inv hs k
  cases step_move hs with
  | own g d _ hg hd hv =>
    rw [hv] at hf hgrow ⊢
    rcases h.met k b t hks hbs hf with hm | hq
    · exact .inl (hgrow.subset hm)
    · exact .inr (((quiet_step h.inv.daemon hg hd).queued t b b hbs).mpr hq)
  | pass n _ hv =>
    rw [hv] at hf ⊢
    exact h.met k b t hks hbs hf
  | enter u c w hqu _ _ hv =>
    rw [hv] at hf ⊢
    by_cases hu : t = u
    · subst hu
      rw [hbs.unique hqu.inBucket]
      exact .inr hqu
    · simp only [Sys.enter, Function.update_of_ne hu] at hf
      exact h.met k b t hks hbs hf
  | quit u c a _ hqu _ _ hv =>
    rw [hv] at hf ⊢
    by_cases hu : t = u
    · subst hu
      rw [hbs.unique hqu.inBucket]
      exact .inr hqu
    · simp only [Sys.quit, Function.update_of_ne hu] at hf
      exact h.met k b t hks hbs hf
  | lock u c d hqu _ hd hv =>
    obtain ⟨-, hqueued, -, k', hk', horder⟩ := lock_moves h.inv.daemon hqu hd
    rw [hv] at hf hgrow ⊢
    by_cases hu : t = u
    · subst hu
      obtain rfl := hbs.unique hqu.inBucket
      obtain rfl := h.inv.daemon.inj k k' b hks hk'
      exact .inl (by simp [history, horder])
    · rcases h.met k b t hks hbs hf with hm | hq
      · exact .inl (hgrow.subset hm)
      · exact .inr ((hqueued t b).mpr ⟨hq, hu⟩)
  | release u c d _ hc hd hv =>
    rw [hv] at hf hgrow ⊢
    simp only [Sys.quit, Function.update_eq_self] at hf
    rcases h.met k b t hks hbs hf with hm | hq
    · exact .inl (hgrow.subset hm)
    · exact .inr (((release_moves hc hd).2.1 t b).mpr hq)

theorem served_step {e : Ev} (h : Timely slack s) (hs : step s e = some v) {k : SessionKey}
    {t : Nat} (hm : t ∈ history v.daemon k) : v.waits t ≠ .fresh := by
  have hsame : ∀ d : Daemon, d.order = s.daemon.order → t ∈ history d k → s.waits t ≠ .fresh := by
    intro d ho hm
    rw [history, ho] at hm
    exact h.served k t hm
  cases step_move hs with
  | own g d _ hg hd hv =>
    rw [hv] at hm ⊢
    exact hsame d (quiet_step h.inv.daemon hg hd).order hm
  | pass n _ hv =>
    rw [hv] at hm ⊢
    exact h.served k t hm
  | release u c d _ hc hd hv =>
    rw [hv] at hm ⊢
    simp only [Sys.quit, Function.update_eq_self]
    exact hsame d (release_moves hc hd).2.2.2.1 hm
  | enter u c w _ _ hw hv =>
    rw [hv] at hm ⊢
    by_cases hu : t = u
    · subst hu
      simp only [Sys.enter, Function.update_self]
      rcases hw with ⟨rfl, -⟩ | ⟨a, rfl, -⟩ <;> simp
    · simp only [Sys.enter, Function.update_of_ne hu]
      exact h.served k t hm
  | quit u c a _ _ _ _ hv =>
    rw [hv] at hm ⊢
    by_cases hu : t = u
    · subst hu
      simp [Sys.quit]
    · simp only [Sys.quit, Function.update_of_ne hu]
      exact h.served k t hm
  | lock u c d hq ho hd hv =>
    obtain ⟨-, -, -, k', hk', horder⟩ := lock_moves h.inv.daemon hq hd
    rw [hv] at hm ⊢
    by_cases hu : t = u
    · subst hu
      have hline : t ∈ (s.locks c).line := by simp [Lock.line, ho]
      rcases (h.inv.mem c t).mp hline with hh | ⟨-, hl⟩
      · exact absurd hq hh.not_queued
      · exact not_fresh hl
    · have hmem : t ∈ history s.daemon k := by
        simp only [history, horder, List.filterMap_append, List.mem_append] at hm
        rcases hm with hm | hm
        · exact hm
        · simp only [List.filterMap_cons, List.filterMap_nil] at hm
          split at hm
          · cases hm
          · rename_i w hw
            split at hw
            · obtain rfl := Option.some.inj hw
              exact absurd (List.mem_singleton.mp hm) hu
            · cases hw
      exact h.served k t hmem

theorem order_step {e : Ev} (h : Timely slack s) (hs : step s e = some v) {k : SessionKey}
    {b t u a c : Nat} (hk : v.daemon.sessions k = some b) (ht : InBucket v.daemon t b)
    (hu : InBucket v.daemon u b) (ha : (v.waits t).since = some a)
    (hc : (v.waits u).since = some c) (hac : a + sessionQueueWarn + slack < c)
    (hm : u ∈ service v k b) : [t, u].Sublist (service v k b) := by
  have hi := inv_step h.inv hs
  have hft : v.waits t ≠ .fresh := by
    intro hf
    rw [hf] at ha
    cases ha
  have hfu : v.waits u ≠ .fresh := by
    intro hf
    rw [hf] at hc
    cases hc
  have hks := session_back h.inv hs hi hk ht hft
  have hts := bucket_back h.inv hs ht hft
  have hus := bucket_back h.inv hs hu hfu
  have hcnow : c ≤ s.now := by
    rcases since_back hs hc with hc | ⟨-, rfl⟩
    · exact h.past u c hc
    · exact Nat.le_refl _
  have has : (s.waits t).since = some a := by
    rcases since_back hs ha with ha | ⟨-, rfl⟩
    · exact ha
    · omega
  -- the one that came later was in the order before this step
  have hold : u ∈ service s k b → [t, u].Sublist (service s k b) := by
    intro hmem
    rcases since_back hs hc with hc | ⟨hf, -⟩
    · exact h.order k b t u a c hks hts hus has hc hac hmem
    · rcases (mem_service h.inv hks).mp hmem with hh | ⟨-, hl⟩
      · exact absurd hf (h.served k u hh)
      · rw [hf] at hl
        cases hl
  rcases service_step h.inv hks hs with hsame | ⟨x, hq, hl, -, happ⟩ | ⟨x, a', he, hq, hw, herase⟩
  · rw [hsame] at hm ⊢
    exact hold hm
  · rw [happ] at hm ⊢
    by_cases hux : u = x
    · subst hux
      have hin := h.in_service hks hts has (by omega)
      have hone : [t].Sublist (service s k b) := List.singleton_sublist.mpr hin
      exact hone.append (List.Sublist.refl [u])
    · have hmem : u ∈ service s k b := by simpa [hux] using hm
      exact (hold hmem).trans (List.sublist_append_left _ _)
  · rw [herase] at hm ⊢
    have hux : u ≠ x := by
      rintro rfl
      exact (service_nodup h.inv).not_mem_erase hm
    have htx : t ≠ x := by
      rintro rfl
      rw [hw] at has
      obtain rfl := Option.some.inj has
      have hd := h.due t b a' hq (.inl hw)
      omega
    have hsub := (hold (List.mem_of_mem_erase hm)).erase x
    have hsame : [t, u].erase x = [t, u] := by
      apply List.erase_of_not_mem
      simp [Ne.symm htx, Ne.symm hux]
    rwa [hsame] at hsub

theorem timely_step {e : Ev} (h : Timely slack s) (hp : Prompt slack s e)
    (hs : step s e = some v) : Timely slack v where
  inv := inv_step h.inv hs
  past := fun _ _ ha => past_step h hs ha
  due := fun _ _ _ hq hw => due_step h hp hs hq hw
  met := fun _ _ _ hk hb hf => met_step h hs hk hb hf
  served := fun _ _ hm => served_step h hs hm
  order := fun _ _ _ _ _ _ hk ht hu ha hc hac hm => order_step h hs hk ht hu ha hc hac hm

end Timed

def key (s : Sys) (t : Nat) : Option SessionKey := (s.daemon.tasks t).bind Task.key

theorem Inv.in_bucket {s : Sys} (h : Inv s) {t a : Nat} {k : SessionKey} (hk : key s t = some k)
    (ha : (s.waits t).since = some a) :
    ∃ b, s.daemon.sessions k = some b ∧ InBucket s.daemon t b := by
  have hf : s.waits t ≠ .fresh := by
    intro hf
    rw [hf] at ha
    cases ha
  obtain ⟨b, x, hx, hb⟩ := h.fresh t hf
  obtain ⟨k', hk', hkb⟩ := h.daemon.bound t x b hx hb
  have hkk : some k' = some k := by
    rw [← hk', ← hk, key, hx]
    rfl
  obtain rfl := Option.some.inj hkk
  exact ⟨b, hkb, x, hx, hb⟩

/-- Where timers are heeded at most `slack` late, commands of a session that began to wait more
than `SESSION_QUEUE_WARN` and `slack` apart get its lock in the order they came. -/
theorem served_in_order (slack : Nat) (es : List Ev) (s : Sys)
    (h : Path step (Prompt slack) {} es s) (k : SessionKey) (t u a c : Nat)
    (hkt : key s t = some k) (hku : key s u = some k) (ha : (s.waits t).since = some a)
    (hc : (s.waits u).since = some c) (hac : a + sessionQueueWarn + slack < c)
    (hu : u ∈ history s.daemon k) : [t, u].Sublist (history s.daemon k) := by
  have ht := h.invariant (I := Timely slack) (fun _ _ _ hi hp hs => timely_step hi hp hs)
    timely_init
  obtain ⟨b, hk, htb⟩ := ht.inv.in_bucket hkt ha
  obtain ⟨b', hk', hub⟩ := ht.inv.in_bucket hku hc
  obtain rfl := Option.some.inj (hk.symm.trans hk')
  have hsub := ht.order k b t u a c hk htb hub ha hc hac (List.mem_append_left _ hu)
  obtain ⟨l₁, l₂, heq, h₁, h₂⟩ := List.sublist_append_iff.mp hsub
  have hnodup : (service s k b).Nodup := service_nodup ht.inv
  have hout : u ∉ pending (history s.daemon k) (s.locks b).line := by
    intro hm
    simp [pending, hu] at hm
  -- the later task is in the history, so both are
  have hnil : l₂ = [] := by
    cases hl : l₂.getLast? with
    | none => exact List.getLast?_eq_none_iff.mp hl
    | some w =>
      have hw : w = u := by
        have hlast := congrArg List.getLast? heq
        rw [List.getLast?_append, hl] at hlast
        simpa using hlast.symm
      exact absurd (h₂.subset (List.mem_of_getLast? hl)) (hw ▸ hout)
  rw [hnil, List.append_nil] at heq
  rw [heq]
  exact h₁

theorem served_in_order_sample :
    ∃ es s, Path step (Prompt 0) {} es s ∧ (s.waits 1).since = some 0 ∧
      (s.waits 2).since = some 2001 ∧ history s.daemon defaultKey = [0, 1, 2] ∧
      [1, 2].Sublist (history s.daemon defaultKey) := by
  have hfree : ∀ es : List Ev, (∀ n, Ev.pass n ∉ es) → ∀ e ∈ es, ∀ s, Prompt 0 s e := by
    intro es hes e he s
    cases e with
    | pass n => exact absurd he (hes n)
    | _ => trivial
  obtain ⟨s, v, d, hs, hv, hd, hzero, hlocked, hagain, hnone, hone, htwo, hhist, hk1, hk2⟩ :
      ∃ s v d, run step (comes 0 ++ [.lock 0] ++ comes 1) {} = some s ∧
        run step [.timeUp 1, .requeue 1] { s with now := s.now + 2000 } = some v ∧
        run step (comes 2 ++ (runs 0).tail ++ runs 1 ++ runs 2) { v with now := v.now + 1 } =
          some d ∧
        s.now = 0 ∧ (v.daemon.tasks 0).map Task.stage = some .locked ∧ v.waits 1 = .untimed 0 ∧
        (∀ n, v.daemon.tasks (n + 2) = none) ∧ (d.waits 1).since = some 0 ∧
        (d.waits 2).since = some 2001 ∧ history d.daemon defaultKey = [0, 1, 2] ∧
        key d 1 = some defaultKey ∧ key d 2 = some defaultKey :=
    ⟨_, _, _, rfl, rfl, rfl, rfl, rfl, rfl, fun _ => rfl, rfl, rfl, rfl, rfl, rfl⟩
  have hpass : Prompt 0 s (.pass 2000) := by
    intro t b a _ _
    rw [hzero]
    simp [sessionQueueWarn]
  have hpass' : Prompt 0 v (.pass 1) := by
    rintro t b a ⟨x, hx, -, hg⟩ hw
    match t with
    | 0 =>
      rw [hx, Option.map_some, hg] at hlocked
      cases hlocked
    | 1 =>
      rw [hagain] at hw
      simp at hw
    | n + 2 =>
      rw [hnone n] at hx
      cases hx
  have p := path_of_run_all (hfree _ (by simp [comes])) hs
  have q := (p.tail hpass rfl).append (path_of_run_all (hfree _ (by simp)) hv)
  have r := (q.tail hpass' rfl).append (path_of_run_all (hfree _ (by simp [comes, runs])) hd)
  refine ⟨_, d, r, hone, htwo, hhist, ?_⟩
  exact served_in_order 0 _ d r defaultKey 1 2 0 2001 hk1 hk2 hone htwo (by decide)
    (by rw [hhist]; decide)

/-- A command that came 1999 ms later gets the lock first: the retry of the earlier one has given
up its place. -/
theorem arrival_order_lost : ∃ es s, Path step Any {} es s ∧ (s.waits 1).since = some 0 ∧
    (s.waits 2).since = some 1999 ∧ history s.daemon defaultKey = [0, 2, 1] := by
  obtain ⟨s, hs, hone, htwo, hhist⟩ : ∃ s, run step (comes 0 ++ [.lock 0] ++ comes 1 ++
      [.pass 1999] ++ comes 2 ++ [.pass 1, .timeUp 1, .requeue 1] ++ (runs 0).tail ++ runs 2 ++
      runs 1) {} = some s ∧ (s.waits 1).since = some 0 ∧ (s.waits 2).since = some 1999 ∧
      history s.daemon defaultKey = [0, 2, 1] := ⟨_, rfl, rfl, rfl, rfl⟩
  exact ⟨_, s, path_of_run hs, hone, htwo, hhist⟩

/-- The lock of a session is never idle while a command waits for it: it has an owner, which runs
or can start. -/
theorem never_idle {es : List Ev} {s : Sys} (h : Path step Any {} es s) {t b : Nat}
    (ht : t ∈ (s.locks b).line) :
    ∃ o, (s.locks b).owner = some o ∧
      (HoldsAt s.daemon o b ∨ (step s (.lock o)).isSome = true) := by
  have hi := inv_run h
  cases ho : (s.locks b).owner with
  | none =>
    have hl := (s.locks b).free ho
    simp [Lock.line, ho, hl] at ht
  | some o =>
    refine ⟨o, rfl, ?_⟩
    have hline : o ∈ (s.locks b).line := by simp [Lock.line, ho]
    rcases (hi.mem b o).mp hline with hh | ⟨⟨x, hx, hb, hg⟩, -⟩
    · exact .inl hh
    · right
      obtain ⟨k, hk, hkb⟩ := hi.daemon.bound o x b hx hb
      have hat : s.daemon.taskAt o .queued = some x := Option.filter_eq_some_iff.mpr ⟨hx, by simpa⟩
      have hq : s.queuing o = some b := by simp [Sys.queuing, hat, hb]
      have hfree : (s.daemon.buckets b).holder = none := by
        have hlog := hi.daemon.log k b hkb
        unfold Log at hlog
        cases hh : (s.daemon.buckets b).holder with
        | none => rfl
        | some w =>
          rw [hh] at hlog
          obtain ⟨pre, y, -, -, hy, hyh, hyb, -⟩ := hlog
          have hw := hi.head b w ⟨y, hy, hyb, hyh⟩
          obtain rfl := Option.some.inj (ho.symm.trans hw)
          obtain rfl := Option.some.inj (hx.symm.trans hy)
          rw [hg] at hyh
          cases hyh
      simp [step, hq, HandleExec.step, hat, hk, hb, hfree, ho]

theorem never_idle_sample :
    ∃ s, run step (comes 0 ++ [.lock 0] ++ comes 1) {} = some s ∧ 1 ∈ (s.locks 0).line ∧
      ∃ o, (s.locks 0).owner = some o ∧
        (HoldsAt s.daemon o 0 ∨ (step s (.lock o)).isSome = true) := by
  obtain ⟨s, hs, hline⟩ : ∃ s, run step (comes 0 ++ [.lock 0] ++ comes 1) {} = some s ∧
      (s.locks 0).line = [0, 1] := ⟨_, rfl, rfl⟩
  have hmem : 1 ∈ (s.locks 0).line := by simp [hline]
  exact ⟨s, hs, hmem, never_idle (path_of_run hs) hmem⟩

theorem daemon_run {es : List Ev} {s : Sys} {ok : Sys → Ev → Prop} (h : Path step ok {} es s) :
    ∃ fs, Path HandleExec.step Any {} fs s.daemon := by
  induction h with
  | refl => exact ⟨[], .refl⟩
  | tail _ _ hs ih =>
    obtain ⟨fs, hp⟩ := ih
    cases step_move hs with
    | own g d _ _ hd hv =>
      rw [hv]
      exact ⟨fs ++ [g], hp.tail trivial hd⟩
    | pass n _ hv | enter t c w _ _ _ hv | quit t c a _ _ _ _ hv =>
      rw [hv]
      exact ⟨fs, hp⟩
    | lock t c d _ _ hd hv | release t c d _ _ hd hv =>
      rw [hv]
      exact ⟨fs ++ [_], hp.tail trivial hd⟩

end ShellProxy.SessionQueue
