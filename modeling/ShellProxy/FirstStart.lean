import ShellProxy.Endpoint
import Mathlib.Algebra.Order.BigOperators.Group.Finset

/-! Any number of clients that find no daemon at the same time: all of them end up on one, also
where a daemon before them has left its socket file. -/
namespace ShellProxy.FirstStart
open Machine Endpoint
variable {ι : Type}

def ended : Daemon → Bool
  | .absent | .exited | .failed _ => true
  | _ => false

/-- Nobody has looked for the daemon yet and none runs; a file may have been left. -/
structure Quiet (s : Host ι) : Prop where
  first : ∀ i, s.client i = .first
  ended : ∀ d, ended (s.daemon d) = true
  absent : ∀ d, s.next ≤ d → s.daemon d = .absent

/-- No system call fails, no daemon ends, none takes longer than its clients wait, and the two steps
that open the race for the file stay out. -/
def Calm (s : Host ι) : Event ι → Prop
  | .connect i broken late => broken = false ∧ late = false ∧ Apart s (.connect i broken late)
  | .bind d => Apart s (.bind d)
  | .removeFails _ | .spawnFails _ _ | .bindFails _ _ | .permitFails _ _ | .exit _ => False
  | .remove _ | .spawn _ | .listen _ | .permit _ | .accept _ _ => True

def On (d : Nat) (p : Client) : Prop := p = .connected d ∨ p = .accepted d

/-- What the clients can be at with a stale file at the path, with none, and with that of a live
daemon. -/
def Stale : Client → Prop
  | .first | .second | .remove => True
  | _ => False

def Vacant : Client → Prop
  | .first | .second | .remove | .spawn | .retry => True
  | _ => False

def Held (d : Nat) : Client → Prop
  | .first | .second | .spawn | .retry => True
  | .connected k | .accepted k => k = d
  | _ => False

/-- The stages of the endpoint: a file without a daemon, no file, and one live daemon with its file.
Where there is no file and a client waits, a daemon is about to bind. -/
inductive Stage (s : Host ι) : Prop where
  | stale (d : Nat) : s.file = some d → (∀ k, ended (s.daemon k) = true) →
      (∀ i, Stale (s.client i)) → Stage s
  | vacant : s.file = none → (∀ k, (s.daemon k).live = false) → (∀ i, Vacant (s.client i)) →
      (∀ i, s.client i = .retry → ∃ k, s.daemon k = .starting) → Stage s
  | held (d : Nat) : s.file = some d → (s.daemon d).live = true →
      (∀ k, (s.daemon k).live = true → k = d) → (∀ i, Held d (s.client i)) → Stage s

structure Inv (s : Host ι) : Prop where
  stage : Stage s
  absent : ∀ d, s.next ≤ d → s.daemon d = .absent

theorem not_live {p : Daemon} (h : ended p = true) : p.live = false := by
  cases p <;> first | rfl | cases h

theorem Quiet.inv {s : Host ι} (h : Quiet s) : Inv s := by
  refine ⟨?_, h.absent⟩
  cases hf : s.file with
  | some d => exact .stale d hf h.ended fun i => by simp [h.first i, Stale]
  | none =>
    refine .vacant hf (fun k => not_live (h.ended k)) (fun i => by simp [h.first i, Vacant]) ?_
    intro i hi
    rw [h.first i] at hi
    cases hi

theorem connect_none {s : Host ι} (h : s.file = none) : s.connect = .error .notFound := by
  simp [Host.connect, h]

theorem connect_some {s : Host ι} {d : Nat} (h : s.file = some d) : s.connect =
    if (s.daemon d).listens then .ok d else .error .connectionRefused := by
  simp [Host.connect, h]

theorem listens_live {p : Daemon} (h : p.listens = true) : p.live = true := by
  cases p <;> first | rfl | cases h

theorem bound_or_listens {p : Daemon} (h : p.live = true) : p = .bound ∨ p.listens = true := by
  cases p <;> first | exact .inl rfl | exact .inr rfl | cases h

inductive Goes (r : Except ErrorKind Nat) : Client → Client → Prop where
  | connected (p : Client) (d : Nat) : r = .ok d → p = .first ∨ p = .second ∨ p = .retry →
      Goes r p (.connected d)
  | again : Goes r .first .second
  | stale : r = .error .connectionRefused → Goes r .second .remove
  | missing : r ≠ .error .connectionRefused → Goes r .second .spawn
  | waits : Goes r .retry .retry

theorem onConnect_goes {c : Conf} {r : Except ErrorKind Nat} {p q : Client}
    (hc : c.absolute = true) (h : onConnect c false r p = some q) : Goes r p q := by
  cases r with
  | ok d =>
    cases p with
    | first | second | retry =>
      obtain rfl := Option.some.inj h
      exact .connected _ d rfl (by simp)
    | remove | spawn | connected k | accepted k | failed e => cases h
  | error k =>
    cases p with
    | first =>
      obtain rfl : Client.second = q := by simpa [onConnect, hc] using h
      exact .again
    | second =>
      cases k with
      | connectionRefused =>
        obtain rfl := Option.some.inj h
        exact .stale rfl
      | notFound | addrInUse | other =>
        obtain rfl := Option.some.inj h
        exact .missing (by simp)
    | retry =>
      obtain rfl := Option.some.inj h
      exact .waits
    | remove | spawn | connected k | accepted k | failed e => cases h

theorem daemon_setDaemon (s : Host ι) (d k : Nat) (p : Daemon) :
    (s.setDaemon d p).daemon k = if k = d then p else s.daemon k := Function.update_apply _ _ _ _

section Daemons
variable {s : Host ι}

theorem Stage.daemon (h : Stage s) {d : Nat} {p : Daemon} (hlive : p.live = (s.daemon d).live)
    (hended : ended p = ended (s.daemon d)) (hs : s.daemon d ≠ .starting) :
    Stage (s.setDaemon d p) := by
  have hl : ∀ k, ((s.setDaemon d p).daemon k).live = (s.daemon k).live := by
    intro k
    rw [daemon_setDaemon]
    split
    · rename_i hk
      rw [hk, hlive]
    · rfl
  cases h with
  | stale f hf ho hc =>
    refine .stale f hf (fun k => ?_) hc
    rw [daemon_setDaemon]
    split
    · rw [hended]
      exact ho d
    · exact ho k
  | vacant hf hno hc hr =>
    refine .vacant hf (fun k => (hl k).trans (hno k)) hc fun i hi => ?_
    obtain ⟨k, hk⟩ := hr i hi
    refine ⟨k, ?_⟩
    rw [daemon_setDaemon, if_neg]
    · exact hk
    · rintro rfl
      exact hs hk
  | held f hf hone hall hc =>
    exact .held f hf ((hl f).trans hone) (fun k hk => hall k (hl k ▸ hk)) hc

theorem below_next (h : Inv s) {d : Nat} (hd : s.daemon d ≠ .absent) : d < s.next := by
  by_contra hn
  exact hd (h.absent d (Nat.le_of_not_lt hn))

theorem absent_setDaemon (h : Inv s) {d : Nat} {p : Daemon} (hd : s.daemon d ≠ .absent) :
    ∀ k, s.next ≤ k → (s.setDaemon d p).daemon k = .absent := by
  intro k hk
  have hlt := below_next h hd
  rw [daemon_setDaemon, if_neg (by omega)]
  exact h.absent k hk

theorem Stage.file_of_live (h : Stage s) {d : Nat} (hd : (s.daemon d).live = true) :
    s.file = some d := by
  cases h with
  | stale f _ hended _ =>
    rw [not_live (hended d)] at hd
    cases hd
  | vacant _ hl _ _ =>
    rw [hl d] at hd
    cases hd
  | held f hf _ hone _ =>
    rw [hone d hd]
    exact hf

/-- The steps a client has before it at most, with those of the daemon it may spawn. -/
def clientRank : Client → Nat
  | .first => 8
  | .second => 7
  | .remove => 6
  | .spawn => 5
  | .retry => 1
  | _ => 0

def daemonRank : Daemon → Nat
  | .starting => 3
  | .bound => 2
  | .listening => 1
  | _ => 0

theorem daemons_update {n d : Nat} (hd : d < n) (p : Daemon) :
    ∑ k ∈ Finset.range n, daemonRank ((s.setDaemon d p).daemon k) + daemonRank (s.daemon d) =
      ∑ k ∈ Finset.range n, daemonRank (s.daemon k) + daemonRank p := by
  have hmem := Finset.mem_range.mpr hd
  have hrest : ∑ k ∈ (Finset.range n).erase d, daemonRank ((s.setDaemon d p).daemon k) =
      ∑ k ∈ (Finset.range n).erase d, daemonRank (s.daemon k) := by
    refine Finset.sum_congr rfl fun k hk => ?_
    rw [daemon_setDaemon, if_neg (Finset.ne_of_mem_erase hk)]
  have hu := Finset.add_sum_erase _ (fun k => daemonRank ((s.setDaemon d p).daemon k)) hmem
  have hs := Finset.add_sum_erase _ (fun k => daemonRank (s.daemon k)) hmem
  simp only [daemon_setDaemon, if_true] at hu hrest ⊢
  omega

end Daemons

section Step
variable [DecidableEq ι] {c : Conf} {s u : Host ι}

@[simp] theorem client_setClient (i j : ι) (p : Client) :
    (s.setClient i p).client j = if j = i then p else s.client j := Function.update_apply _ _ _ _

@[simp] theorem daemon_setClient (i : ι) (p : Client) (d : Nat) :
    (s.setClient i p).daemon d = s.daemon d := rfl

@[simp] theorem file_setClient (i : ι) (p : Client) : (s.setClient i p).file = s.file := rfl

@[simp] theorem next_setClient (i : ι) (p : Client) : (s.setClient i p).next = s.next := rfl

theorem all_clients {P : Client → Prop} (h : ∀ i, P (s.client i)) {i : ι} {p : Client}
    (hp : P (s.client i) → P p) (j : ι) : P ((s.setClient i p).client j) := by
  rw [client_setClient]
  split
  · exact hp (h i)
  · exact h j

theorem Stage.client (h : Stage s) {i : ι} {p : Client}
    (hs : ∀ d, s.file = some d → (s.daemon d).live = false → Stale (s.client i) → Stale p)
    (hv : s.file = none → Vacant (s.client i) → Vacant p)
    (hr : p = .retry → s.client i = .retry)
    (hh : ∀ d, s.file = some d → (s.daemon d).live = true → Held d (s.client i) → Held d p) :
    Stage (s.setClient i p) := by
  cases h with
  | stale d hf ho hc => exact .stale d hf ho (all_clients hc (hs d hf (not_live (ho d))))
  | vacant hf hl hc hretry =>
    refine .vacant hf hl (all_clients hc (hv hf)) fun j hj => ?_
    rw [client_setClient] at hj
    split at hj
    · exact hretry i (hr hj)
    · exact hretry j hj
  | held d hf hl hone hc => exact .held d hf hl hone (all_clients hc (hh d hf hl))

theorem stage_connect (hc : c.absolute = true) (h : Stage s) {i : ι}
    (ho : Apart s (.connect i false false)) (hs : step c s (.connect i false false) = some u) :
    Stage u := by
  simp only [step, Bool.false_eq_true, if_false, Option.map_eq_some_iff] at hs
  obtain ⟨p, hp, rfl⟩ := hs
  have hgoes := onConnect_goes hc hp
  apply h.client
  · intro d hf hl hstale
    have hno : (s.daemon d).listens = false := by
      by_contra hlis
      rw [listens_live (by simpa using hlis)] at hl
      cases hl
    rw [connect_some hf, hno] at hgoes
    generalize s.client i = q at hgoes hstale
    cases hgoes with
    | connected _ k hr _ => cases hr
    | again | stale => trivial
    | missing hr => exact absurd rfl hr
    | waits => exact hstale
  · intro hf _
    rw [connect_none hf] at hgoes
    generalize s.client i = q at hgoes
    cases hgoes with
    | connected _ k hr _ => cases hr
    | stale hr => cases hr
    | again | missing _ | waits => trivial
  · rintro rfl
    generalize s.client i = q at hgoes
    cases hgoes
    rfl
  · intro d hf hl hheld
    have hbound : s.client i = .second → (s.daemon d).listens = true := fun hi =>
      (bound_or_listens hl).resolve_left (ho hi rfl d hf)
    rw [connect_some hf] at hgoes
    generalize s.client i = q at hgoes hheld hbound
    cases hgoes with
    | connected _ k hr _ =>
      split at hr
      · exact (Except.ok.inj hr).symm
      · cases hr
    | stale hr =>
      rw [if_pos (hbound rfl)] at hr
      cases hr
    | again | missing _ | waits => trivial

theorem stage_bind (h : Stage s) {d : Nat} (ho : Apart s (.bind d))
    (hs : step c s (.bind d) = some u) : Stage u := by
  simp only [step, Option.ite_none_right_eq_some] at hs
  obtain ⟨hd, hs⟩ := hs
  cases h with
  | stale f hf hended hc =>
    have hno := hended d
    rw [hd] at hno
    cases hno
  | vacant hf hl hc hr =>
    rw [if_pos hf, Option.some.injEq] at hs
    subst hs
    refine .held d rfl ?_ (fun k hk => ?_) fun i => ?_
    · simp [daemon_setDaemon, Daemon.live]
    · by_contra hne
      simp [daemon_setDaemon, hne, hl k] at hk
    · have hrem := ho hd hf i
      have hci := hc i
      simp only [Host.setDaemon]
      cases hq : s.client i <;> simp_all [Vacant, Held]
  | held f hf hl hone hc =>
    rw [hf, if_neg (by simp), Option.some.injEq] at hs
    subst hs
    have hne : f ≠ d := by
      rintro rfl
      rw [hd] at hl
      cases hl
    refine .held f hf ?_ (fun k hk => ?_) hc
    · simpa [daemon_setDaemon, hne] using hl
    · rw [daemon_setDaemon] at hk
      split at hk
      · cases hk
      · exact hone k hk

theorem stage_remove (h : Stage s) {i : ι} (hs : step c s (.remove i) = some u) : Stage u := by
  simp only [step, Option.ite_none_right_eq_some, Option.some.injEq] at hs
  obtain ⟨hi, rfl⟩ := hs
  cases h with
  | stale f hf hended hc =>
    have hv : ∀ j, Vacant ((s.setClient i .spawn).client j) := all_clients
      (fun j => by have hj := hc j; cases hq : s.client j <;> simp_all [Stale, Vacant])
      fun _ => trivial
    refine .vacant rfl (fun k => not_live (hended k)) hv fun j hj => ?_
    have hno := hc j
    simp only [client_setClient] at hj
    split at hj
    · cases hj
    · rw [hj] at hno
      exact hno.elim
  | vacant hf hl hc hr =>
    have hv : ∀ j, Vacant ((s.setClient i .spawn).client j) := all_clients hc fun _ => trivial
    refine .vacant rfl hl hv fun j hj => ?_
    simp only [client_setClient] at hj
    split at hj
    · cases hj
    · exact hr j hj
  | held f hf hl hone hc =>
    have hno := hc i
    rw [hi] at hno
    exact hno.elim

theorem stage_spawn (h : Inv s) {i : ι} (hs : step c s (.spawn i) = some u) : Stage u := by
  simp only [step, Option.ite_none_right_eq_some, Option.some.injEq] at hs
  obtain ⟨hi, rfl⟩ := hs
  have hnext := h.absent s.next (Nat.le_refl _)
  have hd : ∀ k, ((s.setClient i .retry).setDaemon s.next .starting).daemon k =
      if k = s.next then .starting else s.daemon k := fun k => daemon_setDaemon _ _ _ _
  cases h.stage with
  | stale f hf hended hc =>
    have hno := hc i
    rw [hi] at hno
    exact hno.elim
  | vacant hf hl hc hr =>
    refine .vacant hf (fun k => ?_) (all_clients hc fun _ => trivial) fun j _ => ⟨s.next, ?_⟩
    · simp only [hd]
      split
      · rfl
      · exact hl k
    · simp only [hd, if_true]
  | held f hf hl hone hc =>
    have hne : f ≠ s.next := by
      rintro rfl
      rw [hnext] at hl
      cases hl
    refine .held f hf ?_ (fun k hk => ?_) (all_clients hc fun _ => trivial)
    · simp only [hd, if_neg hne]
      exact hl
    · simp only [hd] at hk
      split at hk
      · cases hk
      · exact hone k hk

theorem inv_step (hc : c.absolute = true) {e : Event ι} (h : Inv s) (ho : Calm s e)
    (hs : step c s e = some u) : Inv u := by
  cases e with
  | connect i broken late =>
    obtain ⟨rfl, rfl, hapart⟩ := ho
    have hstage := stage_connect hc h.stage hapart hs
    simp only [step, Option.map_eq_some_iff] at hs
    obtain ⟨p, -, rfl⟩ := hs
    exact ⟨hstage, h.absent⟩
  | remove i =>
    have hstage := stage_remove h.stage hs
    simp only [step, Option.ite_none_right_eq_some, Option.some.injEq] at hs
    obtain ⟨-, rfl⟩ := hs
    exact ⟨hstage, h.absent⟩
  | spawn i =>
    have hstage := stage_spawn h hs
    simp only [step, Option.ite_none_right_eq_some, Option.some.injEq] at hs
    obtain ⟨-, rfl⟩ := hs
    refine ⟨hstage, fun d hd => ?_⟩
    have hlt : s.next < d := hd
    have hne : d ≠ s.next := by omega
    rw [show ((s.setClient i .retry).setDaemon s.next .starting).daemon d = _ from
      daemon_setDaemon _ _ _ _, if_neg hne]
    exact h.absent d (by omega)
  | bind d =>
    have hstage := stage_bind h.stage ho hs
    simp only [step, Option.ite_none_right_eq_some] at hs
    obtain ⟨hd, hs⟩ := hs
    have hthere : s.daemon d ≠ .absent := by simp [hd]
    split at hs
    · cases hs
      exact ⟨hstage, absent_setDaemon h hthere⟩
    · cases hs
      exact ⟨hstage, absent_setDaemon h hthere⟩
  | listen d =>
    simp only [step, Option.ite_none_right_eq_some, Option.some.injEq] at hs
    obtain ⟨hd, rfl⟩ := hs
    refine ⟨h.stage.daemon ?_ ?_ ?_, absent_setDaemon h ?_⟩ <;> simp [hd, Daemon.live, ended]
  | permit d =>
    simp only [step, Option.ite_none_right_eq_some] at hs
    obtain ⟨hd, hs⟩ := hs
    split at hs
    · rename_i hf
      have hno := h.stage.file_of_live (d := d) (by simp [hd, Daemon.live])
      rw [hf] at hno
      cases hno
    · cases hs
      refine ⟨h.stage.daemon ?_ ?_ ?_, absent_setDaemon h ?_⟩ <;> simp [hd, Daemon.live, ended]
  | accept d i =>
    simp only [step, Option.ite_none_right_eq_some, Option.some.injEq] at hs
    obtain ⟨⟨-, hi⟩, rfl⟩ := hs
    refine ⟨h.stage.client ?_ ?_ ?_ ?_, h.absent⟩
    · intro f _ _ hcl
      rw [hi] at hcl
      exact hcl.elim
    · intro _ hcl
      rw [hi] at hcl
      exact hcl.elim
    · intro hp
      cases hp
    · intro f _ _ hcl
      rw [hi] at hcl
      exact hcl
  | removeFails i | spawnFails i err | bindFails d m | permitFails d m | exit d => exact ho.elim

end Step

section Converge
variable [Fintype ι] [DecidableEq ι] {c : Conf} {s u : Host ι}

def rank (s : Host ι) : Nat :=
  ∑ i, clientRank (s.client i) + ∑ d ∈ Finset.range s.next, daemonRank (s.daemon d)

theorem clients_update (i : ι) (p : Client) :
    ∑ j, clientRank ((s.setClient i p).client j) + clientRank (s.client i) =
      ∑ j, clientRank (s.client j) + clientRank p := by
  have hrest : ∑ j ∈ Finset.univ.erase i, clientRank ((s.setClient i p).client j) =
      ∑ j ∈ Finset.univ.erase i, clientRank (s.client j) := by
    refine Finset.sum_congr rfl fun j hj => ?_
    rw [client_setClient, if_neg (Finset.ne_of_mem_erase hj)]
  have hu := Finset.add_sum_erase Finset.univ (fun j => clientRank ((s.setClient i p).client j))
    (Finset.mem_univ i)
  have hs := Finset.add_sum_erase Finset.univ (fun j => clientRank (s.client j)) (Finset.mem_univ i)
  simp only [client_setClient, if_true] at hu hrest ⊢
  omega

theorem rank_client {i : ι} {p : Client} (h : clientRank p < clientRank (s.client i)) :
    rank (s.setClient i p) < rank s := by
  have hu := clients_update (s := s) i p
  simp only [rank, daemon_setClient, next_setClient]
  omega

omit [DecidableEq ι] in
theorem rank_daemon {d : Nat} {p : Daemon} (hd : d < s.next)
    (h : daemonRank p < daemonRank (s.daemon d)) : rank (s.setDaemon d p) < rank s := by
  have hu := daemons_update (s := s) hd p
  change ∑ i, clientRank (s.client i) +
    ∑ k ∈ Finset.range s.next, daemonRank ((s.setDaemon d p).daemon k) < rank s
  unfold rank
  omega

theorem rank_spawn {i : ι} (hi : s.client i = .spawn) :
    rank { (s.setClient i .retry).setDaemon s.next .starting with next := s.next + 1 } <
      rank s := by
  have hu := clients_update (s := s) i .retry
  have hd : ∑ k ∈ Finset.range (s.next + 1),
      daemonRank (((s.setClient i .retry).setDaemon s.next .starting).daemon k) =
        ∑ k ∈ Finset.range s.next, daemonRank (s.daemon k) + 3 := by
    rw [Finset.sum_range_succ]
    congr 1
    · refine Finset.sum_congr rfl fun k hk => ?_
      have hne : k ≠ s.next := Nat.ne_of_lt (Finset.mem_range.mp hk)
      rw [daemon_setDaemon, if_neg hne]
      rfl
    · rw [daemon_setDaemon, if_pos rfl]
      rfl
  change ∑ j, clientRank ((s.setClient i .retry).client j) + ∑ k ∈ Finset.range (s.next + 1),
    daemonRank (((s.setClient i .retry).setDaemon s.next .starting).daemon k) < rank s
  rw [hd]
  unfold rank
  rw [hi] at hu
  simp only [clientRank] at hu ⊢
  omega

/-- An allowed step that brings the endpoint nearer to its end. -/
def Moves (c : Conf) (s : Host ι) : Prop :=
  ∃ e u, Calm s e ∧ step c s e = some u ∧ rank u < rank s

theorem moves_connect {i : ι} {q : Client} (hs : onConnect c false s.connect (s.client i) = some q)
    (ho : Apart s (.connect i false false)) (hq : clientRank q < clientRank (s.client i)) :
    Moves c s := by
  refine ⟨.connect i false false, s.setClient i q, ⟨rfl, rfl, ho⟩, ?_, rank_client hq⟩
  simp only [step, Bool.false_eq_true, if_false, hs, Option.map_some]

theorem moves_first {i : ι} (hi : s.client i = .first) : Moves c s := by
  have ho : Apart s (.connect i false false) := fun hsec => by
    rw [hi] at hsec
    cases hsec
  cases hr : s.connect with
  | ok d =>
    exact moves_connect (q := .connected d) (by rw [hr, hi]; rfl) ho (by simp [hi, clientRank])
  | error k =>
    refine moves_connect (by rw [hr, hi]; rfl) ho ?_
    rw [hi]
    split <;> decide

theorem moves_remove {i : ι} (hi : s.client i = .remove) : Moves c s := by
  refine ⟨.remove i, { s.setClient i .spawn with file := none }, trivial, if_pos hi, ?_⟩
  have hlt : rank (s.setClient i .spawn) < rank s := rank_client (by rw [hi]; decide)
  exact hlt

theorem moves_spawn {i : ι} (hi : s.client i = .spawn) : Moves c s :=
  ⟨.spawn i, _, trivial, if_pos hi, rank_spawn hi⟩

theorem moves_held (h : Inv s) {d : Nat} (hf : s.file = some d) (hl : (s.daemon d).live = true)
    {i : ι} (hi : s.client i = .second ∨ s.client i = .retry) : Moves c s := by
  rcases bound_or_listens hl with hb | hlis
  · refine ⟨.listen d, s.setDaemon d .listening, trivial, if_pos hb, rank_daemon ?_ ?_⟩
    · exact below_next h (by simp [hb])
    · rw [hb]
      decide
  · have hr : s.connect = .ok d := by rw [connect_some hf, if_pos hlis]
    have ho : Apart s (.connect i false false) := by
      intro _ _ k hk hbound
      rw [hf, Option.mem_def, Option.some.injEq] at hk
      rw [← hk] at hbound
      rw [hbound] at hlis
      cases hlis
    rcases hi with hi | hi
    · exact moves_connect (q := .connected d) (by rw [hr, hi]; rfl) ho (by simp [hi, clientRank])
    · exact moves_connect (q := .connected d) (by rw [hr, hi]; rfl) ho (by simp [hi, clientRank])

/-- Where no daemon is live, a client that looks for the second time learns why, and one that waits
has a daemon that can bind, unless another client is about to remove the file. -/
theorem moves_unheld (h : Inv s) {i : ι} (hno : ∀ d, s.file = some d → (s.daemon d).live = false)
    (hi : s.client i = .second ∨ s.client i = .retry) : Moves c s := by
  have ho : Apart s (.connect i false false) := by
    intro _ _ k hk hbound
    have hl := hno k hk
    rw [hbound] at hl
    cases hl
  have hne : ∀ d, s.connect ≠ .ok d := fun d hd => by
    obtain ⟨hf, hl⟩ := connect_ok hd
    rw [hno d hf] at hl
    cases hl
  rcases hi with hi | hi
  · obtain ⟨k, hk⟩ : ∃ k, s.connect = .error k := by
      cases hr : s.connect with
      | ok d => exact absurd hr (hne d)
      | error k => exact ⟨k, rfl⟩
    cases k with
    | connectionRefused =>
      exact moves_connect (q := .remove) (by rw [hk, hi]; rfl) ho (by rw [hi]; decide)
    | notFound | addrInUse | other =>
      exact moves_connect (q := .spawn) (by rw [hk, hi]; rfl) ho (by rw [hi]; decide)
  · cases h.stage with
    | stale d hf hended hc =>
      have hcl := hc i
      rw [hi] at hcl
      exact hcl.elim
    | held d hf hl _ _ =>
      rw [hno d hf] at hl
      cases hl
    | vacant hf hl hc hr =>
      by_cases hrem : ∃ j, s.client j = .remove
      · obtain ⟨j, hj⟩ := hrem
        exact moves_remove hj
      · obtain ⟨k, hk⟩ := hr i hi
        refine ⟨.bind k, { s.setDaemon k .bound with file := some k }, ?_, ?_, ?_⟩
        · exact fun _ _ j hj => hrem ⟨j, hj⟩
        · simp only [step, if_pos hk, if_pos hf]
        · have hlt : rank (s.setDaemon k .bound) < rank s :=
            rank_daemon (below_next h (by simp [hk])) (by rw [hk]; decide)
          exact hlt

omit [Fintype ι] [DecidableEq ι] in
theorem Stage.clients (h : Stage s) (i : ι) : (∀ e, s.client i ≠ .failed e) ∧
    ∀ d, On d (s.client i) → s.file = some d ∧ (s.daemon d).live = true := by
  cases h with
  | stale f hf hended hc =>
    have hi := hc i
    generalize s.client i = q at hi
    refine ⟨?_, ?_⟩
    · rintro e rfl
      exact hi
    · rintro d (rfl | rfl) <;> exact hi.elim
  | vacant hf hl hc hr =>
    have hi := hc i
    generalize s.client i = q at hi
    refine ⟨?_, ?_⟩
    · rintro e rfl
      exact hi
    · rintro d (rfl | rfl) <;> exact hi.elim
  | held f hf hl hone hc =>
    have hi := hc i
    generalize s.client i = q at hi
    refine ⟨?_, ?_⟩
    · rintro e rfl
      exact hi
    · rintro d (rfl | rfl)
      · obtain rfl : d = f := hi
        exact ⟨hf, hl⟩
      · obtain rfl : d = f := hi
        exact ⟨hf, hl⟩

/-- As long as some client is not connected, something is left to do that brings it nearer. -/
theorem moves (h : Inv s) {i : ι} (hi : ∀ d, ¬ On d (s.client i)) : Moves c s := by
  have hsearch : s.client i = .second ∨ s.client i = .retry → Moves c s := by
    intro hp
    by_cases hlive : ∃ d, s.file = some d ∧ (s.daemon d).live = true
    · obtain ⟨d, hf, hl⟩ := hlive
      exact moves_held h hf hl hp
    · refine moves_unheld h (fun d hf => ?_) hp
      by_contra hl
      exact hlive ⟨d, hf, by simpa using hl⟩
  cases hp : s.client i with
  | first => exact moves_first hp
  | second => exact hsearch (.inl hp)
  | remove => exact moves_remove hp
  | spawn => exact moves_spawn hp
  | retry => exact hsearch (.inr hp)
  | connected d => exact absurd (.inl hp) (hi d)
  | accepted d => exact absurd (.inr hp) (hi d)
  | failed e => exact absurd hp ((h.stage.clients i).1 e)

/-- Any number of clients that start at once, with or without a stale file, in any order of their
steps and of those of the daemons they spawn: no client fails, all that connect reach one and the
same live daemon, and every run can go on until all of them have. -/
theorem one_daemon_for_all (hc : c.absolute = true) {s₀ : Host ι} (hq : Quiet s₀)
    {es : List (Event ι)} {t : Host ι} (h : Path (step c) Calm s₀ es t) :
    (∀ i e, t.client i ≠ .failed e) ∧
    (∀ i j d k, On d (t.client i) → On k (t.client j) →
      d = k ∧ (t.daemon d).live = true ∧ ∀ m, (t.daemon m).live = true → m = d) ∧
    ∃ fs u, Path (step c) Calm t fs u ∧ ∀ i, ∃ d, On d (u.client i) := by
  have hinv : Inv t := h.invariant (fun _ _ _ hi ho hs => inv_step hc hi ho hs) hq.inv
  refine ⟨fun i => (hinv.stage.clients i).1, ?_, ?_⟩
  · intro i j d k hi hj
    obtain ⟨hd, hl⟩ := (hinv.stage.clients i).2 d hi
    obtain ⟨hk, -⟩ := (hinv.stage.clients j).2 k hj
    refine ⟨Option.some.inj (hd.symm.trans hk), hl, fun m hm => ?_⟩
    exact Option.some.inj ((hinv.stage.file_of_live hm).symm.trans hd)
  · obtain ⟨fs, u, hp, -, hall⟩ := exists_goal rank Inv (fun s => ∀ i, ∃ d, On d (s.client i))
      (fun s hs hn => by
        obtain ⟨i, hi⟩ := not_forall.mp hn
        obtain ⟨e, u, ho, hst, hlt⟩ := moves (c := c) hs (not_exists.mp hi)
        exact ⟨e, u, ho, hst, inv_step hc hs ho hst, hlt⟩) t hinv
    exact ⟨fs, u, hp, hall⟩

end Converge

instance [Fintype ι] (s : Host ι) (e : Event ι) : Decidable (Calm s e) :=
  match e with
  | .connect i broken late =>
    inferInstanceAs (Decidable (broken = false ∧ late = false ∧ Apart s (.connect i broken late)))
  | .bind d => inferInstanceAs (Decidable (Apart s (.bind d)))
  | .removeFails _ | .spawnFails _ _ | .bindFails _ _ | .permitFails _ _ | .exit _ =>
    inferInstanceAs (Decidable False)
  | .remove _ | .spawn _ | .listen _ | .permit _ | .accept _ _ => inferInstanceAs (Decidable True)

inductive SampleClient where
  | one | two | later
  deriving DecidableEq

theorem sample_clients (i : SampleClient) :
    i ∈ ({.one, .two, .later} : Finset SampleClient) := by
  cases i <;> decide

instance : Fintype SampleClient := ⟨{.one, .two, .later}, sample_clients⟩

def sampleLeft : Host SampleClient where
  file := some 0
  next := 1
  daemon d := if d = 0 then .exited else .absent
  client _ := .first

theorem sample_quiet : Quiet sampleLeft := by
  refine ⟨fun _ => rfl, fun d => ?_, fun d hd => ?_⟩
  · by_cases h : d = 0 <;> simp [sampleLeft, h, ended]
  · have hne : d ≠ 0 := by
      have hlt : 1 ≤ d := hd
      omega
    simp [sampleLeft, hne]

/-- Both remove the stale file and spawn a daemon; that of the second is the first to bind. -/
def sampleStart : List (Event SampleClient) :=
  [.connect .one false false, .connect .two false false, .connect .one false false,
    .connect .two false false, .remove .one, .spawn .one, .remove .two, .spawn .two, .bind 2,
    .bind 1, .listen 2, .connect .one false false, .connect .two false false]

theorem one_daemon_for_all_sample : ∃ es t, Path (step sampleConf) Calm sampleLeft es t ∧
    t.client .one = .connected 2 ∧ t.client .two = .connected 2 ∧ t.client .later = .first ∧
    ∃ fs u, Path (step sampleConf) Calm t fs u ∧ ∀ i, ∃ d, On d (u.client i) := by
  have hrun : (run (guarded (step sampleConf) Calm) sampleStart sampleLeft).map
      (fun t => (t.client .one, t.client .two, t.client .later)) =
        some (.connected 2, .connected 2, .first) := by decide
  obtain ⟨t, ht, hp⟩ := Option.map_eq_some_iff.mp hrun
  simp only [Prod.mk.injEq] at hp
  obtain ⟨h1, h2, h3⟩ := hp
  have hpath := path_of_guarded ht
  exact ⟨_, t, hpath, h1, h2, h3, (one_daemon_for_all (by decide) sample_quiet hpath).2.2⟩

end ShellProxy.FirstStart
