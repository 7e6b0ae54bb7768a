import Mathlib.Logic.Function.Basic
import Mathlib.Data.List.Basic
import Mathlib.Data.List.Forall2

/-! Descriptor tables of a process and the calls that change them. A descriptor refers to an open
file; the status flags are the file's, the close-on-exec flag is the descriptor's. -/
namespace ShellProxy.Descriptors

structure Desc (ι : Type) where
  file : ι
  cloexec : Bool
  deriving DecidableEq, Repr

structure Flags where
  nonblock : Bool
  others : Nat
  deriving DecidableEq, Repr

/-- `deny` tells which calls, by their number, fail for reasons outside of the process. -/
structure Process (ι : Type) where
  table : Nat → Option (Desc ι)
  flags : ι → Flags
  limit : Nat
  leader : Bool := false
  deny : Nat → Bool := fun _ => false
  calls : Nat := 0
  failed : Bool := false

variable {ι : Type}

namespace Process

def enter (p : Process ι) : Option (Process ι) :=
  if p.deny p.calls then none else some { p with calls := p.calls + 1 }

def set (p : Process ι) (fd : Nat) (d : Option (Desc ι)) : Process ι :=
  { p with table := Function.update p.table fd d }

def setsid (p : Process ι) : Option (Process ι) := do
  let p ← p.enter
  if p.leader then none else some { p with leader := true }

/-- Closes its target first; on equal arguments it does nothing. -/
def dup2 (p : Process ι) (src dst : Nat) : Option (Process ι) := do
  let p ← p.enter
  let d ← p.table src
  if p.limit ≤ dst then none
  else if src = dst then some p
  else some (p.set dst (some ⟨d.file, false⟩))

def lowestFree (p : Process ι) (floor : Nat) : Option Nat :=
  (List.range' floor (p.limit - floor)).find? fun n => (p.table n).isNone

/-- `F_DUPFD` -/
def dupFd (p : Process ι) (src floor : Nat) : Option (Nat × Process ι) := do
  let p ← p.enter
  let d ← p.table src
  let n ← p.lowestFree floor
  some (n, p.set n (some ⟨d.file, false⟩))

def close (p : Process ι) (fd : Nat) : Option (Process ι) := do
  let p ← p.enter
  let _ ← p.table fd
  some (p.set fd none)

/-- `F_GETFL` -/
def getFlags (p : Process ι) (fd : Nat) : Option (Flags × Process ι) := do
  let p ← p.enter
  let d ← p.table fd
  some (p.flags d.file, p)

/-- `F_SETFL` -/
def setFlags [DecidableEq ι] (p : Process ι) (fd : Nat) (f : Flags) : Option (Process ι) := do
  let p ← p.enter
  let d ← p.table fd
  some { p with flags := Function.update p.flags d.file f }

/-- `F_SETFD` -/
def setCloexec (p : Process ι) (fd : Nat) (b : Bool) : Option (Process ι) := do
  let p ← p.enter
  let d ← p.table fd
  some (p.set fd (some ⟨d.file, b⟩))

def ignoring (p : Process ι) (r : Option (Process ι)) : Process ι :=
  r.getD { p with calls := p.calls + 1, failed := true }

/-- Park copies of descriptors above a floor. -/
def park (floor : Nat) : List Nat → Process ι → Option (List Nat × Process ι)
  | [], p => some ([], p)
  | src :: srcs, p => do
    let (n, p) ← p.dupFd src floor
    let (ns, p) ← park floor srcs p
    some (n :: ns, p)

/-- Move descriptors onto their targets in turn. -/
def moveAll : List (Nat × Nat) → Process ι → Option (Process ι)
  | [], p => some p
  | (src, dst) :: moves, p => do
    let p ← p.dup2 src dst
    moveAll moves p

def closeAll : List Nat → Process ι → Process ι
  | [], p => p
  | fd :: fds, p => closeAll fds (p.ignoring (p.close fd))

def unblockAll [DecidableEq ι] : List Nat → Process ι → Option (Process ι)
  | [], p => some p
  | fd :: fds, p => do
    let (flags, p) ← p.getFlags fd
    let p ← p.setFlags fd { flags with nonblock := false }
    unblockAll fds p

def inheritAll : List Nat → Process ι → Option (Process ι)
  | [], p => some p
  | fd :: fds, p => do
    let p ← p.setCloexec fd false
    inheritAll fds p

end Process

/-! ### One call -/

/-- What a call that changes the table only leaves alone. -/
structure Same (p q : Process ι) : Prop where
  flags : q.flags = p.flags
  failed : q.failed = p.failed

theorem Same.trans {p q r : Process ι} (h : Same p q) (g : Same q r) : Same p r :=
  ⟨g.flags.trans h.flags, g.failed.trans h.failed⟩

variable {p q : Process ι}

theorem enter_some (h : p.enter = some q) : q.table = p.table ∧ Same p q := by
  unfold Process.enter at h
  split at h
  · cases h
  · obtain rfl := Option.some.inj h
    exact ⟨rfl, rfl, rfl⟩

theorem setsid_some (h : p.setsid = some q) : q.table = p.table ∧ Same p q := by
  simp only [Process.setsid, Option.bind_eq_bind, Option.bind_eq_some_iff,
    Option.ite_none_left_eq_some] at h
  obtain ⟨r, hr, -, hq⟩ := h
  obtain ⟨ht, hs⟩ := enter_some hr
  obtain rfl := Option.some.inj hq
  exact ⟨ht, hs.flags, hs.failed⟩

theorem dup2_some {src dst : Nat} (h : p.dup2 src dst = some q) (hne : src ≠ dst) :
    ∃ d, p.table src = some d ∧ Same p q ∧
      q.table = Function.update p.table dst (some ⟨d.file, false⟩) := by
  simp only [Process.dup2, Option.bind_eq_bind, Option.bind_eq_some_iff, if_neg hne,
    Option.ite_none_left_eq_some] at h
  obtain ⟨r, hr, d, hd, -, hq⟩ := h
  obtain ⟨ht, hs⟩ := enter_some hr
  obtain rfl := Option.some.inj hq
  exact ⟨d, ht ▸ hd, ⟨hs.flags, hs.failed⟩, by rw [Process.set, ht]⟩

theorem dupFd_some {src floor n : Nat} (h : p.dupFd src floor = some (n, q)) :
    ∃ d, p.table src = some d ∧ floor ≤ n ∧ p.table n = none ∧ Same p q ∧
      q.table = Function.update p.table n (some ⟨d.file, false⟩) := by
  simp only [Process.dupFd, Option.bind_eq_bind, Option.bind_eq_some_iff, Option.some.injEq,
    Prod.mk.injEq] at h
  obtain ⟨r, hr, d, hd, m, hm, rfl, rfl⟩ := h
  obtain ⟨ht, hs⟩ := enter_some hr
  have hfree : r.table m = none := by simpa using List.find?_some hm
  have hrange := List.mem_of_find?_eq_some hm
  rw [List.mem_range'_1] at hrange
  exact ⟨d, ht ▸ hd, hrange.1, ht ▸ hfree, ⟨hs.flags, hs.failed⟩, by rw [Process.set, ht]⟩

theorem close_some {fd : Nat} (h : p.close fd = some q) :
    Same p q ∧ q.table = Function.update p.table fd none := by
  simp only [Process.close, Option.bind_eq_bind, Option.bind_eq_some_iff, Option.some.injEq] at h
  obtain ⟨r, hr, -, -, rfl⟩ := h
  obtain ⟨ht, hs⟩ := enter_some hr
  exact ⟨⟨hs.flags, hs.failed⟩, by rw [Process.set, ht]⟩

theorem getFlags_some {fd : Nat} {f : Flags} (h : p.getFlags fd = some (f, q)) :
    ∃ d, p.table fd = some d ∧ f = p.flags d.file ∧ q.table = p.table ∧ Same p q := by
  simp only [Process.getFlags, Option.bind_eq_bind, Option.bind_eq_some_iff, Option.some.injEq,
    Prod.mk.injEq] at h
  obtain ⟨r, hr, d, hd, rfl, rfl⟩ := h
  obtain ⟨ht, hs⟩ := enter_some hr
  exact ⟨d, ht ▸ hd, by rw [hs.flags], ht, hs⟩

theorem setFlags_some [DecidableEq ι] {fd : Nat} {f : Flags} (h : p.setFlags fd f = some q) :
    ∃ d, p.table fd = some d ∧ q.table = p.table ∧ q.failed = p.failed ∧
      q.flags = Function.update p.flags d.file f := by
  simp only [Process.setFlags, Option.bind_eq_bind, Option.bind_eq_some_iff,
    Option.some.injEq] at h
  obtain ⟨r, hr, d, hd, rfl⟩ := h
  obtain ⟨ht, hs⟩ := enter_some hr
  exact ⟨d, ht ▸ hd, ht, hs.failed, by rw [hs.flags]⟩

theorem setCloexec_some {fd : Nat} {b : Bool} (h : p.setCloexec fd b = some q) :
    ∃ d, p.table fd = some d ∧ Same p q ∧
      q.table = Function.update p.table fd (some ⟨d.file, b⟩) := by
  simp only [Process.setCloexec, Option.bind_eq_bind, Option.bind_eq_some_iff,
    Option.some.injEq] at h
  obtain ⟨r, hr, d, hd, rfl⟩ := h
  obtain ⟨ht, hs⟩ := enter_some hr
  exact ⟨d, ht ▸ hd, ⟨hs.flags, hs.failed⟩, by rw [Process.set, ht]⟩

/-! ### Many calls -/

/-- The descriptor at `dst` now is a copy of what was at `src`. -/
def Copied (p q : Process ι) (src dst : Nat) : Prop :=
  ∃ d, p.table src = some d ∧ q.table dst = some ⟨d.file, false⟩

structure Parked (floor : Nat) (srcs : List Nat) (p : Process ι) (ns : List Nat)
    (q : Process ι) : Prop where
  nodup : ns.Nodup
  above : ∀ n ∈ ns, floor ≤ n
  fresh : ∀ n ∈ ns, p.table n = none
  same : Same p q
  others : ∀ n ∉ ns, q.table n = p.table n
  length : ns.length = srcs.length
  copies : ∀ m ∈ srcs.zip ns, Copied p q m.1 m.2

theorem park_some {floor : Nat} {srcs ns : List Nat} (h : p.park floor srcs = some (ns, q))
    (hopen : ∀ src ∈ srcs, p.table src ≠ none) : Parked floor srcs p ns q := by
  induction srcs generalizing p ns with
  | nil =>
    simp only [Process.park, Option.some.injEq, Prod.mk.injEq] at h
    obtain ⟨rfl, rfl⟩ := h
    exact ⟨List.nodup_nil, by simp, by simp, ⟨rfl, rfl⟩, by simp, rfl, by simp⟩
  | cons src srcs ih =>
    simp only [Process.park, Option.bind_eq_bind, Option.bind_eq_some_iff, Option.some.injEq,
      Prod.mk.injEq, Prod.exists] at h
    obtain ⟨n, r, hr, ms, q', hms, rfl, rfl⟩ := h
    obtain ⟨d, hd, hfloor, hfree, hs, ht⟩ := dupFd_some hr
    have hfull : r.table n = some ⟨d.file, false⟩ := by rw [ht, Function.update_self]
    have hback : ∀ x, x ≠ n → r.table x = p.table x := fun x hx => by
      rw [ht, Function.update_of_ne hx]
    -- A copy goes to a free slot, so no source is lost to one.
    have hkeep : ∀ x ∈ srcs, r.table x = p.table x := by
      intro x hx
      have hx' := hopen x (List.mem_cons_of_mem src hx)
      exact hback x fun he => hx' (he ▸ hfree)
    have hrest := ih hms fun x hx => by
      rw [hkeep x hx]
      exact hopen x (List.mem_cons_of_mem src hx)
    have hn : n ∉ ms := fun hm => by
      have hnone := hrest.fresh n hm
      rw [hfull] at hnone
      cases hnone
    refine ⟨List.nodup_cons.mpr ⟨hn, hrest.nodup⟩, ?_, ?_, hs.trans hrest.same, ?_, ?_, ?_⟩
    · intro x hx
      rcases List.mem_cons.mp hx with rfl | hx
      · exact hfloor
      · exact hrest.above x hx
    · intro x hx
      rcases List.mem_cons.mp hx with rfl | hx
      · exact hfree
      · have hxn : x ≠ n := fun he => hn (he ▸ hx)
        exact hback x hxn ▸ hrest.fresh x hx
    · intro x hx
      rw [List.mem_cons, not_or] at hx
      exact (hrest.others x hx.2).trans (hback x hx.1)
    · rw [List.length_cons, List.length_cons, hrest.length]
    · intro m hm
      rcases List.mem_cons.mp hm with rfl | hm
      · exact ⟨d, hd, (hrest.others n hn).trans hfull⟩
      · obtain ⟨e, he, hqe⟩ := hrest.copies m hm
        rw [hkeep m.1 (List.of_mem_zip hm).1] at he
        exact ⟨e, he, hqe⟩

theorem moveAll_some {moves : List (Nat × Nat)} (h : p.moveAll moves = some q)
    (hnodup : (moves.map Prod.snd).Nodup) (hapart : ∀ m ∈ moves, m.1 ∉ moves.map Prod.snd) :
    Same p q ∧ (∀ n ∉ moves.map Prod.snd, q.table n = p.table n) ∧
      ∀ m ∈ moves, Copied p q m.1 m.2 := by
  induction moves generalizing p with
  | nil =>
    obtain rfl := Option.some.inj h
    exact ⟨⟨rfl, rfl⟩, fun _ _ => rfl, by simp⟩
  | cons m moves ih =>
    obtain ⟨src, dst⟩ := m
    simp only [Process.moveAll, Option.bind_eq_bind, Option.bind_eq_some_iff] at h
    obtain ⟨r, hr, hq⟩ := h
    simp only [List.map_cons, List.nodup_cons] at hnodup
    have hne : src ≠ dst := by
      have := hapart (src, dst) (by simp)
      simp only [List.map_cons, List.mem_cons, not_or] at this
      exact this.1
    obtain ⟨d, hd, hs, ht⟩ := dup2_some hr hne
    obtain ⟨hs', hothers, hcopies⟩ := ih hq hnodup.2 fun m hm => by
      have := hapart m (List.mem_cons_of_mem _ hm)
      simp only [List.map_cons, List.mem_cons, not_or] at this
      exact this.2
    refine ⟨hs.trans hs', ?_, ?_⟩
    · intro n hn
      simp only [List.map_cons, List.mem_cons, not_or] at hn
      rw [hothers n hn.2, ht, Function.update_of_ne hn.1]
    · intro m hm
      rcases List.mem_cons.mp hm with rfl | hm
      · exact ⟨d, hd, by rw [hothers dst hnodup.1, ht, Function.update_self]⟩
      · obtain ⟨e, he, hqe⟩ := hcopies m hm
        have hm' := hapart m (List.mem_cons_of_mem _ hm)
        simp only [List.map_cons, List.mem_cons, not_or] at hm'
        exact ⟨e, by rwa [ht, Function.update_of_ne hm'.1] at he, hqe⟩

theorem closeAll_ok {fds : List Nat} (h : (p.closeAll fds).failed = false) :
    p.failed = false ∧ (p.closeAll fds).flags = p.flags ∧
      (∀ n ∉ fds, (p.closeAll fds).table n = p.table n) ∧
      ∀ n ∈ fds, (p.closeAll fds).table n = none := by
  induction fds generalizing p with
  | nil => exact ⟨h, rfl, fun _ _ => rfl, by simp⟩
  | cons fd fds ih =>
    obtain ⟨hok, hflags, hothers, hclosed⟩ := ih h
    cases hr : p.close fd with
    | none => simp [Process.ignoring, hr] at hok
    | some r =>
      obtain ⟨hs, ht⟩ := close_some hr
      simp only [Process.ignoring, hr, Option.getD_some] at hok hflags hothers
      simp only [Process.closeAll, Process.ignoring, hr, Option.getD_some] at hclosed ⊢
      refine ⟨hs.failed ▸ hok, hflags.trans hs.flags, ?_, ?_⟩
      · intro n hn
        rw [List.mem_cons, not_or] at hn
        rw [hothers n hn.2, ht, Function.update_of_ne hn.1]
      · intro n hn
        by_cases hmem : n ∈ fds
        · exact hclosed n hmem
        · obtain rfl : n = fd := (List.mem_cons.mp hn).resolve_right hmem
          rw [hothers n hmem, ht, Function.update_self]

theorem unblockAll_some [DecidableEq ι] {fds : List Nat} (h : p.unblockAll fds = some q) :
    q.table = p.table ∧ q.failed = p.failed ∧
      (∀ x, (p.flags x).nonblock = false → (q.flags x).nonblock = false) ∧
      ∀ fd ∈ fds, ∃ d, p.table fd = some d ∧ (q.flags d.file).nonblock = false := by
  induction fds generalizing p with
  | nil =>
    obtain rfl := Option.some.inj h
    exact ⟨rfl, rfl, fun _ hx => hx, by simp⟩
  | cons fd fds ih =>
    simp only [Process.unblockAll, Option.bind_eq_bind, Option.bind_eq_some_iff,
      Prod.exists] at h
    obtain ⟨f, r, hr, s, hs, hq⟩ := h
    obtain ⟨d, hd, rfl, htr, hsr⟩ := getFlags_some hr
    obtain ⟨e, he, hts, hfs, hflags⟩ := setFlags_some hs
    obtain ⟨htq, hfq, hkeep, hall⟩ := ih hq
    obtain rfl : d = e := Option.some.inj (hd.symm.trans (htr ▸ he))
    have ht : s.table = p.table := hts.trans htr
    have hclear : (s.flags d.file).nonblock = false := by rw [hflags, Function.update_self]
    refine ⟨htq.trans ht, hfq.trans (hfs.trans hsr.failed), ?_, ?_⟩
    · intro x hx
      refine hkeep x ?_
      by_cases hxd : x = d.file
      · rw [hxd, hclear]
      · rwa [hflags, Function.update_of_ne hxd, hsr.flags]
    · intro n hn
      rcases List.mem_cons.mp hn with rfl | hn
      · exact ⟨d, hd, hkeep d.file hclear⟩
      · rw [← ht]
        exact hall n hn

theorem inheritAll_some {fds : List Nat} (h : p.inheritAll fds = some q) :
    Same p q ∧ (∀ n ∉ fds, q.table n = p.table n) ∧ ∀ n ∈ fds, Copied p q n n := by
  induction fds generalizing p with
  | nil =>
    obtain rfl := Option.some.inj h
    exact ⟨⟨rfl, rfl⟩, fun _ _ => rfl, by simp⟩
  | cons fd fds ih =>
    simp only [Process.inheritAll, Option.bind_eq_bind, Option.bind_eq_some_iff] at h
    obtain ⟨r, hr, hq⟩ := h
    obtain ⟨d, hd, hs, ht⟩ := setCloexec_some hr
    obtain ⟨hs', hothers, hcopies⟩ := ih hq
    have hfull : r.table fd = some ⟨d.file, false⟩ := by rw [ht, Function.update_self]
    refine ⟨hs.trans hs', ?_, ?_⟩
    · intro n hn
      rw [List.mem_cons, not_or] at hn
      rw [hothers n hn.2, ht, Function.update_of_ne hn.1]
    · intro n hn
      by_cases hmem : n ∈ fds
      · obtain ⟨e, he, hqe⟩ := hcopies n hmem
        by_cases hfd : n = fd
        · subst hfd
          obtain rfl := Option.some.inj (hfull.symm.trans he)
          exact ⟨d, hd, hqe⟩
        · exact ⟨e, by rwa [ht, Function.update_of_ne hfd] at he, hqe⟩
      · obtain rfl : n = fd := (List.mem_cons.mp hn).resolve_right hmem
        exact ⟨d, hd, (hothers n hmem).trans hfull⟩

theorem inheritAll_file {fds : List Nat} (h : p.inheritAll fds = some q) {n : Nat} {d : Desc ι}
    (hn : p.table n = some d) :
    ∃ b, q.table n = some ⟨d.file, b⟩ ∧ (d.cloexec = false → b = false) := by
  obtain ⟨-, hothers, hcopies⟩ := inheritAll_some h
  by_cases hmem : n ∈ fds
  · obtain ⟨e, he, hq⟩ := hcopies n hmem
    obtain rfl := Option.some.inj (hn.symm.trans he)
    exact ⟨false, hq, fun _ => rfl⟩
  · exact ⟨d.cloexec, by rw [hothers n hmem, hn], fun hd => hd⟩

/-! ### Relocation -/

namespace Process

/-- Move descriptors onto targets that may be sources themselves, by copies above a floor. -/
def relocate (floor : Nat) (srcs dsts : List Nat) (p : Process ι) : Option (Process ι) := do
  let (parked, p) ← p.park floor srcs
  let p ← p.moveAll (parked.zip dsts)
  some (p.closeAll parked)

end Process

theorem exists_mem_zip {as bs cs : List Nat} {a c : Nat} (hl : bs.length = as.length)
    (h : (a, c) ∈ as.zip cs) : ∃ b, (a, b) ∈ as.zip bs ∧ (b, c) ∈ bs.zip cs := by
  induction as generalizing bs cs with
  | nil => simp at h
  | cons x as ih =>
    cases bs with
    | nil => simp at hl
    | cons b bs =>
      cases cs with
      | nil => simp at h
      | cons y cs =>
        simp only [List.zip_cons_cons, List.mem_cons, Prod.mk.injEq] at h ⊢
        rcases h with ⟨rfl, rfl⟩ | h
        · exact ⟨b, Or.inl ⟨rfl, rfl⟩, Or.inl ⟨rfl, rfl⟩⟩
        · obtain ⟨z, hz, hz'⟩ := ih (by simpa using hl) h
          exact ⟨z, Or.inr hz, Or.inr hz'⟩

/-- However sources and targets overlap. -/
theorem relocate_some {floor : Nat} {srcs dsts : List Nat}
    (h : p.relocate floor srcs dsts = some q) (hok : q.failed = false)
    (hopen : ∀ src ∈ srcs, p.table src ≠ none) (hlength : dsts.length = srcs.length)
    (hnodup : dsts.Nodup) (hbelow : ∀ dst ∈ dsts, dst < floor) :
    q.flags = p.flags ∧ (∀ n ∉ dsts, q.table n = p.table n) ∧
      ∀ m ∈ srcs.zip dsts, Copied p q m.1 m.2 := by
  simp only [Process.relocate, Option.bind_eq_bind, Option.bind_eq_some_iff, Option.some.injEq,
    Prod.exists] at h
  obtain ⟨ns, r, hr, s, hs, rfl⟩ := h
  have hp := park_some hr hopen
  have hsnd : (ns.zip dsts).map Prod.snd = dsts :=
    List.map_snd_zip (by simp [hp.length, hlength])
  have hapart : ∀ n ∈ ns, n ∉ dsts := fun n hn hd =>
    absurd (hbelow n hd) (Nat.not_lt.mpr (hp.above n hn))
  obtain ⟨hsame, hothers, hmoved⟩ := moveAll_some hs (by rwa [hsnd]) fun m hm => by
    rw [hsnd]
    exact hapart m.1 (List.of_mem_zip hm).1
  rw [hsnd] at hothers
  obtain ⟨-, hflags, hrest, hclosed⟩ := closeAll_ok hok
  refine ⟨?_, ?_, ?_⟩
  · rw [hflags, hsame.flags, hp.same.flags]
  · intro n hn
    by_cases hmem : n ∈ ns
    · rw [hclosed n hmem, hp.fresh n hmem]
    · rw [hrest n hmem, hothers n hn, hp.others n hmem]
  · rintro ⟨src, dst⟩ hm
    obtain ⟨n, hsrc, hdst⟩ := exists_mem_zip hp.length hm
    obtain ⟨d, hd, hrd⟩ := hp.copies _ hsrc
    obtain ⟨e, he, hse⟩ := hmoved _ hdst
    obtain rfl := Option.some.inj (hrd.symm.trans he)
    have hmem : dst ∉ ns := fun hin => hapart dst hin (List.of_mem_zip hm).2
    exact ⟨d, hd, (hrest dst hmem).trans hse⟩

end ShellProxy.Descriptors
