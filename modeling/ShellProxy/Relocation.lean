import ShellProxy.Lib.Descriptors

/-! What the child does between fork and exec: the descriptors of the parent's numbering are moved
onto the fixed numbers that the wrapper scripts refer to. -/
namespace ShellProxy.Relocation
open ShellProxy.Descriptors

def fdStderr : Nat := 3
def fdRcfile : Nat := 7
def fdCmd : Nat := 8
def fdRestore : Nat := 9
def fdCwd : Nat := 10
def fdDump : Nat := 11

def scratchFloor : Nat := fdDump + 1

/-- The child's ends of the pipes and the memfds, wherever the parent had free slots. -/
structure Sources where
  inFd : Nat
  outFd : Nat
  errFd : Nat
  rcFd : Nat
  cmdFd : Nat
  restoreFd : Nat
  pwdFd : Nat
  dumpFd : Nat

def Sources.all (s : Sources) : List Nat :=
  [s.inFd, s.outFd, s.errFd, s.rcFd, s.cmdFd, s.restoreFd, s.pwdFd, s.dumpFd]

def Sources.moved (s : Sources) : List Nat :=
  [s.errFd, s.rcFd, s.cmdFd, s.restoreFd, s.pwdFd, s.dumpFd]

def targets : List Nat := [fdStderr, fdRcfile, fdCmd, fdRestore, fdCwd, fdDump]

def pipeEnds : List Nat := [0, 1, fdStderr, fdCwd, fdDump]

/-- The table of the module's documentation. -/
def Sources.layout (s : Sources) : List (Nat × Nat) :=
  [(s.inFd, 0), (s.outFd, 1), (s.errFd, 3), (s.rcFd, 7), (s.cmdFd, 8), (s.restoreFd, 9),
    (s.pwdFd, 10), (s.dumpFd, 11)]

variable {ι : Type}

def preExec [DecidableEq ι] (src : Sources) (p : Process ι) : Option (Process ι) := do
  let p ← p.setsid
  let p ← p.dup2 src.inFd 0
  let p ← p.dup2 src.outFd 1
  let p ← p.relocate scratchFloor src.moved targets
  let p ← p.unblockAll pipeEnds
  p.inheritAll [fdRcfile, fdCmd, fdRestore, fdStderr, fdCwd, fdDump]

structure Relocated (src : Sources) (k q : Process ι) : Prop where
  assigned : ∀ m ∈ src.layout, Copied k q m.1 m.2
  blocking : ∀ fd ∈ pipeEnds, ∃ d, q.table fd = some d ∧ (q.flags d.file).nonblock = false
  scratch : ∀ fd, scratchFloor ≤ fd → k.table fd = none → q.table fd = none
  others : ∀ fd, fd ∉ 0 :: 1 :: targets → q.table fd = k.table fd

theorem stdio_some {p q r s : Process ι} {i o : Nat} (hs : p.setsid = some q)
    (hi : q.dup2 i 0 = some r) (ho : r.dup2 o 1 = some s) (hi3 : 3 ≤ i) (ho3 : 3 ≤ o) :
    Copied p s i 0 ∧ Copied p s o 1 ∧ ∀ n, n ≠ 0 → n ≠ 1 → s.table n = p.table n := by
  obtain ⟨htq, -⟩ := setsid_some hs
  obtain ⟨d, hd, -, htr⟩ := dup2_some hi (by omega)
  obtain ⟨e, he, -, hts⟩ := dup2_some ho (by omega)
  have ho0 : o ≠ 0 := by omega
  rw [htr, Function.update_of_ne ho0] at he
  rw [htq] at hd he htr
  refine ⟨⟨d, hd, ?_⟩, ⟨e, he, ?_⟩, ?_⟩
  · rw [hts, Function.update_of_ne Nat.zero_ne_one, htr, Function.update_self]
  · rw [hts, Function.update_self]
  · intro n h0 h1
    rw [hts, Function.update_of_ne h1, htr, Function.update_of_ne h0]

theorem mem_layout {src : Sources} {m : Nat × Nat} (h : m ∈ src.layout) :
    m = (src.inFd, 0) ∨ m = (src.outFd, 1) ∨ m ∈ src.moved.zip targets := by
  simpa [Sources.layout, Sources.moved, targets, fdStderr, fdRcfile, fdCmd, fdRestore, fdCwd,
    fdDump] using h

/-- However the sources overlap the targets, two of them on one descriptor included. -/
theorem preExec_relocated [DecidableEq ι] {src : Sources} {k q : Process ι} (hfds : ∀ fd ∈ src.all, 3 ≤ fd)
    (hopen : ∀ fd ∈ src.all, k.table fd ≠ none) (h : preExec src k = some q)
    (hok : q.failed = false) : Relocated src k q := by
  simp only [preExec, Option.bind_eq_bind, Option.bind_eq_some_iff] at h
  obtain ⟨a, ha, b, hb, c, hc, d, hd, e, he, hq⟩ := h
  have hmoved : ∀ fd ∈ src.moved, fd ∈ src.all := fun fd hfd =>
    List.mem_cons_of_mem _ (List.mem_cons_of_mem _ hfd)
  obtain ⟨hin, hout, hstdio⟩ := stdio_some ha hb hc (hfds _ (by simp [Sources.all]))
    (hfds _ (by simp [Sources.all]))
  have hkeep : ∀ fd ∈ src.moved, c.table fd = k.table fd := fun fd hfd => by
    have h3 := hfds fd (hmoved fd hfd)
    exact hstdio fd (by omega) (by omega)
  obtain ⟨hsame, hothers, hinherit⟩ := inheritAll_some hq
  obtain ⟨hte, hfe, -, hblocking⟩ := unblockAll_some he
  have hdok : d.failed = false := by rw [← hfe, ← hsame.failed, hok]
  obtain ⟨-, hrest, hcopies⟩ := relocate_some hd hdok
    (fun fd hfd => by rw [hkeep fd hfd]; exact hopen fd (hmoved fd hfd)) rfl (by decide)
    (by decide)
  -- The sweep over the targets rewrites what they hold already.
  have hsweep : ∀ n f, d.table n = some ⟨f, false⟩ → q.table n = some ⟨f, false⟩ := by
    intro n f hn
    obtain ⟨b, hb, hkept⟩ := inheritAll_file hq (hte ▸ hn)
    rw [hb, hkept rfl]
  have hassigned : ∀ m ∈ src.layout, Copied k q m.1 m.2 := by
    intro m hm
    rcases mem_layout hm with rfl | rfl | hm
    · obtain ⟨x, hx, hcx⟩ := hin
      exact ⟨x, hx, hsweep 0 x.file ((hrest 0 (by decide)).trans hcx)⟩
    · obtain ⟨x, hx, hcx⟩ := hout
      exact ⟨x, hx, hsweep 1 x.file ((hrest 1 (by decide)).trans hcx)⟩
    · obtain ⟨x, hx, hdx⟩ := hcopies m hm
      rw [hkeep m.1 (List.of_mem_zip hm).1] at hx
      exact ⟨x, hx, hsweep m.2 x.file hdx⟩
  have houtside : ∀ fd, fd ∉ 0 :: 1 :: targets → q.table fd = k.table fd := by
    intro fd hfd
    simp only [List.mem_cons, not_or] at hfd
    obtain ⟨h0, h1, ht⟩ := hfd
    have hsw : fd ∉ [fdRcfile, fdCmd, fdRestore, fdStderr, fdCwd, fdDump] := by
      simp only [targets, List.mem_cons, not_or] at ht ⊢
      tauto
    rw [hothers fd hsw, hte, hrest fd ht, hstdio fd h0 h1]
  refine ⟨hassigned, ?_, ?_, houtside⟩
  · intro fd hfd
    obtain ⟨x, hx, hfx⟩ := hblocking fd hfd
    obtain ⟨b, hb, -⟩ := inheritAll_file hq (hte ▸ hx)
    exact ⟨_, hb, by rwa [hsame.flags]⟩
  · intro fd hfloor hfree
    have hfd : fd ∉ 0 :: 1 :: targets := by
      simp only [scratchFloor, targets, fdStderr, fdRcfile, fdCmd, fdRestore, fdCwd, fdDump,
        List.mem_cons, not_or] at hfloor ⊢
      simp
      omega
    rw [houtside fd hfd, hfree]

/-- Every target is occupied: the sources sit on one another's targets, in cycles and chains. -/
def crowded : Process Nat where
  table fd := if fd < 14 then some ⟨100 + fd, decide (2 < fd)⟩ else none
  flags _ := ⟨true, 2⟩
  limit := 32

def entangled : Sources := ⟨11, 10, 7, 8, 3, 13, 9, 12⟩

theorem preExec_relocated_crowded :
    ∃ q, preExec entangled crowded = some q ∧ Relocated entangled crowded q := by
  have hrun : (preExec entangled crowded).map Process.failed = some false := by decide +kernel
  obtain ⟨q, hq, hok⟩ := Option.map_eq_some_iff.mp hrun
  exact ⟨q, hq, preExec_relocated (by decide) (by decide) hq hok⟩

end ShellProxy.Relocation
