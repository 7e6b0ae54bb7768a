import ShellProxy.Session
import ShellProxy.Lib.Machine
import ShellProxy.Lib.Latest
import Mathlib.Logic.Function.Basic

/-! The state files of the sessions on the remote host: their paths, `load_state`, and the file
steps of any number of serve processes inside `save_state`. -/
namespace ShellProxy.StateStore
open Frame Session Machine Latest

def stateDir : String := ".local/share/shell-proxy/sessions"
/-- Cap for the shell state dump, in bytes. -/
def stateCap : Nat := 256 * 1024

def join (base p : String) : String :=
  if p.toList.head? = some '/' then p
  else if base = "" ∨ base.toList.getLast? = some '/' then base ++ p
  else base ++ "/" ++ p

def sessionsDir (home : String) : String := join home stateDir

/-- Second part of `state_paths`. -/
def statePath (home session : String) : String := join (sessionsDir home) (session ++ ".state")

def tmpPath (home session : String) (pid : Nat) : String :=
  join (sessionsDir home) ("." ++ session ++ "." ++ pid.repr ++ ".tmp")

/-- One component below the directory, and not one that leads back. -/
def DirectChild (dir p : String) : Prop :=
  ∃ f : String, f ≠ "" ∧ f ≠ "." ∧ f ≠ ".." ∧ '/' ∉ f.toList ∧ p = dir ++ "/" ++ f

def asBytes (s : String) : Bytes := s.toByteArray.data.toList
def fromUtf8 (b : Bytes) : Option String := String.fromUTF8? ⟨b.toArray⟩

/-- Names lead to inodes; an inode without a name keeps its content for those that have it open. -/
structure Fs where
  names : String → Option Nat := fun _ => none
  content : Nat → Bytes := fun _ => []
  next : Nat := 0

namespace Fs

def read (fs : Fs) (p : String) : Option Bytes := (fs.names p).map fs.content

/-- `create_new`: fails on a name that exists. -/
def createNew (fs : Fs) (p : String) : Option (Nat × Fs) :=
  match fs.names p with
  | some _ => none
  | none => some (fs.next,
      { names := Function.update fs.names p (some fs.next)
        content := Function.update fs.content fs.next []
        next := fs.next + 1 })

def append (fs : Fs) (fd : Nat) (b : Bytes) : Fs :=
  { fs with content := Function.update fs.content fd (fs.content fd ++ b) }

def remove (fs : Fs) (p : String) : Fs := { fs with names := Function.update fs.names p none }

/-- `rename`: fails on a name that does not exist. -/
def rename (fs : Fs) (p q : String) : Option Fs :=
  match fs.names p with
  | none => none
  | some i => some { fs with
      names := Function.update (Function.update fs.names p none) q (some i) }

end Fs

def loadState (home : String) (fs : Fs) (session : String) : Option String :=
  match fs.read (statePath home session) with
  | none => none
  | some bytes =>
    if stateCap < bytes.length then none
    else (fromUtf8 bytes).filter fun s => s ≠ ""

inductive Stage where
  | ready
  | opened (fd written : Nat)
  | failed
  | over
  deriving DecidableEq, Repr

structure Serve where
  session : SessionId
  state : String
  stage : Stage := .ready

/-- The file system, the live processes by pid, and the completed renames, oldest first. -/
structure World where
  fs : Fs := {}
  procs : Nat → Option Serve := fun _ => none
  renamed : List (SessionId × String) := []

/-- `start` takes a pid that no live process has. `giveUp` is each early return of `save_state`,
`exit` is the end of a process at any point, a crash included. -/
inductive Ev where
  | start (pid : Nat) (session : SessionId) (state : String)
  | giveUp (pid : Nat)
  | create (pid : Nat)
  | createFails (pid : Nat)
  | write (pid n : Nat)
  | ioFails (pid : Nat)
  | rename (pid : Nat)
  | cleanUp (pid : Nat) (removed : Bool)
  | exit (pid : Nat)

def World.put (w : World) (pid : Nat) (x : Serve) : World :=
  { w with procs := Function.update w.procs pid (some x) }

section
variable (home : String)

def tmpOf (pid : Nat) (x : Serve) : String := tmpPath home x.session.name pid

def step (w : World) : Ev → Option World
  | .start pid session state =>
    if (w.procs pid).isSome then none else some (w.put pid { session, state })
  | .giveUp pid => do
    let x ← w.procs pid
    if x.stage = .ready then some (w.put pid { x with stage := .over }) else none
  | .create pid => do
    let x ← w.procs pid
    if x.stage = .ready ∧ x.state.utf8ByteSize ≤ stateCap then
      match w.fs.createNew (tmpOf home pid x) with
      | none => some (w.put pid { x with stage := .failed })
      | some (fd, fs) => some ({ w with fs }.put pid { x with stage := .opened fd 0 })
    else none
  | .createFails pid => do
    let x ← w.procs pid
    if x.stage = .ready ∧ x.state.utf8ByteSize ≤ stateCap then
      some (w.put pid { x with stage := .failed })
    else none
  | .write pid n => do
    let x ← w.procs pid
    match x.stage with
    | .opened fd written =>
      if written + n ≤ (asBytes x.state).length then
        some ({ w with fs := w.fs.append fd (((asBytes x.state).drop written).take n) }.put pid
          { x with stage := .opened fd (written + n) })
      else none
    | _ => none
  | .ioFails pid => do
    let x ← w.procs pid
    match x.stage with
    | .opened _ _ => some (w.put pid { x with stage := .failed })
    | _ => none
  | .rename pid => do
    let x ← w.procs pid
    match x.stage with
    | .opened _ written =>
      if written = (asBytes x.state).length then
        match w.fs.rename (tmpOf home pid x) (statePath home x.session.name) with
        | none => some (w.put pid { x with stage := .failed })
        | some fs => some ({ w with fs, renamed := w.renamed ++ [(x.session, x.state)] }.put pid
            { x with stage := .over })
      else none
    | _ => none
  | .cleanUp pid removed => do
    let x ← w.procs pid
    if x.stage = .failed then
      some ({ w with fs := if removed then w.fs.remove (tmpOf home pid x) else w.fs }.put pid
        { x with stage := .over })
    else none
  | .exit pid => if (w.procs pid).isSome then
      some { w with procs := Function.update w.procs pid none } else none

end

section
variable {home : String}

theorem sessionsDir_ends (home : String) :
    sessionsDir home ≠ "" ∧ (sessionsDir home).toList.getLast? = some 's' := by
  have hl : (sessionsDir home).toList.getLast? = some 's' := by
    unfold sessionsDir join
    rw [if_neg (by decide)]
    split <;> simp [stateDir]
  refine ⟨?_, hl⟩
  intro he
  rw [he] at hl
  cases hl

theorem join_sessionsDir (home f : String) (h : f.toList.head? ≠ some '/') :
    join (sessionsDir home) f = sessionsDir home ++ "/" ++ f := by
  obtain ⟨hne, hl⟩ := sessionsDir_ends home
  unfold join
  rw [if_neg h, if_neg]
  rw [hl]
  simp [hne]

theorem slash_not_mem (s : SessionId) : '/' ∉ s.name.toList := by
  intro hm
  have ha := s.allowed '/' hm
  revert ha
  decide

theorem digit_of_mem_repr {n : Nat} {c : Char} (h : c ∈ n.repr.toList) : c.isDigit = true := by
  rw [Nat.toList_repr] at h
  exact Nat.isDigit_of_mem_toDigits (by decide) (by decide) h

theorem repr_inj {m n : Nat} (h : m.repr = n.repr) : m = n := by
  have hd : Nat.toDigits 10 m = Nat.toDigits 10 n := by rw [← Nat.toList_repr, h, Nat.toList_repr]
  rw [← Nat.ofDigitChars_ten_toDigits (n := m), hd, Nat.ofDigitChars_ten_toDigits]

theorem statePath_eq (home : String) (s : SessionId) :
    statePath home s.name = sessionsDir home ++ "/" ++ (s.name ++ ".state") := by
  apply join_sessionsDir
  intro hh
  have hm := List.mem_of_mem_head? hh
  rw [String.toList_append, List.mem_append] at hm
  cases hm with
  | inl hm => exact slash_not_mem s hm
  | inr hm => exact absurd hm (by decide)

theorem tmpPath_eq (home : String) (s : SessionId) (pid : Nat) :
    tmpPath home s.name pid =
      sessionsDir home ++ "/" ++ ("." ++ s.name ++ "." ++ pid.repr ++ ".tmp") := by
  apply join_sessionsDir
  simp [String.toList_append]

theorem child_of_long {dir f : String} (hlen : 2 < f.toList.length) (hs : '/' ∉ f.toList) :
    DirectChild dir (dir ++ "/" ++ f) := by
  refine ⟨f, ?_, ?_, ?_, hs, rfl⟩
  all_goals
    intro he
    rw [he] at hlen
    revert hlen
    decide

theorem statePath_child (home : String) (s : SessionId) :
    DirectChild (sessionsDir home) (statePath home s.name) := by
  rw [statePath_eq]
  apply child_of_long
  · rw [String.toList_append, List.length_append]
    have hl : ".state".toList.length = 6 := rfl
    omega
  · simp [String.toList_append, slash_not_mem s]

theorem tmpPath_child (home : String) (s : SessionId) (pid : Nat) :
    DirectChild (sessionsDir home) (tmpPath home s.name pid) := by
  have hp : '/' ∉ pid.repr.toList := by
    intro hm
    have hd := digit_of_mem_repr hm
    revert hd
    decide
  rw [tmpPath_eq]
  apply child_of_long
  · simp only [String.toList_append, List.length_append]
    have hl : ".tmp".toList.length = 4 := rfl
    omega
  · simp only [String.toList_append, List.mem_append, slash_not_mem s, hp]
    decide

theorem statePath_inj {s t : SessionId} (h : statePath home s.name = statePath home t.name) :
    s = t := by
  rw [statePath_eq, statePath_eq, String.append_right_inj, String.append_left_inj] at h
  cases s
  cases t
  simpa using h

theorem split_last {α : Type} {a : α} {l m xs ys : List α} (h : l ++ a :: xs = m ++ a :: ys)
    (hx : a ∉ xs) (hy : a ∉ ys) : l = m ∧ xs = ys := by
  cases List.append_eq_append_iff.mp h with
  | inl h =>
    obtain ⟨t, hm, ht⟩ := h
    cases t with
    | nil => simpa [hm] using ht
    | cons b t =>
      obtain ⟨-, ht⟩ := List.cons.inj ht
      exact absurd (by simp [ht]) hx
  | inr h =>
    obtain ⟨t, hl, ht⟩ := h
    cases t with
    | nil => simpa [hl, eq_comm] using ht
    | cons b t =>
      obtain ⟨-, ht⟩ := List.cons.inj ht
      exact absurd (by simp [ht]) hy

theorem dot_not_mem_repr (n : Nat) : '.' ∉ n.repr.toList := by
  intro hm
  have hd := digit_of_mem_repr hm
  revert hd
  decide

/-- Session names may hold dots, but pids do not. -/
theorem tmpPath_inj {s t : SessionId} {p q : Nat}
    (h : tmpPath home s.name p = tmpPath home t.name q) : s = t ∧ p = q := by
  rw [tmpPath_eq, tmpPath_eq, String.append_right_inj, String.append_left_inj] at h
  have hl := congrArg String.toList h
  simp only [String.toList_append, List.append_assoc] at hl
  have hl := List.append_cancel_left hl
  obtain ⟨hn, hp⟩ := split_last hl (dot_not_mem_repr p) (dot_not_mem_repr q)
  refine ⟨?_, repr_inj (String.toList_inj.mp hp)⟩
  cases s
  cases t
  simpa using String.toList_inj.mp hn

theorem tmpPath_ne_statePath (s t : SessionId) (pid : Nat) :
    tmpPath home s.name pid ≠ statePath home t.name := by
  intro h
  have hp : ("." ++ s.name ++ "." ++ pid.repr ++ ".tmp").toList.getLast? = some 'p' := by
    rw [String.toList_append, List.getLast?_append]
    rfl
  have he : (t.name ++ ".state").toList.getLast? = some 'e' := by
    rw [String.toList_append, List.getLast?_append]
    rfl
  rw [tmpPath_eq, statePath_eq, String.append_right_inj] at h
  rw [h, he] at hp
  exact absurd hp (by decide)

theorem fromUtf8_asBytes (s : String) : fromUtf8 (asBytes s) = some s := by
  have hb : (⟨(asBytes s).toArray⟩ : ByteArray) = s.toByteArray := rfl
  unfold fromUtf8 String.fromUTF8?
  rw [hb, dif_pos s.isValidUTF8]
  rfl

theorem length_asBytes (s : String) : (asBytes s).length = s.utf8ByteSize := by
  simp [asBytes]

/-- The state of the latest completed rename for exactly this session. -/
def saved (renamed : List (SessionId × String)) (s : SessionId) : Option String :=
  latest (fun p => if p.1 = s then some p.2 else none) renamed

theorem saved_concat (renamed : List (SessionId × String)) (s t : SessionId) (state : String) :
    saved (renamed ++ [(t, state)]) s = if t = s then some state else saved renamed s := by
  rw [saved, latest_concat]
  by_cases h : t = s <;> simp [h, saved]

/-- A dump is not empty: `read_pipe` reports none instead. -/
def Dumped (_ : World) : Ev → Prop
  | .start _ _ state => state ≠ ""
  | _ => True

structure Inv (home : String) (w : World) : Prop where
  fresh : ∀ p i, w.fs.names p = some i → i < w.fs.next
  inj : ∀ p q i, w.fs.names p = some i → w.fs.names q = some i → p = q
  writing : ∀ pid x fd n, w.procs pid = some x → x.stage = .opened fd n →
    w.fs.names (tmpOf home pid x) = some fd ∧ n ≤ (asBytes x.state).length ∧
      w.fs.content fd = (asBytes x.state).take n ∧ x.state.utf8ByteSize ≤ stateCap
  dumped : ∀ pid x, w.procs pid = some x → x.state ≠ ""
  stored : ∀ s : SessionId,
    w.fs.read (statePath home s.name) = (saved w.renamed s).map asBytes
  whole : ∀ s state, saved w.renamed s = some state → state ≠ "" ∧ state.utf8ByteSize ≤ stateCap

theorem inv_init (home : String) : Inv home {} where
  fresh := by simp
  inj := by simp
  writing := by simp
  dumped := by simp
  stored := by simp [saved, Fs.read]
  whole := by simp [saved]

theorem Inv.load {w : World} (h : Inv home w) (s : SessionId) :
    loadState home w.fs s.name = saved w.renamed s := by
  unfold loadState
  rw [h.stored s]
  cases hs : saved w.renamed s with
  | none => rfl
  | some state =>
    obtain ⟨hne, hcap⟩ := h.whole s state hs
    have hlen : ¬ stateCap < (asBytes state).length := by
      rw [length_asBytes]
      omega
    simp only [Option.map_some, if_neg hlen, fromUtf8_asBytes]
    simp [hne]

theorem put_self (w : World) (pid : Nat) (x : Serve) : (w.put pid x).procs pid = some x :=
  Function.update_self _ _ _

theorem put_ne (w : World) {pid q : Nat} (x : Serve) (h : q ≠ pid) :
    (w.put pid x).procs q = w.procs q := Function.update_of_ne h _ _

theorem statePath_ne_tmpOf (s : SessionId) (pid : Nat) (x : Serve) :
    statePath home s.name ≠ tmpOf home pid x := (tmpPath_ne_statePath x.session s pid).symm

theorem inv_put {w : World} (h : Inv home w) (pid : Nat) (y : Serve) (hy : y.state ≠ "")
    (hs : ∀ fd n, y.stage ≠ .opened fd n) : Inv home (w.put pid y) := by
  refine ⟨h.fresh, h.inj, ?_, ?_, h.stored, h.whole⟩
  · intro q x fd n hq hx
    by_cases he : q = pid
    · subst he
      rw [put_self] at hq
      obtain rfl := Option.some.inj hq
      exact absurd hx (hs fd n)
    · rw [put_ne w y he] at hq
      exact h.writing q x fd n hq hx
  · intro q x hq
    by_cases he : q = pid
    · subst he
      rw [put_self] at hq
      obtain rfl := Option.some.inj hq
      exact hy
    · rw [put_ne w y he] at hq
      exact h.dumped q x hq

theorem Inv.apart {w : World} (h : Inv home w) {p q : Nat} {x y : Serve} {fd n : Nat}
    (hne : p ≠ q) (hx : w.procs p = some x) (hs : x.stage = .opened fd n) :
    tmpOf home p x ≠ tmpOf home q y ∧ w.fs.names (tmpOf home q y) ≠ some fd := by
  have ht : tmpOf home p x ≠ tmpOf home q y := fun he => hne (tmpPath_inj he).2
  refine ⟨ht, ?_⟩
  intro hn
  exact ht (h.inj _ _ fd (h.writing p x fd n hx hs).1 hn)

theorem createNew_spec {fs gs : Fs} {p : String} {fd : Nat} (h : fs.createNew p = some (fd, gs)) :
    fd = fs.next ∧ gs.next = fs.next + 1 ∧
      (∀ q, gs.names q = if q = p then some fd else fs.names q) ∧
      ∀ i, gs.content i = if i = fd then [] else fs.content i := by
  unfold Fs.createNew at h
  split at h
  · cases h
  · obtain ⟨rfl, rfl⟩ := Prod.mk.inj (Option.some.inj h)
    exact ⟨rfl, rfl, fun q => Function.update_apply _ _ _ _, fun i => Function.update_apply _ _ _ _⟩

theorem rename_spec {fs gs : Fs} {p q : String} (h : fs.rename p q = some gs) :
    ∃ i, fs.names p = some i ∧ gs.content = fs.content ∧ gs.next = fs.next ∧
      ∀ r, gs.names r = if r = q then some i else if r = p then none else fs.names r := by
  unfold Fs.rename at h
  split at h
  · cases h
  · rename_i i hi
    obtain rfl := Option.some.inj h
    refine ⟨i, hi, rfl, rfl, ?_⟩
    intro r
    simp only [Function.update_apply]

theorem read_congr {fs gs : Fs} {p : String} (hn : gs.names p = fs.names p)
    (hc : ∀ i, fs.names p = some i → gs.content i = fs.content i) : gs.read p = fs.read p := by
  unfold Fs.read
  rw [hn]
  cases hp : fs.names p with
  | none => rfl
  | some i => rw [Option.map_some, Option.map_some, hc i hp]

theorem inv_files {w : World} (h : Inv home w) (pid : Nat) (x : Serve) (g : Stage) (fs : Fs)
    (renamed : List (SessionId × String)) (hx : w.procs pid = some x)
    (hnames : ∀ p, p ≠ tmpOf home pid x → (∀ s : SessionId, p ≠ statePath home s.name) →
      fs.names p = w.fs.names p)
    (hcont : ∀ q z fd n, q ≠ pid → w.procs q = some z → z.stage = .opened fd n →
      fs.content fd = w.fs.content fd)
    (hown : ∀ fd n, g = .opened fd n → fs.names (tmpOf home pid x) = some fd ∧
      n ≤ (asBytes x.state).length ∧ fs.content fd = (asBytes x.state).take n ∧
      x.state.utf8ByteSize ≤ stateCap)
    (hfresh : ∀ p i, fs.names p = some i → i < fs.next)
    (hinj : ∀ p q i, fs.names p = some i → fs.names q = some i → p = q)
    (hstored : ∀ s : SessionId, fs.read (statePath home s.name) = (saved renamed s).map asBytes)
    (hwhole : ∀ s state, saved renamed s = some state →
      state ≠ "" ∧ state.utf8ByteSize ≤ stateCap) :
    Inv home ({ w with fs, renamed }.put pid { x with stage := g }) := by
  refine ⟨hfresh, hinj, ?_, ?_, hstored, hwhole⟩
  · intro q z fd n hz hs
    by_cases he : q = pid
    · subst he
      obtain rfl := Option.some.inj ((put_self _ _ _).symm.trans hz)
      exact hown fd n hs
    · rw [put_ne _ _ he] at hz
      obtain ⟨hn, hle, hc, hcap⟩ := h.writing q z fd n hz hs
      have hne := (h.apart (y := x) he hz hs).1
      have hst : ∀ s : SessionId, tmpOf home q z ≠ statePath home s.name :=
        fun s => tmpPath_ne_statePath z.session s q
      exact ⟨(hnames _ hne hst).trans hn, hle, (hcont q z fd n he hz hs).trans hc, hcap⟩
  · intro q z hz
    by_cases he : q = pid
    · subst he
      obtain rfl := Option.some.inj ((put_self _ _ _).symm.trans hz)
      exact h.dumped q x hx
    · rw [put_ne _ _ he] at hz
      exact h.dumped q z hz

theorem inv_create {w : World} (h : Inv home w) (pid : Nat) (x : Serve) (fd : Nat) (fs : Fs)
    (hx : w.procs pid = some x) (hcap : x.state.utf8ByteSize ≤ stateCap)
    (hc : w.fs.createNew (tmpOf home pid x) = some (fd, fs)) :
    Inv home ({ w with fs }.put pid { x with stage := .opened fd 0 }) := by
  obtain ⟨hfd, hnext, hnames, hcont⟩ := createNew_spec hc
  have hold : ∀ p i, w.fs.names p = some i → fs.content i = w.fs.content i := by
    intro p i hp
    have hlt := h.fresh p i hp
    rw [hcont, if_neg (by omega)]
  have hname : ∀ p, p ≠ tmpOf home pid x → fs.names p = w.fs.names p := by
    intro p hp
    rw [hnames, if_neg hp]
  have htmp : fs.names (tmpOf home pid x) = some fd := by rw [hnames, if_pos rfl]
  have hnew : ∀ p, p ≠ tmpOf home pid x → fs.names p ≠ some fd := by
    intro p hp hn
    rw [hname p hp] at hn
    have hlt := h.fresh p fd hn
    omega
  refine inv_files h pid x (.opened fd 0) fs w.renamed hx (fun p hp _ => hname p hp) ?_ ?_ ?_ ?_ ?_
    h.whole
  · intro q z i n _ hz hs
    exact hold _ i (h.writing q z i n hz hs).1
  · intro i n hs
    obtain ⟨rfl, rfl⟩ := Stage.opened.inj hs
    exact ⟨htmp, Nat.zero_le _, by rw [hcont, if_pos rfl, List.take_zero], hcap⟩
  · intro p i hp
    by_cases he : p = tmpOf home pid x
    · rw [he, htmp] at hp
      obtain rfl := Option.some.inj hp
      omega
    · rw [hname p he] at hp
      have hlt := h.fresh p i hp
      omega
  · intro p q i hp hq
    by_cases hi : i = fd
    · subst hi
      have hpt : p = tmpOf home pid x := by_contra fun hne => hnew p hne hp
      have hqt : q = tmpOf home pid x := by_contra fun hne => hnew q hne hq
      rw [hpt, hqt]
    · have hne : ∀ r, fs.names r = some i → r ≠ tmpOf home pid x := by
        intro r hr he
        rw [he, htmp] at hr
        exact hi (Option.some.inj hr).symm
      rw [hname p (hne p hp)] at hp
      rw [hname q (hne q hq)] at hq
      exact h.inj p q i hp hq
  · intro s
    rw [← h.stored s]
    exact read_congr (hname _ (statePath_ne_tmpOf s pid x)) fun i hi => hold _ i hi

theorem inv_write {w : World} (h : Inv home w) (pid : Nat) (x : Serve) (fd m n : Nat)
    (hx : w.procs pid = some x) (hs : x.stage = .opened fd m)
    (hle : m + n ≤ (asBytes x.state).length) :
    Inv home ({ w with fs := w.fs.append fd (((asBytes x.state).drop m).take n) }.put pid
      { x with stage := .opened fd (m + n) }) := by
  obtain ⟨hn, -, hc, hcap⟩ := h.writing pid x fd m hx hs
  have hcont : ∀ i, i ≠ fd →
      (w.fs.append fd (((asBytes x.state).drop m).take n)).content i = w.fs.content i :=
    fun i hi => Function.update_of_ne hi _ _
  refine inv_files h pid x (.opened fd (m + n)) _ w.renamed hx (fun _ _ _ => rfl) ?_ ?_ h.fresh
    h.inj ?_ h.whole
  · intro q z i k hq hz hs'
    apply hcont
    intro he
    exact (h.apart (y := x) hq hz hs').2 (he ▸ hn)
  · intro i k hs'
    obtain ⟨rfl, rfl⟩ := Stage.opened.inj hs'
    refine ⟨hn, hle, ?_, hcap⟩
    calc
      (w.fs.append fd (((asBytes x.state).drop m).take n)).content fd =
          w.fs.content fd ++ ((asBytes x.state).drop m).take n := Function.update_self _ _ _
      _ = (asBytes x.state).take m ++ ((asBytes x.state).drop m).take n := by rw [hc]
      _ = (asBytes x.state).take (m + n) := List.take_add.symm
  · intro s
    rw [← h.stored s]
    refine read_congr rfl ?_
    intro i hi
    apply hcont
    intro he
    exact tmpPath_ne_statePath x.session s pid (h.inj _ _ fd hn (he ▸ hi))

theorem inv_rename {w : World} (h : Inv home w) (pid : Nat) (x : Serve) (fd : Nat) (fs : Fs)
    (hx : w.procs pid = some x) (hs : x.stage = .opened fd (asBytes x.state).length)
    (hr : w.fs.rename (tmpOf home pid x) (statePath home x.session.name) = some fs) :
    Inv home ({ w with fs, renamed := w.renamed ++ [(x.session, x.state)] }.put pid
      { x with stage := .over }) := by
  obtain ⟨hn, -, hc, hcap⟩ := h.writing pid x fd _ hx hs
  obtain ⟨i, hi, hcont, hnext, hnames⟩ := rename_spec hr
  obtain rfl := Option.some.inj (hn.symm.trans hi)
  have hback : ∀ p j, fs.names p = some j →
      (p = statePath home x.session.name ∧ j = fd) ∨ (w.fs.names p = some j ∧ j ≠ fd) := by
    intro p j hp
    rw [hnames] at hp
    split at hp
    · rename_i he
      exact .inl ⟨he, (Option.some.inj hp).symm⟩
    · split at hp
      · cases hp
      · rename_i hne
        right
        refine ⟨hp, ?_⟩
        intro he
        exact hne (h.inj p _ fd (he ▸ hp) hn)
  refine inv_files h pid x .over fs _ hx ?_ (fun _ _ _ _ _ _ _ => by rw [hcont]) ?_ ?_ ?_ ?_ ?_
  · intro p hp hst
    rw [hnames, if_neg (hst x.session), if_neg hp]
  · intro j n ho
    cases ho
  · intro p j hp
    rw [hnext]
    cases hback p j hp with
    | inl he => exact he.2 ▸ h.fresh _ fd hn
    | inr hp => exact h.fresh p j hp.1
  · intro p q j hp hq
    cases hback p j hp with
    | inl hp =>
      cases hback q j hq with
      | inl hq => rw [hp.1, hq.1]
      | inr hq => exact absurd hp.2 hq.2
    | inr hp =>
      cases hback q j hq with
      | inl hq => exact absurd hq.2 hp.2
      | inr hq => exact h.inj p q j hp.1 hq.1
  · intro s
    rw [saved_concat]
    by_cases he : x.session = s
    · subst he
      rw [if_pos rfl]
      unfold Fs.read
      rw [hnames, if_pos rfl, Option.map_some, Option.map_some, hcont, hc, List.take_length]
    · rw [if_neg he, ← h.stored s]
      apply read_congr
      · rw [hnames, if_neg fun hp => he (statePath_inj hp).symm,
          if_neg (statePath_ne_tmpOf s pid x)]
      · intro j _
        rw [hcont]
  · intro s state hst
    rw [saved_concat] at hst
    split at hst
    · obtain rfl := Option.some.inj hst
      exact ⟨h.dumped pid x hx, hcap⟩
    · exact h.whole s state hst

theorem inv_remove {w : World} (h : Inv home w) (pid : Nat) (x : Serve)
    (hx : w.procs pid = some x) :
    Inv home ({ w with fs := w.fs.remove (tmpOf home pid x) }.put pid
      { x with stage := .over }) := by
  have hnames : ∀ p, p ≠ tmpOf home pid x →
      (w.fs.remove (tmpOf home pid x)).names p = w.fs.names p :=
    fun p hp => Function.update_of_ne hp _ _
  have hback : ∀ p i, (w.fs.remove (tmpOf home pid x)).names p = some i →
      w.fs.names p = some i := by
    intro p i hp
    by_cases he : p = tmpOf home pid x
    · have hn : (w.fs.remove (tmpOf home pid x)).names p = none := by
        rw [he]
        exact Function.update_self _ _ _
      rw [hn] at hp
      cases hp
    · rwa [hnames p he] at hp
  refine inv_files h pid x .over _ w.renamed hx (fun p hp _ => hnames p hp)
    (fun _ _ _ _ _ _ _ => rfl) ?_ ?_ ?_ ?_ h.whole
  · intro i n ho
    cases ho
  · intro p i hp
    exact h.fresh p i (hback p i hp)
  · intro p q i hp hq
    exact h.inj p q i (hback p i hp) (hback q i hq)
  · intro s
    rw [← h.stored s]
    exact read_congr (hnames _ (statePath_ne_tmpOf s pid x)) fun _ _ => rfl

inductive Does (home : String) (w : World) (e : Ev) : World → Prop where
  | start (pid : Nat) (session : SessionId) (state : String) (he : e = .start pid session state) :
      Does home w e (w.put pid { session, state })
  | stage (pid : Nat) (x : Serve) (g : Stage) (hx : w.procs pid = some x)
      (hg : ∀ fd n, g ≠ .opened fd n) : Does home w e (w.put pid { x with stage := g })
  | create (pid : Nat) (x : Serve) (fd : Nat) (fs : Fs) (hx : w.procs pid = some x)
      (hcap : x.state.utf8ByteSize ≤ stateCap)
      (hc : w.fs.createNew (tmpOf home pid x) = some (fd, fs)) :
      Does home w e ({ w with fs }.put pid { x with stage := .opened fd 0 })
  | write (pid : Nat) (x : Serve) (fd m n : Nat) (hx : w.procs pid = some x)
      (hs : x.stage = .opened fd m) (hle : m + n ≤ (asBytes x.state).length) :
      Does home w e ({ w with fs := w.fs.append fd (((asBytes x.state).drop m).take n) }.put pid
        { x with stage := .opened fd (m + n) })
  | rename (pid : Nat) (x : Serve) (fd : Nat) (fs : Fs) (he : e = .rename pid)
      (hx : w.procs pid = some x) (hs : x.stage = .opened fd (asBytes x.state).length)
      (hr : w.fs.rename (tmpOf home pid x) (statePath home x.session.name) = some fs) :
      Does home w e ({ w with fs, renamed := w.renamed ++ [(x.session, x.state)] }.put pid
        { x with stage := .over })
  | remove (pid : Nat) (x : Serve) (hx : w.procs pid = some x) :
      Does home w e ({ w with fs := w.fs.remove (tmpOf home pid x) }.put pid
        { x with stage := .over })
  | exit (pid : Nat) : Does home w e { w with procs := Function.update w.procs pid none }

theorem does_of_step {w d : World} {e : Ev} (hs : step home w e = some d) : Does home w e d := by
  cases e with
  | start pid session state =>
    obtain ⟨-, hs⟩ := Option.ite_none_left_eq_some.mp hs
    obtain rfl := Option.some.inj hs
    exact .start pid session state rfl
  | giveUp pid =>
    obtain ⟨x, hx, hs⟩ := Option.bind_eq_some_iff.mp hs
    obtain ⟨-, hs⟩ := Option.ite_none_right_eq_some.mp hs
    obtain rfl := Option.some.inj hs
    exact .stage pid x .over hx (by simp)
  | create pid =>
    obtain ⟨x, hx, hs⟩ := Option.bind_eq_some_iff.mp hs
    obtain ⟨⟨-, hcap⟩, hs⟩ := Option.ite_none_right_eq_some.mp hs
    split at hs
    · obtain rfl := Option.some.inj hs
      exact .stage pid x .failed hx (by simp)
    · rename_i fd fs hc
      obtain rfl := Option.some.inj hs
      exact .create pid x fd fs hx hcap hc
  | createFails pid =>
    obtain ⟨x, hx, hs⟩ := Option.bind_eq_some_iff.mp hs
    obtain ⟨-, hs⟩ := Option.ite_none_right_eq_some.mp hs
    obtain rfl := Option.some.inj hs
    exact .stage pid x .failed hx (by simp)
  | write pid n =>
    obtain ⟨x, hx, hs⟩ := Option.bind_eq_some_iff.mp hs
    split at hs
    · rename_i fd m hg
      obtain ⟨hle, hs⟩ := Option.ite_none_right_eq_some.mp hs
      obtain rfl := Option.some.inj hs
      exact .write pid x fd m n hx hg hle
    · cases hs
  | ioFails pid =>
    obtain ⟨x, hx, hs⟩ := Option.bind_eq_some_iff.mp hs
    split at hs
    · obtain rfl := Option.some.inj hs
      exact .stage pid x .failed hx (by simp)
    · cases hs
  | rename pid =>
    obtain ⟨x, hx, hs⟩ := Option.bind_eq_some_iff.mp hs
    split at hs
    · rename_i fd m hg
      obtain ⟨hm, hs⟩ := Option.ite_none_right_eq_some.mp hs
      rw [hm] at hg
      split at hs
      · obtain rfl := Option.some.inj hs
        exact .stage pid x .failed hx (by simp)
      · rename_i fs hr
        obtain rfl := Option.some.inj hs
        exact .rename pid x fd fs rfl hx hg hr
    · cases hs
  | cleanUp pid removed =>
    obtain ⟨x, hx, hs⟩ := Option.bind_eq_some_iff.mp hs
    obtain ⟨-, hs⟩ := Option.ite_none_right_eq_some.mp hs
    obtain rfl := Option.some.inj hs
    cases removed with
    | true => exact .remove pid x hx
    | false => exact .stage pid x .over hx (by simp)
  | exit pid =>
    obtain ⟨-, hs⟩ := Option.ite_none_right_eq_some.mp hs
    obtain rfl := Option.some.inj hs
    exact .exit pid

theorem inv_step {w d : World} {e : Ev} (h : Inv home w) (ho : Dumped w e)
    (hs : step home w e = some d) : Inv home d := by
  cases does_of_step hs with
  | start pid session state he =>
    subst he
    exact inv_put h pid _ ho (by simp)
  | stage pid x g hx hg => exact inv_put h pid _ (h.dumped pid x hx) hg
  | create pid x fd fs hx hcap hc => exact inv_create h pid x fd fs hx hcap hc
  | write pid x fd m n hx hg hle => exact inv_write h pid x fd m n hx hg hle
  | rename pid x fd fs _ hx hg hr => exact inv_rename h pid x fd fs hx hg hr
  | remove pid x hx => exact inv_remove h pid x hx
  | exit pid =>
    have hall : ∀ q x, Function.update w.procs pid none q = some x → w.procs q = some x := by
      intro q x hq
      by_cases he : q = pid
      · rw [he, Function.update_self] at hq
        cases hq
      · rwa [Function.update_of_ne he] at hq
    refine ⟨h.fresh, h.inj, ?_, ?_, h.stored, h.whole⟩
    · intro q x fd n hq
      exact h.writing q x fd n (hall q x hq)
    · intro q x hq
      exact h.dumped q x (hall q x hq)

/-- No process has this inode open, and none will: its bytes stay what they are. -/
def Settled (w : World) (i : Nat) : Prop :=
  i < w.fs.next ∧ ∀ pid x n, w.procs pid = some x → x.stage ≠ .opened i n

theorem settled_put {w v : World} {i pid : Nat} {y : Serve} (h : Settled w i)
    (hp : v.procs = w.procs) (hn : w.fs.next ≤ v.fs.next) (hy : ∀ n, y.stage ≠ .opened i n) :
    Settled (v.put pid y) i := by
  obtain ⟨hlt, ho⟩ := h
  refine ⟨Nat.lt_of_lt_of_le hlt hn, ?_⟩
  intro q x n hq
  by_cases he : q = pid
  · subst he
    obtain rfl := Option.some.inj ((put_self _ _ _).symm.trans hq)
    exact hy n
  · rw [put_ne _ _ he, hp] at hq
    exact ho q x n hq

theorem settled_step {w d : World} {e : Ev} {i : Nat} (h : Settled w i)
    (hs : step home w e = some d) : Settled d i ∧ d.fs.content i = w.fs.content i := by
  cases does_of_step hs with
  | start pid session state => exact ⟨settled_put h rfl (Nat.le_refl _) (by simp), rfl⟩
  | stage pid x g hx hg => exact ⟨settled_put h rfl (Nat.le_refl _) fun n => hg i n, rfl⟩
  | create pid x fd fs hx hcap hc =>
    obtain ⟨hfd, hnext, -, hcont⟩ := createNew_spec hc
    have hne : i ≠ fd := by
      have hlt := h.1
      omega
    refine ⟨settled_put h rfl (by rw [hnext]; exact Nat.le_succ _) ?_, ?_⟩
    · intro n he
      exact hne (Stage.opened.inj he).1.symm
    · exact (hcont i).trans (if_neg hne)
  | write pid x fd m n hx hg hle =>
    have hne : i ≠ fd := by
      rintro rfl
      exact h.2 pid x m hx hg
    refine ⟨settled_put h rfl (Nat.le_refl _) ?_, Function.update_of_ne hne _ _⟩
    intro k he
    exact hne (Stage.opened.inj he).1.symm
  | rename pid x fd fs _ hx hg hr =>
    obtain ⟨j, -, hcont, hnext, -⟩ := rename_spec hr
    exact ⟨settled_put h rfl (Nat.le_of_eq hnext.symm) (by simp), congrFun hcont i⟩
  | remove pid x hx => exact ⟨settled_put h rfl (Nat.le_refl _) (by simp), rfl⟩
  | exit pid =>
    refine ⟨⟨h.1, ?_⟩, rfl⟩
    intro q x n hq
    by_cases he : q = pid
    · rw [he] at hq
      exact absurd ((Function.update_self _ _ _).symm.trans hq) (by simp)
    · exact h.2 q x n ((Function.update_of_ne he _ _).symm.trans hq)

/-- Only a completed rename changes what was saved, and for its own session. -/
theorem renamed_step {w d : World} {e : Ev} (hs : step home w e = some d) :
    d.renamed = w.renamed ∨ ∃ pid x, e = .rename pid ∧ w.procs pid = some x ∧
      d.renamed = w.renamed ++ [(x.session, x.state)] := by
  cases does_of_step hs with
  | rename pid x fd fs he hx hg hr => exact .inr ⟨pid, x, he, hx, rfl⟩
  | start | stage | create | write | remove | exit => exact .inl rfl

/-- The naming scheme: nothing leaves the directory, and no two of these files share a name. -/
def PathsApart (home : String) : Prop := ∀ (s t : SessionId) (p q : Nat),
  DirectChild (sessionsDir home) (statePath home s.name) ∧
    DirectChild (sessionsDir home) (tmpPath home s.name p) ∧
    (s ≠ t → statePath home s.name ≠ statePath home t.name) ∧
    tmpPath home s.name p ≠ statePath home t.name ∧
    (p ≠ q → tmpPath home s.name p ≠ tmpPath home t.name q)

theorem paths_apart (home : String) : PathsApart home := by
  intro s t p q
  refine ⟨statePath_child home s, tmpPath_child home s p, ?_, tmpPath_ne_statePath s t p, ?_⟩
  · intro hne he
    exact hne (statePath_inj he)
  · intro hne he
    exact hne (tmpPath_inj he).2

theorem settled_of_state {w : World} (h : Inv home w) {s : SessionId} {i : Nat}
    (hi : w.fs.names (statePath home s.name) = some i) : Settled w i := by
  refine ⟨h.fresh _ i hi, ?_⟩
  intro pid x n hx hg
  have hn := (h.writing pid x i n hx hg).1
  exact statePath_ne_tmpOf s pid x (h.inj _ _ i hi hn)

end

/-- At every moment of every interleaving a session's state file reads as the state of the latest
completed rename for exactly that session, and only such a rename changes what it reads as; the
file that has the name is never written again, so one read in pieces is read whole. -/
theorem state_store_atomic (home : String) (es : List Ev) (w : World)
    (h : Path (step home) Dumped {} es w) :
    (∀ s : SessionId, loadState home w.fs s.name = saved w.renamed s) ∧
      (∀ e d, Dumped w e → step home w e = some d → ∀ s : SessionId,
        loadState home d.fs s.name = loadState home w.fs s.name ∨
          ∃ pid x, e = .rename pid ∧ w.procs pid = some x ∧ x.session = s ∧
            d.renamed = w.renamed ++ [(s, x.state)] ∧
            loadState home d.fs s.name = some x.state) ∧
      (∀ (s : SessionId) i, w.fs.names (statePath home s.name) = some i →
        ∀ fs d, Path (step home) Any w fs d → d.fs.content i = w.fs.content i) ∧
      PathsApart home := by
  have hi := h.invariant (I := Inv home) (fun u e v hu ho hs => inv_step hu ho hs) (inv_init home)
  refine ⟨hi.load, ?_, ?_, paths_apart home⟩
  · intro e d ho hs s
    have hd := inv_step hi ho hs
    rw [hd.load s, hi.load s]
    cases renamed_step hs with
    | inl hr => exact .inl (by rw [hr])
    | inr hr =>
      obtain ⟨pid, x, he, hx, hr⟩ := hr
      rw [hr, saved_concat]
      by_cases hxs : x.session = s
      · subst hxs
        exact .inr ⟨pid, x, he, hx, rfl, rfl, if_pos rfl⟩
      · exact .inl (if_neg hxs)
  · intro s i hs fs d hp
    have hset := settled_of_state hi hs
    have hkeep := hp.invariant (I := fun v => Settled v i ∧ v.fs.content i = w.fs.content i)
      (fun u e v hu _ hs => by
        obtain ⟨hv, hc⟩ := settled_step hu.1 hs
        exact ⟨hv, hc.trans hu.2⟩) ⟨hset, rfl⟩
    exact hkeep.2

/-- The names of one dot and of two dots are session names like others. -/
def dot : SessionId := ⟨".", by decide, by decide, by simp [isAllowed]⟩
def dots : SessionId := ⟨"..", by decide, by decide, by simp [isAllowed]⟩

/-- One save completes; another is cut by a crash, and the next process with its pid finds the
temp file in its way and removes it. -/
def sampleRun : List Ev :=
  [.start 7 dot "x=1", .start 8 dots "y=2", .create 7, .create 8, .write 7 3, .write 8 1,
    .rename 7, .exit 8, .start 8 dots "y=3", .create 8, .cleanUp 8 true, .exit 8, .exit 7]

theorem state_store_atomic_sample :
    ∃ w, run (step "/root") sampleRun {} = some w ∧ w.renamed = [(dot, "x=1")] ∧
      (∀ s : SessionId, loadState "/root" w.fs s.name = saved w.renamed s) ∧
      PathsApart "/root" := by
  have hok : ∀ e ∈ sampleRun, ∀ u, Dumped u e := by simp [sampleRun, Dumped]
  have hrun : ∃ w, run (step "/root") sampleRun {} = some w ∧ w.renamed = [(dot, "x=1")] :=
    ⟨_, rfl, rfl⟩
  obtain ⟨w, hw, hr⟩ := hrun
  have hall := state_store_atomic "/root" sampleRun w (path_of_run_all hok hw)
  exact ⟨w, hw, hr, hall.1, hall.2.2.2⟩

end ShellProxy.StateStore
