import ShellProxy.Lib.Machine
import ShellProxy.ServeDir
import Mathlib.Data.List.AList

/-! Deploys of serve binaries to one remote account. The remote commands of any number of deploys
interleave; a connection keeps the path its deploy returned. -/
namespace ShellProxy.Deploy
open Frame HostPattern ServeDir Machine
variable {ι : Type}

structure File where
  content : Bytes
  mtime : Nat
  executable : Bool
  deriving DecidableEq, Repr

abbrev Files := AList fun _ : FileName => File

/-- The directory of the binaries, with the clock of the machine in minutes. -/
structure Disk where
  dir : Bool
  files : Files
  now : Nat

/-- One index is one call of `deploy`: the daemon that makes it, its build and its nonce. The rest
is the remote machine. -/
structure Fleet (ι : Type) where
  version : ι → FileName
  serveVersion : ι → Text
  embedded : ι → Arch → Bytes
  nonce : ι → FileName
  host : ι → String
  home : Home
  digest : Bytes → Bytes
  digest_length : ∀ b, (digest b).length = 32
  versionRun : Bytes → Nat × Text

/-- The commands of `deploy` after `uname`, each with what the caller still holds. -/
inductive Stage where
  | check (again : Bool)
  | pull (again : Bool)
  | mkdir
  | openUpload
  | write (sent : Nat)
  | chmod
  | mv
  | ls
  | find (stale : List Text)
  | rm (todo : List Text)
  | version
  deriving DecidableEq

inductive Phase where
  | start
  | busy (arch : Arch) (stage : Stage)
  | cached (arch : Arch) (path : Text)
  | failed (e : Errors.Error)
  | dropped
  deriving DecidableEq

structure World (ι : Type) where
  disk : Disk
  phase : ι → Phase

/-- What happens to the command in flight: its true answer, one more part of an upload, one more
name off the `rm` line, a nonzero or lost status, an ssh error, the deadline of first contact. -/
inductive Move where
  | answer
  | chunk (k : Nat)
  | unlink
  | fault (status : Option Nat) (text : Text)
  | broken (m : String)
  | timeout
  deriving DecidableEq

inductive Event (ι : Type) where
  | uname (i : ι) (status : Option Nat) (out : Text)
  | move (i : ι) (m : Move)
  | drop (i : ι)
  | tick
  deriving DecidableEq

variable (F : Fleet ι)

def Fleet.name (i : ι) (a : Arch) : FileName := serveName (F.version i) a
def Fleet.path (i : ι) (a : Arch) : Text := pathOf (F.name i a)
def Fleet.temp (i : ι) : FileName := uploadName (F.nonce i)
def Fleet.tempPath (i : ι) : Text := pathOf (F.temp i)

/-- `embed::serve_binary`; a placeholder is empty. -/
def Fleet.serveBinary (i : ι) (a : Arch) : Option Bytes :=
  if F.embedded i a = [] then none else some (F.embedded i a)

def rcOf (status : Option Nat) : Nat :=
  match status with
  | some n => if n < 0x80000000 then n else 255
  | none => 255

def showStatus : Option Nat → String
  | some n => s!"Some({n})"
  | none => "None"

def str (t : Text) : String := String.ofList t

def Fleet.detect (i : ι) (status : Option Nat) (out : Text) : Phase :=
  if rcOf status ≠ 0 then .failed (.remote s!"`uname -m` failed with rc={rcOf status}")
  else
    match Arch.parse out with
    | none => .failed (.remote s!"unsupported remote arch: {str (trim out)}")
    | some a =>
      match F.serveBinary i a with
      | none =>
        .failed (.remote (s!"no embedded sp-serve binary for {str a.asStr}; set {a.envVar} " ++
          "to a musl build of sp-serve and rebuild"))
      | some _ => .busy a (.check false)

def Fleet.matched (i : ι) (a : Arch) (again same : Bool) : Phase :=
  if same then .busy a .ls
  else if again then
    .failed (.remote s!"deployed {str (F.path i a)} failed checksum verification")
  else .busy a .mkdir

def cleanup (a : Arch) (stale : List Text) : Phase :=
  .busy a (if stale = [] then .version else .rm stale)

def Fleet.checked (i : ι) (a : Arch) (rc : Nat) (out : Text) : Phase :=
  match verifyServeVersion out rc ("sp-serve ".toList ++ F.serveVersion i) with
  | .ok () => .cached a (F.path i a)
  | .error reason => .failed (versionMismatch (F.path i a) a reason)

def execFailed (cmd : String) (rc : Nat) (err : Text) : Phase :=
  .failed (.remote s!"`{cmd}` failed with rc={rc}: {str (trim err)}")

/-- The names `find -mmin +10` looks at. -/
def Disk.aged (d : Disk) : List FileName :=
  (d.files.entries.filter fun e => uploadGcMinutes < d.now - e.2.mtime).map (·.1)

/-- A command runs to its end on the remote side. -/
def Fleet.answer (i : ι) (d : Disk) (a : Arch) : Stage → Option (Disk × Phase)
  | .check again =>
    let hex f := encodeHex (F.digest f)
    let same := match d.files.lookup (F.name i a) with
      | some f => sumMatches (sumLine (hex f.content) (F.path i a)) (hex (F.embedded i a))
      | none => false
    some (d, F.matched i a again same)
  | .pull again =>
    let same := match d.files.lookup (F.name i a) with
      | some f => decide (F.digest f.content = F.digest (F.embedded i a))
      | none => false
    some (d, F.matched i a again same)
  | .mkdir => some ({ d with dir := true }, .busy a .openUpload)
  | .openUpload =>
    -- `cat >` empties a file that is already there and keeps its mode
    let mode := (d.files.lookup (F.temp i)).elim false (·.executable)
    if d.dir then
      some ({ d with files := d.files.insert (F.temp i) ⟨[], d.now, mode⟩ }, .busy a (.write 0))
    else none
  | .write sent => if sent = (F.embedded i a).length then some (d, .busy a .chmod) else none
  | .chmod =>
    (d.files.lookup (F.temp i)).map fun f =>
      ({ d with files := d.files.insert (F.temp i) { f with executable := true } }, .busy a .mv)
  | .mv =>
    (d.files.lookup (F.temp i)).map fun f =>
      ({ d with files := (d.files.erase (F.temp i)).insert (F.name i a) f },
        .busy a (.check true))
  | .ls =>
    some (d, .busy a (if d.dir then .find (staleServe (F.name i a).text (lsOut d.files.keys))
      else .version))
  | .find stale => some (d, cleanup a (stale ++ staleUploads (findOut F.home d.aged)))
  | .rm todo => if todo = [] then some (d, .busy a .version) else none
  | .version =>
    let (rc, out) := match d.files.lookup (F.name i a) with
      | some f => if f.executable then F.versionRun f.content else (126, [])
      | none => (127, [])
    some (d, F.checked i a rc out)

/-- A command whose status is not 0. Failed lists only shorten the cleanup, and a failed cleanup is
no error. -/
def Fleet.faulted (i : ι) (a : Arch) (status : Option Nat) (text : Text) : Stage → Phase
  | .check again =>
    if rcOf status = 127 then .busy a (.pull again) else F.matched i a again false
  | .pull again => F.matched i a again false
  | .mkdir => execFailed s!"mkdir -p {str serveDir}" (rcOf status) text
  | .openUpload | .write _ =>
    .failed (.remote (s!"upload to {str (F.tempPath i)} failed (status={showStatus status}); " ++
      "is the home directory writable?"))
  | .chmod => execFailed s!"chmod 700 {str (F.tempPath i)}" (rcOf status) text
  | .mv => execFailed s!"mv {str (F.tempPath i)} {str (F.path i a)}" (rcOf status) text
  | .ls => .busy a .version
  | .find stale => cleanup a stale
  | .rm _ => .busy a .version
  | .version => F.checked i a (rcOf status) text

def brokenPhase (a : Arch) (m : String) : Stage → Phase
  | .ls | .find _ | .rm _ => .busy a .version
  | _ => .failed (.remote m)

def Fleet.act (i : ι) (d : Disk) (a : Arch) (st : Stage) : Move → Option (Disk × Phase)
  | .answer => F.answer i d a st
  | .chunk k =>
    match st with
    | .write sent =>
      if 0 < k ∧ sent + k ≤ (F.embedded i a).length then
        let more := ((F.embedded i a).drop sent).take k
        -- bytes for a name that is gone go to the open inode
        let files := match d.files.lookup (F.temp i) with
          | some f =>
            d.files.insert (F.temp i) { f with content := f.content ++ more, mtime := d.now }
          | none => d.files
        some ({ d with files }, .busy a (.write (sent + k)))
      else none
    | _ => none
  | .unlink =>
    match st with
    | .rm (p :: todo) =>
      let files := match F.home.resolve p with
        | some n => d.files.erase n
        | none => d.files
      some ({ d with files }, .busy a (.rm todo))
    | _ => none
  | .fault status text => if rcOf status = 0 then none else some (d, F.faulted i a status text st)
  | .broken m => some (d, brokenPhase a m st)
  | .timeout =>
    some (d, .failed (.connect s!"host {F.host i}: connect or deploy did not complete within 60s"))

/-- One step of one deploy, of a connection that goes away, or of the clock. -/
def step [DecidableEq ι] (s : World ι) : Event ι → Option (World ι)
  | .uname i status out =>
    if s.phase i = .start then
      some { s with phase := Function.update s.phase i (F.detect i status out) }
    else none
  | .move i m =>
    match s.phase i with
    | .busy a st =>
      (F.act i s.disk a st m).map fun r => ⟨r.1, Function.update s.phase i r.2⟩
    | _ => none
  | .drop i =>
    match s.phase i with
    | .cached _ _ => some { s with phase := Function.update s.phase i .dropped }
    | _ => none
  | .tick => some { s with disk := { s.disk with now := s.disk.now + 1 } }

/-- Nobody has begun; the directory holds whatever it holds. -/
def start (d : Disk) : World ι := ⟨d, fun _ => .start⟩

/-! ### What one step does to the directory -/

def Holds (fs : Files) (n : FileName) (P : File → Prop) : Prop :=
  ∀ f, fs.lookup n = some f → P f

/-- The contents the digest tells apart from the embedded binaries: those that were there at the
start, and what has been sent of a binary. -/
def Origin (fs : Files) (c : Bytes) : Prop :=
  (∃ n f, fs.lookup n = some f ∧ f.content = c) ∨ ∃ i a, c <+: F.embedded i a

/-- All one deploy can do to the files: its own upload, the rename of a whole one, and removals
that leave its own binary alone. -/
inductive Change (O : Bytes → Prop) (i : ι) (a : Arch) (st : Stage) (m : Move) (fs : Files) :
    Files → Prop where
  | same : Change O i a st m fs fs
  | temp (f : File) : O f.content → Change O i a st m fs (fs.insert (F.temp i) f)
  | rename (f : File) : fs.lookup (F.temp i) = some f → f.content = F.embedded i a →
      f.executable = true → Change O i a st m fs ((fs.erase (F.temp i)).insert (F.name i a) f)
  | remove (q : Text) (todo : List Text) (n : FileName) : m = .unlink → st = .rm (q :: todo) →
      F.home.resolve q = some n → n ≠ F.name i a → Change O i a st m fs (fs.erase n)

def Same (fs : Files) (i : ι) (a : Arch) : Prop :=
  Holds fs (F.name i a) fun f => f.content = F.embedded i a

/-- What a deploy knows at each of its stages. -/
def Known (fs : Files) (i : ι) (a : Arch) : Stage → Prop
  | .check _ | .pull _ | .mkdir | .openUpload => True
  | .write sent => Holds fs (F.temp i) fun f => f.content = (F.embedded i a).take sent
  | .chmod => Holds fs (F.temp i) fun f => f.content = F.embedded i a
  | .mv => Holds fs (F.temp i) fun f => f.content = F.embedded i a ∧ f.executable = true
  | .ls | .version => Same F fs i a
  | .find stale => Same F fs i a ∧ Spares F.home (F.name i a) stale
  | .rm todo => Same F fs i a ∧ Spares F.home (F.name i a) todo

def Sound (fs : Files) (i : ι) : Phase → Prop
  | .busy a st => Known F fs i a st
  | .cached a path => path = F.path i a ∧
      Holds fs (F.name i a) fun f => f.content = F.embedded i a ∧ f.executable = true
  | _ => True

variable {F}

theorem holds_insert {fs : Files} {n : FileName} {f : File} {P : File → Prop} (h : P f) :
    Holds (fs.insert n f) n P := by
  intro g hg
  rw [AList.lookup_insert, Option.some.injEq] at hg
  exact hg ▸ h

theorem Holds.insert_ne {fs : Files} {n m : FileName} {f : File} {P : File → Prop}
    (h : Holds fs n P) (hne : n ≠ m) : Holds (fs.insert m f) n P := by
  intro g hg
  rw [AList.lookup_insert_ne hne] at hg
  exact h g hg

theorem Holds.erase {fs : Files} {n : FileName} {P : File → Prop} (h : Holds fs n P)
    (m : FileName) : Holds (fs.erase m) n P := by
  intro g hg
  by_cases hne : n = m
  · subst hne
    rw [AList.lookup_erase] at hg
    cases hg
  · rw [AList.lookup_erase_ne hne] at hg
    exact h g hg

theorem Holds.imp {fs : Files} {n : FileName} {P Q : File → Prop} (h : Holds fs n P)
    (himp : ∀ f, P f → Q f) : Holds fs n Q := fun f hf => himp f (h f hf)

theorem Change.keeps_temp {O : Bytes → Prop} {i j : ι} {a : Arch} {st : Stage} {m : Move}
    {fs gs : Files} {P : File → Prop} (h : Change F O i a st m fs gs)
    (hne : F.temp j ≠ F.temp i) (hp : Holds fs (F.temp j) P) : Holds gs (F.temp j) P := by
  cases h with
  | same => exact hp
  | temp f _ => exact hp.insert_ne hne
  | rename f _ _ _ => exact (hp.erase _).insert_ne (upload_ne_serve _ _ _)
  | remove _ _ n _ _ _ _ => exact hp.erase n

theorem Change.keeps_name {O : Bytes → Prop} {i j : ι} {a b : Arch} {st : Stage} {m : Move}
    {fs gs : Files} {P : File → Prop} (h : Change F O i a st m fs gs)
    (hsame : F.name j b = F.name i a → F.embedded j b = F.embedded i a)
    (hwhole : ∀ f : File, f.content = F.embedded j b → f.executable = true → P f)
    (hp : Holds fs (F.name j b) P) : Holds gs (F.name j b) P := by
  cases h with
  | same => exact hp
  | temp f _ => exact hp.insert_ne (upload_ne_serve _ _ _).symm
  | rename f _ hc hx =>
    by_cases hn : F.name j b = F.name i a
    · rw [hn]
      exact holds_insert (hwhole f (hc.trans (hsame hn).symm) hx)
    · exact (hp.erase _).insert_ne hn
  | remove _ _ n _ _ _ _ => exact hp.erase n

theorem Change.keeps_known {O : Bytes → Prop} {i j : ι} {a b : Arch} {st : Stage} {m : Move}
    {fs gs : Files} (h : Change F O i a st m fs gs) (hne : F.temp j ≠ F.temp i)
    (hsame : F.name j b = F.name i a → F.embedded j b = F.embedded i a) {other : Stage}
    (hk : Known F fs j b other) : Known F gs j b other := by
  have hs : Same F fs j b → Same F gs j b := h.keeps_name hsame fun _ hc _ => hc
  cases other with
  | check _ | pull _ | mkdir | openUpload => trivial
  | write _ | chmod | mv => exact h.keeps_temp hne hk
  | ls | version => exact hs hk
  | find _ | rm _ => exact ⟨hs hk.1, hk.2⟩

/-! ### One deploy -/

theorem matched_sound {fs : Files} {i : ι} {a : Arch} {same : Bool} (again : Bool)
    (h : same = true → Same F fs i a) : Sound F fs i (F.matched i a again same) := by
  unfold Fleet.matched
  split
  · rename_i hs
    exact h hs
  · split
    · trivial
    · trivial

theorem cleanup_sound {fs : Files} {i : ι} {a : Arch} {stale : List Text} (h : Same F fs i a)
    (hs : Spares F.home (F.name i a) stale) : Sound F fs i (cleanup a stale) := by
  unfold cleanup
  split
  · exact h
  · exact ⟨h, hs⟩

theorem checked_sound {fs : Files} {i : ι} {a : Arch} {rc : Nat} (out : Text)
    (h : rc = 0 →
      Holds fs (F.name i a) fun f => f.content = F.embedded i a ∧ f.executable = true) :
    Sound F fs i (F.checked i a rc out) := by
  unfold Fleet.checked
  split
  · rename_i hv
    exact ⟨rfl, h (verified_status hv)⟩
  · trivial

section
variable {O : Bytes → Prop} {d d' : Disk} {i : ι} {a : Arch} {p : Phase}

theorem digest_ne (F : Fleet ι) (b : Bytes) : F.digest b ≠ [] := by
  intro h
  have hl := F.digest_length b
  rw [h] at hl
  cases hl

/-- Either comparison of `remote_matches` finds the embedded bytes or says no. -/
theorem same_of_digest (hO : ∀ n f, d.files.lookup n = some f → O f.content)
    (hdig : ∀ c, O c → F.digest c = F.digest (F.embedded i a) → c = F.embedded i a)
    {f : File} (hf : d.files.lookup (F.name i a) = some f)
    (h : F.digest f.content = F.digest (F.embedded i a)) : Same F d.files i a := by
  intro g hg
  obtain rfl : f = g := Option.some.inj (hf.symm.trans hg)
  exact hdig f.content (hO _ f hf) h

theorem answer_spec (hO : ∀ n f, d.files.lookup n = some f → O f.content)
    (hpre : ∀ c, c <+: F.embedded i a → O c)
    (hdig : ∀ c, O c → F.digest c = F.digest (F.embedded i a) → c = F.embedded i a)
    {st : Stage} (hk : Known F d.files i a st) (h : F.answer i d a st = some (d', p)) :
    Change F O i a st .answer d.files d'.files ∧ Sound F d'.files i p := by
  cases st with
  | check again =>
    simp only [Fleet.answer, Option.some.injEq, Prod.mk.injEq] at h
    obtain ⟨rfl, rfl⟩ := h
    refine ⟨.same, matched_sound again ?_⟩
    intro hs
    split at hs
    · rename_i f hf
      exact same_of_digest hO hdig hf ((sumMatches_iff (digest_ne F _) _).mp hs)
    · cases hs
  | pull again =>
    simp only [Fleet.answer, Option.some.injEq, Prod.mk.injEq] at h
    obtain ⟨rfl, rfl⟩ := h
    refine ⟨.same, matched_sound again ?_⟩
    intro hs
    split at hs
    · rename_i f hf
      exact same_of_digest hO hdig hf (of_decide_eq_true hs)
    · cases hs
  | mkdir =>
    simp only [Fleet.answer, Option.some.injEq, Prod.mk.injEq] at h
    obtain ⟨rfl, rfl⟩ := h
    exact ⟨.same, trivial⟩
  | openUpload =>
    simp only [Fleet.answer, Option.ite_none_right_eq_some, Option.some.injEq, Prod.mk.injEq] at h
    obtain ⟨-, rfl, rfl⟩ := h
    exact ⟨.temp _ (hpre _ List.nil_prefix), holds_insert rfl⟩
  | write sent =>
    simp only [Fleet.answer, Option.ite_none_right_eq_some, Option.some.injEq, Prod.mk.injEq] at h
    obtain ⟨hlen, rfl, rfl⟩ := h
    refine ⟨.same, Holds.imp hk ?_⟩
    rintro f hf
    rw [hf, hlen, List.take_length]
  | chmod =>
    simp only [Fleet.answer, Option.map_eq_some_iff, Prod.mk.injEq] at h
    obtain ⟨f, hf, rfl, rfl⟩ := h
    exact ⟨.temp _ (hO _ f hf), holds_insert ⟨hk f hf, rfl⟩⟩
  | mv =>
    simp only [Fleet.answer, Option.map_eq_some_iff, Prod.mk.injEq] at h
    obtain ⟨f, hf, rfl, rfl⟩ := h
    obtain ⟨hc, hx⟩ := hk f hf
    exact ⟨.rename f hf hc hx, trivial⟩
  | ls =>
    simp only [Fleet.answer, Option.some.injEq, Prod.mk.injEq] at h
    obtain ⟨rfl, rfl⟩ := h
    refine ⟨.same, ?_⟩
    split
    · exact ⟨hk, spares_serve F.home _ _⟩
    · exact hk
  | find stale =>
    simp only [Fleet.answer, Option.some.injEq, Prod.mk.injEq] at h
    obtain ⟨rfl, rfl⟩ := h
    refine ⟨.same, cleanup_sound hk.1 ?_⟩
    intro q hq
    rcases List.mem_append.mp hq with hls | hfind
    · exact hk.2 q hls
    · exact spares_uploads F.home _ a _ q hfind
  | rm todo =>
    simp only [Fleet.answer, Option.ite_none_right_eq_some, Option.some.injEq, Prod.mk.injEq] at h
    obtain ⟨-, rfl, rfl⟩ := h
    exact ⟨.same, hk.1⟩
  | version =>
    simp only [Fleet.answer, Option.some.injEq, Prod.mk.injEq] at h
    obtain ⟨rfl, rfl⟩ := h
    refine ⟨.same, checked_sound _ ?_⟩
    intro hrc f hf
    simp only [hf] at hrc
    split at hrc
    · rename_i hx
      exact ⟨hk f hf, hx⟩
    · cases hrc

theorem fault_spec {st : Stage} {status : Option Nat} {fs : Files} (hk : Known F fs i a st)
    (hrc : rcOf status ≠ 0) (text : Text) : Sound F fs i (F.faulted i a status text st) := by
  cases st with
  | check again =>
    simp only [Fleet.faulted]
    split
    · trivial
    · exact matched_sound again fun h => absurd h Bool.false_ne_true
  | pull again => exact matched_sound again fun h => absurd h Bool.false_ne_true
  | mkdir | openUpload | write _ | chmod | mv => trivial
  | ls => exact hk
  | find stale => exact cleanup_sound hk.1 hk.2
  | rm _ => exact hk.1
  | version => exact checked_sound text fun h => absurd h hrc

theorem broken_spec {st : Stage} {fs : Files} (hk : Known F fs i a st) (m : String) :
    Sound F fs i (brokenPhase a m st) := by
  cases st with
  | ls => exact hk
  | find _ | rm _ => exact hk.1
  | _ => trivial

theorem act_spec (hO : ∀ n f, d.files.lookup n = some f → O f.content)
    (hpre : ∀ c, c <+: F.embedded i a → O c)
    (hdig : ∀ c, O c → F.digest c = F.digest (F.embedded i a) → c = F.embedded i a)
    {st : Stage} {m : Move} (hk : Known F d.files i a st)
    (h : F.act i d a st m = some (d', p)) :
    Change F O i a st m d.files d'.files ∧ Sound F d'.files i p := by
  cases m with
  | answer => exact answer_spec hO hpre hdig hk h
  | chunk k =>
    cases st with
    | write sent =>
      simp only [Fleet.act, Option.ite_none_right_eq_some, Option.some.injEq, Prod.mk.injEq] at h
      obtain ⟨-, rfl, rfl⟩ := h
      cases hf : d.files.lookup (F.temp i) with
      | none =>
        refine ⟨.same, ?_⟩
        intro f hg
        rw [hf] at hg
        cases hg
      | some f =>
        have hc : f.content ++ ((F.embedded i a).drop sent).take k =
            (F.embedded i a).take (sent + k) := by
          rw [hk f hf, List.take_add]
        exact ⟨.temp _ (hpre _ (hc ▸ List.take_prefix _ _)), holds_insert hc⟩
    | _ => cases h
  | unlink =>
    cases st with
    | rm todo =>
      cases todo with
      | nil => cases h
      | cons q todo =>
        simp only [Fleet.act, Option.some.injEq, Prod.mk.injEq] at h
        obtain ⟨rfl, rfl⟩ := h
        have hrest : Spares F.home (F.name i a) todo :=
          fun r hr => hk.2 r (List.mem_cons_of_mem q hr)
        cases hq : F.home.resolve q with
        | none => exact ⟨.same, hk.1, hrest⟩
        | some n =>
          have hn : n ≠ F.name i a := by
            rintro rfl
            exact hk.2 q List.mem_cons_self hq
          exact ⟨.remove q todo n rfl rfl hq hn, hk.1.erase n, hrest⟩
    | _ => cases h
  | fault status text =>
    simp only [Fleet.act, Option.ite_none_left_eq_some, Option.some.injEq, Prod.mk.injEq] at h
    obtain ⟨hrc, rfl, rfl⟩ := h
    exact ⟨.same, fault_spec hk hrc text⟩
  | broken msg =>
    simp only [Fleet.act, Option.some.injEq, Prod.mk.injEq] at h
    obtain ⟨rfl, rfl⟩ := h
    exact ⟨.same, broken_spec hk msg⟩
  | timeout =>
    simp only [Fleet.act, Option.some.injEq, Prod.mk.injEq] at h
    obtain ⟨rfl, rfl⟩ := h
    exact ⟨.same, trivial⟩

theorem matched_ne_cached (i : ι) (a b : Arch) (q : Text) (again same : Bool) :
    F.matched i a again same ≠ .cached b q := by
  unfold Fleet.matched
  split
  · simp
  · split <;> simp

theorem cleanup_ne_cached (a b : Arch) (q : Text) (stale : List Text) :
    cleanup a stale ≠ .cached b q := by simp [cleanup]

theorem checked_cached {b : Arch} {q out : Text} {rc : Nat}
    (h : F.checked i a rc out = .cached b q) : b = a ∧ rc = 0 := by
  unfold Fleet.checked at h
  split at h
  · rename_i hv
    cases h
    exact ⟨rfl, verified_status hv⟩
  · cases h

theorem act_cached {st : Stage} {m : Move} {b : Arch} {q : Text}
    (h : F.act i d a st m = some (d', .cached b q)) : (d'.files.lookup (F.name i b)).isSome := by
  cases m with
  | answer =>
    cases st with
    | version =>
      simp only [Fleet.act, Fleet.answer, Option.some.injEq, Prod.mk.injEq] at h
      obtain ⟨rfl, hc⟩ := h
      obtain ⟨rfl, hrc⟩ := checked_cached hc
      cases hf : d.files.lookup (F.name i b) with
      | none =>
        rw [hf] at hrc
        cases hrc
      | some f => rfl
    | check again | pull again =>
      simp only [Fleet.act, Fleet.answer, Option.some.injEq, Prod.mk.injEq] at h
      exact absurd h.2 (matched_ne_cached i a b q _ _)
    | find stale =>
      simp only [Fleet.act, Fleet.answer, Option.some.injEq, Prod.mk.injEq] at h
      exact absurd h.2 (cleanup_ne_cached a b q _)
    | _ => simp [Fleet.act, Fleet.answer] at h
  | chunk k => cases st <;> simp [Fleet.act] at h
  | unlink =>
    cases st with
    | rm todo => cases todo <;> simp [Fleet.act] at h
    | _ => cases h
  | fault status text =>
    simp only [Fleet.act, Option.ite_none_left_eq_some, Option.some.injEq, Prod.mk.injEq] at h
    obtain ⟨hrc, rfl, hp⟩ := h
    cases st with
    | check again =>
      simp only [Fleet.faulted] at hp
      split at hp
      · cases hp
      · exact absurd hp (matched_ne_cached i a b q _ _)
    | pull again => exact absurd hp (matched_ne_cached i a b q _ _)
    | find stale => exact absurd hp (cleanup_ne_cached a b q _)
    | version => exact absurd (checked_cached hp).2 hrc
    | _ => cases hp
  | broken msg =>
    simp only [Fleet.act, Option.some.injEq, Prod.mk.injEq] at h
    cases st <;> cases h.2
  | timeout => simp [Fleet.act] at h

end

/-! ### All of them together -/

/-- What the deploys take for granted. The digest only has to tell an embedded binary from what can
be in the directory. -/
structure Fleet.Assumed (F : Fleet ι) (fs : Files) : Prop where
  same_build : ∀ i j a, F.version i = F.version j → F.embedded i a = F.embedded j a
  nonce_fresh : ∀ i j, F.nonce i = F.nonce j → i = j
  digest_tells : ∀ i a c, Origin F fs c →
    F.digest c = F.digest (F.embedded i a) → c = F.embedded i a

structure Inv (F : Fleet ι) (fs : Files) (s : World ι) : Prop where
  origin : ∀ n f, s.disk.files.lookup n = some f → Origin F fs f.content
  sound : ∀ i, Sound F s.disk.files i (s.phase i)

theorem Change.keeps_origin {O : Bytes → Prop} {i : ι} {a : Arch} {st : Stage} {m : Move}
    {fs gs : Files} (h : Change F O i a st m fs gs)
    (hO : ∀ n f, fs.lookup n = some f → O f.content) :
    ∀ n f, gs.lookup n = some f → O f.content := by
  intro n
  have hn : Holds fs n fun f => O f.content := hO n
  cases h with
  | same => exact hn
  | temp f hf =>
    by_cases he : n = F.temp i
    · rw [he]
      exact holds_insert hf
    · exact hn.insert_ne he
  | rename f hf _ _ =>
    by_cases he : n = F.name i a
    · rw [he]
      exact holds_insert (hO _ f hf)
    · exact (hn.erase _).insert_ne he
  | remove _ _ k _ _ _ _ => exact hn.erase k

theorem Change.keeps_sound {O : Bytes → Prop} {i j : ι} {a : Arch} {st : Stage} {m : Move}
    {fs gs : Files} (h : Change F O i a st m fs gs) (hne : F.temp j ≠ F.temp i)
    (hsame : ∀ b, F.name j b = F.name i a → F.embedded j b = F.embedded i a) {p : Phase}
    (hp : Sound F fs j p) : Sound F gs j p := by
  cases p with
  | busy b other => exact h.keeps_known hne (hsame b) hp
  | cached b path => exact ⟨hp.1, h.keeps_name (hsame b) (fun _ hc hx => ⟨hc, hx⟩) hp.2⟩
  | start | failed _ | dropped => trivial

variable {fs : Files}

theorem name_same (hF : F.Assumed fs) {i j : ι} {a b : Arch} (h : F.name j b = F.name i a) :
    F.embedded j b = F.embedded i a := by
  obtain ⟨hv, rfl⟩ := serveName_eq h
  exact hF.same_build j i b hv

theorem temp_ne (hF : F.Assumed fs) {i j : ι} (h : j ≠ i) : F.temp j ≠ F.temp i :=
  fun he => h (hF.nonce_fresh j i (uploadName_eq he))

theorem move_spec (hF : F.Assumed fs) {s : World ι} {i : ι} {a : Arch} {st : Stage} {m : Move}
    {r : Disk × Phase} (hs : Inv F fs s) (hp : s.phase i = .busy a st)
    (hr : F.act i s.disk a st m = some r) :
    Change F (Origin F fs) i a st m s.disk.files r.1.files ∧ Sound F r.1.files i r.2 := by
  have hk := hs.sound i
  rw [hp] at hk
  exact act_spec hs.origin (fun c hc => .inr ⟨i, a, hc⟩) (hF.digest_tells i a) hk hr

theorem detect_sound (gs : Files) (i : ι) (status : Option Nat) (out : Text) :
    Sound F gs i (F.detect i status out) ∧ ∀ a q, F.detect i status out ≠ .cached a q := by
  unfold Fleet.detect
  split
  · exact ⟨trivial, by simp⟩
  · split
    · exact ⟨trivial, by simp⟩
    · split
      · exact ⟨trivial, by simp⟩
      · exact ⟨trivial, by simp⟩

theorem start_inv (d : Disk) : Inv F d.files (start d : World ι) :=
  ⟨fun n f hf => .inl ⟨n, f, hf, rfl⟩, fun _ => trivial⟩

def Fleet.fileAt (F : Fleet ι) (d : Disk) (path : Text) : Option File :=
  (F.home.resolve path).bind fun n => d.files.lookup n

/-- While connection `i` has its path, only a deploy of the same version and architecture may
unlink it. -/
def Untouched (F : Fleet ι) (i : ι) (s : World ι) (e : Event ι) : Prop :=
  ∀ a path j b q todo, s.phase i = .cached a path → e = .move j .unlink →
    s.phase j = .busy b (.rm (q :: todo)) → F.home.resolve q = F.home.resolve path →
    F.version j = F.version i ∧ b = a

theorem resolve_path (i : ι) (a : Arch) : F.home.resolve (F.path i a) = some (F.name i a) :=
  resolve_pathOf F.home (F.name i a)

def Present (F : Fleet ι) (i : ι) (s : World ι) : Prop :=
  ∀ a path, s.phase i = .cached a path → (s.disk.files.lookup (F.name i a)).isSome

theorem Change.keeps_present {O : Bytes → Prop} {i j : ι} {a b : Arch} {st : Stage} {m : Move}
    {gs : Files} (h : Change F O j b st m fs gs)
    (hspare : ∀ q todo, m = .unlink → st = .rm (q :: todo) →
      F.home.resolve q = some (F.name i a) → F.name j b = F.name i a)
    (hp : (fs.lookup (F.name i a)).isSome) : (gs.lookup (F.name i a)).isSome := by
  have hup : F.name i a ≠ F.temp j := (upload_ne_serve _ _ _).symm
  cases h with
  | same => exact hp
  | temp f _ => rwa [AList.lookup_insert_ne hup]
  | rename f _ _ _ =>
    by_cases hn : F.name i a = F.name j b
    · rw [hn, AList.lookup_insert]
      rfl
    · rwa [AList.lookup_insert_ne hn, AList.lookup_erase_ne hup]
  | remove q todo n hm hst hq hne =>
    have hother : F.name i a ≠ n := by
      rintro rfl
      exact hne (hspare q todo hm hst hq).symm
    rwa [AList.lookup_erase_ne hother]

section
variable [DecidableEq ι]

theorem phase_inv {s : World ι} {i : ι} {p : Phase} (hs : Inv F fs s)
    (hp : Sound F s.disk.files i p) :
    Inv F fs { s with phase := Function.update s.phase i p } := by
  refine ⟨hs.origin, ?_⟩
  intro j
  by_cases hj : j = i
  · subst hj
    simpa only [Function.update_self] using hp
  · simpa only [Function.update_of_ne hj] using hs.sound j

theorem step_inv (hF : F.Assumed fs) {s u : World ι} {e : Event ι} (hs : Inv F fs s)
    (h : step F s e = some u) : Inv F fs u := by
  cases e with
  | uname i status out =>
    simp only [step, Option.ite_none_right_eq_some, Option.some.injEq] at h
    obtain ⟨-, rfl⟩ := h
    exact phase_inv hs (detect_sound _ i status out).1
  | move i m =>
    simp only [step] at h
    split at h
    · rename_i a st hp
      obtain ⟨r, hr, rfl⟩ := Option.map_eq_some_iff.mp h
      obtain ⟨hc, hsound⟩ := move_spec hF hs hp hr
      refine ⟨hc.keeps_origin hs.origin, ?_⟩
      intro j
      by_cases hj : j = i
      · subst hj
        simpa only [Function.update_self] using hsound
      · simp only [Function.update_of_ne hj]
        exact hc.keeps_sound (temp_ne hF hj) (fun b => name_same hF) (hs.sound j)
    · cases h
  | drop i =>
    simp only [step] at h
    split at h
    · obtain rfl := Option.some.inj h
      exact phase_inv hs trivial
    · cases h
  | tick =>
    obtain rfl := Option.some.inj h
    exact ⟨hs.origin, hs.sound⟩

theorem step_present (hF : F.Assumed fs) {i : ι} {s u : World ι} {e : Event ι} (hs : Inv F fs s)
    (hp : Present F i s) (ho : Untouched F i s e) (h : step F s e = some u) : Present F i u := by
  intro a path hu
  cases e with
  | uname j status out =>
    simp only [step, Option.ite_none_right_eq_some, Option.some.injEq] at h
    obtain ⟨-, rfl⟩ := h
    by_cases hj : i = j
    · subst hj
      simp only [Function.update_self] at hu
      exact absurd hu ((detect_sound (F := F) fs i status out).2 a path)
    · simp only [Function.update_of_ne hj] at hu
      exact hp a path hu
  | move j m =>
    simp only [step] at h
    split at h
    · rename_i b st hb
      obtain ⟨⟨d', p'⟩, hr, rfl⟩ := Option.map_eq_some_iff.mp h
      by_cases hj : i = j
      · subst hj
        simp only [Function.update_self] at hu
        subst hu
        exact act_cached hr
      · simp only [Function.update_of_ne hj] at hu
        have hpath := hs.sound i
        rw [hu] at hpath
        refine (move_spec hF hs hb hr).1.keeps_present ?_ (hp a path hu)
        rintro q todo rfl rfl hq
        have hres : F.home.resolve q = F.home.resolve path := by
          rw [hq, hpath.1, resolve_path]
        obtain ⟨hv, rfl⟩ := ho a path j b q todo hu rfl hb hres
        unfold Fleet.name
        rw [hv]
    · cases h
  | drop j =>
    simp only [step] at h
    split at h
    · obtain rfl := Option.some.inj h
      by_cases hj : i = j
      · subst hj
        simp at hu
      · simp only [Function.update_of_ne hj] at hu
        exact hp a path hu
    · cases h
  | tick =>
    obtain rfl := Option.some.inj h
    exact hp a path hu

/-- In every interleaving, a file at the path a connection has is its whole binary; the file is
there unless the cleanup of another version or architecture unlinks it; and the removal of old
uploads, whatever `find` lists, never names it. -/
theorem cached_path_exact (F : Fleet ι) (d : Disk) (hF : F.Assumed d.files) (i : ι) :
    (∀ es t, Path (step F) Any (start d) es t → ∀ a path, t.phase i = .cached a path →
      ∀ f, F.fileAt t.disk path = some f →
        f.content = F.embedded i a ∧ f.executable = true) ∧
    (∀ es t, Path (step F) (Untouched F i) (start d) es t → ∀ a path,
      t.phase i = .cached a path → ∃ f, F.fileAt t.disk path = some f ∧
        f.content = F.embedded i a ∧ f.executable = true) ∧
    (∀ es t, Path (step F) Any (start d) es t → ∀ a path, t.phase i = .cached a path →
      ∀ found, ∀ q ∈ staleUploads (findOut F.home found),
        F.home.resolve q ≠ F.home.resolve path) := by
  have hexact : ∀ t, Inv F d.files t → ∀ a path, t.phase i = .cached a path →
      F.fileAt t.disk path = t.disk.files.lookup (F.name i a) ∧
      Holds t.disk.files (F.name i a) fun f =>
        f.content = F.embedded i a ∧ f.executable = true := by
    intro t ht a path hc
    have hsound := ht.sound i
    rw [hc] at hsound
    refine ⟨?_, hsound.2⟩
    rw [hsound.1, Fleet.fileAt, resolve_path]
    rfl
  refine ⟨?_, ?_, ?_⟩
  · intro es t h a path hc f hf
    have ht := h.invariant (fun s e u hs _ hst => step_inv hF hs hst) (start_inv d)
    obtain ⟨hat, hholds⟩ := hexact t ht a path hc
    exact hholds f (hat ▸ hf)
  · intro es t h a path hc
    have hboth : Inv F d.files t ∧ Present F i t := by
      refine h.invariant (I := fun s => Inv F d.files s ∧ Present F i s) ?_ ⟨start_inv d, ?_⟩
      · intro s e u hs ho hst
        exact ⟨step_inv hF hs.1 hst, step_present hF hs.1 hs.2 ho hst⟩
      · intro b q hq
        cases hq
    obtain ⟨hat, hholds⟩ := hexact t hboth.1 a path hc
    obtain ⟨f, hf⟩ := Option.isSome_iff_exists.mp (hboth.2 a path hc)
    exact ⟨f, hat.trans hf, hholds f hf⟩
  · intro es t h a path hc found q hq
    have ht := h.invariant (fun s e u hs _ hst => step_inv hF hs hst) (start_inv d)
    have hsound := ht.sound i
    rw [hc] at hsound
    rw [hsound.1, resolve_path]
    exact spares_uploads F.home _ a found q hq

end

/-! ### Two versions on one account -/

/-- Two deploys of one version, and one of the next. -/
inductive SampleDeploy where
  | old | twin | new
  deriving DecidableEq

def sampleDigest (b : Bytes) : Bytes :=
  if b = [] then
    [227, 176, 196, 66, 152, 252, 28, 20, 154, 251, 244, 200, 153, 111, 185, 36, 39, 174, 65,
     228, 100, 155, 147, 76, 164, 149, 153, 27, 120, 82, 184, 85]
  else if b = [127] then
    [98, 11, 253, 170, 52, 107, 8, 143, 180, 153, 152, 217, 47, 25, 167, 234, 246, 191, 194,
     251, 10, 238, 1, 87, 83, 150, 109, 161, 2, 140, 183, 49]
  else if b = [127, 48] then
    [108, 160, 87, 215, 223, 48, 52, 97, 17, 211, 68, 31, 160, 226, 76, 5, 140, 69, 129, 77, 42,
     173, 228, 67, 215, 210, 220, 94, 237, 24, 82, 116]
  else if b = [127, 49] then
    [149, 104, 20, 118, 234, 147, 73, 56, 101, 171, 159, 142, 179, 53, 131, 249, 63, 64, 6, 101,
     162, 90, 130, 154, 40, 0, 169, 111, 31, 249, 235, 16]
  else List.replicate 32 0

def sampleFleet : Fleet SampleDeploy where
  version
    | .new => ⟨"0.3.1".toList, rfl⟩
    | _ => ⟨"0.3.0".toList, rfl⟩
  serveVersion _ := "0.1.0".toList
  embedded
    | .new, .x86_64 => [127, 49]
    | _, .x86_64 => [127, 48]
    | _, .aarch64 => []
  nonce
    | .old => ⟨"00000000000000000000000000000000".toList, rfl⟩
    | .twin => ⟨"11111111111111111111111111111111".toList, rfl⟩
    | .new => ⟨"22222222222222222222222222222222".toList, rfl⟩
  host _ := "h"
  home := ⟨"/home/u/.local/share/shell-proxy".toList, rfl⟩
  digest := sampleDigest
  digest_length b := by
    unfold sampleDigest
    split_ifs <;> rfl
  versionRun b := if b.length = 2 then (0, "sp-serve 0.1.0\n".toList) else (126, [])

def sampleContents : List Bytes := [[], [127], [127, 48], [127, 49]]

theorem sample_prefix (i : SampleDeploy) (a : Arch) {c : Bytes}
    (h : c <+: sampleFleet.embedded i a) : c ∈ sampleContents := by
  have hc := (List.mem_inits _ _).mpr h
  have key : ∀ c ∈ (sampleFleet.embedded i a).inits, c ∈ sampleContents := by
    cases i <;> cases a <;> decide
  exact key c hc

theorem sample_assumed (now : Nat) (dir : Bool) :
    sampleFleet.Assumed (Disk.files ⟨dir, ∅, now⟩) where
  same_build i j a := by
    cases i <;> cases j <;> cases a <;> decide
  nonce_fresh i j := by
    cases i <;> cases j <;> decide
  digest_tells i a c hc := by
    have hmem : c ∈ sampleContents := by
      rcases hc with ⟨n, f, hf, -⟩ | ⟨j, b, hp⟩
      · cases hf
      · exact sample_prefix j b hp
    have hbin := sample_prefix i a List.prefix_rfl
    have key : ∀ c ∈ sampleContents, ∀ e ∈ sampleContents,
        sampleDigest c = sampleDigest e → c = e := by decide
    exact key c hmem _ hbin

/-- From the probe to the end of an upload. -/
def sampleUpload (i : SampleDeploy) : List (Event SampleDeploy) :=
  [.uname i (some 0) "x86_64\n".toList, .move i .answer, .move i .answer, .move i .answer,
    .move i (.chunk 1), .move i (.chunk 1), .move i .answer]

def sampleSteps (i : SampleDeploy) (n : Nat) : List (Event SampleDeploy) :=
  List.replicate n (.move i .answer)

def sampleTwins : List (Event SampleDeploy) :=
  sampleUpload .old ++ sampleUpload .twin ++ sampleSteps .old 6 ++ sampleSteps .twin 6

theorem cached_path_exact_sample : ∃ es t f,
    Path (step sampleFleet) (Untouched sampleFleet .old) (start ⟨false, ∅, 0⟩) es t ∧
      t.phase .old = .cached .x86_64 (sampleFleet.path .old .x86_64) ∧
      t.phase .twin = .cached .x86_64 (sampleFleet.path .old .x86_64) ∧
      sampleFleet.fileAt t.disk (sampleFleet.path .old .x86_64) = some f ∧
      f.content = [127, 48] ∧ f.executable = true := by
  have hrun : (run (step sampleFleet) sampleTwins (start ⟨false, ∅, 0⟩)).map
      (fun t => (t.phase .old, t.phase .twin)) =
        some (.cached .x86_64 (sampleFleet.path .old .x86_64),
          .cached .x86_64 (sampleFleet.path .old .x86_64)) := by decide +kernel
  obtain ⟨t, ht, hp⟩ := Option.map_eq_some_iff.mp hrun
  obtain ⟨h0, h1⟩ := Prod.mk.inj hp
  have hquiet : ∀ e ∈ sampleTwins, ∀ s, Untouched sampleFleet .old s e := by
    intro e he s a path j b q todo _ hj
    have hno : Event.move j .unlink ∉ sampleTwins := by
      cases j <;> decide
    exact absurd (hj ▸ he) hno
  have hpath := path_of_run_all hquiet ht
  have hexact := cached_path_exact sampleFleet ⟨false, ∅, 0⟩ (sample_assumed 0 false) .old
  obtain ⟨f, hf, hc, hx⟩ := hexact.2.1 _ t hpath .x86_64 _ h0
  exact ⟨_, t, f, hpath, h0, h1, hf, hc, hx⟩

/-- A deploy of the next version takes the file of a connection in use. -/
theorem cleanup_unlinks_cached : sampleFleet.Assumed ∅ ∧
    ¬ ∀ es t, Path (step sampleFleet) Any (start ⟨false, ∅, 0⟩) es t →
      ∀ i a path, t.phase i = .cached a path →
        ∃ f, sampleFleet.fileAt t.disk path = some f ∧
          f.content = sampleFleet.embedded i a := by
  refine ⟨sample_assumed 0 false, ?_⟩
  intro hall
  have hrun : (run (step sampleFleet)
      (sampleUpload .old ++ sampleSteps .old 6 ++ sampleUpload .new ++ sampleSteps .new 5 ++
        [.move .new .unlink] ++ sampleSteps .new 2) (start ⟨false, ∅, 0⟩)).map
      (fun t => (t.phase .old, sampleFleet.fileAt t.disk (sampleFleet.path .old .x86_64))) =
        some (.cached .x86_64 (sampleFleet.path .old .x86_64), none) := by decide +kernel
  obtain ⟨t, ht, hp⟩ := Option.map_eq_some_iff.mp hrun
  obtain ⟨h0, hgone⟩ := Prod.mk.inj hp
  obtain ⟨f, hf, -⟩ := hall _ t (path_of_run ht) .old .x86_64 _ h0
  rw [hgone] at hf
  cases hf

end ShellProxy.Deploy
