import ShellProxy.Listing

/-! A deploy that is left alone. Whatever the other deploys have done and left in the directory, its
commands can all run to their ends, and the directory afterwards is known file by file. -/
namespace ShellProxy.DeployAlone
open Frame HostPattern ServeDir Machine Deploy Listing
variable {ι : Type}

/-- What one cleanup is for: every other generated binary, and the uploads nobody has written to
for ten minutes. -/
def outdated (now : Nat) (n : FileName) (f : File) : Bool :=
  toolGenerated n.text && (!isUpload n || decide (uploadGcMinutes < now - f.mtime))

/-- A command that gets its true answer, and what happens before it does. -/
def Smooth : Move → Prop
  | .answer | .chunk _ | .unlink => True
  | .fault _ _ | .broken _ | .timeout => False

/-- Only this deploy moves, on a machine of a known architecture, and nothing goes wrong. -/
def Alone (i : ι) (a : Arch) (_ : World ι) : Event ι → Prop
  | .uname j status out => j = i ∧ rcOf status = 0 ∧ Arch.parse out = some a
  | .move j m => j = i ∧ Smooth m
  | .drop _ | .tick => False

/-- Anything happens but to this deploy. -/
def Others (i : ι) (_ : World ι) : Event ι → Prop
  | .uname j _ _ | .move j _ | .drop j => j ≠ i
  | .tick => True

def Whole (F : Fleet ι) (i : ι) (a : Arch) (fs : Files) : Prop :=
  ∃ f, fs.lookup (F.name i a) = some f ∧ f.content = F.embedded i a ∧ f.executable = true

def Housed (d : Disk) : Prop := ∀ n, Holds d.files n fun _ => d.dir = true

/-- What is asked of the build and of the directory before all deploys: the embedded binary says its
own version, the nonce is new, and a whole binary at the path can be run. -/
structure Fit (F : Fleet ι) (i : ι) (a : Arch) (d : Disk) : Prop where
  binary : F.embedded i a ≠ []
  runs : verifyServeVersion (F.versionRun (F.embedded i a)).2 (F.versionRun (F.embedded i a)).1
    ("sp-serve ".toList ++ F.serveVersion i) = .ok ()
  fresh : Holds d.files (F.temp i) fun _ => False
  mode : Holds d.files (F.name i a) fun f => f.content = F.embedded i a → f.executable = true
  housed : Housed d
  trimmed : ∀ n, Holds d.files n fun _ => Trimmed n
  temps : ∀ j, Trimmed (F.temp j)

/-- A deploy that has not begun, and what it finds. -/
structure Ready (F : Fleet ι) (i : ι) (a : Arch) (s : World ι) : Prop where
  begins : s.phase i = .start
  binary : F.embedded i a ≠ []
  runs : verifyServeVersion (F.versionRun (F.embedded i a)).2 (F.versionRun (F.embedded i a)).1
    ("sp-serve ".toList ++ F.serveVersion i) = .ok ()
  fresh : s.disk.files.lookup (F.temp i) = none
  present : ∀ f, s.disk.files.lookup (F.name i a) = some f →
    F.digest f.content = F.digest (F.embedded i a) →
      s.disk.dir = true ∧ f.content = F.embedded i a ∧ f.executable = true
  trimmed : ∀ n, Holds s.disk.files n fun _ => Trimmed n

def Sent (F : Fleet ι) (i : ι) (fs gs : Files) (P : File → Prop) : Prop :=
  (∃ f, gs.lookup (F.temp i) = some f ∧ P f) ∧
    ∀ m, m ≠ F.temp i → gs.lookup m = fs.lookup m

def Placed (F : Fleet ι) (i : ι) (a : Arch) (fs gs : Files) : Prop :=
  Whole F i a gs ∧ ∀ m, m ≠ F.name i a → gs.lookup m = fs.lookup m

/-- Some outdated files are gone, and the rest of them is named by what `rm` has still to do. -/
structure Cleaning (F : Fleet ι) (i : ι) (a : Arch) (now : Nat) (fs gs : Files)
    (todo : List Text) : Prop where
  whole : Whole F i a gs
  named : ∀ p ∈ todo, ∃ m f, F.home.resolve p = some m ∧ m ≠ F.name i a ∧
    fs.lookup m = some f ∧ outdated now m f = true
  kept : ∀ m, m ≠ F.name i a → gs.lookup m = fs.lookup m ∨
    gs.lookup m = none ∧ ∃ f, fs.lookup m = some f ∧ outdated now m f = true
  left : ∀ m f, m ≠ F.name i a → gs.lookup m = some f → outdated now m f = true →
    ∃ p ∈ todo, F.home.resolve p = some m

/-- The binary is in place, and of the other files those that are not outdated. -/
def Cleaned (F : Fleet ι) (i : ι) (a : Arch) (now : Nat) (fs gs : Files) : Prop :=
  Whole F i a gs ∧ ∀ m, m ≠ F.name i a →
    gs.lookup m = (fs.lookup m).filter fun f => !outdated now m f

/-- The directory at each command of the deploy, from the directory it found. -/
def Here (F : Fleet ι) (i : ι) (a : Arch) (d₀ d : Disk) : Stage → Prop
  | .check false | .mkdir => d = d₀
  | .openUpload => d.dir = true ∧ d.files = d₀.files
  | .write sent => d.dir = true ∧ sent ≤ (F.embedded i a).length ∧
      Sent F i d₀.files d.files fun f => f.content = (F.embedded i a).take sent
  | .chmod => d.dir = true ∧ Sent F i d₀.files d.files fun f => f.content = F.embedded i a
  | .mv => d.dir = true ∧ Sent F i d₀.files d.files fun f =>
      f.content = F.embedded i a ∧ f.executable = true
  | .check true | .ls => d.dir = true ∧ Placed F i a d₀.files d.files
  | .find stale => Placed F i a d₀.files d.files ∧
      stale = staleServe (F.name i a).text (lsOut d.files.keys)
  | .rm todo => Cleaning F i a d₀.now d₀.files d.files todo
  | .version => Cleaned F i a d₀.now d₀.files d.files
  | .pull _ => False

def At (F : Fleet ι) (i : ι) (a : Arch) (d₀ d : Disk) : Phase → Prop
  | .start => d = d₀
  | .busy b st => b = a ∧ Here F i a d₀ d st
  | .cached b path => b = a ∧ path = F.path i a ∧ Cleaned F i a d₀.now d₀.files d.files
  | .failed _ | .dropped => False

/-- A run of the deploy alone is somewhere on its course. -/
structure Course (F : Fleet ι) (i : ι) (a : Arch) (s t : World ι) : Prop where
  now : t.disk.now = s.disk.now
  others : ∀ j, j ≠ i → t.phase j = s.phase j
  stage : At F i a s.disk t.disk (t.phase i)

variable {F : Fleet ι} {i : ι} {a : Arch} {d₀ d d' : Disk} {p : Phase}

/-! ### The cleanup -/

theorem name_not_upload (F : Fleet ι) (i : ι) (a : Arch) : isUpload (F.name i a) = false := by
  rw [isUpload, Fleet.name, serveName_text]
  rfl

theorem listed (h : Placed F i a d₀.files d.files) (hnow : d.now = d₀.now)
    (htrim : ∀ n, Holds d₀.files n fun _ => Trimmed n) : Cleaning F i a d₀.now d₀.files d.files
      (staleServe (F.name i a).text (lsOut d.files.keys) ++
        staleUploads (findOut F.home d.aged)) := by
  obtain ⟨hwhole, hsame⟩ := h
  have hnames : ∀ n f, d.files.lookup n = some f → Trimmed n := by
    intro n f hf
    by_cases hn : n = F.name i a
    · rw [hn]
      exact serveName_trimmed _ _
    · exact htrim n f (hsame n hn ▸ hf)
  have hkeys : ∀ n ∈ d.files.keys, Trimmed n := by
    intro n hn
    obtain ⟨f, hf⟩ := mem_keys.mp hn
    exact hnames n f hf
  have haged : ∀ n ∈ d.aged, Trimmed n := by
    intro n hn
    obtain ⟨f, hf, -⟩ := mem_aged.mp hn
    exact hnames n f hf
  refine ⟨hwhole, ?_, fun m hm => .inl (hsame m hm), ?_⟩
  · intro p hp
    rcases List.mem_append.mp hp with hls | hfind
    · obtain ⟨n, hn, rfl, hne, htool, hup⟩ := (staleServe_iff hkeys).mp hls
      obtain ⟨f, hf⟩ := mem_keys.mp hn
      have hother : n ≠ F.name i a := fun he => hne (congrArg FileName.text he)
      refine ⟨n, f, resolve_pathOf F.home n, hother, hsame n hother ▸ hf, ?_⟩
      simp [outdated, htool, hup]
    · obtain ⟨n, hn, rfl, hup, htool⟩ := (staleUploads_iff haged).mp hfind
      obtain ⟨f, hf, hold⟩ := mem_aged.mp hn
      have hother : n ≠ F.name i a := by
        rintro rfl
        rw [name_not_upload] at hup
        cases hup
      refine ⟨n, f, resolve_found F.home n, hother, hsame n hother ▸ hf, ?_⟩
      simp [outdated, htool, hup, ← hnow, hold]
  · intro m f hm hf hold
    simp only [outdated, Bool.and_eq_true] at hold
    obtain ⟨htool, hwhy⟩ := hold
    cases hup : isUpload m with
    | false =>
      refine ⟨pathOf m, List.mem_append_left _ ?_, resolve_pathOf F.home m⟩
      have hne : m.text ≠ (F.name i a).text := fun he => hm (FileName.ext he)
      exact (staleServe_iff hkeys).mpr ⟨m, mem_keys.mpr ⟨f, hf⟩, rfl, hne, htool, hup⟩
    | true =>
      refine ⟨_, List.mem_append_right _ ?_, resolve_found F.home m⟩
      have hage : uploadGcMinutes < d₀.now - f.mtime := by simpa [hup] using hwhy
      have hin : m ∈ d.aged := mem_aged.mpr ⟨f, hf, hnow ▸ hage⟩
      exact (staleUploads_iff haged).mpr ⟨m, hin, rfl, hup, htool⟩

theorem Cleaning.unlink {now : Nat} {fs gs : Files} {q : Text} {todo : List Text}
    (h : Cleaning F i a now fs gs (q :: todo)) : ∃ n, F.home.resolve q = some n ∧
      Cleaning F i a now fs (gs.erase n) todo := by
  obtain ⟨n, f, hq, hne, hf, hold⟩ := h.named q List.mem_cons_self
  refine ⟨n, hq, ?_, fun p hp => h.named p (List.mem_cons_of_mem q hp), ?_, ?_⟩
  · obtain ⟨g, hg, hwhole⟩ := h.whole
    exact ⟨g, by rwa [AList.lookup_erase_ne hne.symm], hwhole⟩
  · intro m hm
    by_cases hmn : m = n
    · subst hmn
      exact .inr ⟨AList.lookup_erase _ _, f, hf, hold⟩
    · rw [AList.lookup_erase_ne hmn]
      exact h.kept m hm
  · intro m g hm hg hg'
    by_cases hmn : m = n
    · subst hmn
      rw [AList.lookup_erase] at hg
      cases hg
    · rw [AList.lookup_erase_ne hmn] at hg
      obtain ⟨p, hp, hpm⟩ := h.left m g hm hg hg'
      rcases List.mem_cons.mp hp with rfl | hp
      · exact absurd (Option.some.inj (hpm.symm.trans hq)) hmn
      · exact ⟨p, hp, hpm⟩

theorem Cleaning.done {now : Nat} {fs gs : Files} (h : Cleaning F i a now fs gs []) :
    Cleaned F i a now fs gs := by
  refine ⟨h.whole, ?_⟩
  intro m hm
  rcases h.kept m hm with hsame | ⟨hgone, f, hf, hold⟩
  · cases hf : fs.lookup m with
    | none => rw [hsame, hf, Option.filter_none]
    | some f =>
      have hnew : outdated now m f = false := by
        rw [← Bool.not_eq_true]
        intro hold
        obtain ⟨p, hp, -⟩ := h.left m f hm (hsame.trans hf) hold
        cases hp
      rw [hsame, hf, Option.filter_some, hnew]
      rfl
  · rw [hgone, hf, Option.filter_some, hold]
    rfl

/-! ### One command -/

theorem digest_same {c : Bytes} (F : Fleet ι) (i : ι) (a : Arch) (path : Text) :
    sumMatches (sumLine (encodeHex (F.digest c)) path)
      (encodeHex (F.digest (F.embedded i a))) = true ↔
        F.digest c = F.digest (F.embedded i a) :=
  sumMatches_iff (digest_ne F c) path

def rank (F : Fleet ι) (i : ι) (a : Arch) : Phase → Nat
  | .start => (F.embedded i a).length + 10
  | .busy _ (.check false) => (F.embedded i a).length + 9
  | .busy _ .mkdir => (F.embedded i a).length + 8
  | .busy _ .openUpload => (F.embedded i a).length + 7
  | .busy _ (.write sent) => (F.embedded i a).length - sent + 6
  | .busy _ .chmod => 5
  | .busy _ .mv => 4
  | .busy _ (.check true) => 3
  | .busy _ .ls => 2
  | .busy _ (.find _) => 1
  | _ => 0

def rest : Phase → Nat
  | .busy _ (.rm todo) => todo.length + 2
  | .busy _ .version => 1
  | _ => 0

/-- The part that `rm` and `--version` have in the course. -/
def Late : Phase → Prop
  | .busy _ (.rm _) | .busy _ .version | .cached _ _ => True
  | _ => False

theorem detect_course (hr : F.embedded i a ≠ []) {status : Option Nat} {out : Text}
    (hrc : rcOf status = 0) (harch : Arch.parse out = some a) :
    F.detect i status out = .busy a (.check false) := by
  simp [Fleet.detect, hrc, harch, Fleet.serveBinary, hr]

theorem check_false {s : World ι} (hr : Ready F i a s) :
    (F.answer i s.disk a (.check false) = some (s.disk, .busy a .ls) ∧ s.disk.dir = true ∧
      Placed F i a s.disk.files s.disk.files) ∨
    F.answer i s.disk a (.check false) = some (s.disk, .busy a .mkdir) := by
  cases hf : s.disk.files.lookup (F.name i a) with
  | none =>
    right
    simp [Fleet.answer, hf, Fleet.matched]
  | some f =>
    by_cases hd : F.digest f.content = F.digest (F.embedded i a)
    · left
      obtain ⟨hdir, hc, hx⟩ := hr.present f hf hd
      refine ⟨?_, hdir, ⟨f, hf, hc, hx⟩, fun m _ => rfl⟩
      simp [Fleet.answer, hf, (digest_same F i a _).mpr hd, Fleet.matched]
    · right
      have hno := mt (digest_same F i a (F.path i a)).mp hd
      rw [Bool.not_eq_true] at hno
      simp [Fleet.answer, hf, hno, Fleet.matched]

theorem check_same (h : Whole F i a d.files) (again : Bool) :
    F.answer i d a (.check again) = some (d, .busy a .ls) := by
  obtain ⟨f, hf, hc, -⟩ := h
  have hd : F.digest f.content = F.digest (F.embedded i a) := by rw [hc]
  simp [Fleet.answer, hf, (digest_same F i a _).mpr hd, Fleet.matched]

theorem sent_first (fs : Files) {P : File → Prop} {f : File} (hf : P f) :
    Sent F i fs (fs.insert (F.temp i) f) P :=
  ⟨⟨f, AList.lookup_insert _, hf⟩, fun _ hm => AList.lookup_insert_ne hm⟩

theorem Sent.insert {fs gs : Files} {P Q : File → Prop} (h : Sent F i fs gs P) {f : File}
    (hf : Q f) : Sent F i fs (gs.insert (F.temp i) f) Q :=
  ⟨⟨f, AList.lookup_insert _, hf⟩, fun m hm => (AList.lookup_insert_ne hm).trans (h.2 m hm)⟩

theorem Sent.rename {fs gs : Files} {f : File} (hfresh : fs.lookup (F.temp i) = none)
    (h : Sent F i fs gs fun f => f.content = F.embedded i a ∧ f.executable = true)
    (hf : gs.lookup (F.temp i) = some f) :
    Placed F i a fs ((gs.erase (F.temp i)).insert (F.name i a) f) := by
  obtain ⟨⟨g, hg, hc, hx⟩, hrest⟩ := h
  obtain rfl : g = f := Option.some.inj (hg.symm.trans hf)
  refine ⟨⟨g, AList.lookup_insert _, hc, hx⟩, ?_⟩
  intro m hm
  rw [AList.lookup_insert_ne hm]
  by_cases hmt : m = F.temp i
  · rw [hmt, AList.lookup_erase, hfresh]
  · rw [AList.lookup_erase_ne hmt, hrest m hmt]

theorem version_course {s : World ι} (hr : Ready F i a s) (h : Whole F i a d.files) :
    F.answer i d a .version = some (d, .cached a (F.path i a)) := by
  obtain ⟨f, hf, hc, hx⟩ := h
  simp only [Fleet.answer, hf, hx, hc, if_true, Fleet.checked, hr.runs]

theorem find_course {s : World ι} {stale : List Text} (hr : Ready F i a s)
    (hnow : d.now = s.disk.now) (h : Here F i a s.disk d (.find stale)) :
    At F i a s.disk d (cleanup a (stale ++ staleUploads (findOut F.home d.aged))) := by
  obtain ⟨hp, rfl⟩ := h
  have hall := listed hp hnow hr.trimmed
  unfold cleanup
  split
  · rename_i hnone
    rw [hnone] at hall
    exact ⟨rfl, hall.done⟩
  · exact ⟨rfl, hall⟩

theorem answer_course {s : World ι} {st : Stage} (hr : Ready F i a s)
    (hnow : d.now = s.disk.now) (hh : Here F i a s.disk d st)
    (h : F.answer i d a st = some (d', p)) :
    d'.now = s.disk.now ∧ At F i a s.disk d' p := by
  cases st with
  | check again =>
    cases again with
    | false =>
      obtain rfl : d = s.disk := hh
      rcases check_false hr with ⟨he, hdir, hp⟩ | he
      · rw [he, Option.some.injEq, Prod.mk.injEq] at h
        obtain ⟨rfl, rfl⟩ := h
        exact ⟨rfl, rfl, hdir, hp⟩
      · rw [he, Option.some.injEq, Prod.mk.injEq] at h
        obtain ⟨rfl, rfl⟩ := h
        exact ⟨rfl, rfl, rfl⟩
    | true =>
      rw [check_same hh.2.1, Option.some.injEq, Prod.mk.injEq] at h
      obtain ⟨rfl, rfl⟩ := h
      exact ⟨hnow, rfl, hh⟩
  | pull again => exact hh.elim
  | mkdir =>
    obtain rfl : d = s.disk := hh
    simp only [Fleet.answer, Option.some.injEq, Prod.mk.injEq] at h
    obtain ⟨rfl, rfl⟩ := h
    exact ⟨rfl, rfl, rfl, rfl⟩
  | openUpload =>
    obtain ⟨hdir, hfiles⟩ := hh
    simp only [Fleet.answer, hdir, if_true, Option.some.injEq, Prod.mk.injEq] at h
    obtain ⟨rfl, rfl⟩ := h
    refine ⟨hnow, rfl, rfl, Nat.zero_le _, ?_⟩
    rw [hfiles]
    exact sent_first _ rfl
  | write sent =>
    obtain ⟨hdir, -, hsent⟩ := hh
    simp only [Fleet.answer, Option.ite_none_right_eq_some, Option.some.injEq, Prod.mk.injEq] at h
    obtain ⟨rfl, rfl, rfl⟩ := h
    rw [List.take_length] at hsent
    exact ⟨hnow, rfl, hdir, hsent⟩
  | chmod =>
    obtain ⟨hdir, hsent⟩ := hh
    simp only [Fleet.answer, Option.map_eq_some_iff, Prod.mk.injEq] at h
    obtain ⟨f, hf, rfl, rfl⟩ := h
    obtain ⟨g, hg, hc⟩ := hsent.1
    obtain rfl : g = f := Option.some.inj (hg.symm.trans hf)
    exact ⟨hnow, rfl, hdir, hsent.insert ⟨hc, rfl⟩⟩
  | mv =>
    obtain ⟨hdir, hsent⟩ := hh
    simp only [Fleet.answer, Option.map_eq_some_iff, Prod.mk.injEq] at h
    obtain ⟨f, hf, rfl, rfl⟩ := h
    exact ⟨hnow, rfl, hdir, hsent.rename hr.fresh hf⟩
  | ls =>
    obtain ⟨hdir, hp⟩ := hh
    simp only [Fleet.answer, hdir, if_true, Option.some.injEq, Prod.mk.injEq] at h
    obtain ⟨rfl, rfl⟩ := h
    exact ⟨hnow, rfl, hp, rfl⟩
  | find stale =>
    simp only [Fleet.answer, Option.some.injEq, Prod.mk.injEq] at h
    obtain ⟨rfl, rfl⟩ := h
    exact ⟨hnow, find_course hr hnow hh⟩
  | rm todo =>
    simp only [Fleet.answer, Option.ite_none_right_eq_some, Option.some.injEq, Prod.mk.injEq] at h
    obtain ⟨rfl, rfl, rfl⟩ := h
    exact ⟨hnow, rfl, Cleaning.done hh⟩
  | version =>
    rw [version_course hr hh.1, Option.some.injEq, Prod.mk.injEq] at h
    obtain ⟨rfl, rfl⟩ := h
    exact ⟨hnow, rfl, rfl, hh⟩

theorem act_course {s : World ι} {st : Stage} {m : Move} (hr : Ready F i a s)
    (hnow : d.now = s.disk.now) (hh : Here F i a s.disk d st) (hm : Smooth m)
    (h : F.act i d a st m = some (d', p)) :
    d'.now = s.disk.now ∧ At F i a s.disk d' p := by
  cases m with
  | answer => exact answer_course hr hnow hh h
  | chunk k =>
    cases st with
    | write sent =>
      obtain ⟨hdir, -, hsent⟩ := hh
      obtain ⟨f, hf, hc⟩ := hsent.1
      simp only [Fleet.act, hf, Option.ite_none_right_eq_some, Option.some.injEq,
        Prod.mk.injEq] at h
      obtain ⟨⟨-, hle⟩, rfl, rfl⟩ := h
      refine ⟨hnow, rfl, hdir, hle, hsent.insert ?_⟩
      rw [hc, List.take_add]
    | _ => cases h
  | unlink =>
    cases st with
    | rm todo =>
      cases todo with
      | nil => cases h
      | cons q todo =>
        obtain ⟨n, hq, hrest⟩ := Cleaning.unlink hh
        simp only [Fleet.act, hq, Option.some.injEq, Prod.mk.injEq] at h
        obtain ⟨rfl, rfl⟩ := h
        exact ⟨hnow, rfl, hrest⟩
    | _ => cases h
  | fault _ _ | broken _ | timeout => exact hm.elim

theorem act_goes {s : World ι} {st : Stage} (hr : Ready F i a s) (hh : Here F i a s.disk d st)
    (hl : ¬ Late (.busy a st)) : ∃ m r, Smooth m ∧ F.act i d a st m = some r ∧
      rank F i a r.2 < rank F i a (.busy a st) := by
  cases st with
  | check again =>
    cases again with
    | false =>
      obtain rfl : d = s.disk := hh
      rcases check_false hr with ⟨he, -⟩ | he
      · refine ⟨.answer, _, trivial, he, ?_⟩
        simp only [rank]
        omega
      · refine ⟨.answer, _, trivial, he, ?_⟩
        simp only [rank]
        omega
    | true => exact ⟨.answer, _, trivial, check_same hh.2.1 true, Nat.lt_add_one 2⟩
  | pull again => exact hh.elim
  | mkdir =>
    refine ⟨.answer, _, trivial, rfl, ?_⟩
    simp only [rank]
    omega
  | openUpload =>
    refine ⟨.answer, _, trivial, if_pos hh.1, ?_⟩
    simp only [rank]
    omega
  | write sent =>
    obtain ⟨-, hle, -⟩ := hh
    by_cases hlen : sent = (F.embedded i a).length
    · refine ⟨.answer, _, trivial, if_pos hlen, ?_⟩
      simp only [rank]
      omega
    · refine ⟨.chunk 1, _, trivial, if_pos ⟨Nat.one_pos, by omega⟩, ?_⟩
      simp only [rank]
      omega
  | chmod =>
    obtain ⟨f, hf, -⟩ := hh.2.1
    refine ⟨.answer, _, trivial, Option.map_eq_some_iff.mpr ⟨f, hf, rfl⟩, ?_⟩
    exact Nat.lt_add_one 4
  | mv =>
    obtain ⟨f, hf, -⟩ := hh.2.1
    refine ⟨.answer, _, trivial, Option.map_eq_some_iff.mpr ⟨f, hf, rfl⟩, ?_⟩
    exact Nat.lt_add_one 3
  | ls =>
    refine ⟨.answer, _, trivial, rfl, ?_⟩
    rw [if_pos hh.1]
    exact Nat.lt_add_one 1
  | find stale =>
    refine ⟨.answer, _, trivial, rfl, ?_⟩
    simp only [cleanup]
    split
    · exact Nat.zero_lt_one
    · exact Nat.zero_lt_one
  | rm _ | version => exact absurd trivial hl

theorem act_ends {s : World ι} {st : Stage} (hr : Ready F i a s) (hh : Here F i a s.disk d st)
    (hl : Late (.busy a st)) : ∃ m r, Smooth m ∧ F.act i d a st m = some r ∧ Late r.2 ∧
      rest r.2 < rest (.busy a st) := by
  cases st with
  | rm todo =>
    cases todo with
    | nil => exact ⟨.answer, _, trivial, rfl, trivial, Nat.lt_add_one 1⟩
    | cons q todo => exact ⟨.unlink, _, trivial, rfl, trivial, Nat.lt_add_one _⟩
  | version =>
    exact ⟨.answer, _, trivial, version_course hr hh.1, trivial, Nat.zero_lt_one⟩
  | _ => exact hl.elim

/-! ### What the others leave -/

theorem act_housed {st : Stage} {m : Move} {r : Disk × Phase} (h : F.act i d a st m = some r)
    (hd : Housed d) : Housed r.1 := by
  cases m with
  | answer =>
    cases st with
    | mkdir =>
      obtain rfl := Option.some.inj h
      exact fun _ _ _ => rfl
    | openUpload =>
      simp only [Fleet.act, Fleet.answer, Option.ite_none_right_eq_some, Option.some.injEq] at h
      obtain ⟨hdir, rfl⟩ := h
      exact fun _ _ _ => hdir
    | write sent =>
      simp only [Fleet.act, Fleet.answer, Option.ite_none_right_eq_some, Option.some.injEq] at h
      obtain ⟨-, rfl⟩ := h
      exact hd
    | chmod | mv =>
      obtain ⟨f, hf, rfl⟩ := Option.map_eq_some_iff.mp h
      exact fun _ _ _ => hd _ f hf
    | rm todo =>
      simp only [Fleet.act, Fleet.answer, Option.ite_none_right_eq_some, Option.some.injEq] at h
      obtain ⟨-, rfl⟩ := h
      exact hd
    | check _ | pull _ | ls | find _ | version =>
      obtain rfl := Option.some.inj h
      exact hd
  | chunk k =>
    cases st with
    | write sent =>
      simp only [Fleet.act, Option.ite_none_right_eq_some, Option.some.injEq] at h
      obtain ⟨-, rfl⟩ := h
      cases hf : d.files.lookup (F.temp i) with
      | none => exact hd
      | some f => exact fun _ _ _ => hd _ f hf
    | _ => cases h
  | unlink =>
    cases st with
    | rm todo =>
      cases todo with
      | nil => cases h
      | cons q todo =>
        obtain rfl := Option.some.inj h
        cases hq : F.home.resolve q with
        | none => exact hd
        | some n => exact fun k => (hd k).erase n
    | _ => cases h
  | fault status text =>
    simp only [Fleet.act, Option.ite_none_left_eq_some, Option.some.injEq] at h
    obtain ⟨-, rfl⟩ := h
    exact hd
  | broken _ | timeout =>
    obtain rfl := Option.some.inj h
    exact hd

theorem keeps_trimmed {O : Bytes → Prop} {st : Stage} {m : Move} {fs gs : Files}
    (h : Change F O i a st m fs gs) (htemps : ∀ j, Trimmed (F.temp j))
    (hfs : ∀ n, Holds fs n fun _ => Trimmed n) : ∀ n, Holds gs n fun _ => Trimmed n := by
  intro n
  cases h with
  | same => exact hfs n
  | temp f _ =>
    by_cases hn : n = F.temp i
    · exact fun _ _ => hn ▸ htemps i
    · exact (hfs n).insert_ne hn
  | rename f _ _ _ =>
    by_cases hn : n = F.name i a
    · exact fun _ _ => hn ▸ serveName_trimmed _ _
    · exact ((hfs n).erase _).insert_ne hn
  | remove _ _ k _ _ _ _ => exact (hfs n).erase k

/-! ### The whole deploy -/

theorem Course.begins {s : World ι} (hr : Ready F i a s) : Course F i a s s := by
  refine ⟨rfl, fun _ _ => rfl, ?_⟩
  rw [hr.begins]
  rfl

theorem parse_asStr (a : Arch) : Arch.parse a.asStr = some a := by
  cases a <;> decide

section
variable [DecidableEq ι] {s t u : World ι}

theorem Course.go (hc : Course F i a s t) {d' : Disk} {p : Phase}
    (h : d'.now = s.disk.now ∧ At F i a s.disk d' p) :
    Course F i a s ⟨d', Function.update t.phase i p⟩ := by
  refine ⟨h.1, ?_, ?_⟩
  · intro j hj
    rw [← hc.others j hj]
    exact Function.update_of_ne hj _ _
  · simpa only [Function.update_self] using h.2

theorem course_step (hr : Ready F i a s) {e : Event ι} (hc : Course F i a s t)
    (he : Alone i a t e) (h : step F t e = some u) : Course F i a s u := by
  have hat := hc.stage
  cases e with
  | uname j status out =>
    obtain ⟨rfl, hrc, harch⟩ := he
    simp only [step, Option.ite_none_right_eq_some, Option.some.injEq] at h
    obtain ⟨hp, rfl⟩ := h
    rw [hp] at hat
    rw [detect_course hr.binary hrc harch]
    exact hc.go ⟨hc.now, rfl, hat⟩
  | move j m =>
    obtain ⟨rfl, hm⟩ := he
    simp only [step] at h
    split at h
    · rename_i b st hp
      obtain ⟨⟨d', p⟩, ha, rfl⟩ := Option.map_eq_some_iff.mp h
      rw [hp] at hat
      obtain ⟨rfl, hh⟩ := hat
      exact hc.go (act_course hr hc.now hh hm ha)
    · cases h
  | drop j => exact he.elim
  | tick => exact he.elim

theorem course_run (hr : Ready F i a s) {es : List (Event ι)}
    (h : Path (step F) (Alone i a) s es t) : Course F i a s t :=
  h.invariant (fun _ _ _ hI he hst => course_step hr hI he hst) (Course.begins hr)

theorem move_step {st : Stage} {m : Move} {r : Disk × Phase} (hp : t.phase i = .busy a st)
    (h : F.act i t.disk a st m = some r) :
    step F t (.move i m) = some ⟨r.1, Function.update t.phase i r.2⟩ := by
  simp [step, hp, h]

theorem course_goes (hr : Ready F i a s) (hc : Course F i a s t) (hl : ¬ Late (t.phase i)) :
    ∃ e u, Alone i a t e ∧ step F t e = some u ∧ Course F i a s u ∧
        rank F i a (u.phase i) < rank F i a (t.phase i) := by
  have hat := hc.stage
  cases hp : t.phase i with
  | start =>
    have he : Alone i a t (.uname i (some 0) a.asStr) := ⟨rfl, rfl, parse_asStr a⟩
    have hu : step F t (.uname i (some 0) a.asStr) =
        some { t with phase := Function.update t.phase i (.busy a (.check false)) } := by
      rw [step, if_pos hp, detect_course hr.binary rfl (parse_asStr a)]
    refine ⟨_, _, he, hu, course_step hr hc he hu, ?_⟩
    simp only [Function.update_self, rank]
    omega
  | busy b st =>
    rw [hp] at hat hl
    obtain ⟨rfl, hh⟩ := hat
    obtain ⟨m, r, hm, ha, hlt⟩ := act_goes hr hh hl
    have he : Alone i b t (.move i m) := ⟨rfl, hm⟩
    have hu := move_step hp ha
    refine ⟨_, _, he, hu, course_step hr hc he hu, ?_⟩
    simpa only [Function.update_self] using hlt
  | cached b path => exact absurd (hp ▸ trivial) hl
  | failed _ | dropped =>
    rw [hp] at hat
    exact hat.elim

theorem course_ends (hr : Ready F i a s) (hc : Course F i a s t) (hl : Late (t.phase i))
    (hn : ∀ b path, t.phase i ≠ .cached b path) : ∃ e u, Alone i a t e ∧
      step F t e = some u ∧ (Course F i a s u ∧ Late (u.phase i)) ∧
        rest (u.phase i) < rest (t.phase i) := by
  have hat := hc.stage
  cases hp : t.phase i with
  | busy b st =>
    rw [hp] at hat hl
    obtain ⟨rfl, hh⟩ := hat
    obtain ⟨m, r, hm, ha, hlate, hlt⟩ := act_ends hr hh hl
    have he : Alone i b t (.move i m) := ⟨rfl, hm⟩
    have hu := move_step hp ha
    refine ⟨_, _, he, hu, ⟨course_step hr hc he hu, ?_⟩, ?_⟩
    · simpa only [Function.update_self] using hlate
    · simpa only [Function.update_self] using hlt
  | cached b path => exact absurd hp (hn b path)
  | start | failed _ | dropped =>
    rw [hp] at hl
    exact hl.elim

theorem Ready.deploys (hr : Ready F i a s) {es : List (Event ι)}
    (h : Path (step F) (Alone i a) s es t) :
    ∃ fs u, Path (step F) (Alone i a) t fs u ∧ u.phase i = .cached a (F.path i a) ∧
      Whole F i a u.disk.files ∧
      (∀ m, m ≠ F.name i a → u.disk.files.lookup m =
        (s.disk.files.lookup m).filter fun f => !outdated s.disk.now m f) ∧
      ∀ j, j ≠ i → u.phase j = s.phase j := by
  have hc := course_run hr h
  obtain ⟨fs, v, hfs, hv, hlate⟩ := exists_goal (fun w : World ι => rank F i a (w.phase i))
    (Course F i a s) (fun w => Late (w.phase i)) (fun w hw hl => course_goes hr hw hl) t hc
  obtain ⟨gs, u, hgs, ⟨hu, -⟩, b, path, hp⟩ :=
    exists_goal (fun w : World ι => rest (w.phase i))
      (fun w => Course F i a s w ∧ Late (w.phase i)) (fun w => ∃ b path, w.phase i = .cached b path)
      (fun w hw hn => course_ends hr hw.1 hw.2 fun b path hp => hn ⟨b, path, hp⟩) v ⟨hv, hlate⟩
  have hat := hu.stage
  rw [hp] at hat
  obtain ⟨rfl, rfl, hwhole, hrest⟩ := hat
  exact ⟨fs ++ gs, u, hfs.append hgs, hp, hwhole, hrest, hu.others⟩

/-- What the others leave to a deploy that has not begun. -/
structure Untaken (F : Fleet ι) (i : ι) (a : Arch) (s : World ι) : Prop where
  begins : s.phase i = .start
  fresh : Holds s.disk.files (F.temp i) fun _ => False
  mode : Holds s.disk.files (F.name i a) fun f =>
    f.content = F.embedded i a → f.executable = true
  housed : Housed s.disk
  trimmed : ∀ n, Holds s.disk.files n fun _ => Trimmed n

theorem untaken_step (hF : F.Assumed d.files) (htemps : ∀ j, Trimmed (F.temp j)) {e : Event ι}
    (hs : Inv F d.files s) (hn : Untaken F i a s) (he : Others i s e)
    (h : step F s e = some u) : Untaken F i a u := by
  have hphase : ∀ {j : ι} {p : Phase}, j ≠ i → Function.update s.phase j p i = .start := by
    intro j p hj
    rw [Function.update_of_ne hj.symm]
    exact hn.begins
  cases e with
  | uname j status out =>
    simp only [step, Option.ite_none_right_eq_some, Option.some.injEq] at h
    obtain ⟨-, rfl⟩ := h
    exact ⟨hphase he, hn.fresh, hn.mode, hn.housed, hn.trimmed⟩
  | move j m =>
    simp only [step] at h
    split at h
    · rename_i b st hp
      obtain ⟨r, hr, rfl⟩ := Option.map_eq_some_iff.mp h
      have hc := (move_spec hF hs hp hr).1
      exact ⟨hphase he, hc.keeps_temp (temp_ne hF he.symm) hn.fresh,
        hc.keeps_name (name_same hF) (fun _ _ hx _ => hx) hn.mode, act_housed hr hn.housed,
        keeps_trimmed hc htemps hn.trimmed⟩
    · cases h
  | drop j =>
    simp only [step] at h
    split at h
    · obtain rfl := Option.some.inj h
      exact ⟨hphase he, hn.fresh, hn.mode, hn.housed, hn.trimmed⟩
    · cases h
  | tick =>
    obtain rfl := Option.some.inj h
    exact ⟨hn.begins, hn.fresh, hn.mode, hn.housed, hn.trimmed⟩

/-- A file with the digest of the binary is the binary, whoever put it there. -/
theorem ready_reached (hF : F.Assumed d.files) (hfit : Fit F i a d) {es : List (Event ι)}
    (h : Path (step F) (Others i) (start d) es s) : Ready F i a s := by
  have hboth : Inv F d.files s ∧ Untaken F i a s := by
    refine h.invariant (I := fun s => Inv F d.files s ∧ Untaken F i a s) ?_ ⟨start_inv d, ?_⟩
    · intro v e u hv he hst
      exact ⟨step_inv hF hv.1 hst, untaken_step hF hfit.temps hv.1 hv.2 he hst⟩
    · exact ⟨rfl, hfit.fresh, hfit.mode, hfit.housed, hfit.trimmed⟩
  obtain ⟨hs, hn⟩ := hboth
  refine ⟨hn.begins, hfit.binary, hfit.runs, ?_, ?_, hn.trimmed⟩
  · exact Option.eq_none_iff_forall_ne_some.mpr fun f hf => hn.fresh f hf
  · intro f hf hdig
    have hc := hF.digest_tells i a f.content (hs.origin _ f hf) hdig
    exact ⟨hn.housed _ f hf, hc, hn.mode f hf hc⟩

/-- After any interleaving of the other deploys, with their faults, a deploy that begins and is left
alone can go on at every point until it has its path. Then its own binary is there, whole and
executable; of the other files exactly those are gone that this tool made and that are no upload of
the last ten minutes; and no other deploy has been moved. -/
theorem deploy_alone (hF : F.Assumed d.files) (hfit : Fit F i a d) {es fs : List (Event ι)}
    (hs : Path (step F) (Others i) (start d) es s) (ht : Path (step F) (Alone i a) s fs t) :
    ∃ gs u, Path (step F) (Alone i a) t gs u ∧ u.phase i = .cached a (F.path i a) ∧
      Whole F i a u.disk.files ∧
      (∀ m, m ≠ F.name i a → u.disk.files.lookup m =
        (s.disk.files.lookup m).filter fun f => !outdated s.disk.now m f) ∧
      ∀ j, j ≠ i → u.phase j = s.phase j :=
  (ready_reached hF hfit hs).deploys ht

end

/-! ### The next version on a used account -/

def sampleBefore : List (Event SampleDeploy) :=
  sampleUpload .old ++ sampleSteps .old 6 ++
    [.tick, .uname .twin (some 0) "x86_64\n".toList, .move .twin (.fault (some 1) []),
      .move .twin .answer, .move .twin .answer, .move .twin (.chunk 1)]

theorem sample_fit (i : SampleDeploy) : Fit sampleFleet i .x86_64 ⟨false, ∅, 0⟩ where
  binary := by
    cases i <;> decide
  runs := by
    cases i <;> rfl
  fresh _ hf := by cases hf
  mode _ hf := by cases hf
  housed _ _ hf := by cases hf
  trimmed _ _ hf := by cases hf
  temps j := by
    have key : ∀ k, trim (sampleFleet.temp k).text = (sampleFleet.temp k).text := by
      intro k
      cases k <;> decide
    exact key j

theorem deploy_alone_sample : ∃ es s gs u,
    Path (step sampleFleet) (Others .new) (start ⟨false, ∅, 0⟩) es s ∧
      Path (step sampleFleet) (Alone .new .x86_64) s gs u ∧
      (s.disk.files.lookup (sampleFleet.name .old .x86_64)).isSome ∧
      u.phase .new = .cached .x86_64 (sampleFleet.path .new .x86_64) ∧
      u.disk.files.lookup (sampleFleet.name .old .x86_64) = none ∧
      u.disk.files.lookup (sampleFleet.temp .twin) = some ⟨[127], 1, false⟩ := by
  have hrun : (run (step sampleFleet) sampleBefore (start ⟨false, ∅, 0⟩)).map
      (fun s => (s.disk.files.lookup (sampleFleet.name .old .x86_64),
        s.disk.files.lookup (sampleFleet.temp .twin), s.disk.now)) =
          some (some ⟨[127, 48], 0, true⟩, some ⟨[127], 1, false⟩, 1) := by decide +kernel
  obtain ⟨s, hs, hp⟩ := Option.map_eq_some_iff.mp hrun
  simp only [Prod.mk.injEq] at hp
  obtain ⟨hold, hup, hnow⟩ := hp
  have hothers : ∀ e ∈ sampleBefore, ∀ s, Others .new s e := by
    intro e he s
    cases e with
    | uname j _ _ | move j _ | drop j =>
      rintro rfl
      simp [sampleBefore, sampleUpload, sampleSteps] at he
    | tick => trivial
  have hpath := path_of_run_all hothers hs
  obtain ⟨gs, u, hg, hc, -, hrest, -⟩ :=
    deploy_alone (sample_assumed 0 false) (sample_fit .new) hpath .refl
  refine ⟨_, s, gs, u, hpath, hg, by rw [hold]; rfl, hc, ?_, ?_⟩
  · rw [hrest _ (by decide), hold, hnow]
    decide
  · rw [hrest _ (by decide), hup, hnow]
    decide

end ShellProxy.DeployAlone
