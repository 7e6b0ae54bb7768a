import ShellProxy.DeployAlone

/-! The same build deployed twice. The second deploy finds its binary and nothing to clean, so it
only reads. -/
namespace ShellProxy.DeployAgain
open Frame HostPattern ServeDir Machine Deploy Listing DeployAlone
variable {ι : Type} {F : Fleet ι} {i j : ι} {a : Arch}

/-- The commands that change nothing on the remote side. -/
def Reads : Phase → Prop
  | .start | .busy _ (.check _) | .busy _ .ls | .busy _ (.find _) | .busy _ .version
  | .cached _ _ => True
  | _ => False

/-- Every file but the binary of this deploy would survive its cleanup. -/
def Tidy (F : Fleet ι) (j : ι) (a : Arch) (d : Disk) : Prop :=
  ∀ m f, m ≠ F.name j a → d.files.lookup m = some f → outdated d.now m f = false

structure Idle (F : Fleet ι) (j : ι) (a : Arch) (t u : World ι) : Prop where
  course : Course F j a t u
  disk : u.disk = t.disk
  reads : Reads (u.phase j)

theorem none_listed {d : Disk} (htrim : ∀ n, Holds d.files n fun _ => Trimmed n)
    (hw : Whole F j a d.files) (ht : Tidy F j a d) :
    staleServe (F.name j a).text (lsOut d.files.keys) ++
      staleUploads (findOut F.home d.aged) = [] := by
  have hplaced : Placed F j a d.files d.files := ⟨hw, fun _ _ => rfl⟩
  have hall := listed hplaced rfl htrim
  rw [List.eq_nil_iff_forall_not_mem]
  intro p hp
  obtain ⟨m, f, -, hm, hf, hold⟩ := hall.named p hp
  rw [ht m f hm hf] at hold
  cases hold

theorem reads_only {t : World ι} {st : Stage} {m : Move} {r : Disk × Phase} (hr : Ready F j a t)
    (hw : Whole F j a t.disk.files) (ht : Tidy F j a t.disk) (hh : Here F j a t.disk t.disk st)
    (hp : Reads (.busy a st)) (hm : Smooth m) (h : F.act j t.disk a st m = some r) :
    r.1 = t.disk ∧ Reads r.2 ∧ m = .answer := by
  cases m with
  | answer =>
    cases st with
    | check again =>
      rw [Fleet.act, check_same hw, Option.some.injEq] at h
      subst h
      exact ⟨rfl, trivial, rfl⟩
    | ls =>
      simp only [Fleet.act, Fleet.answer, hh.1, if_true, Option.some.injEq] at h
      subst h
      exact ⟨rfl, trivial, rfl⟩
    | find stale =>
      obtain ⟨-, rfl⟩ := hh
      simp only [Fleet.act, Fleet.answer, none_listed hr.trimmed hw ht, cleanup, if_true,
        Option.some.injEq] at h
      subst h
      exact ⟨rfl, trivial, rfl⟩
    | version =>
      rw [Fleet.act, version_course hr hw, Option.some.injEq] at h
      subst h
      exact ⟨rfl, trivial, rfl⟩
    | pull _ => exact hh.elim
    | mkdir | openUpload | write _ | chmod | mv | rm _ => exact hp.elim
  | chunk k =>
    cases st with
    | write sent => exact hp.elim
    | _ => cases h
  | unlink =>
    cases st with
    | rm todo => exact hp.elim
    | _ => cases h
  | fault _ _ | broken _ | timeout => exact hm.elim

theorem tidy_of_cached {s t : World ι} (hv : F.version j = F.version i)
    (hsame : F.embedded j a = F.embedded i a) (h : Course F i a s t) {path : Text}
    (hp : t.phase i = .cached a path) : Whole F j a t.disk.files ∧ Tidy F j a t.disk := by
  have hname : F.name j a = F.name i a := by rw [Fleet.name, hv, Fleet.name]
  have hat := h.stage
  rw [hp] at hat
  obtain ⟨-, -, hwhole, hrest⟩ := hat
  refine ⟨?_, ?_⟩
  · rwa [Whole, hname, hsame]
  · intro m f hm hf
    rw [hname] at hm
    rw [hrest m hm, Option.filter_eq_some_iff] at hf
    rw [h.now]
    simpa using hf.2

section
variable [DecidableEq ι] {t u v : World ι}

theorem idle_step (hr : Ready F j a t) (hw : Whole F j a t.disk.files) (ht : Tidy F j a t.disk)
    (h : Idle F j a t u) {e : Event ι} (he : Alone j a u e) (hst : step F u e = some v) :
    Idle F j a t v ∧ ∀ k, e ≠ .move j (.chunk k) := by
  have hc := course_step hr h.course he hst
  have hat := h.course.stage
  cases e with
  | uname k status out =>
    obtain ⟨rfl, hrc, harch⟩ := he
    simp only [step, Option.ite_none_right_eq_some, Option.some.injEq] at hst
    obtain ⟨-, rfl⟩ := hst
    refine ⟨⟨hc, h.disk, ?_⟩, by simp⟩
    simp only [Function.update_self, detect_course hr.binary hrc harch]
    trivial
  | move k m =>
    obtain ⟨rfl, hm⟩ := he
    simp only [step] at hst
    split at hst
    · rename_i b st hp
      obtain ⟨r, ha, rfl⟩ := Option.map_eq_some_iff.mp hst
      have hreads := h.reads
      rw [hp] at hat hreads
      obtain ⟨rfl, hh⟩ := hat
      rw [h.disk] at ha hh
      obtain ⟨hdisk, hnext, rfl⟩ := reads_only hr hw ht hh hreads hm ha
      refine ⟨⟨hc, hdisk, ?_⟩, by simp⟩
      simpa only [Function.update_self] using hnext
    · cases hst
  | drop k => exact he.elim
  | tick => exact he.elim

theorem idle_run (hr : Ready F j a t) (hw : Whole F j a t.disk.files) (ht : Tidy F j a t.disk)
    {es : List (Event ι)} (h : Path (step F) (Alone j a) t es u) :
    Idle F j a t u ∧ ∀ k, .move j (.chunk k) ∉ es := by
  induction h with
  | refl =>
    refine ⟨⟨Course.begins hr, rfl, ?_⟩, by simp⟩
    rw [hr.begins]
    trivial
  | tail _ he hst ih =>
    obtain ⟨hi, hes⟩ := ih
    obtain ⟨hv, hne⟩ := idle_step hr hw ht hi he hst
    refine ⟨hv, fun k hk => ?_⟩
    rcases List.mem_append.mp hk with hk | hk
    · exact hes k hk
    · exact hne k (List.mem_singleton.mp hk).symm

/-- Once a deploy has its path, whatever the others had left before it, another deploy of the same
build uploads nothing and leaves the disk as it is at every point of its run. -/
theorem second_deploy_reads {d : Disk} (hF : F.Assumed d.files) (hi : Fit F i a d)
    (hj : Fit F j a d) (hij : j ≠ i) (hv : F.version j = F.version i)
    {es fs gs : List (Event ι)} {s : World ι} {path : Text}
    (hs : Path (step F) (fun w e => Others i w e ∧ Others j w e) (start d) es s)
    (ht : Path (step F) (Alone i a) s fs t) (hp : t.phase i = .cached a path)
    (hu : Path (step F) (Alone j a) t gs u) :
    u.disk = t.disk ∧ ∀ k, .move j (.chunk k) ∉ gs := by
  have hri : Ready F i a s := ready_reached hF hi (hs.mono fun _ _ h => h.1)
  have hother : ∀ w e, Alone i a w e → Others j w e := by
    rintro w (⟨k, status, out⟩ | ⟨k, m⟩ | k | _) he
    · exact he.1 ▸ hij.symm
    · exact he.1 ▸ hij.symm
    · exact he.elim
    · exact he.elim
  have hrj : Ready F j a t :=
    ready_reached hF hj ((hs.mono fun _ _ h => h.2).append (ht.mono hother))
  obtain ⟨hw, htidy⟩ :=
    tidy_of_cached hv (hF.same_build j i a hv) (course_run hri ht) hp
  obtain ⟨hidle, hnone⟩ := idle_run hrj hw htidy hu
  exact ⟨hidle.disk, hnone⟩

end

def sampleFirst : List (Event SampleDeploy) := sampleUpload .old ++ sampleSteps .old 6

def sampleSecond : List (Event SampleDeploy) :=
  .uname .twin (some 0) "x86_64\n".toList :: sampleSteps .twin 4

theorem second_deploy_reads_sample : ∃ fs t gs u,
    Path (step sampleFleet) (Alone .old .x86_64) (start ⟨false, ∅, 0⟩) fs t ∧
      t.phase .old = .cached .x86_64 (sampleFleet.path .old .x86_64) ∧
      Path (step sampleFleet) (Alone .twin .x86_64) t gs u ∧
      u.phase .twin = .cached .x86_64 (sampleFleet.path .old .x86_64) ∧ u.disk = t.disk := by
  have hrun : ((run (step sampleFleet) sampleFirst (start ⟨false, ∅, 0⟩)).bind fun t =>
      (run (step sampleFleet) sampleSecond t).map fun u => (t.phase .old, u.phase .twin)) =
        some (.cached .x86_64 (sampleFleet.path .old .x86_64),
          .cached .x86_64 (sampleFleet.path .old .x86_64)) := by decide +kernel
  obtain ⟨t, ht, hmap⟩ := Option.bind_eq_some_iff.mp hrun
  obtain ⟨u, hu, hphases⟩ := Option.map_eq_some_iff.mp hmap
  obtain ⟨hp, hq⟩ := Prod.mk.inj hphases
  have hfirst : ∀ e ∈ sampleFirst, ∀ w, Alone .old .x86_64 w e := by
    intro e he w
    simp only [sampleFirst, sampleUpload, sampleSteps, List.mem_append, List.mem_cons,
      List.not_mem_nil, or_false, List.mem_replicate] at he
    rcases he with (rfl | rfl | rfl | rfl | rfl | rfl | rfl) | ⟨-, rfl⟩
    · exact ⟨rfl, rfl, by decide⟩
    all_goals exact ⟨rfl, trivial⟩
  have hsecond : ∀ e ∈ sampleSecond, ∀ w, Alone .twin .x86_64 w e := by
    intro e he w
    rcases List.mem_cons.mp he with rfl | he
    · exact ⟨rfl, rfl, by decide⟩
    · obtain rfl := List.eq_of_mem_replicate he
      exact ⟨rfl, trivial⟩
  have hfpath := path_of_run_all hfirst ht
  have hspath := path_of_run_all hsecond hu
  have hreads := second_deploy_reads (sample_assumed 0 false) (sample_fit .old)
    (sample_fit .twin) (by decide) rfl .refl hfpath hp hspath
  exact ⟨_, t, _, u, hfpath, hp, hspath, hq, hreads.1⟩

end ShellProxy.DeployAgain
