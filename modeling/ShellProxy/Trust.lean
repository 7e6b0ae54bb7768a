import ShellProxy.ScanVerdict

/-! When a host key is trusted, over all the files, and which of their lines have a say in it. -/
namespace ShellProxy.Trust
open HostPattern KnownHosts Revocation ScanVerdict
variable {K A : Type} [DecidableEq K] [DecidableEq A]

section Files
variable (E : Env K A) (r : ResolvedHost) (key : K) (path : String)

/-- The name the records of the host stand under. -/
abbrev lookupName : Text := (hostKeyLookupName r.recordHost r.port).toList

/-- What the checker of the hashed entries says of the file. -/
abbrev hashed : Except KeysError Bool := E.checkKnownHostsPath r.recordHost r.port key path

/-- The file cannot be read, or the scan of its text reaches no verdict. -/
def Undecided : Prop :=
  ∀ text, E.read path = some text → Spec E (lookupName r) key (lines text) .absent

/-- The host is not in the file, plain or hashed. -/
def SilentFile : Prop := Undecided E r key path ∧ hashed E r key path = .ok false

/-- The file records the key for the host: in a plain entry that nothing stands against, or in a
hashed one where the plain entries say nothing. -/
def VouchesFile : Prop :=
  (∃ text, E.read path = some text ∧ IsMatched E (lookupName r) key (lines text)) ∨
    Undecided E r key path ∧ hashed E r key path = .ok true

end Files

section Accepted
variable {E : Env K A} {r : ResolvedHost} {key : K} {path : String}

theorem fallback_matched {v : Except KeysError Bool} :
    KnownHostCheck.fromHashedFallback v = .matched ↔ v = .ok true := by
  cases v with
  | ok b => cases b <;> simp [KnownHostCheck.fromHashedFallback]
  | error e => cases e <;> simp [KnownHostCheck.fromHashedFallback]

theorem fallback_absent {v : Except KeysError Bool} :
    KnownHostCheck.fromHashedFallback v = .absent ↔ v = .ok false := by
  cases v with
  | ok b => cases b <;> simp [KnownHostCheck.fromHashedFallback]
  | error e => cases e <;> simp [KnownHostCheck.fromHashedFallback]

theorem scan_spec {text : Text} {w : KnownHostCheck} :
    scanKnownHosts E (lookupName r) key false text = w ↔
      Spec E (lookupName r) key (lines text) w := by
  rw [scanKnownHosts_eq]
  constructor
  · rintro rfl
    exact spec_scan (lines text)
  · exact scan_of_spec

theorem check_spec :
    (checkKnownHostFile E path r.recordHost r.port key false = .matched ↔
      VouchesFile E r key path) ∧
    (checkKnownHostFile E path r.recordHost r.port key false = .absent ↔
      SilentFile E r key path) := by
  unfold checkKnownHostFile VouchesFile SilentFile Undecided hashed
  cases hread : E.read path with
  | none => simp [fallback_matched, fallback_absent]
  | some text =>
    simp only [Option.some.injEq, exists_eq_left', forall_eq']
    have hm : scanKnownHosts E (lookupName r) key false text = .matched ↔
      IsMatched E (lookupName r) key (lines text) := scan_spec
    have ha : scanKnownHosts E (lookupName r) key false text = .absent ↔
      Spec E (lookupName r) key (lines text) .absent := scan_spec
    rw [← hm, ← ha]
    cases scanKnownHosts E (lookupName r) key false text with
    | absent => simp [fallback_matched, fallback_absent]
    | matched | changed l | revoked l | malformed d => simp

theorem split_silent (check : String → KnownHostCheck) (files : List String) :
    (∀ p ∈ files, check p = .absent) ∨ ∃ pre p post, files = pre ++ p :: post ∧
      (∀ q ∈ pre, check q = .absent) ∧ check p ≠ .absent := by
  by_cases h : ∀ p ∈ files, check p = .absent
  · exact .inl h
  · right
    obtain ⟨path, hmem, hpath⟩ : ∃ path ∈ files, check path ≠ .absent := by simpa using h
    obtain ⟨front, back, rfl⟩ := List.append_of_mem hmem
    obtain ⟨pre, p, post, hsplit, hpre, hp⟩ := first_verdict check front path hpath
    refine ⟨pre, p, post ++ back, ?_, hpre, hp⟩
    rw [← List.singleton_append, ← List.append_assoc, hsplit]
    simp

theorem decideFiles_silent (endpoint recordHost : String) (strict : Bool)
    (check : String → KnownHostCheck) (files checked : List String)
    (h : ∀ p ∈ files, check p = .absent) :
    decideFiles endpoint recordHost strict check checked files = .accept ↔ strict = false := by
  induction files generalizing checked with
  | nil =>
    rw [decideFiles, undecided]
    cases strict with
    | false => simp
    | true =>
      simp only [Bool.not_true, Bool.false_eq_true, if_false]
      split <;> simp
  | cons p rest ih =>
    rw [decideFiles, h p List.mem_cons_self]
    exact ih _ fun q hq => h q (List.mem_cons_of_mem p hq)

/-- A plain key is accepted exactly when the first file that says anything of it vouches for it,
or when no file says anything and the checking is not strict. -/
theorem key_accepted_iff (E : Env K A) (r : ResolvedHost) (key : K) :
    decideServerKey E r (.publicKey key) = .accept ↔
      (∃ pre path post, knownHostsFiles E r = pre ++ path :: post ∧
        (∀ p ∈ pre, SilentFile E r key p) ∧ VouchesFile E r key path) ∨
      r.strictHostKeys = false ∧ ∀ p ∈ knownHostsFiles E r, SilentFile E r key p := by
  simp only [← check_spec.1, ← check_spec.2, decideServerKey, decideHostKey]
  generalize hcheck : (fun p => checkKnownHostFile E p r.recordHost r.port key false) = check
  have he : ∀ p, checkKnownHostFile E p r.recordHost r.port key false = check p := by
    intro p
    rw [← hcheck]
  simp only [he]
  generalize knownHostsFiles E r = files
  constructor
  · intro hacc
    rcases split_silent check files with hall | ⟨pre, p, post, rfl, hpre, hp⟩
    · exact .inr ⟨(decideFiles_silent _ _ _ check files [] hall).mp hacc, hall⟩
    · exact .inl ⟨pre, p, post, rfl, hpre,
        (decideFiles_decided _ _ _ check [] pre post p hpre hp).mp hacc⟩
  · rintro (⟨pre, p, post, rfl, hpre, hp⟩ | ⟨hstrict, hall⟩)
    · exact (decideFiles_decided _ _ _ check [] pre post p hpre (by simp [hp])).mpr hp
    · exact (decideFiles_silent _ _ _ check files [] hall).mpr hstrict

end Accepted

/-! ### Lines that have no say -/

/-- The scan by the kinds of the lines alone, without their numbers. -/
def judge : Option Kind → List Kind → Option Kind
  | o, [] => o
  | o, .blocks :: ks => if o ≠ some .records then some .blocks else judge o ks
  | _, .revokes :: _ => some .revokes
  | _, .records :: ks => judge (some .records) ks
  | o, .changes :: ks => judge (if o = none then some .changes else o) ks
  | o, .other :: ks => judge o ks

theorem outcome_matched {v : KnownHostCheck} : outcome v = some .records ↔ v = .matched := by
  cases v <;> simp [outcome]

theorem outcome_absent {v : KnownHostCheck} : outcome v = none ↔ v = .absent := by
  cases v <;> simp [outcome]

theorem outcome_judge (n : Nat) (v : KnownHostCheck) (ks : List Kind) :
    outcome (scan n v ks) = judge (outcome v) ks := by
  induction ks generalizing n v with
  | nil => rfl
  | cons k ks ih =>
    cases k with
    | other => exact ih (n + 1) v
    | records => exact ih (n + 1) .matched
    | revokes => rfl
    | blocks =>
      by_cases hv : v = .matched
      · subst hv
        exact ih (n + 1) .matched
      · have ho : outcome v ≠ some .records := mt outcome_matched.mp hv
        rw [scan, react, if_pos hv, judge, if_pos ho]
        rfl
    | changes =>
      by_cases hv : v = .absent
      · subst hv
        exact ih (n + 1) _
      · have ho : outcome v ≠ none := mt outcome_absent.mp hv
        rw [scan, react, if_neg hv, judge, if_neg ho]
        exact ih (n + 1) v

section Lines
variable (E : Env K A) (lookup : Text) (key : K)

/-- The line is about the key or, unparseable, about the host. -/
def Concerns (raw : Text) : Prop :=
  BlocksLine E lookup raw ∨ RevokesLine E key raw ∨ RecordsLine E lookup key raw ∨
    ChangesLine E lookup key raw

variable {E lookup key}

theorem concerns_iff {raw : Text} :
    kind E lookup key false raw ≠ .other ↔ Concerns E lookup key raw := by
  have hb : kind E lookup key false raw = .blocks ↔ BlocksLine E lookup raw := kind_blocks
  have hr : kind E lookup key false raw = .revokes ↔ RevokesLine E key raw := kind_revokes
  rw [Concerns, ← hb, ← hr, ← kind_plain.1, ← kind_plain.2]
  cases kind E lookup key false raw <;> simp

instance : DecidablePred (Concerns E lookup key) := fun _ => decidable_of_iff _ concerns_iff

theorem kind_other {raw : Text} (h : ¬ Concerns E lookup key raw) (cert : Bool) :
    kind E lookup key cert raw = .other := by
  cases cert with
  | false => exact not_not.mp (mt concerns_iff.mp h)
  | true =>
    have hb : kind E lookup key true raw ≠ .blocks := fun hk => h (.inl (kind_blocks.mp hk))
    have hr : kind E lookup key true raw ≠ .revokes :=
      fun hk => h (.inr (.inl (kind_revokes.mp hk)))
    obtain ⟨hm, hc⟩ : kind E lookup key true raw ≠ .records ∧
      kind E lookup key true raw ≠ .changes := kind_cert
    cases hk : kind E lookup key true raw with
    | other => rfl
    | blocks => exact absurd hk hb
    | revokes => exact absurd hk hr
    | records => exact absurd hk hm
    | changes => exact absurd hk hc

theorem judge_relevant (o : Option Kind) (cert : Bool) (ls : List Text) :
    judge o (ls.map (kind E lookup key cert)) =
      judge o ((ls.filter (Concerns E lookup key ·)).map (kind E lookup key cert)) := by
  induction ls generalizing o with
  | nil => rfl
  | cons raw ls ih =>
    by_cases hc : Concerns E lookup key raw
    · rw [List.filter_cons_of_pos (by simpa using hc), List.map_cons, List.map_cons]
      cases kind E lookup key cert raw with
      | blocks => rw [judge, judge, ih]
      | revokes => rfl
      | records | changes | other => exact ih _
    · rw [List.filter_cons_of_neg (by simpa using hc), List.map_cons, kind_other hc, judge]
      exact ih o

theorem kind_congr {E' : Env K A} (hp : E'.parse = E.parse) (ha : E'.algorithm = E.algorithm)
    (cert : Bool) : kind E' lookup key cert = kind E lookup key cert := by
  funext raw
  simp only [kind, entryKind, hp, ha]

end Lines

section Edit
variable (E : Env K A) (r : ResolvedHost) (key : K)

/-- The lines of the file that concern the key. -/
def relevant (path : String) : List Text :=
  (E.read path).elim [] fun text => (lines text).filter (Concerns E (lookupName r) key ·)

def verdict (path : String) (cert : Bool) : Option Kind :=
  outcome (checkKnownHostFile E path r.recordHost r.port key cert)

def hashedVerdict (path : String) : Option Kind :=
  outcome (.fromHashedFallback (hashed E r key path))

/-- The files of two machines differ at most in lines that do not concern the key, and the checker
of the hashed entries says the same of both. -/
structure SameRecords (E E' : Env K A) (r : ResolvedHost) (key : K) : Prop where
  isFile : E'.isFile = E.isFile
  parse : E'.parse = E.parse
  algorithm : E'.algorithm = E.algorithm
  relevant : ∀ path ∈ knownHostsFiles E r, relevant E' r key path = relevant E r key path
  hashed : ∀ path ∈ knownHostsFiles E r, hashedVerdict E' r key path = hashedVerdict E r key path

/-- The check looks at the relevant lines, and at the hashed entries where those do not decide. -/
theorem verdict_eq (path : String) (cert : Bool) :
    verdict E r key path cert =
      (judge none ((relevant E r key path).map (kind E (lookupName r) key cert))).or
        (hashedVerdict E r key path) := by
  unfold verdict relevant checkKnownHostFile
  cases hread : E.read path with
  | none => rfl
  | some text =>
    have hj : outcome (scanKnownHosts E (lookupName r) key cert text) =
        judge none (((lines text).filter (Concerns E (lookupName r) key ·)).map
          (kind E (lookupName r) key cert)) := by
      rw [scanKnownHosts, scanLines_eq, outcome_judge, ← judge_relevant]
      rfl
    simp only [Option.elim_some]
    rw [← hj]
    cases scanKnownHosts E (lookupName r) key cert text <;> rfl

variable {E r key} {E' : Env K A}

theorem SameRecords.verdict (h : SameRecords E E' r key) {path : String}
    (hp : path ∈ knownHostsFiles E r) (cert : Bool) :
    verdict E' r key path cert = verdict E r key path cert := by
  rw [verdict_eq, verdict_eq, h.relevant path hp, h.hashed path hp,
    kind_congr h.parse h.algorithm cert]

theorem decideFiles_cons {endpoint recordHost : String} {strict : Bool}
    {check : String → KnownHostCheck} {checked rest : List String} {p : String} :
    decideFiles endpoint recordHost strict check checked (p :: rest) = .accept ↔
      outcome (check p) = some .records ∨ outcome (check p) = none ∧
        decideFiles endpoint recordHost strict check (checked ++ [p]) rest = .accept := by
  rw [decideFiles]
  cases check p <;> simp [outcome]

theorem decideFiles_congr {endpoint recordHost : String} {strict : Bool}
    {check check' : String → KnownHostCheck} {files : List String}
    (h : ∀ p ∈ files, outcome (check' p) = outcome (check p)) (checked : List String) :
    decideFiles endpoint recordHost strict check' checked files = .accept ↔
      decideFiles endpoint recordHost strict check checked files = .accept := by
  induction files generalizing checked with
  | nil => rfl
  | cons p rest ih =>
    rw [decideFiles_cons, decideFiles_cons, h p List.mem_cons_self,
      ih (fun q hq => h q (List.mem_cons_of_mem p hq)) (checked ++ [p])]

theorem decideCertificate_cons {endpoint : String} {strict : Bool} {rest : List String}
    {p : String} :
    decideCertificate E endpoint r.recordHost r.port strict key (p :: rest) = .accept ↔
      verdict E r key p true ≠ some .revokes ∧
        decideCertificate E endpoint r.recordHost r.port strict key rest = .accept := by
  rw [decideCertificate, verdict]
  cases checkKnownHostFile E p r.recordHost r.port key true <;> simp [outcome]

theorem decideCertificate_congr {endpoint : String} {strict : Bool} {files : List String}
    (h : ∀ p ∈ files, verdict E' r key p true = verdict E r key p true) :
    decideCertificate E' endpoint r.recordHost r.port strict key files = .accept ↔
      decideCertificate E endpoint r.recordHost r.port strict key files = .accept := by
  induction files with
  | nil => rfl
  | cons p rest ih =>
    rw [decideCertificate_cons, decideCertificate_cons, h p List.mem_cons_self,
      ih fun q hq => h q (List.mem_cons_of_mem p hq)]

/-- Adding, changing or removing lines that do not concern the key never changes what is decided on
it, as a plain key or under a certificate. -/
theorem unrelated_lines_no_say (h : SameRecords E E' r key) (p : Presented K)
    (hp : p = .publicKey key ∨ p = .certificate key) :
    decideServerKey E' r p = .accept ↔ decideServerKey E r p = .accept := by
  have hfiles : knownHostsFiles E' r = knownHostsFiles E r := by
    simp only [knownHostsFiles, h.isFile]
  rcases hp with rfl | rfl
  · simp only [decideServerKey, decideHostKey, hfiles]
    exact decideFiles_congr (fun path hm => h.verdict hm false) []
  · simp only [decideServerKey, hfiles]
    exact decideCertificate_congr fun path hm => h.verdict hm true

end Edit

/-- The files of the sample with a comment before the entry of the host. -/
def notedEnv : Env Nat Unit :=
  { sampleEnv with read := fun path =>
      if path = "/user" then some "# note\nh key1\n".toList else sampleEnv.read path }

theorem noted_same : SameRecords sampleEnv notedEnv (sampleHost ["/user", "/global"]) 1 where
  isFile := rfl
  parse := rfl
  algorithm := rfl
  relevant path _ := by
    have hl : lines "h key1\n".toList = ["h key1".toList] := by decide
    have hl' : lines "# note\nh key1\n".toList = ["# note".toList, "h key1".toList] := by decide
    have hk : ¬ Concerns notedEnv (lookupName (sampleHost ["/user", "/global"])) 1
        "# note".toList := by decide
    unfold relevant
    by_cases hu : path = "/user"
    · have hr : notedEnv.read path = some "# note\nh key1\n".toList := if_pos hu
      have hr' : sampleEnv.read path = some "h key1\n".toList := if_pos hu
      rw [hr, hr', Option.elim_some, Option.elim_some, hl, hl',
        List.filter_cons_of_neg (by simpa using hk)]
      rfl
    · have hr : notedEnv.read path = sampleEnv.read path := if_neg hu
      rw [hr]
      rfl
  hashed _ _ := rfl

theorem unrelated_lines_no_say_sample :
    decideServerKey notedEnv (sampleHost ["/user", "/global"]) (.publicKey 1) = .accept ↔
      decideServerKey sampleEnv (sampleHost ["/user", "/global"]) (.publicKey 1) = .accept :=
  unrelated_lines_no_say noted_same (.publicKey 1) (.inl rfl)

end ShellProxy.Trust
