import ShellProxy.KnownHosts

/-! Revoked host keys: what one file says of a key it revokes, and what the decision over all
files makes of it. -/
namespace ShellProxy.Revocation
open HostPattern KnownHosts
variable {K A : Type} [DecidableEq K] [DecidableEq A] {E : Env K A}

/-- The line is a `@revoked` entry for exactly this key. -/
def RevokesLine (E : Env K A) (serverKey : K) (raw : Text) : Prop :=
  skips (trim raw) = false ∧
    ∃ entry, E.parse (trim raw) = some entry ∧ entry.marker = some .revoked ∧
      entry.publicKey = serverKey

def RevokesFile (E : Env K A) (serverKey : K) (path : String) : Prop :=
  ∃ text, E.read path = some text ∧ ∃ raw ∈ lines text, RevokesLine E serverKey raw

/-- The verdicts that reject whatever the other files say. -/
def Refuses : KnownHostCheck → Prop
  | .revoked _ | .malformed _ => True
  | _ => False

theorem scanLine_refuses {lookup : Text} {serverKey : K} {cert : Bool} {n : Nat}
    {v r : KnownHostCheck} {raw : Text} (h : scanLine E lookup serverKey cert n v raw = .error r) :
    Refuses r := by
  unfold scanLine at h
  by_cases hk : skips (trim raw) = true
  · simp only [if_pos hk] at h
    cases h
  · simp only [if_neg hk] at h
    split at h
    · split at h
      · obtain rfl := Except.error.inj h
        trivial
      · cases h
    · rename_i entry hp
      split at h
      · split at h
        · obtain rfl := Except.error.inj h
          trivial
        · cases h
      · cases h
      · repeat' split at h
        all_goals cases h

theorem scanLine_revokes {lookup : Text} {serverKey : K} {cert : Bool} {n : Nat}
    {v : KnownHostCheck} {raw : Text} (h : RevokesLine E serverKey raw) :
    scanLine E lookup serverKey cert n v raw = .error (.revoked (toString n)) := by
  obtain ⟨hk, entry, hp, hm, hkey⟩ := h
  simp [scanLine, hk, hp, hm, hkey]

theorem scanLines_refuses {lookup : Text} {serverKey : K} {cert : Bool} (ls : List Text) (n : Nat)
    (v : KnownHostCheck) (h : ∃ raw ∈ ls, RevokesLine E serverKey raw) :
    Refuses (scanLines E lookup serverKey cert n v ls) := by
  induction ls generalizing n v with
  | nil =>
    obtain ⟨raw, hmem, -⟩ := h
    cases hmem
  | cons raw rest ih =>
    unfold scanLines
    cases hs : scanLine E lookup serverKey cert n v raw with
    | error r => exact scanLine_refuses hs
    | ok w =>
      obtain ⟨line, hmem, hrev⟩ := h
      rcases List.mem_cons.mp hmem with rfl | hrest
      · rw [scanLine_revokes hrev] at hs
        cases hs
      · exact ih (n + 1) w ⟨line, hrest, hrev⟩

theorem check_refuses {serverKey : K} {path : String} (h : RevokesFile E serverKey path)
    (recordHost : String) (port : Nat) (cert : Bool) :
    Refuses (checkKnownHostFile E path recordHost port serverKey cert) := by
  obtain ⟨text, hread, hline⟩ := h
  have hs : Refuses (scanLines E (hostKeyLookupName recordHost port).toList serverKey cert 1 .absent
      (lines text)) := scanLines_refuses (lines text) 1 .absent hline
  unfold checkKnownHostFile
  simp only [hread, scanKnownHosts]
  split
  · rename_i ha
    rw [ha] at hs
    exact absurd hs id
  · exact hs

theorem decideFiles_decided (endpoint recordHost : String) (strict : Bool)
    (check : String → KnownHostCheck) (checked pre post : List String) (path : String)
    (hpre : ∀ p ∈ pre, check p = .absent) (hpath : check path ≠ .absent) :
    decideFiles endpoint recordHost strict check checked (pre ++ path :: post) = .accept ↔
      check path = .matched := by
  induction pre generalizing checked with
  | nil =>
    rw [List.nil_append, decideFiles]
    cases hc : check path with
    | absent => exact absurd hc hpath
    | matched => simp
    | revoked line | changed line | malformed detail => simp
  | cons p rest ih =>
    have hp := hpre p (by simp)
    rw [List.cons_append, decideFiles, hp]
    exact ih _ (fun q hq => hpre q (List.mem_cons_of_mem p hq))

theorem first_verdict (check : String → KnownHostCheck) (files : List String) (path : String)
    (h : check path ≠ .absent) :
    ∃ a p b, files ++ [path] = a ++ p :: b ∧ (∀ q ∈ a, check q = .absent) ∧ check p ≠ .absent := by
  induction files with
  | nil => exact ⟨[], path, [], rfl, by simp, h⟩
  | cons f rest ih =>
    by_cases hf : check f = .absent
    · obtain ⟨a, p, b, he, ha, hp⟩ := ih
      refine ⟨f :: a, p, b, by rw [List.cons_append, he]; rfl, ?_, hp⟩
      intro q hq
      rcases List.mem_cons.mp hq with rfl | hq
      · exact hf
      · exact ha q hq
    · exact ⟨[], f, rest ++ [path], rfl, by simp, hf⟩

theorem accept_iff_not_reject (d : HostKeyDecision) : (∃ reason, d = .reject reason) ↔ d ≠ .accept := by
  cases d <;> simp

/-- A key revoked by one of the files is rejected, unless a file before it already matched: the
first verdict decides, and it is that of the revoking file or of one before it. -/
theorem revoked_key_decision (E : Env K A) (r : ResolvedHost) (key : K) (pre post : List String)
    (path : String) (hfiles : knownHostsFiles E r = pre ++ path :: post)
    (hrev : RevokesFile E key path) :
    (∃ reason, decideServerKey E r (.publicKey key) = .reject reason) ↔
      ¬ ∃ a p b, pre = a ++ p :: b ∧
        (∀ q ∈ a, checkKnownHostFile E q r.recordHost r.port key false = .absent) ∧
        checkKnownHostFile E p r.recordHost r.port key false = .matched := by
  rw [accept_iff_not_reject]
  apply not_congr
  simp only [decideServerKey, decideHostKey, hfiles]
  generalize hcheck : (fun q => checkKnownHostFile E q r.recordHost r.port key false) = check
  have he : ∀ q, checkKnownHostFile E q r.recordHost r.port key false = check q := by
    intro q
    rw [← hcheck]
  have hpath : Refuses (check path) := by
    rw [← he]
    exact check_refuses hrev r.recordHost r.port false
  have hn : check path ≠ .absent := by
    intro ha
    rw [ha] at hpath
    exact hpath
  simp only [he]
  constructor
  · intro hacc
    obtain ⟨a, p, b, hsplit, ha, hp⟩ := first_verdict check pre path hn
    have hall : pre ++ path :: post = a ++ p :: (b ++ post) := by
      have hs := congrArg (· ++ post) hsplit
      simpa using hs
    rw [hall, decideFiles_decided _ _ _ check [] a (b ++ post) p ha hp] at hacc
    rcases List.eq_nil_or_concat b with rfl | ⟨c, q, rfl⟩
    · -- the first verdict would be the revoking file's own
      obtain ⟨-, hq⟩ := List.append_inj' hsplit rfl
      rw [← (List.cons.inj hq).1] at hacc
      rw [hacc] at hpath
      exact absurd hpath id
    · have hs : pre ++ [path] = (a ++ p :: c) ++ [q] := by rw [hsplit]; simp
      exact ⟨a, p, c, (List.append_inj' hs rfl).1, ha, hacc⟩
  · rintro ⟨a, p, b, rfl, ha, hm⟩
    have hp : check p ≠ .absent := by simp [hm]
    have hd := decideFiles_decided r.endpoint r.recordHost r.strictHostKeys check [] a
      (b ++ path :: post) p ha hp
    rw [List.append_assoc, List.cons_append]
    exact hd.mpr hm

def sampleEnv : Env Nat Unit where
  isFile _ := true
  read path :=
    if path = "/user" then some "h key1\n".toList
    else if path = "/global" then some "@revoked h key1\n".toList
    else none
  parse line :=
    if line = "h key1".toList then some ⟨none, .patterns ["h".toList], 1⟩
    else if line = "@revoked h key1".toList then some ⟨some .revoked, .patterns ["h".toList], 1⟩
    else none
  algorithm _ := ()
  checkKnownHostsPath _ _ _ _ := .ok false

def sampleHost (files : List String) : ResolvedHost := ⟨"h", 22, none, true, files⟩

theorem sample_revokes : RevokesFile sampleEnv 1 "/global" :=
  ⟨_, rfl, "@revoked h key1".toList, by decide, by decide, _, rfl, rfl, rfl⟩

theorem revoked_key_decision_sample :
    (∃ reason, decideServerKey sampleEnv (sampleHost ["/global", "/user"]) (.publicKey 1) =
        .reject reason) ↔
      ¬ ∃ a p b, [] = a ++ p :: b ∧
        (∀ q ∈ a, checkKnownHostFile sampleEnv q "h" 22 1 false = .absent) ∧
        checkKnownHostFile sampleEnv p "h" 22 1 false = .matched :=
  revoked_key_decision sampleEnv (sampleHost ["/global", "/user"]) 1 [] ["/user"] "/global"
    (by decide) sample_revokes

theorem sample_pattern : matchPattern "h".toList "h".toList = true :=
  (Glob.run_next rfl).trans (Glob.run_done rfl)

theorem sample_line :
    scanLine sampleEnv "h".toList 1 false 1 .absent "h key1".toList = .ok .matched := by
  have hk : skips (trim "h key1".toList) = false := by decide
  have hp : sampleEnv.parse (trim "h key1".toList) = some ⟨none, .patterns ["h".toList], 1⟩ := rfl
  have hm : matchPatternList "h".toList ["h".toList] = true := by
    have hl : toAsciiLowercase "h".toList = "h".toList := by decide
    have hn : stripNegation "h".toList = (false, "h".toList) := rfl
    simp only [matchPatternList, matchPatterns, hl, hn, sample_pattern]
    rfl
  simp only [scanLine, hk, hp, hostMatches, hm]
  rfl

theorem earlier_match_accepts :
    RevokesFile sampleEnv 1 "/global" ∧
      decideServerKey sampleEnv (sampleHost ["/user", "/global"]) (.publicKey 1) = .accept := by
  refine ⟨sample_revokes, ?_⟩
  have hl : lines "h key1\n".toList = ["h key1".toList] := by decide
  have hs : scanKnownHosts sampleEnv "h".toList 1 false "h key1\n".toList = .matched := by
    simp only [scanKnownHosts, hl, scanLines, sample_line]
  have hc : checkKnownHostFile sampleEnv "/user" "h" 22 1 false = .matched := by
    have hr : sampleEnv.read "/user" = some "h key1\n".toList := rfl
    have hn : hostKeyLookupName "h" 22 = "h" := rfl
    simp only [checkKnownHostFile, hr, hn, hs]
  have hf : knownHostsFiles sampleEnv (sampleHost ["/user", "/global"]) = ["/user", "/global"] := by
    decide
  have hd := decideFiles_decided (sampleHost ["/user", "/global"]).endpoint "h" true
    (fun q => checkKnownHostFile sampleEnv q "h" 22 1 false) [] [] ["/global"] "/user"
    (by simp) (by simp [hc])
  rw [decideServerKey, decideHostKey, hf]
  exact hd.mpr hc

end ShellProxy.Revocation
