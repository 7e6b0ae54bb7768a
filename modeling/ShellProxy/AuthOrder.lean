import ShellProxy.Auth

/-! The order of the authentications: both loops of `authenticate` as one walk over a list that is
known before the first attempt. -/
namespace ShellProxy.AuthOrder
open HostPattern SshConfig Auth
variable {κ ε : Type}

structure Candidate (κ : Type) where
  source : Source
  key : κ
  hash : Option HashAlg

def candidateOf (a : Attempt κ ε) : Candidate κ := ⟨a.source, a.key, a.hash⟩

def through {σ τ : Type} (g : σ → τ) : Flow σ → Flow τ
  | .returned s => .returned (g s)
  | .next s => .next (g s)

section Candidates
variable (w : Env κ ε)

def agentCandidates (ids : List κ) : List (Candidate κ) := ids.map fun key => ⟨.agent, key, none⟩

def hashes (key : κ) : List (Option HashAlg) := if w.isRsa key then (queryPlan w).hashes else [none]

/-- An identity file that does not load gives none. -/
def fileCandidates (path : Text) : List (Candidate κ) :=
  match w.loadSecretKey path with
  | .ok key => (hashes w key).map fun hash => ⟨.file path, key, hash⟩
  | .error _ => []

def candidates (resolved : ResolvedHost) : List (Candidate κ) :=
  agentCandidates (identities w) ++ resolved.identityFiles.flatMap (fileCandidates w)

def tryAll : List (Candidate κ) → State κ ε → Flow (State κ ε)
  | [], s => .next s
  | c :: cs, s =>
    if s.budget.exhausted then .next s
    else
      match s.attempt w c.source c.key c.hash with
      | (t, .success) => .returned t
      | (t, _) => tryAll cs t

end Candidates

/-- The candidates up to the first that is accepted, with it. -/
def upTo (accepts : Candidate κ → Bool) : List (Candidate κ) → List (Candidate κ)
  | [] => []
  | c :: cs => if accepts c then [c] else c :: upTo accepts cs

/-- The server decides by the key and its hash, keeps publickey on offer and is reached. -/
def Answered (accepts : Candidate κ → Bool) (a : Attempt κ ε) : Prop :=
  if accepts (candidateOf a) then a.result = .ok .success
  else ∃ remaining, a.result = .ok (.failure remaining) ∧ .publicKey ∈ remaining

def Reached (a : Attempt κ ε) : Prop := ∀ e, a.result ≠ .error e

section Walk
variable {w : Env κ ε}

theorem tryAll_exhausted {s : State κ ε} (h : s.budget.exhausted = true) (cs : List (Candidate κ)) :
    tryAll w cs s = .next s := by
  cases cs with
  | nil => rfl
  | cons c cs => rw [tryAll, if_pos h]

theorem tryAll_append (cs ds : List (Candidate κ)) (s : State κ ε) :
    tryAll w (cs ++ ds) s =
      match tryAll w cs s with
      | .returned t => .returned t
      | .next t => tryAll w ds t := by
  induction cs generalizing s with
  | nil => rfl
  | cons c cs ih =>
    rw [List.cons_append, tryAll, tryAll]
    cases hx : s.budget.exhausted with
    | true =>
      simp only [if_true]
      exact (tryAll_exhausted hx ds).symm
    | false =>
      simp only [Bool.false_eq_true, if_false]
      generalize s.attempt w c.source c.key c.hash = r
      obtain ⟨t, outcome⟩ := r
      cases outcome with
      | success => rfl
      | rejected | failed => exact ih t

theorem agentLoop_eq (ids : List κ) (s : State κ ε) :
    agentLoop w ids s = tryAll w (agentCandidates ids) s := by
  induction ids generalizing s with
  | nil => rfl
  | cons id ids ih =>
    rw [agentLoop, agentCandidates, List.map_cons, tryAll]
    generalize s.attempt w .agent id none = r
    obtain ⟨t, outcome⟩ := r
    cases outcome with
    | success => rfl
    | rejected | failed => simp only [ih, agentCandidates]

theorem attempt_failed (s : State κ ε) (source : Source) (key : κ) (hash : Option HashAlg)
    (h : (s.attempt w source key hash).2 = .failed) : ∃ e, w.reply s.log.length = .error e := by
  rw [attempt_outcome] at h
  cases hr : w.reply s.log.length with
  | error e => exact ⟨e, rfl⟩
  | ok a =>
    rw [hr] at h
    cases a <;> simp [PublickeyBudget.record] at h

theorem hashLoop_eq (path : Text) (key : κ) (hs : List (Option HashAlg)) (s : State κ ε)
    (rejected : Bool)
    (h : ∀ a ∈ (hashLoop w path key hs s rejected).state.1.log, Reached a) :
    through Prod.fst (hashLoop w path key hs s rejected) =
      tryAll w (hs.map fun hash => ⟨.file path, key, hash⟩) s := by
  induction hs generalizing s rejected with
  | nil => rfl
  | cons hash hs ih =>
    rw [hashLoop] at h ⊢
    rw [List.map_cons, tryAll]
    cases hx : s.budget.exhausted with
    | true => rfl
    | false =>
      have hfail := attempt_failed (w := w) s (.file path) key hash
      have hlog := attempt_log (w := w) s (.file path) key hash
      simp only [hx, Bool.false_eq_true, if_false] at h ⊢
      generalize s.attempt w (.file path) key hash = r at h hfail hlog
      obtain ⟨t, outcome⟩ := r
      cases outcome with
      | success => rfl
      | rejected => exact ih t true h
      | failed =>
        obtain ⟨e, he⟩ := hfail rfl
        refine absurd he (h ⟨.file path, key, hash, w.reply s.log.length⟩ ?_ e)
        simp only [Flow.state]
        rw [show t.log = _ from hlog]
        simp

theorem fileLoop_eq (files : List Text) (f : FileState κ ε) (hplan : Planned w f)
    (hfresh : Fresh f.state) (h : ∀ a ∈ (fileLoop w files f).state.state.log, Reached a) :
    through FileState.state (fileLoop w files f) =
      tryAll w (files.flatMap (fileCandidates w)) f.state := by
  induction files generalizing f with
  | nil => rfl
  | cons path rest ih =>
    rw [List.flatMap_cons, tryAll_append]
    rw [fileLoop] at h ⊢
    cases hx : f.state.budget.exhausted with
    | true =>
      rw [tryAll_exhausted hx]
      exact (tryAll_exhausted hx _).symm
    | false =>
      simp only [hx, Bool.false_eq_true, if_false] at h ⊢
      cases hload : w.loadSecretKey path with
      | error e =>
        have hno : fileCandidates w path = [] := by simp only [fileCandidates, hload]
        rw [hno, tryAll]
        cases e with
        | keyIsEncrypted =>
          simp only [hload] at h ⊢
          exact ih _ hplan hfresh h
        | other =>
          simp only [hload] at h ⊢
          exact ih _ hplan hfresh h
      | ok key =>
        have hsome : fileCandidates w path =
            (hashes w key).map fun hash => ⟨.file path, key, hash⟩ := by
          simp only [fileCandidates, hload]
        have hhashes : f.hashesFor w key = hashes w key := by
          rw [FileState.hashesFor, hashes, hplan.getD]
        have hended := hashLoop_ended (w := w) path key [] (f.hashesFor w key) f.state false
          (by simp) (hashesFor_justified hplan key) hfresh
        have hwalk := hashLoop_eq (w := w) path key (hashes w key) f.state false
        simp only [hload, hhashes] at h hended ⊢
        rw [hsome]
        cases hl : hashLoop w path key (hashes w key) f.state false with
        | returned r =>
          simp only [hl] at h hwalk ⊢
          rw [← hwalk h]
          rfl
        | next r =>
          simp only [hl] at h hended hwalk ⊢
          have hplan' := hplan.planFor key
          have hgrow : ∀ g : FileState κ ε, g.state = r.1 → Planned w g →
              r.1.log <+: (fileLoop w rest g).state.state.log := by
            rintro g hg hp
            have hkeeps := (fileLoop_ended rest g hp (hg ▸ hended.2)).chain.keeps
            rwa [hg] at hkeeps
          rw [← hwalk fun a ha => h a ((hgrow _ rfl (by exact hplan')).subset ha)]
          exact ih _ hplan' hended.2 h

theorem tryAll_keeps (cs : List (Candidate κ)) (s : State κ ε) :
    s.log <+: (tryAll w cs s).state.log := by
  induction cs generalizing s with
  | nil => exact List.prefix_rfl
  | cons c cs ih =>
    rw [tryAll]
    cases hx : s.budget.exhausted with
    | true => exact List.prefix_rfl
    | false =>
      have hlog : s.log <+: (s.attempt w c.source c.key c.hash).1.log := List.prefix_append _ _
      simp only [Bool.false_eq_true, if_false]
      generalize s.attempt w c.source c.key c.hash = r at hlog
      obtain ⟨t, outcome⟩ := r
      cases outcome with
      | success => exact hlog
      | rejected | failed => exact hlog.trans (ih t)

def Open (s : State κ ε) : Prop :=
  s.budget.attempts = s.log.length ∧ s.budget.offered = true

theorem attempt_answered (accepts : Candidate κ → Bool) {s : State κ ε} {c : Candidate κ}
    (hs : Open s) (h : Answered accepts ⟨c.source, c.key, c.hash, w.reply s.log.length⟩) :
    accepts c = true ∧ (s.attempt w c.source c.key c.hash).2 = .success ∨
      accepts c = false ∧ (s.attempt w c.source c.key c.hash).2 = .rejected ∧
        Open (s.attempt w c.source c.key c.hash).1 := by
  unfold Answered candidateOf at h
  cases hc : accepts c with
  | true =>
    rw [if_pos hc] at h
    left
    rw [attempt_outcome, record_success_iff, show w.reply s.log.length = _ from h]
    exact ⟨rfl, rfl⟩
  | false =>
    rw [if_neg (by simp [hc])] at h
    obtain ⟨remaining, hr, hoffers⟩ := h
    right
    refine ⟨rfl, ?_, ?_, ?_⟩
    · rw [attempt_outcome, record_rejected_iff]
      exact ⟨remaining, hr⟩
    · rw [attempt_budget, record_attempts, attempt_log, hs.1, List.length_append]
      rfl
    · rw [attempt_budget, record_offered, hs.2, show w.reply s.log.length = _ from hr, offers]
      simpa using hoffers

theorem tryAll_spec (accepts : Candidate κ → Bool) (cs : List (Candidate κ)) {s : State κ ε}
    (hs : Open s) (h : ∀ a ∈ (tryAll w cs s).state.log, Answered accepts a) :
    (tryAll w cs s).state.log.map candidateOf = s.log.map candidateOf ++
        upTo accepts (cs.take (maxPublickeyAttempts - s.log.length)) ∧
      ((∃ t, tryAll w cs s = .returned t) ↔
        ∃ c ∈ cs.take (maxPublickeyAttempts - s.log.length), accepts c = true) := by
  induction cs generalizing s with
  | nil => simp [tryAll, Flow.state, upTo]
  | cons c cs ih =>
    have hkeeps := tryAll_keeps (w := w) (c :: cs) s
    rw [tryAll] at h hkeeps ⊢
    cases hx : s.budget.exhausted with
    | true =>
      -- publickey is on offer, so it is the count that is spent
      have hfull : maxPublickeyAttempts - s.log.length = 0 := by
        rw [PublickeyBudget.exhausted, hs.2, hs.1] at hx
        have hle : maxPublickeyAttempts ≤ s.log.length := by simpa using hx
        omega
      simp [hfull, Flow.state, upTo]
    | false =>
      obtain ⟨-, hlt⟩ := (exhausted_eq_false_iff _).mp hx
      rw [hs.1] at hlt
      obtain ⟨room, hroom⟩ : ∃ room, maxPublickeyAttempts - s.log.length = room + 1 :=
        ⟨maxPublickeyAttempts - s.log.length - 1, by omega⟩
      have hlog := attempt_log (w := w) s c.source c.key c.hash
      have hanswered := attempt_answered (w := w) (c := c) accepts hs
      simp only [hx, Bool.false_eq_true, if_false] at h ⊢
      rw [hroom, List.take_succ_cons]
      generalize s.attempt w c.source c.key c.hash = r at h hlog hanswered ⊢
      obtain ⟨t, outcome⟩ := r
      replace hlog : t.log = s.log ++ [⟨c.source, c.key, c.hash, w.reply s.log.length⟩] := hlog
      have hlen : maxPublickeyAttempts - t.log.length = room := by
        rw [hlog, List.length_append, List.length_singleton]
        omega
      cases outcome with
      | success =>
        have ha := h ⟨c.source, c.key, c.hash, w.reply s.log.length⟩ (by simp [Flow.state, hlog])
        rcases hanswered ha with ⟨hacc, -⟩ | ⟨-, hrej, -⟩
        · simp [Flow.state, hlog, upTo, hacc, candidateOf]
        · cases hrej
      | rejected =>
        have ha := h ⟨c.source, c.key, c.hash, w.reply s.log.length⟩
          ((tryAll_keeps cs t).subset (by simp [hlog]))
        rcases hanswered ha with ⟨-, hgo⟩ | ⟨hacc, -, hopen⟩
        · cases hgo
        · obtain ⟨hmap, hret⟩ := ih hopen h
          rw [hlen] at hmap hret
          constructor
          · rw [hmap, hlog, upTo, if_neg (by simp [hacc])]
            simp [candidateOf]
          · rw [hret]
            simp [hacc]
      | failed =>
        have ha := h ⟨c.source, c.key, c.hash, w.reply s.log.length⟩
          ((tryAll_keeps cs t).subset (by simp [hlog]))
        rcases hanswered ha with ⟨-, hgo⟩ | ⟨-, hrej, -⟩
        · cases hgo
        · cases hrej

end Walk

theorem Answered.reached {accepts : Candidate κ → Bool} {a : Attempt κ ε} (h : Answered accepts a) :
    Reached a := by
  intro e he
  unfold Answered at h
  rw [he] at h
  split at h
  · cases h
  · simp at h

/-- `authenticate` is one walk over the agent's keys and then the hashes of each file. -/
theorem authenticate_eq (w : Env κ ε) (resolved : ResolvedHost)
    (h : ∀ a ∈ (authenticate w resolved).log, Reached a) :
    (authenticate w resolved).log = (tryAll w (candidates w resolved) {}).state.log ∧
      ((authenticate w resolved).result = .ok () ↔
        ∃ t, tryAll w (candidates w resolved) {} = .returned t) := by
  have hend := agentLoop_ended (w := w) (identities w) (identities w) {} rfl (by simp [Fresh])
  rw [candidates, tryAll_append, ← agentLoop_eq]
  unfold authenticate at h ⊢
  cases hl : agentLoop w (identities w) {} with
  | returned s => exact ⟨rfl, by simp⟩
  | next s =>
    rw [hl] at hend
    have hwalk := fileLoop_eq (w := w) resolved.identityFiles { state := s } (.inl rfl) hend.2
    simp only [hl] at h ⊢
    cases hf : fileLoop w resolved.identityFiles { state := s } with
    | returned f =>
      rw [hf] at h hwalk
      rw [← hwalk h]
      exact ⟨rfl, by simp [through]⟩
    | next f =>
      rw [hf] at h hwalk
      rw [← hwalk h]
      exact ⟨rfl, by simp [through]⟩

/-- With a server that decides by the key and its hash, what is tried is the list of candidates up
to the first it accepts or to the end of the budget, and the login succeeds exactly when one of the
first six candidates is accepted. -/
theorem login_iff (w : Env κ ε) (resolved : ResolvedHost) (accepts : Candidate κ → Bool)
    (h : ∀ a ∈ (authenticate w resolved).log, Answered accepts a) :
    (authenticate w resolved).log.map candidateOf =
        upTo accepts ((candidates w resolved).take maxPublickeyAttempts) ∧
      ((authenticate w resolved).result = .ok () ↔
        ∃ c ∈ (candidates w resolved).take maxPublickeyAttempts, accepts c = true) := by
  obtain ⟨hlog, hresult⟩ := authenticate_eq w resolved fun a ha => (h a ha).reached
  have hspec := tryAll_spec (w := w) (s := {}) accepts (candidates w resolved)
    ⟨rfl, rfl⟩ (by rwa [← hlog])
  rw [hlog, hresult]
  exact hspec

/-- Two keys in the agent, and an identity file with an RSA key that is accepted with SHA-256 where
the server did not say what it supports. -/
def rsaEnv : Env Nat String where
  isRsa key := key == 2
  connectAgent := .ok (.ok [0, 1])
  loadSecretKey _ := .ok 2
  bestSupportedRsaHash := .ok none
  reply n := if n = 3 then .ok .success else .ok (.failure [.publicKey, .password])

def rsaAccepts (c : Candidate Nat) : Bool := c.key == 2 && c.hash == some .sha256

theorem login_iff_sample :
    (authenticate rsaEnv sampleHost).log.map candidateOf =
        upTo rsaAccepts ((candidates rsaEnv sampleHost).take maxPublickeyAttempts) ∧
      ((authenticate rsaEnv sampleHost).result = .ok () ↔
        ∃ c ∈ (candidates rsaEnv sampleHost).take maxPublickeyAttempts, rsaAccepts c = true) := by
  refine login_iff rsaEnv sampleHost rsaAccepts fun a ha => ?_
  have hlog : (authenticate rsaEnv sampleHost).log =
      [⟨.agent, 0, none, .ok (.failure [.publicKey, .password])⟩,
        ⟨.agent, 1, none, .ok (.failure [.publicKey, .password])⟩,
        ⟨.file "id".toList, 2, some .sha512, .ok (.failure [.publicKey, .password])⟩,
        ⟨.file "id".toList, 2, some .sha256, .ok .success⟩] := rfl
  rw [hlog] at ha
  simp only [List.mem_cons, List.not_mem_nil, or_false] at ha
  rcases ha with rfl | rfl | rfl | rfl
  · exact ⟨_, rfl, by decide⟩
  · exact ⟨_, rfl, by decide⟩
  · exact ⟨_, rfl, by decide⟩
  · exact rfl

end ShellProxy.AuthOrder
