import ShellProxy.Revocation
import Mathlib.Data.Nat.Find

/-! What the scan of a known_hosts text comes to, as a function of the lines it meets. -/
namespace ShellProxy.ScanVerdict
open HostPattern KnownHosts Revocation

/-- What a line means for the key that is looked up. -/
inductive Kind where
  /-- cannot be parsed, and names the host -/
  | blocks
  /-- `@revoked`, for the key -/
  | revokes
  /-- the host's entry for the key -/
  | records
  /-- an entry of the host for another key of the same algorithm -/
  | changes
  | other
  deriving DecidableEq, Repr

section Lines
variable {K A : Type} [DecidableEq K] [DecidableEq A] (E : Env K A) (lookup : Text) (key : K)

def BlocksLine (raw : Text) : Prop :=
  skips (trim raw) = false ∧ E.parse (trim raw) = none ∧
    rawEntryTargetsHost (trim raw) lookup = true

def PlainEntry (raw : Text) (entry : Entry K) : Prop :=
  skips (trim raw) = false ∧ E.parse (trim raw) = some entry ∧ entry.marker = none ∧
    hostMatches lookup entry.hostPatterns = true

def RecordsLine (raw : Text) : Prop := ∃ entry, PlainEntry E lookup raw entry ∧ entry.publicKey = key

def ChangesLine (raw : Text) : Prop :=
  ∃ entry, PlainEntry E lookup raw entry ∧ entry.publicKey ≠ key ∧
    E.algorithm entry.publicKey = E.algorithm key

variable (cert : Bool)

def entryKind (entry : Entry K) : Kind :=
  match entry.marker with
  | some .revoked => if entry.publicKey = key then .revokes else .other
  | some .certAuthority => .other
  | none =>
    if cert then .other
    else if !hostMatches lookup entry.hostPatterns then .other
    else if entry.publicKey = key then .records
    else if E.algorithm entry.publicKey = E.algorithm key then .changes
    else .other

def kind (raw : Text) : Kind :=
  if skips (trim raw) then .other
  else
    match E.parse (trim raw) with
    | none => if rawEntryTargetsHost (trim raw) lookup then .blocks else .other
    | some entry => entryKind E lookup key cert entry

end Lines

def react (n : Nat) (v : KnownHostCheck) : Kind → Except KnownHostCheck KnownHostCheck
  | .blocks => if v ≠ .matched then .error (.malformed s!"line {n}") else .ok v
  | .revokes => .error (.revoked (toString n))
  | .records => .ok .matched
  | .changes => .ok (if v = .absent then .changed (toString n) else v)
  | .other => .ok v

def scan : Nat → KnownHostCheck → List Kind → KnownHostCheck
  | _, v, [] => v
  | n, v, k :: ks =>
    match react n v k with
    | .error r => r
    | .ok w => scan (n + 1) w ks

section Lines
variable {K A : Type} [DecidableEq K] [DecidableEq A] {E : Env K A} {lookup : Text} {key : K}
  {cert : Bool}

theorem scanLine_eq (n : Nat) (v : KnownHostCheck) (raw : Text) :
    scanLine E lookup key cert n v raw = react n v (kind E lookup key cert raw) := by
  unfold scanLine kind
  by_cases hk : skips (trim raw) = true
  · simp [hk, react]
  · simp only [if_neg hk]
    cases hp : E.parse (trim raw) with
    | none =>
      by_cases ht : rawEntryTargetsHost (trim raw) lookup = true <;> simp [ht, react]
    | some entry =>
      obtain ⟨marker, hosts, k⟩ := entry
      cases marker with
      | some m =>
        cases m with
        | revoked => by_cases he : k = key <;> simp [entryKind, he, react]
        | certAuthority => simp [entryKind, react]
      | none =>
        cases cert with
        | true => simp [entryKind, react]
        | false =>
          by_cases hm : hostMatches lookup hosts = true
          · by_cases he : k = key
            · simp [entryKind, hm, he, react]
            · by_cases ha : E.algorithm k = E.algorithm key
              · by_cases hv : v = .absent <;> simp [entryKind, hm, he, ha, hv, react]
              · simp [entryKind, hm, he, ha, react]
          · simp [entryKind, hm, react]

theorem scanLines_eq (n : Nat) (v : KnownHostCheck) (ls : List Text) :
    scanLines E lookup key cert n v ls = scan n v (ls.map (kind E lookup key cert)) := by
  induction ls generalizing n v with
  | nil => rfl
  | cons raw ls ih =>
    rw [scanLines, scanLine_eq, List.map_cons, scan]
    cases react n v (kind E lookup key cert raw) with
    | error r => rfl
    | ok w => exact ih (n + 1) w

theorem kind_blocks {raw : Text} :
    kind E lookup key cert raw = .blocks ↔ BlocksLine E lookup raw := by
  unfold kind BlocksLine
  by_cases hk : skips (trim raw) = true
  · simp [hk]
  · cases hp : E.parse (trim raw) with
    | none => simp [hk]
    | some entry =>
      simp only [hk, entryKind]
      repeat' split
      all_goals simp

theorem kind_revokes {raw : Text} :
    kind E lookup key cert raw = .revokes ↔ RevokesLine E key raw := by
  unfold kind RevokesLine
  by_cases hk : skips (trim raw) = true
  · simp [hk]
  · cases hp : E.parse (trim raw) with
    | none => by_cases ht : rawEntryTargetsHost (trim raw) lookup = true <;> simp [hk, ht]
    | some entry =>
      obtain ⟨marker, hosts, k⟩ := entry
      cases marker with
      | some m =>
        cases m with
        | revoked => simp [hk, entryKind]
        | certAuthority => simp [hk, entryKind]
      | none =>
        simp only [hk, entryKind]
        repeat' split
        all_goals simp

theorem kind_plain {raw : Text} :
    (kind E lookup key false raw = .records ↔ RecordsLine E lookup key raw) ∧
      (kind E lookup key false raw = .changes ↔ ChangesLine E lookup key raw) := by
  unfold kind RecordsLine ChangesLine PlainEntry
  by_cases hk : skips (trim raw) = true
  · simp [hk]
  · cases hp : E.parse (trim raw) with
    | none => by_cases ht : rawEntryTargetsHost (trim raw) lookup = true <;> simp [hk, ht]
    | some entry =>
      obtain ⟨marker, hosts, k⟩ := entry
      cases marker with
      | some m =>
        cases m with
        | revoked => by_cases he : k = key <;> simp [hk, entryKind, he]
        | certAuthority => simp [hk, entryKind]
      | none =>
        by_cases hm : hostMatches lookup hosts = true
        · by_cases he : k = key
          · simp [hk, entryKind, hm, he]
          · by_cases ha : E.algorithm k = E.algorithm key <;> simp [hk, entryKind, hm, he, ha]
        · simp [hk, entryKind, hm]

end Lines

section Scan
variable {ks : List Kind} {k : Kind} {v : KnownHostCheck} {n i : Nat} {seen : Bool}

/-- The scan ends early at a revoking line, and at a blocking one before any match. -/
def Stops (seen : Bool) (ks : List Kind) (i : Nat) : Prop :=
  ks[i]? = some .revokes ∨
    ks[i]? = some .blocks ∧ seen = false ∧ ∀ j < i, ks[j]? ≠ some .records

def stopped (n : Nat) : Option Kind → KnownHostCheck
  | some .revokes => .revoked (toString n)
  | _ => .malformed s!"line {n}"

/-- The verdict behind a line that does not end the scan. -/
def after (n : Nat) (v : KnownHostCheck) : Kind → KnownHostCheck
  | .records => .matched
  | .changes => if v = .absent then .changed (toString n) else v
  | _ => v

theorem after_matched : decide (after n v k = .matched) = (decide (v = .matched) || decide (k = .records)) := by
  cases k with
  | records => simp [after]
  | changes => by_cases hv : v = .absent <;> simp [after, hv]
  | blocks | revokes | other => exact (Bool.or_false _).symm

theorem none_before_succ {x : Kind} :
    (∀ j < i + 1, (k :: ks)[j]? ≠ some x) ↔ k ≠ x ∧ ∀ j < i, ks[j]? ≠ some x := by
  constructor
  · intro h
    refine ⟨fun hk => h 0 (by omega) (by simp [hk]), fun j hj => ?_⟩
    exact h (j + 1) (by omega)
  · rintro ⟨hk, h⟩ j hj
    cases j with
    | zero => simpa using hk
    | succ j => exact h j (by omega)

theorem stops_succ : Stops seen (k :: ks) (i + 1) ↔ Stops (seen || decide (k = .records)) ks i := by
  unfold Stops
  rw [none_before_succ]
  simp only [List.getElem?_cons_succ, Bool.or_eq_false_iff, decide_eq_false_iff_not]
  tauto

theorem scan_goes (h : ¬ Stops (decide (v = .matched)) (k :: ks) 0) :
    scan n v (k :: ks) = scan (n + 1) (after n v k) ks := by
  simp only [Stops, List.getElem?_cons_zero, Option.some.injEq, Nat.not_lt_zero, false_implies,
    implies_true, and_true, decide_eq_false_iff_not, not_or, not_and, not_not] at h
  rw [scan]
  cases k with
  | revokes => exact absurd rfl h.1
  | blocks => simp [react, after, h.2 rfl]
  | records | changes | other => rfl

theorem scan_stops (h : Stops (decide (v = .matched)) ks i)
    (hfirst : ∀ j < i, ¬ Stops (decide (v = .matched)) ks j) :
    scan n v ks = stopped (n + i) ks[i]? := by
  induction ks generalizing n v i with
  | nil => simp [Stops] at h
  | cons k ks ih =>
    cases i with
    | zero =>
      simp only [Stops, List.getElem?_cons_zero, Option.some.injEq] at h
      rcases h with rfl | ⟨rfl, hv, -⟩
      · rfl
      · have hne : v ≠ .matched := of_decide_eq_false hv
        simp [scan, react, hne, stopped]
    | succ i =>
      rw [scan_goes (hfirst 0 (by omega)), List.getElem?_cons_succ]
      have hi : n + 1 + i = n + (i + 1) := by omega
      rw [← hi]
      apply ih
      · rw [after_matched]
        exact stops_succ.mp h
      · intro j hj hs
        rw [after_matched] at hs
        exact hfirst (j + 1) (by omega) (stops_succ.mpr hs)

theorem goes_on (h : ∀ i, ¬ Stops (decide (v = .matched)) (k :: ks) i) :
    ∀ i, ¬ Stops (decide (after n v k = .matched)) ks i := by
  intro i hs
  rw [after_matched] at hs
  exact h (i + 1) (stops_succ.mpr hs)

theorem scan_matched (h : ∀ i, ¬ Stops (decide (v = .matched)) ks i)
    (hm : v = .matched ∨ Kind.records ∈ ks) : scan n v ks = .matched := by
  induction ks generalizing n v with
  | nil => simpa [scan] using hm
  | cons k ks ih =>
    rw [scan_goes (h 0)]
    apply ih (goes_on h)
    have ha := after_matched (n := n) (v := v) (k := k)
    rcases hm with rfl | hm
    · exact .inl (by simpa using ha)
    · rcases List.mem_cons.mp hm with rfl | hm
      · exact .inl rfl
      · exact .inr hm

theorem scan_stays (h : ∀ i, ¬ Stops (decide (v = .matched)) ks i) (ha : v ≠ .absent)
    (hr : Kind.records ∉ ks) : scan n v ks = v := by
  induction ks generalizing n with
  | nil => rfl
  | cons k ks ih =>
    have hk : after n v k = v := by
      cases k with
      | records => exact absurd List.mem_cons_self hr
      | changes => exact if_neg ha
      | blocks | revokes | other => rfl
    have hg := goes_on (n := n) h
    rw [hk] at hg
    rw [scan_goes (h 0), hk]
    exact ih hg (fun hm => hr (List.mem_cons_of_mem k hm))

theorem scan_changed {c : Nat} (h : ∀ i, ¬ Stops false ks i) (hr : Kind.records ∉ ks)
    (hc : ks[c]? = some .changes) (hfirst : ∀ j < c, ks[j]? ≠ some .changes) :
    scan n .absent ks = .changed (toString (n + c)) := by
  induction ks generalizing n c with
  | nil => simp at hc
  | cons k ks ih =>
    have hrest : Kind.records ∉ ks := fun hm => hr (List.mem_cons_of_mem k hm)
    have hg := goes_on (n := n) (v := .absent) h
    rw [scan_goes (v := .absent) (h 0)]
    cases c with
    | zero =>
      obtain rfl : k = .changes := by simpa using hc
      exact scan_stays hg (by simp [after]) hrest
    | succ c =>
      obtain ⟨hk, hf⟩ := none_before_succ.mp hfirst
      have ha : after n .absent k = .absent := by
        cases k with
        | records => exact absurd List.mem_cons_self hr
        | changes => exact absurd rfl hk
        | blocks | revokes | other => rfl
      rw [ha] at hg ⊢
      have hi : n + 1 + c = n + (c + 1) := by omega
      rw [← hi]
      exact ih hg hrest hc hf

theorem scan_absent (h : ∀ i, ¬ Stops false ks i) (hr : Kind.records ∉ ks)
    (hc : Kind.changes ∉ ks) : scan n .absent ks = .absent := by
  induction ks generalizing n with
  | nil => rfl
  | cons k ks ih =>
    have hg := goes_on (n := n) (v := .absent) h
    have ha : after n .absent k = .absent := by
      cases k with
      | records => exact absurd List.mem_cons_self hr
      | changes => exact absurd List.mem_cons_self hc
      | blocks | revokes | other => rfl
    rw [ha] at hg
    rw [scan_goes (v := .absent) (h 0), ha]
    exact ih hg (fun hm => hr (List.mem_cons_of_mem k hm)) fun hm => hc (List.mem_cons_of_mem k hm)

end Scan

section Spec
variable {K A : Type} [DecidableEq K] [DecidableEq A] (E : Env K A) (lookup : Text) (key : K)
  (ls : List Text)

/-- Line `i`, counted from 0, is such a line. -/
def At (P : Text → Prop) (i : Nat) : Prop := ∃ raw, ls[i]? = some raw ∧ P raw

/-- Some entry of the host records the key, no line revokes it, and no unparseable line that names
the host is before the first such entry. -/
def IsMatched : Prop :=
  (∃ m, At ls (RecordsLine E lookup key) m ∧
    ∀ j < m, ¬ At ls (RecordsLine E lookup key) j ∧ ¬ At ls (BlocksLine E lookup) j) ∧
  ∀ r, ¬ At ls (RevokesLine E key) r

/-- Line `r` is the first to revoke the key, and every unparseable line before it that names the
host is behind a match. -/
def IsRevoked (r : Nat) : Prop :=
  At ls (RevokesLine E key) r ∧ (∀ j < r, ¬ At ls (RevokesLine E key) j) ∧
    ∀ j < r, At ls (BlocksLine E lookup) j → ∃ m < j, At ls (RecordsLine E lookup key) m

/-- Line `b` is the first unparseable one that names the host, before any match or revocation. -/
def IsMalformed (b : Nat) : Prop :=
  At ls (BlocksLine E lookup) b ∧ ∀ j < b, ¬ At ls (BlocksLine E lookup) j ∧
    ¬ At ls (RecordsLine E lookup key) j ∧ ¬ At ls (RevokesLine E key) j

/-- None of these, and line `c` is the first with another key of the same algorithm. -/
def IsChanged (c : Nat) : Prop :=
  ¬ IsMatched E lookup key ls ∧ (∀ r, ¬ IsRevoked E lookup key ls r) ∧
    (∀ b, ¬ IsMalformed E lookup key ls b) ∧ At ls (ChangesLine E lookup key) c ∧
    ∀ j < c, ¬ At ls (ChangesLine E lookup key) j

def Spec : KnownHostCheck → Prop
  | .matched => IsMatched E lookup key ls
  | .revoked l => ∃ r, IsRevoked E lookup key ls r ∧ l = toString (r + 1)
  | .malformed d => ∃ b, IsMalformed E lookup key ls b ∧ d = s!"line {b + 1}"
  | .changed l => ∃ c, IsChanged E lookup key ls c ∧ l = toString (c + 1)
  | .absent => ¬ IsMatched E lookup key ls ∧ (∀ r, ¬ IsRevoked E lookup key ls r) ∧
      (∀ b, ¬ IsMalformed E lookup key ls b) ∧ ∀ c, ¬ IsChanged E lookup key ls c

end Spec

theorem exists_first {P : Nat → Prop} (h : ∃ i, P i) : ∃ i, P i ∧ ∀ j < i, ¬ P j := by
  classical
  exact ⟨Nat.find h, Nat.find_spec h, fun j hj => Nat.find_min h hj⟩

section Verdict
variable {K A : Type} [DecidableEq K] [DecidableEq A] {E : Env K A} {lookup : Text} {key : K}
  {ls : List Text} {i n : Nat}

theorem at_kind {cert : Bool} {k : Kind} {P : Text → Prop}
    (h : ∀ raw, kind E lookup key cert raw = k ↔ P raw) :
    (ls.map (kind E lookup key cert))[i]? = some k ↔ At ls P i := by
  rw [List.getElem?_map, Option.map_eq_some_iff]
  exact exists_congr fun raw => and_congr_right fun _ => h raw

theorem at_blocks {cert : Bool} : (ls.map (kind E lookup key cert))[i]? = some .blocks ↔
    At ls (BlocksLine E lookup) i := at_kind fun _ => kind_blocks

theorem at_revokes {cert : Bool} : (ls.map (kind E lookup key cert))[i]? = some .revokes ↔
    At ls (RevokesLine E key) i := at_kind fun _ => kind_revokes

abbrev kinds (E : Env K A) (lookup : Text) (key : K) (ls : List Text) : List Kind :=
  ls.map (kind E lookup key false)

theorem at_records : (kinds E lookup key ls)[i]? = some .records ↔
    At ls (RecordsLine E lookup key) i := at_kind fun _ => kind_plain.1

theorem at_changes : (kinds E lookup key ls)[i]? = some .changes ↔
    At ls (ChangesLine E lookup key) i := at_kind fun _ => kind_plain.2

theorem stops_iff : Stops false (kinds E lookup key ls) i ↔
    At ls (RevokesLine E key) i ∨ At ls (BlocksLine E lookup) i ∧
      ∀ j < i, ¬ At ls (RecordsLine E lookup key) j := by
  unfold Stops
  simp only [at_revokes, at_blocks, at_records, true_and, ne_eq]

theorem records_mem : Kind.records ∈ kinds E lookup key ls ↔
    ∃ m, At ls (RecordsLine E lookup key) m := by
  rw [List.mem_iff_getElem?]
  exact exists_congr fun m => at_records

theorem changes_mem : Kind.changes ∈ kinds E lookup key ls ↔
    ∃ c, At ls (ChangesLine E lookup key) c := by
  rw [List.mem_iff_getElem?]
  exact exists_congr fun c => at_changes

theorem stop_spec (h : Stops false (kinds E lookup key ls) i)
    (hfirst : ∀ j < i, ¬ Stops false (kinds E lookup key ls) j) :
    IsRevoked E lookup key ls i ∨ IsMalformed E lookup key ls i := by
  simp only [stops_iff, not_or, not_and, not_forall, not_not] at h hfirst
  rcases h with hr | ⟨hb, hm⟩
  · left
    refine ⟨hr, fun j hj => (hfirst j hj).1, ?_⟩
    intro j hj hb
    obtain ⟨m, hmj, hm⟩ := (hfirst j hj).2 hb
    exact ⟨m, hmj, hm⟩
  · right
    refine ⟨hb, fun j hj => ⟨?_, hm j hj, (hfirst j hj).1⟩⟩
    intro hbj
    obtain ⟨m, hmj, hmm⟩ := (hfirst j hj).2 hbj
    exact hm m (by omega) hmm

theorem matched_spec (h : ∀ i, ¬ Stops false (kinds E lookup key ls) i)
    (hm : Kind.records ∈ kinds E lookup key ls) : IsMatched E lookup key ls := by
  simp only [stops_iff, not_or] at h
  obtain ⟨m, hrec, hfirst⟩ := exists_first (records_mem.mp hm)
  refine ⟨⟨m, hrec, fun j hj => ⟨hfirst j hj, ?_⟩⟩, fun r => (h r).1⟩
  intro hb
  exact (h j).2 ⟨hb, fun l hl => hfirst l (by omega)⟩

theorem of_revoked (h : IsRevoked E lookup key ls i) :
    scan n .absent (kinds E lookup key ls) = .revoked (toString (n + i)) := by
  obtain ⟨hr, hfirst, hb⟩ := h
  have hs : scan n .absent (kinds E lookup key ls) = _ :=
    scan_stops (stops_iff.mpr (.inl hr)) fun j hj hs => ?_
  · rw [hs, at_revokes.mpr hr, stopped]
  · rcases stops_iff.mp hs with hrj | ⟨hbj, hm⟩
    · exact hfirst j hj hrj
    · obtain ⟨m, hmj, hmm⟩ := hb j hj hbj
      exact hm m hmj hmm

theorem of_malformed (h : IsMalformed E lookup key ls i) :
    scan n .absent (kinds E lookup key ls) = .malformed s!"line {n + i}" := by
  obtain ⟨hb, hfirst⟩ := h
  have hs : scan n .absent (kinds E lookup key ls) = _ :=
    scan_stops (stops_iff.mpr (.inr ⟨hb, fun j hj => (hfirst j hj).2.1⟩)) fun j hj hs => ?_
  · rw [hs, at_blocks.mpr hb]
    rfl
  · rcases stops_iff.mp hs with hrj | ⟨hbj, -⟩
    · exact (hfirst j hj).2.2 hrj
    · exact (hfirst j hj).1 hbj

theorem of_matched (h : IsMatched E lookup key ls) :
    scan n .absent (kinds E lookup key ls) = .matched := by
  obtain ⟨⟨m, hm, hfirst⟩, hr⟩ := h
  apply scan_matched
  · intro i hs
    rcases stops_iff.mp hs with hri | ⟨hb, hno⟩
    · exact hr i hri
    · rcases Nat.lt_trichotomy i m with hlt | rfl | hgt
      · exact (hfirst i hlt).2 hb
      · have hk := at_records.mpr hm
        rw [at_blocks.mpr hb] at hk
        cases hk
      · exact hno m hgt hm
  · exact .inr (records_mem.mpr ⟨m, hm⟩)

theorem cases_of_text (E : Env K A) (lookup : Text) (key : K) (ls : List Text) :
    IsMatched E lookup key ls ∨ (∃ r, IsRevoked E lookup key ls r) ∨
      (∃ b, IsMalformed E lookup key ls b) ∨
      (∀ i, ¬ Stops false (kinds E lookup key ls) i) ∧
        Kind.records ∉ kinds E lookup key ls := by
  by_cases hs : ∃ i, Stops false (kinds E lookup key ls) i
  · obtain ⟨i, hi, hfirst⟩ := exists_first hs
    rcases stop_spec hi hfirst with hr | hb
    · exact .inr (.inl ⟨i, hr⟩)
    · exact .inr (.inr (.inl ⟨i, hb⟩))
  · have hno : ∀ i, ¬ Stops false (kinds E lookup key ls) i := not_exists.mp hs
    by_cases hm : Kind.records ∈ kinds E lookup key ls
    · exact .inl (matched_spec hno hm)
    · exact .inr (.inr (.inr ⟨hno, hm⟩))

theorem of_changed (h : IsChanged E lookup key ls i) :
    scan n .absent (kinds E lookup key ls) = .changed (toString (n + i)) := by
  obtain ⟨hm, hr, hb, hc, hfirst⟩ := h
  rcases cases_of_text E lookup key ls with h | ⟨r, h⟩ | ⟨b, h⟩ | ⟨hno, hrec⟩
  · exact absurd h hm
  · exact absurd h (hr r)
  · exact absurd h (hb b)
  · exact scan_changed hno hrec (at_changes.mpr hc) fun j hj h => hfirst j hj (at_changes.mp h)

theorem of_none (hm : ¬ IsMatched E lookup key ls) (hr : ∀ r, ¬ IsRevoked E lookup key ls r)
    (hb : ∀ b, ¬ IsMalformed E lookup key ls b) (hc : ∀ c, ¬ IsChanged E lookup key ls c) :
    scan n .absent (kinds E lookup key ls) = .absent := by
  rcases cases_of_text E lookup key ls with h | ⟨r, h⟩ | ⟨b, h⟩ | ⟨hno, hrec⟩
  · exact absurd h hm
  · exact absurd h (hr r)
  · exact absurd h (hb b)
  · apply scan_absent hno hrec
    intro hch
    obtain ⟨c, hat, hfirst⟩ := exists_first (changes_mem.mp hch)
    exact hc c ⟨hm, hr, hb, hat, hfirst⟩

theorem scanKnownHosts_eq (text : Text) : scanKnownHosts E lookup key false text =
    scan 1 .absent (kinds E lookup key (lines text)) := scanLines_eq 1 .absent (lines text)

/-- The kind of a verdict: its constructor, without the place. -/
def outcome : KnownHostCheck → Option Kind
  | .matched => some .records
  | .changed _ => some .changes
  | .revoked _ => some .revokes
  | .malformed _ => some .blocks
  | .absent => none

/-- The line parses, or is not looked at. -/
def ParsedLine (E : Env K A) (raw : Text) : Prop :=
  skips (trim raw) = true ∨ (E.parse (trim raw)).isSome = true

theorem blocks_not_mem (h : ∀ raw ∈ ls, ParsedLine E raw) : Kind.blocks ∉ kinds E lookup key ls := by
  rw [List.mem_map]
  rintro ⟨raw, hmem, hk⟩
  obtain ⟨hs, hp, -⟩ := kind_blocks.mp hk
  rcases h raw hmem with h | h
  · rw [hs] at h
    cases h
  · rw [hp] at h
    cases h

theorem outcome_scan {ks : List Kind} (hb : Kind.blocks ∉ ks) :
    outcome (scan n .absent ks) =
      if Kind.revokes ∈ ks then some .revokes
      else if Kind.records ∈ ks then some .records
      else if Kind.changes ∈ ks then some .changes
      else none := by
  have hblocks : ∀ i : Nat, ks[i]? ≠ some Kind.blocks := fun i h => hb (List.mem_of_getElem? h)
  have hstops : ∀ i, Stops false ks i ↔ ks[i]? = some .revokes := by
    intro i
    simp [Stops, hblocks i]
  by_cases hr : Kind.revokes ∈ ks
  · obtain ⟨i, hi, hfirst⟩ := exists_first (List.mem_iff_getElem?.mp hr)
    have hs : scan n .absent ks = _ :=
      scan_stops ((hstops i).mpr hi) fun j hj h => hfirst j hj ((hstops j).mp h)
    rw [if_pos hr, hs, hi]
    rfl
  · have hno : ∀ i, ¬ Stops false ks i := fun i h => hr (List.mem_of_getElem? ((hstops i).mp h))
    rw [if_neg hr]
    by_cases hm : Kind.records ∈ ks
    · rw [if_pos hm, scan_matched (v := .absent) hno (.inr hm)]
      rfl
    · rw [if_neg hm]
      by_cases hc : Kind.changes ∈ ks
      · obtain ⟨c, hat, hfirst⟩ := exists_first (List.mem_iff_getElem?.mp hc)
        rw [if_pos hc, scan_changed hno hm hat hfirst]
        rfl
      · rw [if_neg hc, scan_absent hno hm hc]
        rfl

theorem outcome_perm {ls' : List Text} (h : ∀ raw ∈ ls, ParsedLine E raw) (hp : ls.Perm ls') :
    outcome (scan n .absent (kinds E lookup key ls)) =
      outcome (scan n .absent (kinds E lookup key ls')) := by
  have hk : (kinds E lookup key ls).Perm (kinds E lookup key ls') := hp.map _
  have h' : ∀ raw ∈ ls', ParsedLine E raw := fun raw hr => h raw (hp.mem_iff.mpr hr)
  rw [outcome_scan (blocks_not_mem h), outcome_scan (blocks_not_mem h')]
  simp only [hk.mem_iff]

theorem spec_scan (ls : List Text) : Spec E lookup key ls (scan 1 .absent (kinds E lookup key ls)) := by
  by_cases hm : IsMatched E lookup key ls
  · rw [of_matched hm]
    exact hm
  by_cases hr : ∃ r, IsRevoked E lookup key ls r
  · obtain ⟨r, hr⟩ := hr
    rw [of_revoked hr, Nat.add_comm]
    exact ⟨r, hr, rfl⟩
  by_cases hb : ∃ b, IsMalformed E lookup key ls b
  · obtain ⟨b, hb⟩ := hb
    rw [of_malformed hb, Nat.add_comm]
    exact ⟨b, hb, rfl⟩
  by_cases hc : ∃ c, IsChanged E lookup key ls c
  · obtain ⟨c, hc⟩ := hc
    rw [of_changed hc, Nat.add_comm]
    exact ⟨c, hc, rfl⟩
  rw [of_none hm (not_exists.mp hr) (not_exists.mp hb) (not_exists.mp hc)]
  exact ⟨hm, not_exists.mp hr, not_exists.mp hb, not_exists.mp hc⟩

theorem scan_of_spec {w : KnownHostCheck} (h : Spec E lookup key ls w) :
    scan 1 .absent (kinds E lookup key ls) = w := by
  cases w with
  | matched => exact of_matched h
  | absent => exact of_none h.1 h.2.1 h.2.2.1 h.2.2.2
  | revoked l =>
    obtain ⟨r, hr, rfl⟩ := h
    rw [of_revoked hr, Nat.add_comm]
  | malformed d =>
    obtain ⟨b, hb, rfl⟩ := h
    rw [of_malformed hb, Nat.add_comm]
  | changed l =>
    obtain ⟨c, hc, rfl⟩ := h
    rw [of_changed hc, Nat.add_comm]

/-- The scan gives the verdict specified over all the lines; where every line parses, their order
does not decide its kind. -/
theorem scan_exact (E : Env K A) (lookup : Text) (key : K) (text : Text) :
    (∀ w, scanKnownHosts E lookup key false text = w ↔ Spec E lookup key (lines text) w) ∧
    ((∀ raw ∈ lines text, ParsedLine E raw) → ∀ text', (lines text).Perm (lines text') →
      outcome (scanKnownHosts E lookup key false text') =
        outcome (scanKnownHosts E lookup key false text)) := by
  simp only [scanKnownHosts_eq]
  refine ⟨fun w => ⟨?_, scan_of_spec⟩, ?_⟩
  · rintro rfl
    exact spec_scan (lines text)
  · intro hparsed text' hp
    exact (outcome_perm hparsed hp).symm

theorem scan_exact_sample :
    let text := "@revoked h key1\n# none\n".toList
    let text' := "# none\n@revoked h key1\n".toList
    (∀ w, scanKnownHosts sampleEnv "h".toList 1 false text = w ↔
      Spec sampleEnv "h".toList 1 (lines text) w) ∧
    outcome (scanKnownHosts sampleEnv "h".toList 1 false text') =
      outcome (scanKnownHosts sampleEnv "h".toList 1 false text) := by
  intro text text'
  have hl : lines text = ["@revoked h key1".toList, "# none".toList] := by decide
  have hl' : lines text' = ["# none".toList, "@revoked h key1".toList] := by decide
  obtain ⟨hspec, hperm⟩ := scan_exact sampleEnv "h".toList 1 text
  refine ⟨hspec, hperm ?_ text' ?_⟩
  · intro raw hr
    rw [hl] at hr
    rcases List.mem_pair.mp hr with rfl | rfl
    · exact .inr (by decide)
    · exact .inl (by decide)
  · rw [hl, hl']
    exact .swap _ _ _

end Verdict

section Certificate
variable {K A : Type} [DecidableEq K] [DecidableEq A] {E : Env K A} {lookup : Text} {key : K}
  {ls : List Text}

/-- A revoking line that no unparseable line naming the host is before. -/
def Shows (E : Env K A) (lookup : Text) (key : K) (ls : List Text) : Prop :=
  ∃ r, At ls (RevokesLine E key) r ∧ ∀ j < r, ¬ At ls (BlocksLine E lookup) j

/-- The file can be read, and its text shows the revocation. -/
def ShowsFile (E : Env K A) (recordHost : String) (port : Nat) (key : K) (path : String) : Prop :=
  ∃ text, E.read path = some text ∧
    Shows E (hostKeyLookupName recordHost port).toList key (lines text)

theorem kind_cert {raw : Text} :
    kind E lookup key true raw ≠ .records ∧ kind E lookup key true raw ≠ .changes := by
  simp only [kind, entryKind, if_true]
  repeat' split
  all_goals simp

/-- For a certificate no line is a match, so the first line that blocks or revokes decides. -/
theorem stops_cert {i : Nat} : Stops false (ls.map (kind E lookup key true)) i ↔
    At ls (RevokesLine E key) i ∨ At ls (BlocksLine E lookup) i := by
  have hplain : ∀ j : Nat, (ls.map (kind E lookup key true))[j]? ≠ some Kind.records := by
    intro j h
    rw [List.getElem?_map, Option.map_eq_some_iff] at h
    obtain ⟨raw, -, hk⟩ := h
    exact kind_cert.1 hk
  unfold Stops
  rw [at_revokes, at_blocks]
  simp only [hplain, ne_eq, not_false_eq_true, implies_true, and_true]

theorem scan_cert_absent (h : ∀ i, ¬ Stops false (ls.map (kind E lookup key true)) i) :
    scan 1 .absent (ls.map (kind E lookup key true)) = .absent := by
  apply scan_absent h
  · intro hm
    obtain ⟨raw, -, hk⟩ := List.mem_map.mp hm
    exact kind_cert.1 hk
  · intro hm
    obtain ⟨raw, -, hk⟩ := List.mem_map.mp hm
    exact kind_cert.2 hk

theorem scan_cert (ls : List Text) :
    (∃ l, scan 1 .absent (ls.map (kind E lookup key true)) = .revoked l) ↔
      Shows E lookup key ls := by
  by_cases hs : ∃ i, Stops false (ls.map (kind E lookup key true)) i
  · obtain ⟨i, hi, hfirst⟩ := exists_first hs
    have hv : scan 1 .absent (ls.map (kind E lookup key true)) = _ := scan_stops hi hfirst
    simp only [stops_cert, not_or] at hi hfirst
    rw [hv]
    constructor
    · rintro ⟨l, hl⟩
      refine ⟨i, ?_, fun j hj => (hfirst j hj).2⟩
      rcases hi with hr | hb
      · exact hr
      · rw [at_blocks.mpr hb] at hl
        cases hl
    · rintro ⟨r, hr, hb⟩
      rcases Nat.lt_trichotomy r i with hlt | rfl | hgt
      · exact absurd hr (hfirst r hlt).1
      · exact ⟨_, by rw [at_revokes.mpr hr]; rfl⟩
      · rcases hi with hri | hbi
        · exact ⟨_, by rw [at_revokes.mpr hri]; rfl⟩
        · exact absurd hbi (hb i hgt)
  · have hno : ∀ i, ¬ Stops false (ls.map (kind E lookup key true)) i := not_exists.mp hs
    rw [scan_cert_absent hno]
    constructor
    · rintro ⟨l, hl⟩
      cases hl
    · rintro ⟨r, hr, -⟩
      exact absurd (stops_cert.mpr (.inl hr)) (hno r)

theorem fallback_not_revoked (r : Except KeysError Bool) (l : String) :
    KnownHostCheck.fromHashedFallback r ≠ .revoked l := by
  cases r with
  | ok b => cases b <;> simp [KnownHostCheck.fromHashedFallback]
  | error e => cases e <;> simp [KnownHostCheck.fromHashedFallback]

theorem check_cert (E : Env K A) (path recordHost : String) (port : Nat) (key : K) :
    (∃ l, checkKnownHostFile E path recordHost port key true = .revoked l) ↔
      ShowsFile E recordHost port key path := by
  unfold checkKnownHostFile ShowsFile
  cases hread : E.read path with
  | none => simp [fallback_not_revoked]
  | some text =>
    simp only [Option.some.injEq, exists_eq_left']
    rw [← scan_cert, scanKnownHosts, scanLines_eq]
    cases scan 1 .absent
      ((lines text).map (kind E (hostKeyLookupName recordHost port).toList key true)) with
    | absent => simp [fallback_not_revoked]
    | matched | changed l | revoked l | malformed d => simp

/-- A certificate over a revoked key is rejected exactly in strict mode, or where some file shows
the revocation before any unparseable line that names the host. -/
theorem certificate_rejected_iff (E : Env K A) (endpoint recordHost : String) (port : Nat)
    (strict : Bool) (certKey : K) (files : List String) :
    (∃ reason, decideCertificate E endpoint recordHost port strict certKey files = .reject reason) ↔
      strict = true ∨ ∃ path ∈ files, ShowsFile E recordHost port certKey path := by
  induction files with
  | nil => cases strict <;> simp [decideCertificate]
  | cons path rest ih =>
    have hp := check_cert E path recordHost port certKey
    rw [decideCertificate]
    cases hc : checkKnownHostFile E path recordHost port certKey true with
    | revoked l => simp [hp.mp ⟨l, hc⟩]
    | matched | absent | changed l | malformed d =>
      have hno : ¬ ShowsFile E recordHost port certKey path := by
        rw [← hp, hc]
        simp
      simp only [ih, List.mem_cons, exists_eq_or_imp, hno, false_or]

end Certificate

/-- A line that cannot be parsed stands before the one that revokes the key. -/
def blockedEnv : Env Nat Unit :=
  { sampleEnv with read := fun _ => some "h junk\n@revoked h key1\n".toList }

theorem blocked_line : BlocksLine blockedEnv "h".toList "h junk".toList := by
  refine ⟨by decide, by decide, ?_⟩
  have ht : trim "h junk".toList = "h junk".toList := by decide
  have hw : splitWhitespace "h junk".toList = ["h".toList, "junk".toList] := by decide
  have hs : "h".toList.splitOn ',' = ["h".toList] := by decide
  have hl : toAsciiLowercase "h".toList = "h".toList := by decide
  have hn : stripNegation "h".toList = (false, "h".toList) := rfl
  have hm : matchPatternList "h".toList ["h".toList] = true := by
    simp only [matchPatternList, matchPatterns, hl, hn, sample_pattern]
    rfl
  rw [ht, rawEntryTargetsHost, hw]
  exact (congrArg (matchPatternList "h".toList) hs).trans hm

theorem blocked_not_shown : ¬ ShowsFile blockedEnv "h" 22 1 "/user" := by
  rintro ⟨text, hread, r, ⟨raw, hraw, hrev⟩, hb⟩
  obtain rfl := Option.some.inj hread
  have hl : lines "h junk\n@revoked h key1\n".toList =
      ["h junk".toList, "@revoked h key1".toList] := by decide
  have hlookup : (hostKeyLookupName "h" 22).toList = "h".toList := rfl
  rw [hl] at hraw
  rw [hl, hlookup] at hb
  cases r with
  | zero =>
    obtain rfl := Option.some.inj hraw
    obtain ⟨-, entry, hp, -⟩ := hrev
    cases hp
  | succ r => exact hb 0 (by omega) ⟨_, rfl, blocked_line⟩

/-- Outside strict mode the certificate over the revoked key is accepted. -/
theorem revoked_certificate_accepted :
    RevokesFile blockedEnv 1 "/user" ∧
      decideCertificate blockedEnv "h:22" "h" 22 false 1 ["/user"] = .accept := by
  refine ⟨⟨_, rfl, "@revoked h key1".toList, by decide, by decide, _, rfl, rfl, rfl⟩, ?_⟩
  have hno : ∀ l, checkKnownHostFile blockedEnv "/user" "h" 22 1 true ≠ .revoked l :=
    fun l h => blocked_not_shown ((check_cert _ _ _ _ _).mp ⟨l, h⟩)
  rw [decideCertificate]
  split
  · rename_i l h
    exact absurd h (hno l)
  · rfl

end ShellProxy.ScanVerdict
