import ShellProxy.StateStore

/-! The out-of-band reports of the wrapper: `read_pipe` on the pipes of the cwd report and of the
state dump, and what `execute` makes of the two collect tasks. -/
namespace ShellProxy.Reports
open Frame StateStore

def cwdCap : Nat := 8 * 1024

inductive Read where
  | bytes (chunk : Bytes)
  | eof
  | failed
  deriving DecidableEq, Repr

structure Collector where
  buf : Bytes := []
  overflow : Bool := false
  deriving DecidableEq, Repr

/-- What the loop is left with when it breaks. -/
def Collector.value (c : Collector) : Option String :=
  if c.overflow then none
  else if c.buf = [] then none
  else (fromUtf8 c.buf).filter fun s => s ≠ ""

/-- `read_pipe` after these reads: `none` while it reads on. -/
def readPipe (cap : Nat) (c : Collector) : List Read → Option (Option String)
  | [] => none
  | .eof :: _ | .failed :: _ => some c.value
  | .bytes chunk :: rs =>
    -- an overflowed pipe is drained to its end
    if c.overflow then readPipe cap c rs
    else if 0 ∈ chunk then some { c with buf := c.buf ++ chunk.takeWhile (· ≠ 0) : Collector }.value
    else
      readPipe cap
        { buf := c.buf ++ chunk, overflow := decide (cap < (c.buf ++ chunk).length) } rs

/-- How a collect task is found after the drain grace. -/
inductive Join where
  | ready (r : Option String)
  | failed
  | elapsed
  deriving DecidableEq, Repr

def Join.report : Join → Option String
  | .ready r => r
  | .failed | .elapsed => none

/-- A task that has made these reads can be found so. A panic can happen at any time. -/
def Joined (cap : Nat) (reads : List Read) : Join → Prop
  | .ready r => readPipe cap {} reads = some r
  | .failed => True
  | .elapsed => readPipe cap {} reads = none

/-- The end of `execute`: the report it sends, and the state it hands to `save_state`. -/
def finish (timedOut : Bool) (code : Int) (cwd state : Join) : ExitReport × Option String :=
  (⟨if timedOut then timeoutExitCode else code, cwd.report, none, timedOut⟩, state.report)

/-- The stored state afterwards, where saving works. `save_state` has a cap of its own. -/
def stateAfter (prev : Option String) : Option String → Option String
  | some s => if stateCap < s.utf8ByteSize then prev else some s
  | none => prev

def arrived : List Read → Bytes
  | .bytes chunk :: rs => chunk ++ arrived rs
  | _ => []

def fragmentsOf : List Read → List Bytes
  | .bytes chunk :: rs => chunk :: fragmentsOf rs
  | _ => []

def ends : List Read → Bool
  | [] => false
  | .bytes _ :: rs => ends rs
  | _ => true

/-- The bytes before the first NUL, or all of them. -/
def reported (sent : Bytes) : Bytes := sent.takeWhile (· ≠ 0)

/-- The fragments before the first that holds a NUL. -/
def quiet (cs : List Bytes) : List Bytes := cs.takeWhile fun c => 0 ∉ c

/-- The reads have passed the cap before the one that brings the NUL. -/
def Noticed (cap : Nat) (cs : List Bytes) : Prop := cap < (quiet cs).flatten.length

/-- Why nothing is taken from a pipe. -/
def Dropped (cap : Nat) (reads : List Read) (j : Join) : Prop :=
  j = .failed ∨ j = .elapsed ∨ reported (arrived reads) = [] ∨
    fromUtf8 (reported (arrived reads)) = none ∨ Noticed cap (fragmentsOf reads)

/-- A value taken from a pipe on which `report` is written: the whole of it, ended by its NUL, or
all that arrived where the pipe ended before the NUL. -/
def Taken (report : Bytes) (reads : List Read) (s : String) : Prop :=
  arrived reads = report ++ [0] ∧ asBytes s = report ∨
    0 ∉ arrived reads ∧ ends reads = true ∧ asBytes s = arrived reads

theorem asBytes_of_fromUtf8 {b : Bytes} {s : String} (h : fromUtf8 b = some s) : asBytes s = b := by
  unfold fromUtf8 String.fromUTF8? at h
  split at h
  · rw [Option.some.injEq] at h
    subst h
    rfl
  · cases h

theorem takeWhile_not_mem {b : Bytes} (h : 0 ∉ b) (t : Bytes) :
    (b ++ t).takeWhile (· ≠ 0) = b ++ t.takeWhile (· ≠ 0) := by
  apply List.takeWhile_append_of_pos
  intro a ha
  have hne : a ≠ 0 := fun h0 => h (h0 ▸ ha)
  simpa using hne

theorem takeWhile_mem {b : Bytes} (h : 0 ∈ b) (t : Bytes) :
    (b ++ t).takeWhile (· ≠ 0) = b.takeWhile (· ≠ 0) := by
  induction b with
  | nil => cases h
  | cons a b ih =>
    by_cases ha : a = 0
    · simp [ha]
    · have hb : 0 ∈ b := (List.mem_cons.mp h).resolve_left fun h0 => ha h0.symm
      have hp : decide (a ≠ 0) = true := decide_eq_true ha
      simp only [List.cons_append, List.takeWhile_cons, hp, if_true, ih hb]

/-- The reads that bring these fragments, and then the end of the pipe or nothing more. -/
def reads (cs : List Bytes) (ended : Bool) : List Read :=
  cs.map .bytes ++ if ended then [.eof] else []

def text (p : Bytes) : Option String := if p = [] then none else fromUtf8 p

def collected (cap : Nat) (p : Bytes) : Option String := if p.length ≤ cap then text p else none

theorem value_eq (b : Bytes) : (⟨b, false⟩ : Collector).value = text b := by
  unfold Collector.value text
  by_cases hb : b = []
  · simp [hb]
  · simp only [hb, if_false, Bool.false_eq_true]
    cases hu : fromUtf8 b with
    | none => rfl
    | some s =>
      have hs : s ≠ "" := by
        rintro rfl
        have ha := asBytes_of_fromUtf8 hu
        exact hb ha.symm
      simp [hs]

theorem overflow_reads (cap : Nat) (b : Bytes) (cs : List Bytes) (rs : List Read) :
    readPipe cap ⟨b, true⟩ (cs.map .bytes ++ rs) = readPipe cap ⟨b, true⟩ rs := by
  induction cs with
  | nil => rfl
  | cons c cs ih => exact ih

section Collect
variable {cap : Nat} {b : Bytes} {qs : List Bytes}

theorem quiet_reads (hq : ∀ c ∈ qs, 0 ∉ c) (hb : b.length ≤ cap) (rs : List Read) :
    ((b ++ qs.flatten).length ≤ cap →
      readPipe cap ⟨b, false⟩ (qs.map .bytes ++ rs) = readPipe cap ⟨b ++ qs.flatten, false⟩ rs) ∧
    (cap < (b ++ qs.flatten).length → ∃ d,
      readPipe cap ⟨b, false⟩ (qs.map .bytes ++ rs) = readPipe cap ⟨d, true⟩ rs) := by
  induction qs generalizing b with
  | nil =>
    rw [List.flatten_nil, List.append_nil]
    exact ⟨fun _ => rfl, fun h => absurd hb (Nat.not_le.mpr h)⟩
  | cons c qs ih =>
    have hc : 0 ∉ c := hq c List.mem_cons_self
    have hrest : ∀ d ∈ qs, 0 ∉ d := fun d hd => hq d (List.mem_cons_of_mem c hd)
    have hstep : readPipe cap ⟨b, false⟩ ((c :: qs).map .bytes ++ rs) =
        readPipe cap ⟨b ++ c, decide (cap < (b ++ c).length)⟩ (qs.map .bytes ++ rs) := by
      simp only [List.map_cons, List.cons_append, readPipe, Bool.false_eq_true, if_false, if_neg hc]
    rw [hstep, List.flatten_cons, ← List.append_assoc]
    by_cases hlen : (b ++ c).length ≤ cap
    · rw [decide_eq_false (Nat.not_lt.mpr hlen)]
      exact ih hrest hlen
    · rw [decide_eq_true (Nat.not_le.mp hlen), overflow_reads]
      refine ⟨fun h => ?_, fun _ => ⟨_, rfl⟩⟩
      rw [List.length_append] at h
      omega

theorem overflow_ends (cs : List Bytes) (ended : Bool) :
    readPipe cap ⟨b, true⟩ (reads cs ended) = if ended then some none else none := by
  rw [reads, overflow_reads]
  cases ended <;> rfl

theorem reads_split (cs : List Bytes) (ended : Bool) :
    reads cs ended = (quiet cs).map .bytes ++ reads (cs.dropWhile fun c => 0 ∉ c) ended := by
  rw [reads, reads, ← List.append_assoc, ← List.map_append, quiet, List.takeWhile_append_dropWhile]

theorem quiet_plain (cs : List Bytes) : ∀ c ∈ quiet cs, 0 ∉ c := by
  intro c hc
  have hall : (quiet cs).all (fun c => decide (0 ∉ c)) = true := List.all_takeWhile
  exact of_decide_eq_true (List.all_eq_true.mp hall c hc)

theorem reported_append {c : Bytes} (hc : 0 ∉ c) (t : Bytes) : reported (c ++ t) = c ++ reported t :=
  takeWhile_not_mem hc t

theorem quiet_flatten (cs : List Bytes) : 0 ∉ (quiet cs).flatten := by
  intro h
  obtain ⟨c, hc, h0⟩ := List.mem_flatten.mp h
  exact quiet_plain cs c hc h0

theorem flatten_split (cs : List Bytes) :
    cs.flatten = (quiet cs).flatten ++ (cs.dropWhile fun c => 0 ∉ c).flatten := by
  rw [← List.flatten_append, quiet, List.takeWhile_append_dropWhile]

/-- Everything `read_pipe` can make of a fragmented report. -/
theorem readPipe_reads (cap : Nat) (cs : List Bytes) (ended : Bool)
    (hend : 0 ∈ cs.flatten ∨ ended = true) :
    readPipe cap {} (reads cs ended) =
      if (quiet cs).flatten.length ≤ cap then some (text (reported cs.flatten))
      else if ended then some none else none := by
  have hq := quiet_reads (b := []) (quiet_plain cs) (Nat.zero_le cap)
    (reads (cs.dropWhile fun c => 0 ∉ c) ended)
  rw [← reads_split, List.nil_append] at hq
  by_cases hlen : (quiet cs).flatten.length ≤ cap
  · rw [if_pos hlen]
    refine (hq.1 hlen).trans ?_
    rw [flatten_split cs, reported_append (quiet_flatten cs)]
    cases hd : cs.dropWhile fun c => decide (0 ∉ c) with
    | nil =>
      -- no fragment holds a NUL, so the pipe has ended
      have hno : 0 ∉ cs.flatten := by
        rw [flatten_split, hd, List.flatten_nil, List.append_nil]
        exact quiet_flatten cs
      have he : ended = true := hend.resolve_left hno
      subst he
      rw [List.flatten_nil]
      simp only [reads, List.map_nil, List.nil_append, if_true, readPipe, value_eq, reported,
        List.takeWhile_nil, List.append_nil]
    | cons c rest =>
      have hc : 0 ∈ c := by
        have hn := List.head?_dropWhile_not (fun c : Bytes => decide (0 ∉ c)) cs
        rw [hd] at hn
        simpa using hn
      rw [List.flatten_cons, reported, takeWhile_mem hc]
      simp only [reads, List.map_cons, List.cons_append, readPipe, Bool.false_eq_true, if_false,
        if_pos hc, value_eq]
  · rw [if_neg hlen]
    obtain ⟨d, hd⟩ := hq.2 (Nat.not_le.mp hlen)
    exact hd.trans (overflow_ends _ ended)

end Collect

theorem text_bytes {p : Bytes} {s : String} (h : text p = some s) : asBytes s = p :=
  asBytes_of_fromUtf8 (Option.ite_none_left_eq_some.mp h).2

theorem length_of_text {p : Bytes} {s : String} (h : text p = some s) :
    s.utf8ByteSize = p.length := by
  rw [← length_asBytes, text_bytes h]

theorem text_none {p : Bytes} (h : p ≠ []) : text p = none ↔ fromUtf8 p = none := by
  rw [text, if_neg h]

/-! ### What is taken of a report -/

theorem arrived_flatten (rs : List Read) : arrived rs = (fragmentsOf rs).flatten := by
  induction rs with
  | nil => rfl
  | cons x rs ih =>
    cases x with
    | bytes chunk => rw [arrived, fragmentsOf, ih, List.flatten_cons]
    | eof | failed => rfl

theorem readPipe_fragments (cap : Nat) (c : Collector) (rs : List Read) :
    readPipe cap c rs = readPipe cap c (reads (fragmentsOf rs) (ends rs)) := by
  induction rs generalizing c with
  | nil => rfl
  | cons x rs ih =>
    cases x with
    | eof | failed => rfl
    | bytes chunk =>
      have hcons : reads (fragmentsOf (.bytes chunk :: rs)) (ends (.bytes chunk :: rs)) =
          .bytes chunk :: reads (fragmentsOf rs) (ends rs) := rfl
      simp only [hcons, readPipe, ih]

theorem readPipe_ends {cap : Nat} {c : Collector} {rs : List Read} {r : Option String}
    (h : readPipe cap c rs = some r) : 0 ∈ arrived rs ∨ ends rs = true := by
  induction rs generalizing c with
  | nil => cases h
  | cons x rs ih =>
    cases x with
    | eof | failed => exact .inr rfl
    | bytes chunk =>
      rw [readPipe] at h
      by_cases h0 : 0 ∈ chunk
      · exact .inl (List.mem_append_left _ h0)
      · rw [if_neg h0] at h
        have hrest : 0 ∈ arrived rs ∨ ends rs = true := by
          split at h
          · exact ih h
          · exact ih h
        exact hrest.imp (List.mem_append_right _) id

theorem readPipe_value {cap : Nat} {rs : List Read} {r : Option String}
    (h : readPipe cap {} rs = some r) :
    r = if (quiet (fragmentsOf rs)).flatten.length ≤ cap then text (reported (arrived rs))
      else none := by
  have hend := readPipe_ends h
  rw [arrived_flatten] at hend ⊢
  rw [readPipe_fragments, readPipe_reads _ _ _ hend] at h
  split_ifs at h ⊢
  · exact (Option.some.inj h).symm
  · exact (Option.some.inj h).symm

theorem taken_of_joined {cap : Nat} {report : Bytes} (h0 : 0 ∉ report) {reads : List Read}
    (hp : arrived reads <+: report ++ [0]) {j : Join} (hj : Joined cap reads j) {s : String}
    (h : j.report = some s) : Taken report reads s := by
  cases j with
  | failed | elapsed => cases h
  | ready r =>
    obtain rfl : r = some s := h
    have hv := readPipe_value hj
    have hb : asBytes s = reported (arrived reads) := by
      split_ifs at hv
      exact text_bytes hv.symm
    rcases List.prefix_concat_iff.mp hp with hall | hpart
    · refine .inl ⟨hall, ?_⟩
      rw [hb, hall, reported_append h0]
      simp [reported]
    · have hno : 0 ∉ arrived reads := fun hm => h0 (hpart.subset hm)
      have htw := reported_append hno []
      rw [List.append_nil] at htw
      refine .inr ⟨hno, (readPipe_ends hj).resolve_left hno, ?_⟩
      rw [hb, htw]
      simp [reported]

theorem dropped_iff {cap : Nat} {reads : List Read} {j : Join} (hj : Joined cap reads j) :
    j.report = none ↔ Dropped cap reads j := by
  cases j with
  | failed => simp [Dropped, Join.report]
  | elapsed => simp [Dropped, Join.report]
  | ready r =>
    have hv := readPipe_value hj
    change r = none ↔ _
    simp only [Dropped, reduceCtorEq, false_or]
    rw [hv]
    by_cases hn : Noticed cap (fragmentsOf reads)
    · rw [if_neg (Nat.not_le.mpr hn)]
      simp [hn]
    · rw [if_pos (Nat.not_lt.mp hn), text]
      by_cases he : reported (arrived reads) = []
      · simp [he]
      · simp [he, hn]

theorem length_of_joined {cap : Nat} {reads : List Read} {j : Join} (hj : Joined cap reads j)
    {s : String} (h : j.report = some s) : s.utf8ByteSize = (reported (arrived reads)).length := by
  cases j with
  | failed | elapsed => cases h
  | ready r =>
    obtain rfl : r = some s := h
    have hv := readPipe_value hj
    split_ifs at hv
    exact length_of_text hv.symm

/-- Whatever the fragments and wherever the pipes end: the state that is stored and the cwd that is
reported are taken from their pipes whole, and exactly where a report is dropped or a dump is beyond
the cap of `save_state` the stored state stays, or no cwd is reported. -/
theorem reports_whole_or_cut_off (timedOut : Bool) (code : Int) {cwdReport dump : Bytes}
    (hc0 : 0 ∉ cwdReport) (hd0 : 0 ∉ dump) {cwdReads dumpReads : List Read}
    (hc : arrived cwdReads <+: cwdReport ++ [0]) (hd : arrived dumpReads <+: dump ++ [0])
    {cwd state : Join} (hjc : Joined cwdCap cwdReads cwd) (hjd : Joined stateCap dumpReads state) :
    let (report, saved) := finish timedOut code cwd state
    (∀ prev, stateAfter prev saved = prev ∨
        ∃ s, stateAfter prev saved = some s ∧ Taken dump dumpReads s) ∧
      (∀ s, report.cwd = some s → Taken cwdReport cwdReads s) ∧
      ((∀ prev, stateAfter prev saved = prev) ↔ Dropped stateCap dumpReads state ∨
        stateCap < (reported (arrived dumpReads)).length) ∧
      (report.cwd = none ↔ Dropped cwdCap cwdReads cwd) := by
  have hcwd : ∀ s, cwd.report = some s → Taken cwdReport cwdReads s :=
    fun s h => taken_of_joined hc0 hc hjc h
  have hkept : (∀ prev, stateAfter prev state.report = prev) ↔ Dropped stateCap dumpReads state ∨
      stateCap < (reported (arrived dumpReads)).length := by
    rw [← dropped_iff hjd]
    cases hr : state.report with
    | none => simp [stateAfter]
    | some s =>
      have hlen := length_of_joined hjd hr
      simp only [stateAfter, hlen, reduceCtorEq, false_or]
      constructor
      · intro hall
        by_contra hle
        have hnone := hall none
        rw [if_neg hle] at hnone
        cases hnone
      · intro hlt prev
        rw [if_pos hlt]
  refine ⟨fun prev => ?_, hcwd, hkept, dropped_iff hjc⟩
  cases hr : state.report with
  | none => exact .inl rfl
  | some s =>
    by_cases hle : stateCap < s.utf8ByteSize
    · exact .inl (if_pos hle)
    · exact .inr ⟨s, if_neg hle, taken_of_joined hd0 hd hjd hr⟩

theorem value_asBytes {s : String} (h : s ≠ "") : (⟨asBytes s, false⟩ : Collector).value = some s := by
  have hb : asBytes s ≠ [] := by
    intro h0
    have hl := length_asBytes s
    rw [h0, List.length_nil] at hl
    exact h (String.utf8ByteSize_eq_zero_iff.mp hl.symm)
  simp [Collector.value, hb, fromUtf8_asBytes, h]

theorem joined_two {cap : Nat} {s : String} (hs : s ≠ "") (h0 : 0 ∉ asBytes s)
    (hl : (asBytes s).length ≤ cap) {x : Read} (hx : x = .eof ∨ x = .bytes [0]) :
    Joined cap [.bytes (asBytes s), x] (.ready (some s)) := by
  have hfirst : readPipe cap {} [.bytes (asBytes s), x] = readPipe cap ⟨asBytes s, false⟩ [x] := by
    simp [readPipe, h0, Nat.not_lt.mpr hl]
  rw [Joined, hfirst]
  rcases hx with rfl | rfl
  · rw [readPipe, value_asBytes hs]
  · simp [readPipe, value_asBytes hs]

/-- The wrapper's reports arrive whole, and both are used. -/
theorem reports_whole_or_cut_off_sample :
    let (report, saved) := finish false 0 (.ready (some "/srv")) (.ready (some "umask 022"))
    (∀ prev, stateAfter prev saved = prev ∨ ∃ s, stateAfter prev saved = some s ∧
        Taken (asBytes "umask 022") [.bytes (asBytes "umask 022"), .bytes [0]] s) ∧
      (∀ s, report.cwd = some s → Taken (asBytes "/srv") [.bytes (asBytes "/srv"), .bytes [0]] s) ∧
      ((∀ prev, stateAfter prev saved = prev) ↔
        Dropped stateCap [.bytes (asBytes "umask 022"), .bytes [0]] (.ready (some "umask 022")) ∨
          stateCap < (reported (arrived [.bytes (asBytes "umask 022"), .bytes [0]])).length) ∧
      (report.cwd = none ↔
        Dropped cwdCap [.bytes (asBytes "/srv"), .bytes [0]] (.ready (some "/srv"))) :=
  reports_whole_or_cut_off false 0 (by decide) (by decide) (by simp [arrived]) (by simp [arrived])
    (joined_two (by decide) (by decide) (by decide) (.inr rfl))
    (joined_two (by decide) (by decide) (by decide) (.inr rfl))

/-- Bash is killed while it writes the reports `/srv/app` and `umask 022`: what has arrived of
them is reported as the cwd and saved as the state. -/
theorem cut_reports_used :
    let cwdReads := [Read.bytes (asBytes "/srv"), .eof]
    let dumpReads := [Read.bytes (asBytes "umask 0"), .eof]
    arrived cwdReads <+: asBytes "/srv/app" ++ [0] ∧ arrived dumpReads <+: asBytes "umask 022" ++ [0] ∧
      Joined cwdCap cwdReads (.ready (some "/srv")) ∧
      Joined stateCap dumpReads (.ready (some "umask 0")) ∧
      finish false 137 (.ready (some "/srv")) (.ready (some "umask 0")) =
        (⟨137, some "/srv", none, false⟩, some "umask 0") ∧
      stateAfter (some "umask 077") (some "umask 0") = some "umask 0" ∧
      asBytes "/srv" ≠ asBytes "/srv/app" ∧ asBytes "umask 0" ≠ asBytes "umask 022" :=
  ⟨by decide, by decide, joined_two (by decide) (by decide) (by decide) (.inl rfl),
    joined_two (by decide) (by decide) (by decide) (.inl rfl), rfl, rfl, by decide, by decide⟩

/-! ### The caps -/

/-- `read_pipe` collects exactly the reports within the cap where the report is within the cap, or
an excess is noticed before its NUL is read and the pipe ends, or it is no text at all; and then
what it returns is within the cap. -/
theorem collected_iff (cap : Nat) (cs : List Bytes) (ended : Bool)
    (hend : 0 ∈ cs.flatten ∨ ended = true) :
    let p := reported cs.flatten
    let Good := p.length ≤ cap ∨ (Noticed cap cs ∧ ended = true) ∨
      (¬ Noticed cap cs ∧ fromUtf8 p = none)
    (readPipe cap {} (reads cs ended) = some (collected cap p) ↔ Good) ∧
      (Good → ∀ s, readPipe cap {} (reads cs ended) = some (some s) → s.utf8ByteSize ≤ cap) := by
  intro p Good
  have hr := readPipe_reads cap cs ended hend
  have hiff : readPipe cap {} (reads cs ended) = some (collected cap p) ↔ Good := by
    rw [hr]
    by_cases hp : p.length ≤ cap
    · have hquiet : (quiet cs).flatten.length ≤ cap := by
        have hsplit : p = (quiet cs).flatten ++ reported (cs.dropWhile fun c => 0 ∉ c).flatten := by
          rw [← reported_append (quiet_flatten cs), ← flatten_split]
        rw [hsplit, List.length_append] at hp
        omega
      rw [if_pos hquiet, collected, if_pos hp]
      exact ⟨fun _ => .inl hp, fun _ => rfl⟩
    · rw [collected, if_neg hp]
      by_cases hquiet : (quiet cs).flatten.length ≤ cap
      · have hno : ¬ Noticed cap cs := Nat.not_lt.mpr hquiet
        have hne : p ≠ [] := by
          intro h0
          rw [h0] at hp
          exact hp (Nat.zero_le cap)
        rw [if_pos hquiet, Option.some.injEq]
        change text p = none ↔ _
        rw [text_none hne]
        simp only [Good, hp, hno, false_and, false_or, not_false_eq_true, true_and]
      · have hno : Noticed cap cs := Nat.not_le.mp hquiet
        rw [if_neg hquiet]
        simp only [Good, hp, hno, not_true, false_and, or_false, false_or, true_and]
        cases ended <;> simp
  refine ⟨hiff, fun hg s hs => ?_⟩
  rw [hiff.mpr hg, Option.some.injEq, collected] at hs
  obtain ⟨hlen, ht⟩ := Option.ite_none_right_eq_some.mp hs
  rw [length_of_text ht]
  exact hlen

theorem collected_iff_sample :
    let p := reported (asBytes "/srv" ++ [0])
    let Good := p.length ≤ cwdCap ∨ (Noticed cwdCap [asBytes "/srv", [0]] ∧ false = true) ∨
      (¬ Noticed cwdCap [asBytes "/srv", [0]] ∧ fromUtf8 p = none)
    (readPipe cwdCap {} (reads [asBytes "/srv", [0]] false) = some (collected cwdCap p) ↔ Good) ∧
      (Good → ∀ s, readPipe cwdCap {} (reads [asBytes "/srv", [0]] false) = some (some s) →
        s.utf8ByteSize ≤ cwdCap) :=
  collected_iff cwdCap [asBytes "/srv", [0]] false (.inl (by decide))

theorem asBytes_replicate (n : Nat) :
    asBytes (String.ofList (List.replicate n 'a')) = List.replicate n 97 := by
  unfold asBytes
  rw [String.toByteArray_ofList]
  induction n with
  | zero => simp
  | succ n ih =>
    rw [List.replicate_succ, List.utf8Encode_cons, ByteArray.data_append, Array.toList_append, ih]
    rfl

def fragments (k : Nat) (tail : List Bytes) : List Bytes :=
  List.replicate k (List.replicate 4096 97) ++ tail

theorem no_nul (n : Nat) : (0 : UInt8) ∉ List.replicate n (97 : UInt8) := by
  rw [List.mem_replicate]
  rintro ⟨-, h⟩
  cases h

theorem quiet_fragments (k : Nat) (tail : List Bytes) :
    (quiet (fragments k tail)).flatten = List.replicate (k * 4096) 97 ++ (quiet tail).flatten := by
  have h0 : ∀ c ∈ List.replicate k (List.replicate 4096 (97 : UInt8)),
      decide ((0 : UInt8) ∉ c) = true := by
    intro c hc
    rw [(List.mem_replicate.mp hc).2]
    exact decide_eq_true (no_nul 4096)
  rw [quiet, fragments, List.takeWhile_append_of_pos h0, List.flatten_append,
    List.flatten_replicate_replicate, quiet]

theorem reported_fragments (k : Nat) (tail : List Bytes) :
    reported (fragments k tail).flatten = List.replicate (k * 4096) 97 ++ reported tail.flatten := by
  rw [fragments, List.flatten_append, List.flatten_replicate_replicate,
    reported_append (no_nul _)]

/-- The read that passes the cap brings the NUL, so the excess is not noticed. -/
theorem long_report (k : Nat) : readPipe (k * 4096) {} (reads (fragments k [[97, 0]]) false) =
    some (some (String.ofList (List.replicate (k * 4096 + 1) 'a'))) := by
  have hq : (quiet [[97, 0]]).flatten = ([] : Bytes) := rfl
  have hr : reported [[97, 0]].flatten = [97] := rfl
  have hmem : 0 ∈ (fragments k [[97, 0]]).flatten := by
    rw [fragments, List.flatten_append]
    exact List.mem_append_right _ (by decide)
  rw [readPipe_reads _ _ _ (.inl hmem), quiet_fragments, hq, List.append_nil,
    List.length_replicate, if_pos (Nat.le_refl _), reported_fragments, hr, ← List.replicate_succ',
    text, if_neg (by rw [List.replicate_succ]; exact List.cons_ne_nil _ _), ← asBytes_replicate,
    fromUtf8_asBytes]

theorem long_report_noticed (k : Nat) :
    readPipe (k * 4096) {} (reads (fragments k [[97], [0]]) true) = some none := by
  have hq : (quiet [[97], [0]]).flatten = ([97] : Bytes) := rfl
  rw [readPipe_reads _ _ _ (.inr rfl), quiet_fragments, hq, List.length_append,
    List.length_replicate, if_neg (by simp), if_pos rfl]

/-- A cwd of 8193 bytes and a dump of 262145 are returned, each one byte over its cap; with one
more cut the cwd is not. -/
theorem long_reports_returned :
    (∀ k, ∀ c ∈ fragments k [[97, 0]], 1 ≤ c.length ∧ c.length ≤ 4096) ∧
      readPipe cwdCap {} (reads (fragments 2 [[97, 0]]) false) =
        some (some (String.ofList (List.replicate 8193 'a'))) ∧
      readPipe stateCap {} (reads (fragments 64 [[97, 0]]) false) =
        some (some (String.ofList (List.replicate 262145 'a'))) ∧
      collected cwdCap (reported (fragments 2 [[97, 0]]).flatten) = none ∧
      collected stateCap (reported (fragments 64 [[97, 0]]).flatten) = none ∧
      readPipe cwdCap {} (reads (fragments 2 [[97], [0]]) true) = some none := by
  have hr : reported [[97, 0]].flatten = [97] := rfl
  refine ⟨?_, long_report 2, long_report 64, ?_, ?_, long_report_noticed 2⟩
  · intro k c hc
    rcases List.mem_append.mp hc with h | h
    · rw [(List.mem_replicate.mp h).2, List.length_replicate]
      omega
    · rw [List.mem_singleton.mp h]
      decide
  · rw [reported_fragments, hr, collected, List.length_append, List.length_replicate]
    rfl
  · rw [reported_fragments, hr, collected, List.length_append, List.length_replicate]
    rfl

end ShellProxy.Reports
