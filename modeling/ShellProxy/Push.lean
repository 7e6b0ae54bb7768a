import ShellProxy.ClientRun
import ShellProxy.Quoting

/-! A whole push: the loop of `client::run` over a local file, and the remote `cat >` at the other
end. The path between them hands over the frames of the client in order. -/
namespace ShellProxy.Push
open Frame Codec EventStream FrameReader Framing Machine ClientRun
variable {J : EventJson}

/-- A local input: what its reads return, up to the end of the file or an error. -/
structure Source where
  chunks : List Bytes
  proper : ∀ d ∈ chunks, d ≠ []
  failure : Option String

def Source.bytes (s : Source) : Bytes := s.chunks.flatten

def Source.read (s : Source) : Except String Bytes :=
  match s.chunks, s.failure with
  | d :: _, _ => .ok d
  | [], none => .ok []
  | [], some e => .error e

def Source.rest (s : Source) : Source :=
  { s with chunks := s.chunks.tail, proper := fun d hd => s.proper d (List.mem_of_mem_tail hd) }

/-- What a command has of its input, and whether it saw the end of it. -/
structure Copy where
  bytes : Bytes := []
  ended : Bool := false
  deriving DecidableEq

def Copy.feed (k : Copy) : ExecFrame ExecRequest → Copy
  | .stdinData d => if k.ended then k else { k with bytes := k.bytes ++ d }
  | .stdinEof => { k with ended := true }
  | _ => k

def copyOf (fs : List (ExecFrame ExecRequest)) : Copy := fs.foldl Copy.feed {}

structure Transfer where
  client : Client
  source : Source
  /-- How many frames of the client have come through. -/
  taken : Nat := 0
  /-- The remote file: what `cat` copied. -/
  cat : Copy := {}

def start (req : ExecRequest) (src : Source) : Transfer :=
  { client := ClientRun.start req [], source := src }

inductive Ev where
  | client (i : Input)
  | take
  | emit (f : EventFrame)

def isStdin : Input → Bool
  | .stdin _ _ => true
  | _ => false

/-- A read of the local input returns what comes next there. -/
def reads (src : Source) : Input → Bool
  | .stdin n _ => n == src.read
  | _ => true

def succeeds : EventFrame → Bool
  | .exit rep => rep.code == 0 && rep.error.isNone
  | _ => false

variable (J) in
def fits (f : EventFrame) : Bool :=
  match eventPayload J f with
  | .ok (_, payload) => payload.length ≤ maxPayload
  | .error _ => false

def Transfer.onClient (t : Transfer) (i : Input) (c : Client) : Transfer :=
  { t with client := c, source := if isStdin i then t.source.rest else t.source }

def Transfer.receive (t : Transfer) (b : Bytes) : Transfer :=
  { t with client := { t.client with unread := t.client.unread ++ b } }

variable (J) in
/-- `cat` reports success once it has copied its input to the end, which is also there when the
client is gone. Any other frame can come at any time. -/
def step (t : Transfer) : Ev → Option Transfer
  | .client i =>
    if reads t.source i then (ClientRun.step J t.client i).map (t.onClient i) else none
  | .take => t.client.sent[t.taken]?.map fun f => { t with taken := t.taken + 1, cat := t.cat.feed f }
  | .emit f =>
    if fits J f && (!succeeds f || t.cat.ended || t.client.result.isSome)
    then some (t.receive (wire J f)) else none

def readFails : Input → Bool
  | .stdin (.error _) _ => true
  | _ => false

/-- No local read fails, and no frame future is dropped inside a frame. -/
def Sound (t : Transfer) : Ev → Prop
  | .client i => readFails i = false ∧ Keeps t.client i
  | _ => True

section Source
variable {src : Source}

theorem read_data {d : Bytes} (hd : d ≠ []) (h : src.read = .ok d) :
    src.bytes = d ++ src.rest.bytes := by
  rw [Source.read] at h
  split at h
  next x ds hc =>
    obtain rfl : x = d := by simpa using h
    show src.chunks.flatten = x ++ src.chunks.tail.flatten
    rw [hc]
    rfl
  next => exact absurd (by simpa using h) hd
  next => cases h

theorem read_eof (h : src.read = .ok []) : src.bytes = [] ∧ src.failure = none := by
  rw [Source.read] at h
  split at h
  next x ds hc =>
    obtain rfl : x = [] := by simpa using h
    exact absurd rfl (src.proper [] (hc ▸ List.mem_cons_self))
  next hc hf => exact ⟨by rw [Source.bytes, hc]; rfl, hf⟩
  next => cases h

end Source

section Copy
variable {k : Copy} {fs gs : List (ExecFrame ExecRequest)}

theorem feed_ended (h : k.ended = true) : fs.foldl Copy.feed k = k := by
  induction fs generalizing k with
  | nil => rfl
  | cons f fs ih =>
    have hf : k.feed f = k := by
      cases f with
      | stdinData d => exact if_pos h
      | stdinEof => cases k; cases h; rfl
      | exec req | signal s | ping => rfl
    rw [List.foldl_cons, hf, ih h]

theorem copyOf_append : copyOf (fs ++ gs) = gs.foldl Copy.feed (copyOf fs) := List.foldl_append

theorem copyOf_take {n : Nat} (h : (copyOf (fs.take n)).ended = true) :
    copyOf (fs.take n) = copyOf fs := by
  have ha := @copyOf_append (fs.take n) (fs.drop n)
  rw [List.take_append_drop, feed_ended h] at ha
  exact ha.symm

theorem feed_signals (h : ∀ f ∈ fs, ∃ s, f = .signal s) : fs.foldl Copy.feed k = k := by
  induction fs generalizing k with
  | nil => rfl
  | cons f fs ih =>
    obtain ⟨⟨s, rfl⟩, hr⟩ := List.forall_mem_cons.mp h
    exact ih hr

end Copy

/-- What an iteration of the client's loop says on its connection. -/
inductive Said (c : Client) : Input → Client → Prop where
  | data {d : Bytes} {c' : Client} (hd : d ≠ []) (ho : c.stdinOpen = true)
      (hs : c'.sent = c.sent ++ [.stdinData d]) (hc : c'.stdinOpen = true) :
      Said c (.stdin (.ok d) (.ok ())) c'
  | eof {c' : Client} (ho : c.stdinOpen = true) (hs : c'.sent = c.sent ++ [.stdinEof])
      (hc : c'.stdinOpen = false) : Said c (.stdin (.ok []) (.ok ())) c'
  | broken {d : Bytes} {e : String} {c' : Client} (ho : c.stdinOpen = true)
      (hs : c'.sent = c.sent) (hr : c'.result ≠ none) : Said c (.stdin (.ok d) (.error e)) c'
  | other {i : Input} {c' : Client} {fs : List (ExecFrame ExecRequest)} (hi : isStdin i = false)
      (hs : c'.sent = c.sent ++ fs) (hf : ∀ f ∈ fs, ∃ s, f = .signal s)
      (hc : c'.stdinOpen = c.stdinOpen) : Said c i c'

section Client
variable {c c' : Client} {i : Input}

theorem onFrame_kept {sink : Option (Nat × String)} {r : Except Error (Option EventFrame)} :
    (c.onFrame sink r).sent = c.sent ∧ (c.onFrame sink r).stdinOpen = c.stdinOpen := by
  obtain e | _ | f := r
  · exact ⟨rfl, rfl⟩
  · exact ⟨rfl, rfl⟩
  · cases f with
    | stdout d | stderr d => cases sink <;> exact ⟨rfl, rfl⟩
    | exit rep | pong p => exact ⟨rfl, rfl⟩

theorem onRead_kept {n : Nat} {sink : Option (Nat × String)} :
    (c.onRead J n sink).sent = c.sent ∧ (c.onRead J n sink).stdinOpen = c.stdinOpen := by
  rw [Client.onRead]
  split
  · exact ⟨rfl, rfl⟩
  · exact onFrame_kept

theorem said_signal {sig : Option Signal} {s : Signal} {now : Nat} {v w : Except String Unit}
    {b : Client} (hs : b.sent = c.sent) (ho : b.stdinOpen = c.stdinOpen) :
    Said c (.signal sig now v) (b.send (.signal s) w) := by
  cases w with
  | ok u => exact .other rfl (congrArg (· ++ [_]) hs) (by simp) ho
  | error e => exact .other rfl (hs.trans (List.append_nil _).symm) (by simp) ho

theorem said (hf : readFails i = false) (h : ClientRun.step J c i = some c') : Said c i c' := by
  have hr := step_running h
  simp only [ClientRun.step, hr, Option.isSome_none, Bool.false_eq_true, if_false] at h
  cases i with
  | stdin n w =>
    obtain ⟨⟨ho, -⟩, hc⟩ := Option.ite_none_right_eq_some.mp h
    obtain rfl := Option.some.inj hc
    cases n with
    | error e => cases hf
    | ok d =>
      cases w with
      | error e => cases d <;> exact .broken ho rfl (Option.some_ne_none _)
      | ok u =>
        cases d with
        | nil => exact .eof ho rfl rfl
        | cons x d => exact .data (List.cons_ne_nil _ _) ho rfl ho
  | read n sink =>
    obtain ⟨-, hc⟩ := Option.ite_none_right_eq_some.mp h
    obtain rfl := Option.some.inj hc
    exact .other rfl (onRead_kept.1.trans (List.append_nil _).symm) (by simp) onRead_kept.2
  | readErr e =>
    obtain rfl := Option.some.inj h
    exact .other rfl (onFrame_kept.1.trans (List.append_nil _).symm) (by simp) onFrame_kept.2
  | eof =>
    obtain ⟨-, hc⟩ := Option.ite_none_right_eq_some.mp h
    obtain rfl := Option.some.inj hc
    exact .other rfl (onFrame_kept.1.trans (List.append_nil _).symm) (by simp) onFrame_kept.2
  | signal sig now w =>
    obtain ⟨-, hc⟩ := Option.ite_none_right_eq_some.mp h
    obtain rfl := Option.some.inj hc
    cases sig with
    | none => exact .other rfl (List.append_nil _).symm (by simp) rfl
    | some s =>
      cases s with
      | int =>
        rw [Client.onSignal]
        split_ifs with hf
        · exact .other rfl (List.append_nil _).symm (by simp) rfl
        · exact said_signal rfl rfl
      | term | kill | hup => exact said_signal rfl rfl

end Client

/-- A success the client is about to hear of, or has heard of, is one. -/
structure Heard (J : EventJson) (t : Transfer) : Prop where
  coming : t.client.result = none → ∃ es done left, Live J es done left t.client ∧
    ∀ f ∈ left, succeeds f = true → t.cat.ended = true
  reported : ∀ r, t.client.result = some (.ok r) → r.code = 0 → r.error = none →
    t.cat.ended = true

structure Inv (J : EventJson) (src : Source) (t : Transfer) : Prop where
  bound : t.taken ≤ t.client.sent.length
  copied : t.cat = copyOf (t.client.sent.take t.taken)
  ended : (copyOf t.client.sent).ended = true → t.client.stdinOpen = false ∧
    (copyOf t.client.sent).bytes = src.bytes ∧ src.failure = none
  account : t.client.result = none → t.client.stdinOpen = true →
    (copyOf t.client.sent).bytes ++ t.source.bytes = src.bytes ∧ t.source.failure = src.failure
  heard : Heard J t

theorem fits_iff {f : EventFrame} : fits J f = true ↔ Fits J f := by
  rw [fits, Fits]
  cases eventPayload J f with
  | error e => simp
  | ok p =>
    obtain ⟨kind, payload⟩ := p
    simp

theorem inv_start (req : ExecRequest) (src : Source) : Inv J src (start req src) where
  bound := Nat.zero_le _
  copied := rfl
  ended h := nomatch h
  account _ _ := ⟨rfl, rfl⟩
  heard := ⟨fun _ => ⟨[], [], [], live_start req [] (by simp), by simp⟩, fun _ h => nomatch h⟩

section Step
variable {src : Source} {t : Transfer} {i : Input} {c : Client} {f : EventFrame}

theorem live_receive {es : List Input} {done left : List EventFrame}
    (h : Live J es done left t.client) (hf : Fits J f) :
    Live J es done (left ++ [f]) (t.receive (wire J f)).client where
  plain := h.plain
  fits := by
    intro g hg
    obtain hg | hg := List.mem_append.mp hg
    · exact h.fits g hg
    · exact List.mem_singleton.mp hg ▸ hf
  running := h.running
  delivered u := (by cases u <;> rfl : _ = t.client.delivered u).trans (h.delivered u)
  bytes := by
    show consumed t.client.reader ++ (t.client.unread ++ wire J f) = _
    rw [← List.append_assoc, h.bytes, encodeAll_append, encodeAll_cons, encodeAll_nil,
      List.append_nil]
  inside := by
    intro g rest hg
    cases left with
    | nil =>
      obtain ⟨rfl, -⟩ := List.cons.inj hg
      show Inside J f t.client.reader
      rw [h.at_end.1]
      exact inside_new hf
    | cons g' left =>
      obtain ⟨rfl, -⟩ := List.cons.inj hg
      exact h.inside g' left rfl
  ints := h.ints

theorem heard_receive (h : Heard J t) (hf : Fits J f)
    (hs : (!succeeds f || t.cat.ended || t.client.result.isSome) = true) :
    Heard J (t.receive (wire J f)) where
  coming hr := by
    replace hr : t.client.result = none := hr
    obtain ⟨es, done, left, hl, he⟩ := h.coming hr
    refine ⟨es, done, left ++ [f], live_receive hl hf, fun g hg hsg => ?_⟩
    obtain hg | hg := List.mem_append.mp hg
    · exact he g hg hsg
    · obtain rfl := List.mem_singleton.mp hg
      rw [hsg, hr] at hs
      show t.cat.ended = true
      simpa using hs
  reported := h.reported

theorem heard_client (hJ : J.Lawful) (h : Heard J t) (hk : Keeps t.client i)
    (hs : ClientRun.step J t.client i = some c) : Heard J (t.onClient i c) := by
  have hr := step_running hs
  obtain ⟨es, done, left, hl, he⟩ := h.coming hr
  have hx : ∀ f ∈ done ++ left, succeeds f = true → t.cat.ended = true := by
    intro f hf hsf
    obtain hf | hf := List.mem_append.mp hf
    · have hp := hl.plain f hf
      cases f with
      | exit rep => cases hp
      | stdout d | stderr d | pong p => cases hsf
    · exact he f hf hsf
  obtain ⟨done', left', hd, hl'⟩ | ⟨hn, hi⟩ := hl.step hJ hk hs
  · refine ⟨fun _ => ⟨_, done', left', hl', fun f hf => hx f ?_⟩, fun r hc => ?_⟩
    · rw [hd]
      exact List.mem_append_right done' hf
    · have hc' : c.result = some (.ok r) := hc
      rw [hl'.running] at hc'
      cases hc'
  · refine ⟨fun hc => absurd hc hn, fun r hc h0 he0 => ?_⟩
    have hc' : c.result = some (.ok r) := hc
    obtain ⟨done', left', hd, -, hi⟩ := hi
    rw [hc'] at hi
    obtain ⟨-, ⟨rep, rest, rfl, rfl⟩ | ⟨rfl, -⟩⟩ := hi
    · refine hx (.exit rep) (hd ▸ List.mem_append_right done' List.mem_cons_self) ?_
      have h0 : rep.code = 0 := h0
      have he0 : rep.error = none := he0
      rw [succeeds, h0, he0]
      rfl
    · exact absurd h0 (by decide)

theorem inv_client (hJ : J.Lawful) (h : Inv J src t) (hf : readFails i = false)
    (hk : Keeps t.client i) (hr : reads t.source i = true)
    (hs : ClientRun.step J t.client i = some c) : Inv J src (t.onClient i c) := by
  have hh := heard_client hJ h.heard hk hs
  have hb {fs : List (ExecFrame ExecRequest)} (hc : c.sent = t.client.sent ++ fs) :
      t.taken ≤ c.sent.length ∧ t.cat = copyOf (c.sent.take t.taken) := by
    rw [hc, List.take_append_of_le_length h.bound, List.length_append]
    exact ⟨Nat.le_add_right_of_le h.bound, h.copied⟩
  have hopen (ho : t.client.stdinOpen = true) : (copyOf t.client.sent).ended = false := by
    cases he : (copyOf t.client.sent).ended with
    | false => rfl
    | true => exact absurd ho (by rw [(h.ended he).1]; exact Bool.false_ne_true)
  have hn := step_running hs
  cases said hf hs with
  | @data d _ hd ho hc hc' =>
    have hread : t.source.read = .ok d := (beq_iff_eq.mp hr).symm
    have hfeed : copyOf c.sent = ⟨(copyOf t.client.sent).bytes ++ d, false⟩ := by
      have hk := hopen ho
      rw [hc, copyOf_append, List.foldl_cons, List.foldl_nil, Copy.feed, if_neg (by simp [hk]), hk]
    obtain ⟨hby, hfa⟩ := h.account hn ho
    refine ⟨(hb hc).1, (hb hc).2, fun he => ?_, fun _ _ => ?_, hh⟩
    · have he' : (copyOf c.sent).ended = true := he
      rw [hfeed] at he'
      cases he'
    · show (copyOf c.sent).bytes ++ t.source.rest.bytes = src.bytes ∧ t.source.failure = _
      rw [hfeed, List.append_assoc, ← read_data hd hread, hby]
      exact ⟨rfl, hfa⟩
  | eof ho hc hc' =>
    obtain ⟨hby, hfa⟩ := h.account hn ho
    refine ⟨(hb hc).1, (hb hc).2, fun _ => ⟨hc', ?_⟩, fun _ ho' => ?_, hh⟩
    · have hread : t.source.read = .ok [] := (beq_iff_eq.mp hr).symm
      obtain ⟨hnil, hfail⟩ := read_eof hread
      show (copyOf c.sent).bytes = _ ∧ _
      rw [hc, copyOf_append]
      rw [hnil, List.append_nil] at hby
      exact ⟨hby, hfa ▸ hfail⟩
    · exact absurd ho' (by show ¬ c.stdinOpen = true; rw [hc']; exact Bool.false_ne_true)
  | broken ho hc hr' =>
    refine ⟨(hb (hc.trans (List.append_nil _).symm)).1, (hb (hc.trans (List.append_nil _).symm)).2,
      fun he => ?_, fun hr => absurd hr hr', hh⟩
    have he' : (copyOf c.sent).ended = true := he
    rw [hc, hopen ho] at he'
    cases he'
  | @other _ _ fs hi hc hfs hc' =>
    have hcopy : copyOf c.sent = copyOf t.client.sent := by
      rw [hc, copyOf_append, feed_signals hfs]
    refine ⟨(hb hc).1, (hb hc).2, fun he => ?_, fun _ ho => ?_, hh⟩
    · show c.stdinOpen = false ∧ (copyOf c.sent).bytes = _ ∧ _
      rw [hc', hcopy]
      exact h.ended (hcopy ▸ he)
    · have hsame : t.onClient i c = { t with client := c } := by
        rw [Transfer.onClient, hi]
        rfl
      have ho' : c.stdinOpen = true := ho
      rw [hsame]
      show (copyOf c.sent).bytes ++ _ = _ ∧ _
      rw [hcopy]
      exact h.account hn (hc' ▸ ho')

theorem inv_take (h : Inv J src t) {g : ExecFrame ExecRequest}
    (hg : t.client.sent[t.taken]? = some g) :
    Inv J src { t with taken := t.taken + 1, cat := t.cat.feed g } where
  bound := (List.getElem?_eq_some_iff.mp hg).1
  copied := by
    show t.cat.feed g = copyOf (t.client.sent.take (t.taken + 1))
    rw [List.take_add_one, hg, Option.toList_some, copyOf_append, ← h.copied]
    rfl
  ended := h.ended
  account := h.account
  heard := by
    have hm : t.cat.ended = true → (t.cat.feed g).ended = true := by
      intro he
      have hk := @feed_ended t.cat [g] he
      rw [List.foldl_cons, List.foldl_nil] at hk
      rw [hk, he]
    refine ⟨fun hr => ?_, fun r hr h0 he0 => hm (h.heard.reported r hr h0 he0)⟩
    obtain ⟨es, done, left, hl, he⟩ := h.heard.coming hr
    exact ⟨es, done, left, hl, fun f hf hs => hm (he f hf hs)⟩

theorem inv_step (hJ : J.Lawful) {e : Ev} {u : Transfer} (h : Inv J src t) (hk : Sound t e)
    (hs : step J t e = some u) : Inv J src u := by
  cases e with
  | client i =>
    obtain ⟨hr, hm⟩ := Option.ite_none_right_eq_some.mp hs
    obtain ⟨c, hc, rfl⟩ := Option.map_eq_some_iff.mp hm
    exact inv_client hJ h hk.1 hk.2 hr hc
  | take =>
    obtain ⟨g, hg, rfl⟩ := Option.map_eq_some_iff.mp hs
    exact inv_take h hg
  | emit f =>
    obtain ⟨hg, hm⟩ := Option.ite_none_right_eq_some.mp hs
    obtain rfl := Option.some.inj hm
    obtain ⟨hf, hx⟩ := Bool.and_eq_true_iff.mp hg
    exact ⟨h.bound, h.copied, h.ended, h.account, heard_receive h.heard (fits_iff.mp hf) hx⟩

end Step

/-- In every run without a failed local read and without a lost fragment of a frame, a push that
reports success has copied the whole of the local file, and the file did end. -/
theorem push_success_whole (hJ : J.Lawful) (host session : String) (remote : Shell.Text)
    (cwd : Option String) (timeoutMs : Option Nat) (src : Source) (es : List Ev) (t : Transfer)
    (h : Path (step J) Sound
      (start (Quoting.uploadRequest host session remote cwd timeoutMs) src) es t)
    (r : RunReport) (hr : t.client.result = some (.ok r)) (hc : r.code = 0)
    (he : r.error = none) : t.cat.bytes = src.bytes ∧ src.failure = none := by
  have hi : Inv J src t :=
    h.invariant (fun _ _ _ hi hk hs => inv_step hJ hi hk hs) (inv_start _ src)
  have hd := hi.heard.reported r hr hc he
  have hw : t.cat = copyOf t.client.sent := by
    rw [hi.copied] at hd ⊢
    exact copyOf_take hd
  rw [hw] at hd ⊢
  exact (hi.ended hd).2

instance (t : Transfer) : (e : Ev) → Decidable (Sound t e)
  | .client _ => inferInstanceAs (Decidable (_ ∧ (_ → _)))
  | .take => .isTrue trivial
  | .emit _ => .isTrue trivial

def sampleUpload : ExecRequest := Quoting.uploadRequest "h" "s" ['x'] none none

def sampleSource (failure : Option String) : Source where
  chunks := [[97]]
  proper := by decide
  failure := failure

/-- One chunk is sent; then the read returns `n`, the frames come through, and `cat` is done. -/
def sampleRun (n : Except String Bytes) : List Ev :=
  [.client (.stdin (.ok [97]) (.ok ())), .client (.stdin n (.ok ())), .take, .take, .take,
    .emit (.exit sampleReport), .client (.read 5 none), .client (.read 52 none)]

theorem push_success_sample : ∃ t,
    Path (step sampleJson) Sound (start sampleUpload (sampleSource none)) (sampleRun (.ok [])) t ∧
      t.client.result = some (.ok ⟨0, none, false, none⟩) ∧ t.cat.bytes = [97] := by
  have h : Path (step sampleJson) Sound (start sampleUpload (sampleSource none))
      (sampleRun (.ok [])) _ := path_of_guarded rfl
  exact ⟨_, h, rfl, (push_success_whole sampleJson_lawful "h" "s" ['x'] none none
    (sampleSource none) _ _ h ⟨0, none, false, none⟩ rfl rfl rfl).1⟩

/-- The second read fails, and the client reports plain success over what was sent before. -/
theorem failed_read_reported_as_success : ∃ t,
    Path (step sampleJson) Any (start sampleUpload (sampleSource (some "Input/output error")))
      (sampleRun (.error "Input/output error")) t ∧
    t.client.result = some (.ok ⟨0, none, false, none⟩) ∧
    ¬ (t.cat.bytes = (sampleSource (some "Input/output error")).bytes ∧
      (sampleSource (some "Input/output error")).failure = none) :=
  ⟨_, path_of_run rfl, rfl, fun h => nomatch h.2⟩

end ShellProxy.Push
