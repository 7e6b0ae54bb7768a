import ShellProxy.EventStream

/-! The frame reader of a byte stream: a read future that is resumed chunk by chunk, and that
holds the bytes it has consumed. -/
namespace ShellProxy.FrameReader
open Frame Codec EventStream Framing
variable {K T : Type} {J : EventJson}

/-- Where `read_frame_as` waits: the header bytes filled so far, or the decoded header and the
payload bytes filled so far. -/
inductive Reading (K : Type) where
  | header (hdr : Bytes)
  | payload (kind : K) (len : Nat) (payload : Bytes)
  deriving DecidableEq, Repr

def Reading.new : Reading K := .header []

/-- Room of the buffer handed to the next read: the rest of the header, or the unused part of
the capacity reserved for the payload. -/
def Reading.room : Reading K → Nat
  | .header hdr => 5 - hdr.length
  | .payload _ len body => len - body.length

inductive Poll (K T : Type) where
  | pending (st : Reading K)
  | ready (r : Except Error (Option T))

variable (kindOf : UInt8 → Except Error K) (decode : K → Bytes → Except Error T)

/-- The loop of the payload: full, or one more read. -/
def fill (kind : K) (len : Nat) (payload : Bytes) : Poll K T :=
  if payload.length < len then .pending (.payload kind len payload)
  else .ready ((decode kind payload).map some)

/-- A read returned the bytes of `chunk`, at least one. -/
def Reading.feed : Reading K → Bytes → Poll K T
  | .header hdr, chunk =>
    match hdr ++ chunk with
    | k :: l0 :: l1 :: l2 :: l3 :: _ =>
      match kindOf k with
      | .error e => .ready (.error e)
      | .ok kind =>
        let len := fromLeBytes l0 l1 l2 l3
        if maxPayload < len then .ready (.error (tooLarge len)) else fill decode kind len []
    | hdr => .pending (.header hdr)
  | .payload kind len body, chunk => fill decode kind len (body ++ chunk)

/-- A read returned zero bytes. -/
def Reading.close : Reading K → Except Error (Option T)
  | .header [] => .ok none
  | .header hdr =>
    .error (.protocol s!"connection closed mid-frame: partial header ({hdr.length}/5 bytes)")
  | .payload _ len body =>
    .error (.protocol
      s!"connection closed mid-frame: partial payload ({body.length}/{len} bytes)")

/-- One read from a stream whose bytes arrive in the fragments `s`: at most `room` bytes of the
first, none at its end. -/
def readSome (room : Nat) : List Bytes → Bytes × List Bytes
  | [] => ([], [])
  | c :: s => (c.take room, if c.length ≤ room then s else c.drop room :: s)

theorem readSome_flatten (room : Nat) (s : List Bytes) :
    (readSome room s).1 ++ (readSome room s).2.flatten = s.flatten := by
  cases s with
  | nil => rfl
  | cons c s =>
    simp only [readSome]
    split
    · rename_i h
      rw [List.take_of_length_le h, List.flatten_cons]
    · rw [List.flatten_cons, ← List.append_assoc, List.take_append_drop, List.flatten_cons]

/-- Run a read future to its result, and leave the rest of the stream. -/
def Reading.resume (st : Reading K) (s : List Bytes) : Except Error (Option T) × List Bytes :=
  match _h : readSome st.room s with
  | ([], s') => (st.close, s')
  | (b :: chunk, s') =>
    match st.feed kindOf decode (b :: chunk) with
    | .ready r => (r, s')
    | .pending st' => st'.resume s'
termination_by s.flatten.length
decreasing_by
  have hlen := congrArg List.length (readSome_flatten st.room s)
  simp only [_h, List.length_append, List.length_cons] at hlen
  omega

def readFrameAs (s : List Bytes) : Except Error (Option T) × List Bytes :=
  Reading.new.resume kindOf decode s

/-- Read one initiator frame; `none` on clean EOF. -/
def readExecFrame {E : Type} (X : ExecJson E) :
    List Bytes → Except Error (Option (ExecFrame E)) × List Bytes :=
  readFrameAs ExecKind.tryFrom (decodeExec X)

/-- Read one responder frame; `none` on clean EOF. -/
def readEventFrame (J : EventJson) : List Bytes → Except Error (Option EventFrame) × List Bytes :=
  readFrameAs EventKind.tryFrom (decodeEvent J)

def calls (read : List Bytes → Except Error (Option T) × List Bytes) :
    Nat → List Bytes → List (Except Error (Option T))
  | 0, _ => []
  | n + 1, s => (read s).1 :: calls read n (read s).2

/-- The frames returned before the first error or end of input. -/
def framesBefore : List (Except Error (Option T)) → List T
  | .ok (some f) :: rs => f :: framesBefore rs
  | _ => []

/-- The bytes an event reader has taken off the stream without returning a frame. -/
def consumed : Reading EventKind → Bytes
  | .header hdr => hdr
  | .payload kind len payload => kind.toByte :: leBytes len ++ payload

/-- The reader is inside the frame `f`: it has consumed a proper prefix of its bytes. -/
def Inside (J : EventJson) (f : EventFrame) (st : Reading EventKind) : Prop :=
  ∃ kind payload, eventPayload J f = .ok (kind, payload) ∧ payload.length ≤ maxPayload ∧
    match st with
    | .header hdr => hdr <+: wire J f ∧ hdr.length < 5
    | .payload k len p => k = kind ∧ len = payload.length ∧ p <+: payload ∧ p.length < len

theorem inside_new {f : EventFrame} (h : Fits J f) : Inside J f .new := by
  obtain ⟨kind, payload, hp, hl⟩ := h
  exact ⟨kind, payload, hp, hl, List.nil_prefix, by decide⟩

theorem fill_spec (hJ : J.Lawful) {f : EventFrame} {kind : EventKind} {payload p t : Bytes}
    (hp : eventPayload J f = .ok (kind, payload)) (hl : payload.length ≤ maxPayload)
    (hpt : p ++ t = payload) :
    (∃ st, fill (decodeEvent J) kind payload.length p = .pending st ∧ Inside J f st ∧
      consumed st = kind.toByte :: leBytes payload.length ++ p) ∨
    (fill (decodeEvent J) kind payload.length p = .ready (.ok (some f)) ∧ p = payload) := by
  by_cases h : p.length < payload.length
  · left
    refine ⟨.payload kind payload.length p, by rw [fill, if_pos h], ?_, rfl⟩
    exact ⟨kind, payload, hp, hl, rfl, rfl, ⟨t, hpt⟩, h⟩
  · right
    have hlen := congrArg List.length hpt
    rw [List.length_append] at hlen
    have ht : t = [] := List.length_eq_zero_iff.mp (by omega)
    have he : p = payload := by rw [← hpt, ht, List.append_nil]
    refine ⟨?_, he⟩
    rw [fill, if_neg h, he, decode_payload hJ hp]
    rfl

/-- One read inside a frame, of no more than the room, either leaves the reader inside it with
the bytes added to what it has consumed, or completes the frame. -/
theorem feed_spec (hJ : J.Lawful) {f : EventFrame} {st : Reading EventKind} (h : Inside J f st)
    (chunk rest : Bytes) (hr : chunk.length ≤ st.room)
    (hw : consumed st ++ (chunk ++ rest) = wire J f) :
    (∃ st', Reading.feed EventKind.tryFrom (decodeEvent J) st chunk = .pending st' ∧ Inside J f st' ∧
      consumed st' = consumed st ++ chunk) ∨
    (Reading.feed EventKind.tryFrom (decodeEvent J) st chunk = .ready (.ok (some f)) ∧ rest = []) := by
  obtain ⟨kind, payload, hp, hl, hst⟩ := h
  have hs : payload.length < 2 ^ 32 := by
    unfold maxPayload at hl
    omega
  rw [wire_of_payload hp hl] at hw
  cases st with
  | payload k len p =>
    obtain ⟨rfl, rfl, -, -⟩ := hst
    have hpt : (p ++ chunk) ++ rest = payload := by simpa [consumed] using hw
    have hf := fill_spec hJ hp hl hpt
    simp only [Reading.feed]
    rcases hf with ⟨st', he, hi, hc⟩ | ⟨he, hfull⟩
    · exact .inl ⟨st', he, hi, by rw [hc]; simp [consumed]⟩
    · refine .inr ⟨he, ?_⟩
      simpa [hfull] using hpt
  | header hdr =>
    have hlt : hdr.length < 5 := hst.2
    simp only [Reading.room] at hr
    have hw' : (hdr ++ chunk) ++ rest = kind.toByte :: leBytes payload.length ++ payload := by
      simpa [consumed] using hw
    have hle : (hdr ++ chunk).length ≤ 5 := by
      rw [List.length_append]
      omega
    generalize hb : hdr ++ chunk = b at hw' hle
    simp only [Reading.feed, consumed, hb]
    match b, hw', hle with
    | k :: l0 :: l1 :: l2 :: l3 :: tl, hw', hle =>
      -- the header is complete, and the room was exactly its rest
      obtain rfl : tl = [] := by
        simp only [List.length_cons] at hle
        exact List.eq_nil_of_length_eq_zero (by omega)
      simp only [leBytes, List.cons_append, List.nil_append, List.cons.injEq] at hw'
      obtain ⟨rfl, rfl, rfl, rfl, rfl, hrest⟩ := hw'
      have hm : ¬ maxPayload < payload.length := by omega
      have hf := fill_spec hJ hp hl (p := []) (t := payload) rfl
      simp only [EventKind.tryFrom_toByte, fromLeBytes_leBytes _ hs, if_neg hm]
      rcases hf with ⟨st', he, hi, hc⟩ | ⟨he, hfull⟩
      · exact .inl ⟨st', he, hi, hc⟩
      · exact .inr ⟨he, by rw [hrest, hfull]⟩
    | [], hw', _ | [_], hw', _ | [_, _], hw', _ | [_, _, _], hw', _ | [_, _, _, _], hw', _ =>
      refine .inl ⟨_, rfl, ⟨kind, payload, hp, hl, ⟨rest, ?_⟩, by simp⟩, rfl⟩
      rw [wire_of_payload hp hl, hw']

theorem close_new : (Reading.new : Reading K).close = .ok (none : Option T) := rfl

/-- Inside a frame there is room for at least one of its bytes, and never for more than it has. -/
theorem inside_room {f : EventFrame} {st : Reading EventKind} (h : Inside J f st) :
    0 < st.room ∧ (consumed st).length + st.room ≤ (wire J f).length := by
  obtain ⟨kind, payload, hp, hl, hst⟩ := h
  rw [wire_of_payload hp hl]
  cases st with
  | header hdr =>
    have hlt : hdr.length < 5 := hst.2
    simp only [consumed, Reading.room, List.length_append, List.length_cons, leBytes_length]
    omega
  | payload k len p =>
    obtain ⟨rfl, rfl, -, hlt⟩ := hst
    simp only [consumed, Reading.room, List.length_append, List.length_cons, leBytes_length]
    omega

end ShellProxy.FrameReader
