import ShellProxy.FrameReader
import Mathlib.Data.List.Forall2

/-! Frames of either direction on a byte stream: what the frame reader returns is a function of
the bytes alone, whatever the fragments they arrive in, and tells a cut stream from an ended one. -/
namespace ShellProxy.FrameStream
open Frame Codec EventStream FrameReader Framing
variable {K T : Type}

def Waits : Reading K → Prop
  | .header hdr => hdr.length < 5
  | .payload _ len body => body.length < len

section
variable (kindOf : UInt8 → Except Error K) (decode : K → Bytes → Except Error T)

/-- What the payload loop makes of all bytes up to the end of the stream, and what it leaves. -/
def bodyOf (kind : K) (len : Nat) (b : Bytes) : Except Error (Option T) × Bytes :=
  if b.length < len then ((Reading.payload kind len b).close, [])
  else ((decode kind (b.take len)).map some, b.drop len)

/-- What the reader makes of all bytes up to the end of the stream, and what it leaves. -/
def frameOf (b : Bytes) : Except Error (Option T) × Bytes :=
  match b with
  | k :: l0 :: l1 :: l2 :: l3 :: body =>
    match kindOf k with
    | .error e => (.error e, body)
    | .ok kind =>
      let len := fromLeBytes l0 l1 l2 l3
      if maxPayload < len then (.error (tooLarge len), body) else bodyOf decode kind len body
  | hdr => ((Reading.header hdr : Reading K).close, [])

/-- The same for a reader that has taken some bytes already. -/
def whole : Reading K → Bytes → Except Error (Option T) × Bytes
  | .header hdr, b => frameOf kindOf decode (hdr ++ b)
  | .payload kind len body, b => bodyOf decode kind len (body ++ b)

variable {kindOf decode}

theorem frameOf_short {b : Bytes} (h : b.length < 5) :
    frameOf kindOf decode b = ((Reading.header b : Reading K).close, []) := by
  match b, h with
  | [], _ | [_], _ | [_, _], _ | [_, _, _], _ | [_, _, _, _], _ => rfl

theorem whole_nil {st : Reading K} (h : Waits st) : whole kindOf decode st [] = (st.close, []) := by
  cases st with
  | header hdr =>
    rw [whole, List.append_nil, frameOf_short h]
  | payload kind len body =>
    simp only [Waits] at h
    rw [whole, bodyOf, List.append_nil, if_pos h]

variable (kindOf decode) in
theorem fill_whole (kind : K) (len : Nat) (body t : Bytes) (h : body.length ≤ len) :
    match fill decode kind len body with
    | .ready r => bodyOf decode kind len (body ++ t) = (r, t)
    | .pending st => Waits st ∧ whole kindOf decode st t = bodyOf decode kind len (body ++ t) := by
  unfold fill
  by_cases hlt : body.length < len
  · rw [if_pos hlt]
    exact ⟨hlt, rfl⟩
  · obtain rfl : len = body.length := by omega
    rw [if_neg hlt]
    simp only [bodyOf, List.length_append, List.take_left, List.drop_left]
    rw [if_neg (by omega)]

variable (kindOf decode) in
theorem feed_whole {st : Reading K} (h : Waits st) (chunk t : Bytes) (hr : chunk.length ≤ st.room) :
    match st.feed kindOf decode chunk with
    | .ready r => whole kindOf decode st (chunk ++ t) = (r, t)
    | .pending st' =>
      Waits st' ∧ whole kindOf decode st' t = whole kindOf decode st (chunk ++ t) := by
  cases st with
  | payload kind len body =>
    have hlen : (body ++ chunk).length ≤ len := by
      simp only [Waits] at h
      simp only [Reading.room] at hr
      rw [List.length_append]
      omega
    have hf := fill_whole kindOf decode kind len (body ++ chunk) t hlen
    simpa only [Reading.feed, whole, List.append_assoc] using hf
  | header hdr =>
    have hle : (hdr ++ chunk).length ≤ 5 := by
      simp only [Waits] at h
      simp only [Reading.room] at hr
      rw [List.length_append]
      omega
    rw [whole, ← List.append_assoc]
    simp only [Reading.feed]
    generalize hdr ++ chunk = b at hle
    rcases b with _ | ⟨k, _ | ⟨l0, _ | ⟨l1, _ | ⟨l2, _ | ⟨l3, tl⟩⟩⟩⟩⟩
    iterate 5 exact ⟨by simp [Waits], rfl⟩
    -- the header is complete and nothing beyond it was read
    obtain rfl : tl = [] := by
      simp only [List.length_cons] at hle
      exact List.eq_nil_of_length_eq_zero (by omega)
    cases hk : kindOf k with
    | error e => simp [frameOf, hk]
    | ok kind =>
      by_cases hm : maxPayload < fromLeBytes l0 l1 l2 l3
      · simp [frameOf, hk, hm]
      · have hf := fill_whole kindOf decode kind
          (fromLeBytes l0 l1 l2 l3) [] t (Nat.zero_le _)
        have hfr : frameOf kindOf decode (k :: l0 :: l1 :: l2 :: l3 :: t) =
            bodyOf decode kind (fromLeBytes l0 l1 l2 l3) t := by
          simp only [frameOf, hk, if_neg hm]
        simp only [List.cons_append, List.nil_append, hfr, hk, if_neg hm]
        exact hf

theorem waits_room {st : Reading K} (h : Waits st) : 0 < st.room := by
  cases st with
  | header hdr =>
    simp only [Waits] at h
    simp only [Reading.room]
    omega
  | payload kind len body =>
    simp only [Waits] at h
    simp only [Reading.room]
    omega

theorem readSome_some {room : Nat} (hr : 0 < room) {s : List Bytes} (hs : ∀ c ∈ s, c ≠ []) :
    (s = [] ∨ (readSome room s).1 ≠ []) ∧ (readSome room s).1.length ≤ room ∧
      ∀ c ∈ (readSome room s).2, c ≠ [] := by
  cases s with
  | nil => exact ⟨.inl rfl, Nat.zero_le _, by simp [readSome]⟩
  | cons c s =>
    have hc : c ≠ [] := hs c List.mem_cons_self
    refine ⟨.inr ?_, List.length_take_le _ _, ?_⟩
    · simp only [readSome, ne_eq, List.take_eq_nil_iff, not_or]
      exact ⟨Nat.pos_iff_ne_zero.mp hr, hc⟩
    · intro x hx
      simp only [readSome] at hx
      split at hx
      · exact hs x (List.mem_cons_of_mem c hx)
      · rename_i hlt
        rcases List.mem_cons.mp hx with rfl | hx
        · simp only [ne_eq, List.drop_eq_nil_iff]
          omega
        · exact hs x (List.mem_cons_of_mem c hx)

theorem resume_end {st : Reading K} {s s' : List Bytes} (h : readSome st.room s = ([], s')) :
    st.resume kindOf decode s = (st.close, s') := by
  rw [Reading.resume]
  split
  · simp_all
  · simp_all

theorem resume_read {st : Reading K} {s s' : List Bytes} {b : UInt8} {chunk : Bytes}
    (h : readSome st.room s = (b :: chunk, s')) :
    st.resume kindOf decode s =
      match st.feed kindOf decode (b :: chunk) with
      | .ready r => (r, s')
      | .pending st' => st'.resume kindOf decode s' := by
  rw [Reading.resume]
  split
  · simp_all
  · rename_i b' chunk' s'' hread
    obtain ⟨⟨rfl, rfl⟩, rfl⟩ : (b = b' ∧ chunk = chunk') ∧ s' = s'' := by simpa [h] using hread
    rfl

/-- The fragments a stream arrives in do not matter. -/
theorem resume_eq (st : Reading K) (s : List Bytes) (h : Waits st) (hs : ∀ c ∈ s, c ≠ []) :
    (st.resume kindOf decode s).1 = (whole kindOf decode st s.flatten).1 ∧
      (st.resume kindOf decode s).2.flatten = (whole kindOf decode st s.flatten).2 ∧
      ∀ c ∈ (st.resume kindOf decode s).2, c ≠ [] := by
  induction st, s using Reading.resume.induct kindOf decode with
  | case1 st s s' hread =>
    obtain ⟨hsome, -, hne⟩ := readSome_some (waits_room h) hs
    have hnil : s = [] := by
      rcases hsome with hnil | hb
      · exact hnil
      · rw [hread] at hb
        exact absurd rfl hb
    subst hnil
    obtain rfl : [] = s' := congrArg Prod.snd hread
    rw [resume_end hread, List.flatten_nil, whole_nil h]
    exact ⟨rfl, rfl, by simp⟩
  | case2 st s b chunk s' hread r hfeed =>
    obtain ⟨-, hlen, hne⟩ := readSome_some (waits_room h) hs
    have hflat := readSome_flatten st.room s
    rw [hread] at hlen hne hflat
    have hw := feed_whole kindOf decode h (b :: chunk) s'.flatten hlen
    simp only [hfeed] at hw
    rw [resume_read hread, ← hflat, hw]
    simp only [hfeed]
    exact ⟨trivial, trivial, hne⟩
  | case3 st s b chunk s' hread st' hfeed ih =>
    obtain ⟨-, hlen, hne⟩ := readSome_some (waits_room h) hs
    have hflat := readSome_flatten st.room s
    rw [hread] at hlen hne hflat
    have hw := feed_whole kindOf decode h (b :: chunk) s'.flatten hlen
    simp only [hfeed] at hw
    rw [resume_read hread, ← hflat, ← hw.2]
    simp only [hfeed]
    exact ih hw.1 hne

variable (kindOf decode) in
theorem readFrameAs_eq (s : List Bytes) (hs : ∀ c ∈ s, c ≠ []) :
    (readFrameAs kindOf decode s).1 = (frameOf kindOf decode s.flatten).1 ∧
      (readFrameAs kindOf decode s).2.flatten = (frameOf kindOf decode s.flatten).2 ∧
      ∀ c ∈ (readFrameAs kindOf decode s).2, c ≠ [] :=
  resume_eq .new s (by simp [Waits, Reading.new]) hs

end

/-- One direction of the protocol: its kinds, and how a frame becomes a payload and back. -/
structure Format (K T : Type) where
  toByte : K → UInt8
  kindOf : UInt8 → Except Error K
  payload : T → Except Error (K × Bytes)
  decode : K → Bytes → Except Error T
  kindOf_toByte : ∀ k, kindOf (toByte k) = .ok k
  decode_payload : ∀ f k p, payload f = .ok (k, p) → decode k p = .ok f

theorem decode_execPayload {E : Type} {X : ExecJson E} (hX : X.Lawful) (f : ExecFrame E)
    (kind : ExecKind) (payload : Bytes) (h : execPayload X f = .ok (kind, payload)) :
    decodeExec X kind payload = .ok f := by
  cases f with
  | stdinData d =>
    cases h
    rfl
  | stdinEof =>
    cases h
    rfl
  | ping =>
    cases h
    rfl
  | exec req =>
    cases he : X.exec.toVec req with
    | error e => simp [execPayload, toVec, he, Except.mapError, Except.map] at h
    | ok b =>
      simp only [execPayload, toVec, he, Except.mapError, Except.map, Except.ok.injEq,
        Prod.mk.injEq] at h
      obtain ⟨rfl, rfl⟩ := h
      simp [decodeExec, json, hX.exec req b he, Except.mapError, Except.map]
  | signal s =>
    cases he : X.signal.toVec s with
    | error e => simp [execPayload, toVec, he, Except.mapError, Except.map] at h
    | ok b =>
      simp only [execPayload, toVec, he, Except.mapError, Except.map, Except.ok.injEq,
        Prod.mk.injEq] at h
      obtain ⟨rfl, rfl⟩ := h
      simp [decodeExec, json, hX.signal s b he, Except.mapError, Except.map]

def execFormat {E : Type} (X : ExecJson E) (hX : X.Lawful) : Format ExecKind (ExecFrame E) where
  toByte := ExecKind.toByte
  kindOf := ExecKind.tryFrom
  payload := execPayload X
  decode := decodeExec X
  kindOf_toByte := ExecKind.tryFrom_toByte
  decode_payload := decode_execPayload hX

def eventFormat (J : EventJson) (hJ : J.Lawful) : Format EventKind EventFrame where
  toByte := EventKind.toByte
  kindOf := EventKind.tryFrom
  payload := eventPayload J
  decode := decodeEvent J
  kindOf_toByte := EventKind.tryFrom_toByte
  decode_payload _ _ _ h := decode_payload hJ h

namespace Format
variable (F : Format K T)

def encode (f : T) : Except Error Bytes := do
  let (kind, payload) ← F.payload f
  encodeRaw (F.toByte kind) payload

/-- Kind, length and payload as they stand on the wire. -/
def bytes (kind : K) (payload : Bytes) : Bytes :=
  F.toByte kind :: leBytes payload.length ++ payload

variable {F}

theorem encode_eq_ok {f : T} {b : Bytes} (h : F.encode f = .ok b) :
    ∃ kind payload, F.payload f = .ok (kind, payload) ∧ payload.length < 2 ^ 32 ∧
      b = F.bytes kind payload := by
  unfold encode at h
  cases hp : F.payload f with
  | error e =>
    rw [hp] at h
    cases h
  | ok kp =>
    obtain ⟨kind, payload⟩ := kp
    rw [hp] at h
    by_cases hl : payload.length < 2 ^ 32
    · refine ⟨kind, payload, rfl, hl, ?_⟩
      simp only [bind, Except.bind, encodeRaw, frameHeader_ok (F.toByte kind) hl, pure, Except.pure,
        Except.ok.injEq] at h
      exact h.symm
    · simp only [bind, Except.bind, encodeRaw, frameHeader, if_neg hl] at h
      cases h

theorem encode_ok {f : T} {kind : K} {payload : Bytes} (h : F.payload f = .ok (kind, payload))
    (hl : payload.length < 2 ^ 32) : F.encode f = .ok (F.bytes kind payload) := by
  simp only [encode, h, bind, Except.bind, encodeRaw, frameHeader_ok (F.toByte kind) hl]
  rfl

theorem frameOf_bytes (kind : K) (payload t : Bytes) (hl : payload.length < 2 ^ 32) :
    frameOf F.kindOf F.decode (F.bytes kind payload ++ t) =
      if maxPayload < payload.length then (.error (tooLarge payload.length), payload ++ t)
      else bodyOf F.decode kind payload.length (payload ++ t) := by
  simp only [bytes, leBytes, List.cons_append, List.nil_append, frameOf, F.kindOf_toByte,
    fromLeBytes_leBytes _ hl]

theorem frameOf_whole {f : T} {kind : K} {payload : Bytes} (h : F.payload f = .ok (kind, payload))
    (hl : payload.length ≤ maxPayload) (t : Bytes) :
    frameOf F.kindOf F.decode (F.bytes kind payload ++ t) = (.ok (some f), t) := by
  have hs : payload.length < 2 ^ 32 := by
    unfold maxPayload at hl
    omega
  rw [frameOf_bytes kind payload t hs, if_neg (by omega), bodyOf,
    if_neg (by rw [List.length_append]; omega), List.take_left, List.drop_left,
    F.decode_payload f kind payload h]
  rfl

theorem frameOf_cut (kind : K) (payload : Bytes) (hl : payload.length ≤ maxPayload) {k : Nat}
    (h0 : 0 < k) (hk : k < (F.bytes kind payload).length) :
    ∃ m, (frameOf F.kindOf F.decode ((F.bytes kind payload).take k)).1 = .error (.protocol m) := by
  have hs : payload.length < 2 ^ 32 := by
    unfold maxPayload at hl
    omega
  have hlen : (F.bytes kind payload).length = 5 + payload.length := by
    simp only [bytes, List.length_append, List.length_cons, leBytes_length]
  by_cases h5 : k < 5
  · obtain ⟨a, hdr, hb⟩ : ∃ a hdr, (F.bytes kind payload).take k = a :: hdr := by
      apply List.exists_cons_of_length_pos
      rw [List.length_take]
      omega
    have hlt : (a :: hdr).length < 5 := by
      rw [← hb, List.length_take]
      omega
    rw [hb, frameOf_short hlt]
    exact ⟨_, rfl⟩
  · have hb : (F.bytes kind payload).take k =
        F.toByte kind :: leBytes payload.length ++ payload.take (k - 5) := by
      have h5l : (F.toByte kind :: leBytes payload.length).length = 5 := rfl
      rw [bytes, List.take_append, h5l, List.take_of_length_le (by omega)]
    have hlt : (payload.take (k - 5)).length < payload.length := by
      rw [List.length_take]
      omega
    simp only [hb, leBytes, List.cons_append, List.nil_append, frameOf, F.kindOf_toByte,
      fromLeBytes_leBytes _ hs, bodyOf, if_neg (by omega : ¬ maxPayload < payload.length), if_pos hlt]
    exact ⟨_, rfl⟩

def Small (F : Format K T) (f : T) : Prop :=
  ∃ kind payload, F.payload f = .ok (kind, payload) ∧ payload.length ≤ maxPayload

/-- Reads after the first `k` bytes of encoded frames: the whole frames among them, and then the
end of the stream or an error. -/
theorem calls_cut {frames : List T} {bytes : List Bytes}
    (hb : List.Forall₂ (fun f b => F.encode f = .ok b) frames bytes) (hf : ∀ f ∈ frames, F.Small f)
    (k : Nat) (hk : k ≤ bytes.flatten.length) (s : List Bytes) (hs : ∀ c ∈ s, c ≠ [])
    (hcut : s.flatten = bytes.flatten.take k) :
    ∃ n last, calls (readFrameAs F.kindOf F.decode) (n + 1) s =
        (frames.take n).map (fun f => .ok (some f)) ++ [last] ∧
      n ≤ frames.length ∧ (bytes.take n).flatten.length ≤ k ∧
      (n < frames.length → k < (bytes.take (n + 1)).flatten.length) ∧
      ((bytes.take n).flatten.length = k → last = .ok none) ∧
      ((bytes.take n).flatten.length < k → ∃ m, last = .error (.protocol m)) := by
  induction hb generalizing k s with
  | nil =>
    obtain rfl : k = 0 := by simpa using hk
    have hread := (readFrameAs_eq F.kindOf F.decode s hs).1
    rw [hcut] at hread
    refine ⟨0, .ok none, ?_, Nat.zero_le _, Nat.le_refl _, by simp, fun _ => rfl, by simp⟩
    simp only [calls, hread]
    rfl
  | @cons f b frames bytes he _ ih =>
    obtain ⟨kind, payload, hp, hl⟩ := hf f List.mem_cons_self
    have hs32 : payload.length < 2 ^ 32 := by
      unfold maxPayload at hl
      omega
    obtain rfl : F.bytes kind payload = b := Except.ok.inj ((encode_ok hp hs32).symm.trans he)
    have hread := readFrameAs_eq F.kindOf F.decode s hs
    rw [hcut, List.flatten_cons] at hread
    by_cases hlt : k < (F.bytes kind payload).length
    · rw [List.take_append_of_le_length (Nat.le_of_lt hlt)] at hread
      refine ⟨0, _, rfl, Nat.zero_le _, Nat.zero_le _, fun _ => by simpa using hlt, ?_, ?_⟩
      · intro h0
        obtain rfl : k = 0 := h0.symm
        rw [hread.1]
        rfl
      · intro h0
        obtain ⟨m, hm⟩ := frameOf_cut kind payload hl h0 hlt
        exact ⟨m, hread.1.trans hm⟩
    · have hsplit : (F.bytes kind payload ++ bytes.flatten).take k =
          F.bytes kind payload ++ bytes.flatten.take (k - (F.bytes kind payload).length) := by
        rw [List.take_append, List.take_of_length_le (by omega)]
      rw [hsplit, frameOf_whole hp hl] at hread
      obtain ⟨hfirst, hrest, hne⟩ := hread
      rw [List.flatten_cons, List.length_append] at hk
      obtain ⟨n, last, hc, hn, hle, hnext, hend, herr⟩ :=
        ih (fun g hg => hf g (List.mem_cons_of_mem f hg)) (k - (F.bytes kind payload).length)
          (by omega) _ hne hrest
      refine ⟨n + 1, last, ?_, ?_, ?_, ?_, ?_, ?_⟩
      · rw [calls, hc, hfirst]
        rfl
      · simpa using hn
      · simp only [List.take_succ_cons, List.flatten_cons, List.length_append]
        omega
      · intro h
        have := hnext (by simpa using h)
        simp only [List.take_succ_cons, List.flatten_cons, List.length_append] at this ⊢
        omega
      · intro h
        simp only [List.take_succ_cons, List.flatten_cons, List.length_append] at h
        exact hend (by omega)
      · intro h
        simp only [List.take_succ_cons, List.flatten_cons, List.length_append] at h
        exact herr (by omega)

end Format

/-- The first `k` bytes are whole frames. -/
def Boundary (bytes : List Bytes) (k : Nat) : Prop := ∃ m, (bytes.take m).flatten.length = k

theorem take_flatten_le (bytes : List Bytes) {m n : Nat} (h : m ≤ n) :
    (bytes.take m).flatten.length ≤ (bytes.take n).flatten.length :=
  (List.take_prefix_take_left h).flatten.length_le

/-- What repeated reads of the first `k` bytes of encoded frames, in any fragments, return: the `n`
frames that lie wholly inside, then the end of the stream at a boundary and an error elsewhere. -/
def TellsCuts (encode : T → Except Error Bytes) (payload : T → Except Error (K × Bytes))
    (read : List Bytes → Except Error (Option T) × List Bytes) : Prop :=
  ∀ (frames : List T) (bytes : List Bytes),
    (∀ f ∈ frames, ∃ kind p, payload f = .ok (kind, p) ∧ p.length ≤ maxPayload) →
    List.Forall₂ (fun f b => encode f = .ok b) frames bytes →
    ∀ k ≤ bytes.flatten.length, ∀ s : List Bytes, (∀ c ∈ s, c ≠ []) →
      s.flatten = bytes.flatten.take k →
      ∃ n last, n ≤ frames.length ∧ (bytes.take n).flatten.length ≤ k ∧
        (n < frames.length → k < (bytes.take (n + 1)).flatten.length) ∧
        calls read (n + 1) s = (frames.take n).map (fun f => .ok (some f)) ++ [last] ∧
        (Boundary bytes k → last = .ok none) ∧
        (¬ Boundary bytes k → ∃ m, last = .error (.protocol m))

theorem Format.tellsCuts (F : Format K T) :
    TellsCuts F.encode F.payload (readFrameAs F.kindOf F.decode) := by
  intro frames bytes hf hb k hk s hs hcut
  obtain ⟨n, last, hc, hn, hle, hnext, hend, herr⟩ := Format.calls_cut hb hf k hk s hs hcut
  refine ⟨n, last, hn, hle, hnext, hc, ?_, ?_⟩
  · rintro ⟨m, hm⟩
    apply hend
    rcases Nat.lt_or_ge n m with hlt | hge
    · have hmono := take_flatten_le bytes (Nat.succ_le_of_lt hlt)
      by_cases hn' : n < frames.length
      · have hgt := hnext hn'
        rw [Nat.succ_eq_add_one] at hmono
        omega
      · have hall : bytes.take n = bytes := by
          apply List.take_of_length_le
          have hlen := List.Forall₂.length_eq hb
          omega
        rw [hall] at hle ⊢
        omega
    · have hmono := take_flatten_le bytes hge
      omega
  · intro hno
    apply herr
    have hne : (bytes.take n).flatten.length ≠ k := fun h => hno ⟨n, h⟩
    omega

/-- Exec and event streams alike. -/
theorem cut_is_told :
    (∀ (E : Type) (X : ExecJson E), X.Lawful →
      TellsCuts (encodeExecFrame X) (execPayload X) (readExecFrame X)) ∧
    (∀ J : EventJson, J.Lawful →
      TellsCuts (encodeEventFrame J) (eventPayload J) (readEventFrame J)) :=
  ⟨fun _ X hX => (execFormat X hX).tellsCuts, fun J hJ => (eventFormat J hJ).tellsCuts⟩

def oneJson (req : ExecRequest) (text : String) : ExecJson ExecRequest where
  exec := .single req text
  signal := .single .int "\"int\""

theorem oneJson_lawful (req : ExecRequest) (text : String) : (oneJson req text).Lawful where
  exec := single_lawful req text
  signal := single_lawful Signal.int "\"int\""

def longRequest (n : Nat) : ExecRequest := ⟨"h", String.ofList (List.replicate n 'a'), [], none, none, none⟩
def longRequestJson (n : Nat) : String :=
  "\x7b\"host\":\"h\",\"command\":\"" ++ String.ofList (List.replicate n 'a') ++
    "\",\"args\":[],\"cwd\":null,\"timeout_ms\":null,\"session\":null\x7d"

def sampleFrames : List (ExecFrame ExecRequest) := [.stdinData [104, 105], .stdinEof]
def sampleBytes : List Bytes := [[2, 2, 0, 0, 0, 104, 105], [3, 0, 0, 0, 0]]

/-- They are cut inside the second frame. -/
theorem cut_is_told_sample :
    ∃ n last, n ≤ sampleFrames.length ∧ (sampleBytes.take n).flatten.length ≤ 9 ∧
      (n < sampleFrames.length → 9 < (sampleBytes.take (n + 1)).flatten.length) ∧
      calls (readExecFrame (oneJson (longRequest 1) (longRequestJson 1))) (n + 1)
          [[2, 2, 0], [0, 0, 104, 105, 3, 0]] =
        (sampleFrames.take n).map (fun f => .ok (some f)) ++ [last] ∧
      (Boundary sampleBytes 9 → last = .ok none) ∧
      (¬ Boundary sampleBytes 9 → ∃ m, last = .error (.protocol m)) :=
  cut_is_told.1 ExecRequest (oneJson (longRequest 1) (longRequestJson 1)) (oneJson_lawful _ _)
    sampleFrames sampleBytes
    (by
      simp only [sampleFrames, List.mem_cons, List.not_mem_nil, or_false, forall_eq_or_imp, forall_eq]
      exact ⟨⟨_, _, rfl, by decide⟩, ⟨_, _, rfl, by decide⟩⟩)
    (.cons rfl (.cons rfl .nil)) 9 (by decide) [[2, 2, 0], [0, 0, 104, 105, 3, 0]] (by decide) rfl

/-! ### A reader behind a writer -/

namespace Format
variable (F : Format K T)

def frameBytes (f : T) : Bytes :=
  match F.payload f with
  | .ok (kind, payload) => F.bytes kind payload
  | .error _ => []

def stream (fs : List T) : Bytes := fs.flatMap F.frameBytes

/-- A read future that has to return the frames `fs`, of which the bytes `b` are still to come. -/
def Follows (st : Reading K) (b : Bytes) : List T → Prop
  | [] => st = .new ∧ b = []
  | f :: fs => ∀ t, whole F.kindOf F.decode st (b ++ t) = (.ok (some f), F.stream fs ++ t)

variable {F}

theorem stream_cons (f : T) (fs : List T) : F.stream (f :: fs) = F.frameBytes f ++ F.stream fs := rfl

theorem stream_append (fs gs : List T) : F.stream (fs ++ gs) = F.stream fs ++ F.stream gs := by
  simp [stream]

theorem frameBytes_of_payload {f : T} {kind : K} {payload : Bytes}
    (h : F.payload f = .ok (kind, payload)) : F.frameBytes f = F.bytes kind payload := by
  simp only [frameBytes, h]

theorem Small.encode {f : T} (h : F.Small f) : F.encode f = .ok (F.frameBytes f) := by
  obtain ⟨kind, payload, hp, hl⟩ := h
  rw [frameBytes_of_payload hp]
  refine encode_ok hp ?_
  unfold maxPayload at hl
  omega

theorem follows_new {fs : List T} (h : ∀ f ∈ fs, F.Small f) : F.Follows .new (F.stream fs) fs := by
  cases fs with
  | nil => exact ⟨rfl, rfl⟩
  | cons f fs =>
    intro t
    obtain ⟨kind, payload, hp, hl⟩ := h f List.mem_cons_self
    have hw := frameOf_whole hp hl (F.stream fs ++ t)
    rw [stream_cons, frameBytes_of_payload hp, List.append_assoc]
    exact hw

theorem Follows.append {st : Reading K} {b : Bytes} {fs gs : List T} (h : F.Follows st b fs)
    (hg : ∀ g ∈ gs, F.Small g) : F.Follows st (b ++ F.stream gs) (fs ++ gs) := by
  cases fs with
  | nil =>
    obtain ⟨rfl, rfl⟩ := h
    exact follows_new hg
  | cons f fs =>
    intro t
    have hw := h (F.stream gs ++ t)
    have hs : F.stream (fs ++ gs) ++ t = F.stream fs ++ (F.stream gs ++ t) := by
      rw [stream_append, List.append_assoc]
    change whole F.kindOf F.decode st (b ++ F.stream gs ++ t) = (.ok (some f), F.stream (fs ++ gs) ++ t)
    rw [List.append_assoc, hw, hs]

theorem Follows.feed {st : Reading K} {chunk b : Bytes} {fs : List T} (h : F.Follows st (chunk ++ b) fs)
    (hw : Waits st) (hne : chunk ≠ []) (hr : chunk.length ≤ st.room) :
    match st.feed F.kindOf F.decode chunk with
    | .pending st' => Waits st' ∧ F.Follows st' b fs
    | .ready r => ∃ f gs, fs = f :: gs ∧ r = .ok (some f) ∧ b = F.stream gs := by
  cases fs with
  | nil =>
    have hnil := (List.append_eq_nil_iff.mp h.2).1
    exact absurd hnil hne
  | cons f gs =>
    have hfeed := fun t => feed_whole F.kindOf F.decode hw chunk (b ++ t) hr
    cases hres : st.feed F.kindOf F.decode chunk with
    | pending st' =>
      simp only [hres] at hfeed ⊢
      refine ⟨(hfeed []).1, fun t => ?_⟩
      rw [(hfeed t).2, ← List.append_assoc]
      exact h t
    | ready r =>
      simp only [hres] at hfeed ⊢
      have hall := h []
      rw [List.append_assoc, hfeed [], List.append_nil, List.append_nil, Prod.mk.injEq] at hall
      exact ⟨f, gs, rfl, hall.1, hall.2⟩

end Format

/-! ### Frames the encoder accepts and the readers refuse -/

theorem writeExecFrame_eq {E : Type} {X : ExecJson E} (w : Bytes) (f : ExecFrame E) :
    writeExecFrame X w f = (encodeExecFrame X f).map (w ++ ·) := by
  cases f with
  | stdinData d =>
    simp only [writeExecFrame]
    by_cases h : packedPayloadMax ≤ d.length
    · rw [if_pos h, writeRaw_eq]
      rfl
    · rw [if_neg h]
  | exec req => rfl
  | stdinEof => rfl
  | signal s => rfl
  | ping => rfl

/-- The bytes of a frame, encoded or written behind others, are read back as the frame. -/
def ExecReadsBack {E : Type} (X : ExecJson E) (f : ExecFrame E) : Prop :=
  ∀ b, (encodeExecFrame X f = .ok b ∨ ∃ w, writeExecFrame X w f = .ok (w ++ b)) →
    ∀ s : List Bytes, (∀ c ∈ s, c ≠ []) → s.flatten = b → (readExecFrame X s).1 = .ok (some f)

def EventReadsBack (J : EventJson) (f : EventFrame) : Prop :=
  ∀ b, (encodeEventFrame J f = .ok b ∨ ∃ w, writeEventFrame J w f = .ok (w ++ b)) →
    (∀ s : List Bytes, (∀ c ∈ s, c ≠ []) → s.flatten = b → (readEventFrame J s).1 = .ok (some f)) ∧
      ∃ d, EventDecoder.new.push J b = .ok ([f], d)

/-- The payload is within the limit of the readers, or beyond what a header can say. -/
def Sized (payload : Except Error (K × Bytes)) : Prop :=
  ∀ kind p, payload = .ok (kind, p) → p.length ≤ maxPayload ∨ 2 ^ 32 ≤ p.length

theorem map_append_ok {x : Except Error Bytes} {w b : Bytes} (h : x.map (w ++ ·) = .ok (w ++ b)) :
    x = .ok b := by
  cases x with
  | error e => cases h
  | ok c => simpa [Except.map] using h

namespace Format
variable {F : Format K T}

theorem encoded_cases {f : T} {b : Bytes} (h : F.encode f = .ok b) (hs : Sized (F.payload f)) :
    ∃ kind payload, F.payload f = .ok (kind, payload) ∧ payload.length ≤ maxPayload ∧
      b = F.bytes kind payload := by
  obtain ⟨kind, payload, hp, hl, hb⟩ := encode_eq_ok h
  refine ⟨kind, payload, hp, ?_, hb⟩
  rcases hs kind payload hp with hle | hge
  · exact hle
  · omega

theorem reads_back {f : T} {b : Bytes} (h : F.encode f = .ok b) (hsz : Sized (F.payload f))
    (s : List Bytes) (hs : ∀ c ∈ s, c ≠ []) (hb : s.flatten = b) :
    (readFrameAs F.kindOf F.decode s).1 = .ok (some f) := by
  obtain ⟨kind, payload, hp, hl, rfl⟩ := encoded_cases h hsz
  have hw := frameOf_whole hp hl []
  rw [List.append_nil] at hw
  rw [(readFrameAs_eq F.kindOf F.decode s hs).1, hb, hw]

theorem sized_of_reads_back {f : T}
    (h : ∀ b, F.encode f = .ok b → ∀ s : List Bytes, (∀ c ∈ s, c ≠ []) → s.flatten = b →
      (readFrameAs F.kindOf F.decode s).1 = .ok (some f)) : Sized (F.payload f) := by
  intro kind payload hp
  by_contra hno
  obtain ⟨hmax, hl⟩ := not_or.mp hno
  rw [Nat.not_le] at hmax hl
  have hne : ∀ c ∈ [F.bytes kind payload], c ≠ [] := by simp [bytes]
  have hread := h _ (encode_ok hp hl) [F.bytes kind payload] hne (by simp)
  have hw := frameOf_bytes (F := F) kind payload [] hl
  rw [List.append_nil, if_pos hmax] at hw
  rw [(readFrameAs_eq F.kindOf F.decode _ hne).1, List.flatten_singleton, hw] at hread
  cases hread

end Format

theorem execReadsBack_iff {E : Type} {X : ExecJson E} (hX : X.Lawful) (f : ExecFrame E) :
    ExecReadsBack X f ↔ Sized (execPayload X f) := by
  constructor
  · intro h
    exact Format.sized_of_reads_back (F := execFormat X hX) fun b hb s hs hf => h b (.inl hb) s hs hf
  · intro hsz b hb s hs hf
    have he : encodeExecFrame X f = .ok b := by
      rcases hb with he | ⟨w, hw⟩
      · exact he
      · rw [writeExecFrame_eq] at hw
        exact map_append_ok hw
    exact Format.reads_back (F := execFormat X hX) he hsz s hs hf

theorem eventReadsBack_iff {J : EventJson} (hJ : J.Lawful) (f : EventFrame) :
    EventReadsBack J f ↔ Sized (eventPayload J f) := by
  constructor
  · intro h
    exact Format.sized_of_reads_back (F := eventFormat J hJ)
      fun b hb s hs hf => (h b (.inl hb)).1 s hs hf
  · intro hsz b hb
    have he : encodeEventFrame J f = .ok b := by
      rcases hb with he | ⟨w, hw⟩
      · exact he
      · rw [writeEventFrame_eq] at hw
        exact map_append_ok hw
    refine ⟨fun s hs hf => Format.reads_back (F := eventFormat J hJ) he hsz s hs hf, .new, ?_⟩
    obtain ⟨kind, payload, hp, hl, -⟩ := Format.encoded_cases (F := eventFormat J hJ) he hsz
    have hf : Fits J f := ⟨kind, payload, hp, hl⟩
    obtain rfl : wire J f = b := Except.ok.inj ((encode_of_fits hf).symm.trans he)
    simpa using push_whole hJ [f] (by simpa using hf)

/-- The encoders check the width of the length field, the readers a limit of their own. -/
theorem encoded_reads_back_iff {E : Type} (X : ExecJson E) (hX : X.Lawful) (J : EventJson)
    (hJ : J.Lawful) :
    (∀ f, ExecReadsBack X f ↔ Sized (execPayload X f)) ∧
      (∀ f, EventReadsBack J f ↔ Sized (eventPayload J f)) :=
  ⟨fun f => execReadsBack_iff hX f, fun f => eventReadsBack_iff hJ f⟩

theorem encoded_reads_back_iff_sample :
    ExecReadsBack (oneJson (longRequest 1) (longRequestJson 1)) (.stdinData [104, 105]) ∧
      EventReadsBack sampleJson (.stdout [104, 105]) := by
  have hiff := encoded_reads_back_iff (oneJson (longRequest 1) (longRequestJson 1))
    (oneJson_lawful _ _) sampleJson sampleJson_lawful
  refine ⟨(hiff.1 _).mpr ?_, (hiff.2 _).mpr ?_⟩
  · rintro kind p hp
    obtain ⟨rfl, rfl⟩ := Prod.mk.inj (Except.ok.inj hp)
    exact .inl (by decide)
  · rintro kind p hp
    obtain ⟨rfl, rfl⟩ := Prod.mk.inj (Except.ok.inj hp)
    exact .inl (by decide)

theorem length_around (n : Nat) (a b : String) (ha : a.toList.length = 23)
    (hb : b.toList.length = 56) :
    (a ++ String.ofList (List.replicate n 'a') ++ b).toList.length = 23 + n + 56 := by
  simp only [String.toList_append, String.toList_ofList, List.length_append, List.length_replicate,
    ha, hb]

theorem longRequestJson_length (n : Nat) : (longRequestJson n).toList.length = 23 + n + 56 :=
  length_around n _ _ (by simp) (by simp)

/-- A script of 16 MiB is encoded, and no reader takes it. -/
theorem long_script_refused :
    (oneJson (longRequest maxPayload) (longRequestJson maxPayload)).Lawful ∧
      ¬ ExecReadsBack (oneJson (longRequest maxPayload) (longRequestJson maxPayload))
        (.exec (longRequest maxPayload)) := by
  refine ⟨oneJson_lawful _ _, fun h => ?_⟩
  have hlen := longRequestJson_length maxPayload
  have hsz := (execReadsBack_iff (oneJson_lawful _ _) _).mp h .exec
    ((longRequestJson maxPayload).toList.map fun c => UInt8.ofNat c.toNat)
    (by simp only [execPayload, oneJson, toVec, Serde.single, if_true]; rfl)
  rw [List.length_map] at hsz
  rcases hsz with hle | hge
  · omega
  · have hmax : maxPayload = 16777216 := rfl
    omega

end ShellProxy.FrameStream
