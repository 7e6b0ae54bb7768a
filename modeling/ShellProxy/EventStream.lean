import ShellProxy.Codec

/-! Event frames on a byte stream: both writer paths put the same bytes there, and the
incremental decoder reads them back whatever the chunks. -/
namespace ShellProxy.EventStream
open Frame Codec Framing
variable {J : EventJson}

theorem leBytes_length (n : Nat) : (leBytes n).length = 4 := rfl

theorem fromLeBytes_leBytes (n : Nat) (h : n < 2 ^ 32) :
    fromLeBytes (UInt8.ofNat n) (UInt8.ofNat (n / 2 ^ 8)) (UInt8.ofNat (n / 2 ^ 16))
      (UInt8.ofNat (n / 2 ^ 24)) = n := by
  simp only [fromLeBytes, UInt8.toNat_ofNat']
  omega

theorem frameHeader_ok (kind : UInt8) {len : Nat} (h : len < 2 ^ 32) :
    frameHeader kind len = .ok (kind :: leBytes len) := by
  simp only [frameHeader, if_pos h]

theorem writeRaw_eq (w : Bytes) (kind : UInt8) (payload : Bytes) :
    writeRaw w kind payload = (encodeRaw kind payload).map (w ++ ·) := by
  unfold writeRaw encodeRaw
  cases frameHeader kind payload.length with
  | error e => rfl
  | ok hdr => simp [Except.map, bind, Except.bind, pure, Except.pure]

theorem writeEventFrame_eq (w : Bytes) (f : EventFrame) :
    writeEventFrame J w f = (encodeEventFrame J f).map (w ++ ·) := by
  cases f with
  | stdout d =>
    simp only [writeEventFrame]
    by_cases h : packedPayloadMax ≤ d.length
    · rw [if_pos h, writeRaw_eq]
      rfl
    · rw [if_neg h]
  | stderr d =>
    simp only [writeEventFrame]
    by_cases h : packedPayloadMax ≤ d.length
    · rw [if_pos h, writeRaw_eq]
      rfl
    · rw [if_neg h]
  | exit r => rfl
  | pong p => rfl

/-- A frame whose encoded payload is within the limit of the readers. -/
def Fits (J : EventJson) (f : EventFrame) : Prop :=
  ∃ kind payload, eventPayload J f = .ok (kind, payload) ∧ payload.length ≤ maxPayload

/-- The bytes of a frame that encodes, and nothing for one that does not. -/
def wire (J : EventJson) (f : EventFrame) : Bytes :=
  match encodeEventFrame J f with
  | .ok b => b
  | .error _ => []

theorem encode_of_payload {f : EventFrame} {kind : EventKind} {payload : Bytes}
    (h : eventPayload J f = .ok (kind, payload)) (hl : payload.length ≤ maxPayload) :
    encodeEventFrame J f = .ok (kind.toByte :: leBytes payload.length ++ payload) := by
  have hs : payload.length < 2 ^ 32 := by
    unfold maxPayload at hl
    omega
  simp only [encodeEventFrame, h, bind, Except.bind, encodeRaw, frameHeader_ok kind.toByte hs]
  rfl

theorem wire_of_payload {f : EventFrame} {kind : EventKind} {payload : Bytes}
    (h : eventPayload J f = .ok (kind, payload)) (hl : payload.length ≤ maxPayload) :
    wire J f = kind.toByte :: leBytes payload.length ++ payload := by
  rw [wire, encode_of_payload h hl]

theorem encode_of_fits {f : EventFrame} (h : Fits J f) : encodeEventFrame J f = .ok (wire J f) := by
  obtain ⟨kind, payload, hp, hl⟩ := h
  rw [wire_of_payload hp hl, encode_of_payload hp hl]

theorem wire_length_le {f : EventFrame} (h : Fits J f) : (wire J f).length ≤ 5 + maxPayload := by
  obtain ⟨kind, payload, hp, hl⟩ := h
  rw [wire_of_payload hp hl]
  simp only [List.length_append, List.length_cons, leBytes_length]
  omega

theorem five_le_wire_length {f : EventFrame} (h : Fits J f) : 5 ≤ (wire J f).length := by
  obtain ⟨kind, payload, hp, hl⟩ := h
  rw [wire_of_payload hp hl]
  simp only [List.length_append, List.length_cons, leBytes_length]
  omega

theorem five_mul_length_le (fs : List EventFrame) (h : ∀ f ∈ fs, Fits J f) :
    5 * fs.length ≤ (encodeAll (wire J) fs).length := by
  induction fs with
  | nil => simp
  | cons f fs ih =>
    have hf := five_le_wire_length (h f (by simp))
    have ht := ih fun g hg => h g (List.mem_cons_of_mem f hg)
    simp only [encodeAll_cons, List.length_append, List.length_cons]
    omega

theorem writeEventFrames_eq (fs : List EventFrame) (w : Bytes) (h : ∀ f ∈ fs, Fits J f) :
    writeEventFrames J w fs = .ok (w ++ encodeAll (wire J) fs) := by
  induction fs generalizing w with
  | nil => simp [writeEventFrames]
  | cons f fs ih =>
    have hf := encode_of_fits (h f (by simp))
    have ht := ih (w ++ wire J f) (fun g hg => h g (List.mem_cons_of_mem f hg))
    simp only [writeEventFrames, writeEventFrame_eq, hf, Except.map, bind, Except.bind, ht,
      encodeAll_cons, List.append_assoc]

theorem decode_payload (hJ : J.Lawful) {f : EventFrame} {kind : EventKind} {payload : Bytes}
    (h : eventPayload J f = .ok (kind, payload)) : decodeEvent J kind payload = .ok f := by
  cases f with
  | stdout d =>
    cases h
    rfl
  | stderr d =>
    cases h
    rfl
  | exit r =>
    cases he : J.exitReport.toVec r with
    | error e => simp [eventPayload, toVec, he, Except.mapError, Except.map] at h
    | ok b =>
      simp only [eventPayload, toVec, he, Except.mapError, Except.map, Except.ok.injEq,
        Prod.mk.injEq] at h
      obtain ⟨rfl, rfl⟩ := h
      simp [decodeEvent, json, hJ.exitReport r b he, Except.mapError, Except.map]
  | pong p =>
    cases he : J.pong.toVec p with
    | error e => simp [eventPayload, toVec, he, Except.mapError, Except.map] at h
    | ok b =>
      simp only [eventPayload, toVec, he, Except.mapError, Except.map, Except.ok.injEq,
        Prod.mk.injEq] at h
      obtain ⟨rfl, rfl⟩ := h
      simp [decodeEvent, json, hJ.pong p b he, Except.mapError, Except.map]

/-- The decoder's iteration reads back exactly the frames the writers put on the stream. -/
theorem reads_event (hJ : J.Lawful) : Reads (eventSplitter J) (wire J) (Fits J) where
  whole := by
    intro f hf t
    obtain ⟨kind, payload, hp, hl⟩ := hf
    have hs : payload.length < 2 ^ 32 := by
      unfold maxPayload at hl
      omega
    have hd := decode_payload hJ hp
    rw [wire_of_payload hp hl]
    simp only [eventSplitter, nextEvent, leBytes, List.cons_append, List.nil_append,
      fromLeBytes_leBytes _ hs]
    rw [if_neg (by omega), if_neg (by simp)]
    simp only [EventKind.tryFrom_toByte, List.take_left, hd, List.length_cons]
    congr 1
    omega
  short := by
    intro f hf p hpre hlt
    obtain ⟨kind, payload, hp, hl⟩ := hf
    have hs : payload.length < 2 ^ 32 := by
      unfold maxPayload at hl
      omega
    rw [wire_of_payload hp hl] at hpre hlt
    obtain ⟨t, ht⟩ := hpre
    match p, ht, hlt with
    | [], _, _ | [_], _, _ | [_, _], _, _ | [_, _, _], _, _ | [_, _, _, _], _, _ => rfl
    | k :: l0 :: l1 :: l2 :: l3 :: body, ht, hlt =>
      simp only [leBytes, List.cons_append, List.nil_append, List.cons.injEq] at ht
      obtain ⟨rfl, rfl, rfl, rfl, rfl, hbody⟩ := ht
      simp only [leBytes, List.length_cons, List.length_append, List.length_nil] at hlt
      simp only [eventSplitter, nextEvent, fromLeBytes_leBytes _ hs]
      rw [if_neg (by omega), if_pos (by omega)]

theorem next_nil : (eventSplitter J).next [] = .more := rfl

theorem pushAll_eq (d : EventDecoder) (chunks : List Bytes) :
    d.pushAll J chunks = ((eventSplitter J).feedAll d.buf chunks).map fun p => (p.1, ⟨p.2⟩) := by
  induction chunks generalizing d with
  | nil => rfl
  | cons c cs ih =>
    simp only [EventDecoder.pushAll, Splitter.feedAll, EventDecoder.push]
    cases (eventSplitter J).drain (d.buf ++ c) with
    | error e => rfl
    | ok p =>
      simp only [Except.map, bind, Except.bind, ih, pure, Except.pure]
      cases (eventSplitter J).feedAll p.2 cs <;> rfl

/-- A buffer on which the decoder's iteration asks for more holds no whole frame. -/
theorem no_whole_frame (hJ : J.Lawful) {buf : Bytes} (h : (eventSplitter J).next buf = .more)
    (f : EventFrame) (hf : Fits J f) : ¬ wire J f <+: buf := by
  rintro ⟨t, rfl⟩
  rw [(reads_event hJ).whole f hf t] at h
  cases h

theorem push_whole (hJ : J.Lawful) (frames : List EventFrame) (hf : ∀ f ∈ frames, Fits J f) :
    EventDecoder.new.push J (encodeAll (wire J) frames) = .ok (frames, .new) := by
  obtain ⟨done, left, kept, rfl, hdrain, -, hkept, -, hshort⟩ :=
    (reads_event hJ).drain next_nil frames _ [] hf (List.append_nil _)
  rw [List.append_nil] at hkept
  cases left with
  | nil =>
    rw [encodeAll_nil] at hkept
    subst hkept
    rw [List.append_nil] at hdrain ⊢
    rw [EventDecoder.push, EventDecoder.new, List.nil_append, hdrain]
    rfl
  | cons f fs =>
    have hlt := hshort f fs rfl
    rw [hkept, encodeAll_cons, List.length_append] at hlt
    omega

/-- Whatever the chunks, no push fails; after each of them the frames returned so far are the
first ones written, the retained buffer is what was fed beyond their bytes, holds no whole frame
and is shorter than a header and a maximal payload; after the last one every frame is out. -/
theorem decoder_round_trip (hJ : J.Lawful) (frames : List EventFrame)
    (hf : ∀ f ∈ frames, Fits J f) (w : Bytes) (hw : writeEventFrames J [] frames = .ok w)
    (chunks pushed ahead : List Bytes) (hc : chunks.flatten = w) (hp : chunks = pushed ++ ahead) :
    ∃ outs d done left, EventDecoder.new.pushAll J pushed = .ok (outs, d) ∧
      frames = outs.flatten ++ left ∧
      writeEventFrames J [] outs.flatten = .ok done ∧ pushed.flatten = done ++ d.buf ∧
      (∀ f, Fits J f → ¬ wire J f <+: d.buf) ∧ d.buf.length < 5 + maxPayload ∧
      (ahead = [] → outs.flatten = frames) := by
  have hR := reads_event hJ
  rw [writeEventFrames_eq frames [] hf] at hw
  have hb : ([] : Bytes) ++ pushed.flatten ++ ahead.flatten = encodeAll (wire J) frames := by
    rw [List.nil_append, ← List.flatten_append, ← hp, hc]
    simpa using (Except.ok.inj hw).symm
  obtain ⟨outs, left, kept, rfl, hfeed, hfed, hk, hm, hs⟩ :=
    hR.feedAll next_nil pushed frames [] ahead.flatten hf hb next_nil
      (by intro f fs he; exact hR.enc_pos (hf f (by simp [he])))
  have hdone : writeEventFrames J [] outs.flatten = .ok (encodeAll (wire J) outs.flatten) := by
    simpa using writeEventFrames_eq outs.flatten [] (fun f h => hf f (List.mem_append_left left h))
  have hleft : left = [] → kept = [] := by
    rintro rfl
    exact (List.append_eq_nil_iff.mp hk).1
  refine ⟨outs, ⟨kept⟩, _, left, ?_, rfl, hdone, by simpa using hfed, no_whole_frame hJ hm, ?_, ?_⟩
  · rw [pushAll_eq, EventDecoder.new, hfeed]
    rfl
  · cases left with
    | nil => simp [hleft rfl, maxPayload]
    | cons f fs =>
      have hlt := hs f fs rfl
      have hle := wire_length_le (hf f (by simp))
      exact Nat.lt_of_lt_of_le hlt hle
  · rintro rfl
    cases left with
    | nil => simp
    | cons f fs =>
      -- nothing is left to feed, so the kept bytes would be the whole of the next frame
      have hlt := hs f fs rfl
      have hkl := congrArg List.length hk
      simp only [List.flatten_nil, List.append_nil, encodeAll_cons, List.length_append] at hkl
      omega

/-- The bytes of a short output chunk and of the report behind it, cut inside both headers. -/
theorem decoder_round_trip_sample :
    ∃ outs d done left, EventDecoder.new.pushAll sampleJson [[0x81, 2, 0], [0, 0, 104]] = .ok (outs, d) ∧
      [EventFrame.stdout [104, 105], .exit sampleReport] = outs.flatten ++ left ∧
      writeEventFrames sampleJson [] outs.flatten = .ok done ∧
      [[0x81, 2, 0], [0, 0, 104]].flatten = done ++ d.buf ∧
      (∀ f, Fits sampleJson f → ¬ wire sampleJson f <+: d.buf) ∧ d.buf.length < 5 + maxPayload ∧
      ([[105, 0x83, 52], [0, 0, 0] ++ sampleReportJson.toList.map fun c => UInt8.ofNat c.toNat] = [] →
        outs.flatten = [EventFrame.stdout [104, 105], .exit sampleReport]) :=
  decoder_round_trip sampleJson_lawful [.stdout [104, 105], .exit sampleReport]
    (by
      simp only [List.mem_cons, List.not_mem_nil, or_false, forall_eq_or_imp, forall_eq]
      exact ⟨⟨_, _, rfl, by decide⟩, ⟨_, _, rfl, by decide⟩⟩)
    _ rfl _ _ _ rfl rfl

end ShellProxy.EventStream
