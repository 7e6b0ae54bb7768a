import ShellProxy.FrameStream

/-! The two decoders of event frames side by side on arbitrary bytes: the incremental decoder of
the SSH hop gives up the frames of a chunk in which it meets a malformed one. -/
namespace ShellProxy.Decoders
open Frame Codec EventStream FrameReader FrameStream Framing
variable {J : EventJson}

/-- The frames handed out when chunks are fed until the first error. -/
def delivered (J : EventJson) : EventDecoder → List Bytes → List EventFrame
  | _, [] => []
  | d, c :: cs =>
    match d.push J c with
    | .error _ => []
    | .ok (fs, d) => fs ++ delivered J d cs

/-- The bytes of a whole frame that decodes to `f`, in whatever form its payload has. -/
def OnWire (J : EventJson) (f : EventFrame) (b : Bytes) : Prop :=
  ∃ k l0 l1 l2 l3 payload kind, b = k :: l0 :: l1 :: l2 :: l3 :: payload ∧
    payload.length = fromLeBytes l0 l1 l2 l3 ∧ payload.length ≤ maxPayload ∧
    EventKind.tryFrom k = .ok kind ∧ decodeEvent J kind payload = .ok f

/-- Bytes that start with a frame known to be malformed: the length is over the limit, or the
frame is complete and has no kind or no payload that decodes. -/
def Malformed (J : EventJson) (t : Bytes) : Prop :=
  ∃ k l0 l1 l2 l3 body, t = k :: l0 :: l1 :: l2 :: l3 :: body ∧
    (maxPayload < fromLeBytes l0 l1 l2 l3 ∨ fromLeBytes l0 l1 l2 l3 ≤ body.length ∧
      ∀ kind, EventKind.tryFrom k = .ok kind →
        ∀ f, decodeEvent J kind (body.take (fromLeBytes l0 l1 l2 l3)) ≠ .ok f)

theorem nextEvent_cases (k l0 l1 l2 l3 : UInt8) (body : Bytes) :
    let len := fromLeBytes l0 l1 l2 l3
    let t := k :: l0 :: l1 :: l2 :: l3 :: body
    (len ≤ maxPayload ∧ body.length < len ∧ nextEvent J t = .more) ∨
    (∃ e, nextEvent J t = .bad e) ∧ Malformed J t ∨
    (∃ kind f, len ≤ maxPayload ∧ len ≤ body.length ∧ EventKind.tryFrom k = .ok kind ∧
      decodeEvent J kind (body.take len) = .ok f ∧ nextEvent J t = .item f (5 + len)) := by
  intro len t
  by_cases hmax : maxPayload < len
  · refine .inr (.inl ⟨⟨tooLarge len, ?_⟩, k, l0, l1, l2, l3, body, rfl, .inl hmax⟩)
    simp only [nextEvent, t, if_pos hmax, len]
  · by_cases hshort : body.length < len
    · refine .inl ⟨Nat.not_lt.mp hmax, hshort, ?_⟩
      simp only [nextEvent, t, if_neg hmax, if_pos hshort, len]
    · cases hk : EventKind.tryFrom k with
      | error e =>
        refine .inr (.inl ⟨⟨e, ?_⟩, k, l0, l1, l2, l3, body, rfl, .inr ⟨Nat.not_lt.mp hshort, ?_⟩⟩)
        · simp only [nextEvent, t, if_neg hmax, if_neg hshort, len, hk]
        · simp [hk]
      | ok kind =>
        cases hd : decodeEvent J kind (body.take len) with
        | error e =>
          refine .inr (.inl ⟨⟨e, ?_⟩, k, l0, l1, l2, l3, body, rfl, .inr ⟨Nat.not_lt.mp hshort, ?_⟩⟩)
          · simp only [nextEvent, t, if_neg hmax, if_neg hshort, len, hk, hd]
          · intro kind' hk' f hf
            obtain rfl : kind = kind' := Except.ok.inj (hk.symm.trans hk')
            rw [hd] at hf
            cases hf
        | ok f =>
          refine .inr (.inr ⟨kind, f, Nat.not_lt.mp hmax, Nat.not_lt.mp hshort, rfl, hd, ?_⟩)
          simp only [nextEvent, t, if_neg hmax, if_neg hshort, len, hk, hd]

theorem short_more {b : Bytes} (h : b.length < 5) : nextEvent J b = .more := by
  match b, h with
  | [], _ | [_], _ | [_, _], _ | [_, _, _], _ | [_, _, _, _], _ => rfl

theorem header_of_length {b : Bytes} (h : ¬ b.length < 5) :
    ∃ k l0 l1 l2 l3 body, b = k :: l0 :: l1 :: l2 :: l3 :: body := by
  match b, h with
  | k :: l0 :: l1 :: l2 :: l3 :: body, _ => exact ⟨k, l0, l1, l2, l3, body, rfl⟩
  | [], h | [_], h | [_, _], h | [_, _, _], h | [_, _, _, _], h => exact absurd (by simp) h

theorem bad_iff (t : Bytes) : (∃ e, nextEvent J t = .bad e) ↔ Malformed J t := by
  constructor
  · rintro ⟨e, he⟩
    by_cases h5 : t.length < 5
    · rw [short_more h5] at he
      cases he
    · obtain ⟨k, l0, l1, l2, l3, body, rfl⟩ := header_of_length h5
      rcases nextEvent_cases (J := J) k l0 l1 l2 l3 body with ⟨-, -, h⟩ | ⟨-, h⟩ | ⟨_, _, -, -, -, -, h⟩
      · rw [h] at he
        cases he
      · exact h
      · rw [h] at he
        cases he
  · rintro ⟨k, l0, l1, l2, l3, body, rfl, hbad⟩
    rcases nextEvent_cases (J := J) k l0 l1 l2 l3 body with
      ⟨hmax, hshort, -⟩ | ⟨h, -⟩ | ⟨kind, f, hmax, hlen, hk, hd, -⟩
    · rcases hbad with h | ⟨h, -⟩
      · omega
      · omega
    · exact h
    · rcases hbad with h | ⟨-, h⟩
      · omega
      · exact absurd hd (h kind hk f)

theorem malformed_append {b : Bytes} (h : Malformed J b) (t : Bytes) : Malformed J (b ++ t) := by
  obtain ⟨k, l0, l1, l2, l3, body, rfl, hbad⟩ := h
  refine ⟨k, l0, l1, l2, l3, body ++ t, rfl, ?_⟩
  rcases hbad with hmax | ⟨hlen, hno⟩
  · exact .inl hmax
  · refine .inr ⟨by rw [List.length_append]; omega, ?_⟩
    rw [List.take_append_of_le_length hlen]
    exact hno

theorem onWire_next {f : EventFrame} {b : Bytes} (h : OnWire J f b) (t : Bytes) :
    nextEvent J (b ++ t) = .item f b.length ∧
      frameOf EventKind.tryFrom (decodeEvent J) (b ++ t) = (.ok (some f), t) := by
  obtain ⟨k, l0, l1, l2, l3, payload, kind, rfl, hlen, hmax, hk, hd⟩ := h
  have hle : ¬ maxPayload < fromLeBytes l0 l1 l2 l3 := by omega
  have hshort : ¬ (payload ++ t).length < fromLeBytes l0 l1 l2 l3 := by
    rw [List.length_append]
    omega
  have htake : (payload ++ t).take (fromLeBytes l0 l1 l2 l3) = payload := by
    rw [← hlen, List.take_left]
  have hdrop : (payload ++ t).drop (fromLeBytes l0 l1 l2 l3) = t := by
    rw [← hlen, List.drop_left]
  constructor
  · simp only [List.cons_append, nextEvent, if_neg hle, if_neg hshort, hk, htake, hd, List.length_cons]
    congr 1
    omega
  · simp only [List.cons_append, frameOf, hk, if_neg hle, bodyOf, if_neg hshort, htake, hdrop, hd]
    rfl

theorem onWire_of_next {f : EventFrame} {b : Bytes} {n : Nat} (h : nextEvent J b = .item f n) :
    OnWire J f (b.take n) := by
  by_cases h5 : b.length < 5
  · rw [short_more h5] at h
    cases h
  · obtain ⟨k, l0, l1, l2, l3, body, rfl⟩ := header_of_length h5
    rcases nextEvent_cases (J := J) k l0 l1 l2 l3 body with
      ⟨-, -, he⟩ | ⟨⟨e, he⟩, -⟩ | ⟨kind, g, hmax, hlen, hk, hd, he⟩
    · rw [he] at h
      cases h
    · rw [he] at h
      cases h
    · obtain ⟨rfl, rfl⟩ : g = f ∧ 5 + fromLeBytes l0 l1 l2 l3 = n := by simpa [he] using h
      have htake : (k :: l0 :: l1 :: l2 :: l3 :: body).take (5 + fromLeBytes l0 l1 l2 l3) =
          k :: l0 :: l1 :: l2 :: l3 :: body.take (fromLeBytes l0 l1 l2 l3) := by
        rw [Nat.add_comm 5]
        rfl
      have hl : (body.take (fromLeBytes l0 l1 l2 l3)).length = fromLeBytes l0 l1 l2 l3 :=
        List.length_take_of_le hlen
      exact ⟨k, l0, l1, l2, l3, _, kind, htake, hl, by omega, hk, hd⟩

theorem stable : (eventSplitter J).Stable where
  item := by
    intro b f n h t
    have hu := nextEvent_used J b f n h
    have hn := (onWire_next (onWire_of_next h) t).1
    rwa [List.length_take_of_le hu.2] at hn
  bad := by
    intro b e h t
    exact (bad_iff _).mpr (malformed_append ((bad_iff b).mp ⟨e, h⟩) t)

/-- The items on the front of a buffer are the frames that lie there. -/
theorem items_iff (b : Bytes) (fs : List EventFrame) (rest : Bytes) :
    (eventSplitter J).Items b fs rest ↔
      ∃ bs, List.Forall₂ (OnWire J) fs bs ∧ b = bs.flatten ++ rest := by
  constructor
  · intro h
    induction h with
    | nil b => exact ⟨[], .nil, rfl⟩
    | @cons b rest f fs n hn _ ih =>
      obtain ⟨bs, hbs, hb⟩ := ih
      refine ⟨b.take n :: bs, .cons (onWire_of_next hn) hbs, ?_⟩
      rw [List.flatten_cons, List.append_assoc, ← hb, List.take_append_drop]
  · rintro ⟨bs, hbs, rfl⟩
    induction hbs with
    | nil => exact .nil _
    | @cons f c fs bs hf _ ih =>
      rw [List.flatten_cons, List.append_assoc]
      have hn := (onWire_next hf (bs.flatten ++ rest)).1
      refine .cons hn ?_
      rw [List.drop_left]
      exact ih

theorem no_frame {b : Bytes} (h : (eventSplitter J).Stuck b) (f : EventFrame) :
    (frameOf EventKind.tryFrom (decodeEvent J) b).1 ≠ .ok (some f) := by
  intro hf
  by_cases h5 : b.length < 5
  · rw [frameOf_short h5] at hf
    cases b <;> cases hf
  · obtain ⟨k, l0, l1, l2, l3, body, rfl⟩ := header_of_length h5
    rcases nextEvent_cases (J := J) k l0 l1 l2 l3 body with
      ⟨hmax, hshort, -⟩ | ⟨-, hbad⟩ | ⟨kind, g, -, -, -, -, he⟩
    · cases hk : EventKind.tryFrom k with
      | error e =>
        simp only [frameOf, hk] at hf
        cases hf
      | ok kind =>
        simp only [frameOf, hk, if_neg (Nat.not_lt.mpr hmax), bodyOf, if_pos hshort] at hf
        cases hf
    · obtain ⟨k', l0', l1', l2', l3', body', heq, hbad⟩ := hbad
      simp only [List.cons.injEq] at heq
      obtain ⟨rfl, rfl, rfl, rfl, rfl, rfl⟩ := heq
      cases hk : EventKind.tryFrom k with
      | error e =>
        simp only [frameOf, hk] at hf
        cases hf
      | ok kind =>
        rcases hbad with hmax | ⟨hlen, hno⟩
        · simp only [frameOf, hk, if_pos hmax] at hf
          cases hf
        · by_cases hmax : maxPayload < fromLeBytes l0 l1 l2 l3
          · simp only [frameOf, hk, if_pos hmax] at hf
            cases hf
          · simp only [frameOf, hk, if_neg hmax, bodyOf, if_neg (Nat.not_lt.mpr hlen)] at hf
            cases hd : decodeEvent J kind (body.take (fromLeBytes l0 l1 l2 l3)) with
            | error e =>
              rw [hd] at hf
              cases hf
            | ok g => exact hno kind hk g hd
    · rcases h with h | ⟨e, h⟩
      · exact absurd (he.symm.trans h) (by simp)
      · exact absurd (he.symm.trans h) (by simp)

theorem delivered_eq (d : EventDecoder) (chunks : List Bytes) :
    delivered J d chunks = (eventSplitter J).deliver d.buf chunks := by
  induction chunks generalizing d with
  | nil => rfl
  | cons c cs ih =>
    simp only [delivered, Splitter.deliver, EventDecoder.push]
    cases (eventSplitter J).drain (d.buf ++ c) with
    | error e => rfl
    | ok p => simp only [Except.map, ih]

theorem framesBefore_calls {b rest : Bytes} {fs : List EventFrame}
    (hi : (eventSplitter J).Items b fs rest) (hr : (eventSplitter J).Stuck rest) (s : List Bytes)
    (hs : ∀ c ∈ s, c ≠ []) (hb : s.flatten = b) (n : Nat) (hn : fs.length < n) :
    framesBefore (calls (readEventFrame J) n s) = fs := by
  induction hi generalizing s n with
  | nil b =>
    obtain ⟨m, rfl⟩ := Nat.exists_eq_succ_of_ne_zero (Nat.ne_of_gt hn)
    have hread := (readFrameAs_eq EventKind.tryFrom (decodeEvent J) s hs).1
    rw [hb] at hread
    have hno := no_frame hr
    rw [calls, readEventFrame, hread]
    cases hf : (frameOf EventKind.tryFrom (decodeEvent J) b).1 with
    | error e => rfl
    | ok o =>
      cases o with
      | none => rfl
      | some f => exact absurd hf (hno f)
  | @cons b rest f fs k hk _ ih =>
    obtain ⟨m, rfl⟩ := Nat.exists_eq_succ_of_ne_zero (Nat.ne_of_gt (Nat.zero_lt_of_lt hn))
    obtain ⟨hfirst, hrest, hne⟩ := readFrameAs_eq EventKind.tryFrom (decodeEvent J) s hs
    have hw := (onWire_next (onWire_of_next hk) (b.drop k)).2
    rw [List.take_append_drop, ← hb] at hw
    rw [hw] at hfirst hrest
    rw [calls, readEventFrame, hfirst, framesBefore]
    have hrec := ih hr _ hne (by rw [hrest, hb]) m (by simpa using hn)
    exact congrArg (f :: ·) hrec

theorem items_count {b rest : Bytes} {fs : List EventFrame}
    (hi : (eventSplitter J).Items b fs rest) : fs.length ≤ b.length := by
  induction hi with
  | nil => exact Nat.zero_le _
  | cons hn _ ih =>
    have hu := (eventSplitter J).used _ _ _ hn
    rw [List.length_drop] at ih
    rw [List.length_cons]
    omega

/-- The frames of a chunked stream are those the reader returns of the same bytes, in any
fragments, exactly when no chunk completes a whole frame and makes known a malformed one behind
it. -/
theorem same_frames_iff (chunks : List Bytes) (s : List Bytes) (hs : ∀ c ∈ s, c ≠ [])
    (hb : s.flatten = chunks.flatten) (n : Nat) (hn : chunks.flatten.length < n) :
    delivered J .new chunks = framesBefore (calls (readEventFrame J) n s) ↔
      ∀ pre c post, chunks = pre ++ c :: post → ∀ fs bs t, List.Forall₂ (OnWire J) fs bs →
        (pre ++ [c]).flatten = bs.flatten ++ t → Malformed J t →
        bs.flatten.length ≤ pre.flatten.length := by
  obtain ⟨fs, rest, hi, hr⟩ := items_exists (eventSplitter J) chunks.flatten
  have hcount := items_count hi
  rw [framesBefore_calls hi hr s hs hb n (by omega), delivered_eq,
    deliver_iff stable chunks EventDecoder.new.buf next_nil hi hr]
  refine forall_congr' fun pre => forall_congr' fun c => forall_congr' fun post =>
    forall_congr' fun hsplit => ?_
  have hflat : (pre ++ [c]).flatten = pre.flatten ++ c := by simp
  constructor
  · intro h fs bs t hfs heq hbad
    obtain ⟨e, he⟩ := (bad_iff t).mpr hbad
    have hle := h fs t e ((items_iff _ _ _).mpr ⟨bs, hfs, hflat ▸ heq⟩) he
    have hlen := congrArg List.length heq
    rw [hflat, List.length_append, List.length_append] at hlen
    omega
  · intro h fs t e hit he
    obtain ⟨bs, hfs, heq⟩ := (items_iff _ _ _).mp hit
    have hle := h fs bs t hfs (hflat ▸ heq) ((bad_iff t).mp ⟨e, he⟩)
    have hlen := congrArg List.length heq
    rw [EventDecoder.new, List.nil_append, List.length_append, List.length_append] at hlen
    omega

/-- One byte of output and a frame of no kind, cut inside the header and fed to the reader whole. -/
theorem same_frames_iff_sample :
    delivered sampleJson .new [[0x81, 1, 0, 0], [0, 7], [9, 0, 0, 0, 0]] =
        framesBefore (calls (readEventFrame sampleJson) 12 [[0x81, 1, 0, 0, 0, 7, 9, 0, 0, 0, 0]]) ↔
      ∀ pre c post, [[0x81, 1, 0, 0], [0, 7], [9, 0, 0, 0, 0]] = pre ++ c :: post →
        ∀ fs bs t, List.Forall₂ (OnWire sampleJson) fs bs → (pre ++ [c]).flatten = bs.flatten ++ t →
          Malformed sampleJson t → bs.flatten.length ≤ pre.flatten.length :=
  same_frames_iff [[0x81, 1, 0, 0], [0, 7], [9, 0, 0, 0, 0]] [[0x81, 1, 0, 0, 0, 7, 9, 0, 0, 0, 0]]
    (by decide) rfl 12 (by decide)

/-- A report and a malformed header in one chunk: the caller never sees the report. -/
theorem report_lost :
    delivered sampleJson .new [wire sampleJson (.exit sampleReport) ++ [0, 0, 0, 0, 0]] = [] ∧
      framesBefore (calls (readEventFrame sampleJson) 2
        [wire sampleJson (.exit sampleReport) ++ [0, 0, 0, 0, 0]]) = [.exit sampleReport] := by
  have hf : Fits sampleJson (.exit sampleReport) := ⟨_, _, rfl, by decide⟩
  have hbad : (eventSplitter sampleJson).next [0, 0, 0, 0, 0] =
      .bad (.protocol ("bad event frame kind " ++ hex 0)) := rfl
  have hitems : (eventSplitter sampleJson).Items
      (wire sampleJson (.exit sampleReport) ++ [0, 0, 0, 0, 0]) [.exit sampleReport] [0, 0, 0, 0, 0] := by
    refine .cons ((reads_event sampleJson_lawful).whole _ hf _) ?_
    rw [List.drop_left]
    exact .nil _
  constructor
  · rw [delivered_eq, Splitter.deliver, EventDecoder.new, List.nil_append, drain_of_bad hitems hbad]
  · exact framesBefore_calls hitems (.inr ⟨_, hbad⟩) _ (by simp) (by simp) 2 (by decide)

end ShellProxy.Decoders
