import ShellProxy.Push
import ShellProxy.StdinPath

/-! A push with all that lies between the local file and the remote `cat`: the loop of
`client::run`, the lanes of the daemon, the SSH channel, and the router and the stdin pump of serve.
It refines the push of `ShellProxy.Push`, whose path hands the frames over in order. -/
namespace ShellProxy.Upload
open Frame Codec EventStream FrameReader Machine StdinPath
variable {I : Type} {J : EventJson} {X : ExecJson ServeExec} {K : ControlLoop.Clock I}

/-- `passed` frames of the client have reached the daemon, the first of which is the request.
`cat` is what the remote command had copied when it saw the end of its input. -/
structure Transfer (I : Type) where
  client : ClientRun.Client
  source : Push.Source
  path : World I
  passed : Nat := 1
  cat : Option Bytes := none

def start (req : ExecRequest) (src : Push.Source) (l : ControlLoop.Loop I) : Transfer I where
  client := ClientRun.start req []
  source := src
  path := { serve := { loop := l } }

inductive Ev (I : Type) where
  | client (i : ClientRun.Input)
  | pass
  | ends (i : InputLanes.Item)
  | path (e : StdinPath.Ev I)
  | catEnds
  | emit (f : EventFrame)

def Transfer.onClient (t : Transfer I) (i : ClientRun.Input) (c : ClientRun.Client) : Transfer I :=
  { t with client := c, source := if Push.isStdin i then t.source.rest else t.source }

def Transfer.receive (t : Transfer I) (b : Bytes) : Transfer I :=
  { t with client := { t.client with unread := t.client.unread ++ b } }

/-- The connection of a client that has ended closes, behind its frames or inside of one. The
command sees the end of its input once the pump has closed it, and reports success only then. -/
def step (K : ControlLoop.Clock I) (J : EventJson) (X : ExecJson ServeExec) (t : Transfer I) :
    Ev I → Option (Transfer I)
  | .client i =>
    if Push.reads t.source i then (ClientRun.step J t.client i).map (t.onClient i) else none
  | .pass =>
    (t.client.sent[t.passed]?).bind fun f =>
      (StdinPath.step K X t.path (.lanes (.client (.frame f)))).map fun w =>
        { t with path := w, passed := t.passed + 1 }
  | .ends i =>
    if i.terminal ∧ t.client.result.isSome then
      (StdinPath.step K X t.path (.lanes (.client i))).map fun w => { t with path := w }
    else none
  | .path (.lanes (.client _)) => none
  | .path e => (StdinPath.step K X t.path e).map fun w => { t with path := w }
  | .catEnds =>
    if t.cat = none ∧ t.path.serve.loops ∧ t.path.serve.childClosed = false ∧
        t.path.serve.pump = .ended then
      some { t with cat := some t.path.serve.childIn }
    else none
  | .emit f =>
    if Push.fits J f && (!Push.succeeds f || t.cat.isSome) then some (t.receive (wire J f))
    else none

/-- No local read fails, no frame future is dropped inside a frame, and the transport does not fail
while the command runs. -/
def Sound (t : Transfer I) : Ev I → Prop
  | .client i => Push.readFails i = false ∧ ClientRun.Keeps t.client i
  | .path e => Up t.path e
  | _ => True

/-- What the daemon has of the client's frames, and of the end of its connection. -/
def Passed (req : ExecRequest) (t : Transfer I) : Prop :=
  ∃ pre post tail, t.client.sent = .exec req :: (pre ++ post) ∧ t.passed = pre.length + 1 ∧
    t.path.lanes.sent = pre.map InputLanes.Item.frame ++ tail ∧ (∀ i ∈ tail, i.terminal = true) ∧
      (tail ≠ [] → t.client.result.isSome = true)

/-- The push that takes all frames up to the end of the input when the command sees this end. -/
structure Refines (hX : X.Lawful) (req : ExecRequest) (t : Transfer I) (u : Push.Transfer) :
    Prop where
  client : u.client = t.client
  source : u.source = t.source
  path : StdinPath.Inv hX t.path
  passed : Passed req t
  waits : t.cat = none → u.taken = 0 ∧ u.cat = {}
  done : ∀ b, t.cat = some b → u.cat = ⟨b, true⟩ ∨ u.cat = {} ∧ t.client.result.isSome = true

section Copy
variable {fs : List (ExecFrame ExecRequest)} {k : Push.Copy}

theorem feed_open (hk : k.ended = false) (hf : .stdinEof ∉ fs) :
    fs.foldl Push.Copy.feed k = ⟨k.bytes ++ dataOf (fs.map .frame), false⟩ := by
  induction fs generalizing k with
  | nil =>
    cases k
    cases hk
    simp [dataOf]
  | cons f fs ih =>
    obtain ⟨hne, hrest⟩ := not_or.mp (mt List.mem_cons.mpr hf)
    cases f with
    | stdinEof => exact absurd rfl hne
    | stdinData d =>
      rw [List.foldl_cons, Push.Copy.feed, if_neg (by simp [hk])]
      refine (ih (k := { k with bytes := k.bytes ++ d }) hk hrest).trans ?_
      simp [dataOf]
    | exec req | signal sig | ping =>
      rw [List.foldl_cons, Push.Copy.feed, ih hk hrest]
      · simp [dataOf]
      all_goals simp

theorem copyOf_request {req : ExecRequest} (hf : .stdinEof ∉ fs) :
    Push.copyOf (.exec req :: (fs ++ [.stdinEof])) = ⟨dataOf (fs.map .frame), true⟩ := by
  rw [Push.copyOf, List.foldl_cons, List.foldl_append, Push.Copy.feed, feed_open rfl hf]
  · rfl
  all_goals simp

end Copy

section Simulation
variable {hX : X.Lawful} {req : ExecRequest} {t v : Transfer I} {u : Push.Transfer}

theorem takes {n : Nat} (hn : n ≤ u.client.sent.length) (ht : u.taken = 0) (hc : u.cat = {}) :
    ∃ fs, Path (Push.step J) Push.Sound u fs
      { u with taken := n, cat := Push.copyOf (u.client.sent.take n) } := by
  induction n with
  | zero =>
    refine ⟨[], ?_⟩
    have hsame : ({ u with taken := 0, cat := Push.copyOf (u.client.sent.take 0) } :
        Push.Transfer) = u := by
      cases u
      cases ht
      cases hc
      rfl
    rw [hsame]
    exact .refl
  | succ n ih =>
    obtain ⟨fs, hpath⟩ := ih (Nat.le_of_succ_le hn)
    refine ⟨fs ++ [.take], hpath.tail (show Push.Sound _ .take from trivial) ?_⟩
    have hget : u.client.sent[n]? = some (u.client.sent[n]) := List.getElem?_eq_getElem hn
    have hfeed : Push.copyOf (u.client.sent.take (n + 1)) =
        (Push.copyOf (u.client.sent.take n)).feed (u.client.sent[n]) := by
      rw [List.take_add_one, hget, Option.toList_some, Push.copyOf_append]
      rfl
    rw [hfeed, Push.step, hget]
    rfl

theorem sent_grows {c c' : ClientRun.Client} {i : ClientRun.Input} (h : Push.Said c i c') :
    ∃ more, c'.sent = c.sent ++ more := by
  cases h with
  | data hd ho hs hc | eof ho hs hc | other hi hs hf hc => exact ⟨_, hs⟩
  | broken ho hs hr => exact ⟨[], by rw [hs, List.append_nil]⟩

theorem refines_start (hX : X.Lawful) (src : Push.Source) (l : ControlLoop.Loop I) :
    Refines hX req (start req src l) (Push.start req src) where
  client := rfl
  source := rfl
  path := inv_init l
  passed := ⟨[], [], [], rfl, rfl, rfl, by simp, by simp⟩
  waits _ := ⟨rfl, rfl⟩
  done _ h := nomatch h

theorem lanes_sent {l m : InputLanes.Lanes} {e : InputLanes.Ev} (he : ∀ i, e ≠ .client i)
    (hs : InputLanes.step X l e = some m) : m.sent = l.sent := by
  cases e with
  | client i => exact absurd rfl (he i)
  | chan e =>
    obtain ⟨c, rest, -, rfl, -⟩ := InputLanes.chanStep_spec hs
    rfl
  | handOver =>
    simp only [InputLanes.step] at hs
    split at hs
    · split at hs
      · obtain ⟨c, -, rfl⟩ := Option.map_eq_some_iff.mp hs
        rfl
      · cases hs
        rfl
    · rw [Option.ite_none_right_eq_some] at hs
      cases hs.2
      rfl
    · cases hs
  | read =>
    simp only [InputLanes.step] at hs
    split at hs
    · cases hs
      rfl
    · cases hs
  | control =>
    simp only [InputLanes.step] at hs
    split at hs
    · rename_i c rest _ _
      rw [Option.ite_none_right_eq_some] at hs
      cases hs.2
      cases c <;> rfl
    · cases hs
  | put | ctrlNone | ponged | emit | drain | settle | forwarderGone =>
    simp only [InputLanes.step, Option.ite_none_right_eq_some, Option.some.injEq] at hs
    obtain ⟨-, rfl⟩ := hs
    rfl
  | writerGone | opens | adjust n =>
    simp only [InputLanes.step, Option.some.injEq] at hs
    subst hs
    rfl

theorem resumed_lanes {w w' : World I} {r : Poll ExecKind (ExecFrame ServeExec)}
    (hs : resumed K w r = some w') : w'.lanes = w.lanes := by
  cases r with
  | pending st =>
    obtain rfl := Option.some.inj hs
    rfl
  | ready r =>
    obtain ⟨x, -, rfl⟩ := Option.map_eq_some_iff.mp hs
    rfl

theorem path_step {e : StdinPath.Ev I} (hs : step K J X t (.path e) = some v) :
    ∃ w, StdinPath.step K X t.path e = some w ∧ v = { t with path := w } ∧
      w.lanes.sent = t.path.lanes.sent := by
  have hplain (hm : (StdinPath.step K X t.path e).map (fun w => { t with path := w }) = some v)
      (hsent : ∀ w, StdinPath.step K X t.path e = some w → w.lanes.sent = t.path.lanes.sent) :
      ∃ w, StdinPath.step K X t.path e = some w ∧ v = { t with path := w } ∧
        w.lanes.sent = t.path.lanes.sent := by
    obtain ⟨w, hw, rfl⟩ := Option.map_eq_some_iff.mp hm
    exact ⟨w, hw, rfl, hsent w hw⟩
  cases e with
  | lanes e =>
    have hlanes (he : ∀ i, e ≠ .client i) (w : World I)
        (hw : StdinPath.step K X t.path (.lanes e) = some w) :
        w.lanes.sent = t.path.lanes.sent := by
      obtain ⟨l, hl, rfl⟩ := Option.map_eq_some_iff.mp hw
      exact lanes_sent he hl
    cases e with
    | client i => cases hs
    | read | handOver | control | ctrlNone | ponged | emit | drain | writerGone | settle | opens
    | chan | put | adjust | forwarderGone => exact hplain hs (hlanes (by simp))
  | feed n =>
    refine hplain hs fun w hw => ?_
    obtain ⟨-, hw⟩ := Option.ite_none_right_eq_some.mp hw
    have hkept := resumed_lanes hw
    rw [hkept]
  | close =>
    refine hplain hs fun w hw => ?_
    obtain ⟨-, hw⟩ := Option.ite_none_right_eq_some.mp hw
    have hkept := resumed_lanes hw
    rw [hkept]
  | serve e =>
    refine hplain hs fun w hw => ?_
    cases e with
    | arrive i => cases hw
    | read | handOver | caught sig | pumpTake | pumpWrite n | pumpWrote | pumpFails | pumpDone
    | childCloses | control | loop e =>
      simp only [StdinPath.step, Option.map_eq_some_iff] at hw
      obtain ⟨x, -, rfl⟩ := hw
      rfl

theorem client_step {w w' : World I} {i : InputLanes.Item}
    (hs : StdinPath.step K X w (.lanes (.client i)) = some w') :
    w'.lanes.sent = w.lanes.sent ++ [i] ∧ ∀ j ∈ w.lanes.sent, j.terminal = false := by
  obtain ⟨l, hl, rfl⟩ := Option.map_eq_some_iff.mp hs
  obtain ⟨⟨hopen, -⟩, hl⟩ := Option.ite_none_right_eq_some.mp hl
  obtain rfl := Option.some.inj hl
  exact ⟨rfl, by simpa using hopen⟩

theorem client_inv (hS : InputLanes.SignalsEncode X) {w w' : World I} {i : InputLanes.Item}
    (h : StdinPath.Inv hX w) (hs : StdinPath.step K X w (.lanes (.client i)) = some w') :
    StdinPath.Inv hX w' := StdinPath.inv_step hS h (fun _ => ⟨by simp, by simp⟩) hs

theorem refines_client (h : Refines hX req t u) {i : ClientRun.Input}
    (hf : Push.readFails i = false) (hs : step K J X t (.client i) = some v) :
    ∃ u', Push.step J u (.client i) = some u' ∧ Refines hX req v u' := by
  obtain ⟨hreads, hm⟩ := Option.ite_none_right_eq_some.mp hs
  obtain ⟨c, hc, rfl⟩ := Option.map_eq_some_iff.mp hm
  have hrun := ClientRun.step_running hc
  refine ⟨u.onClient i c, ?_, ?_⟩
  · rw [Push.step, h.source, if_pos hreads, h.client, hc]
    rfl
  · obtain ⟨more, hmore⟩ := sent_grows (Push.said hf hc)
    obtain ⟨pre, post, tail, hsent, hpassed, hlanes, htail, hend⟩ := h.passed
    refine ⟨rfl, ?_, h.path, ⟨pre, post ++ more, tail, ?_, hpassed, hlanes, htail, ?_⟩, h.waits, ?_⟩
    · show (if Push.isStdin i then u.source.rest else u.source) = _
      rw [h.source]
      rfl
    · show c.sent = _
      rw [hmore, hsent, List.cons_append, List.append_assoc]
    · intro hne
      have hsome := hend hne
      rw [hrun] at hsome
      cases hsome
    · intro b hb
      rcases h.done b hb with hcat | ⟨-, hsome⟩
      · exact .inl hcat
      · rw [hrun] at hsome
        cases hsome

theorem refines_pass (h : Refines hX req t u) (hS : InputLanes.SignalsEncode X)
    (hs : step K J X t .pass = some v) : Refines hX req v u := by
  obtain ⟨f, hf, hm⟩ := Option.bind_eq_some_iff.mp hs
  obtain ⟨w, hw, rfl⟩ := Option.map_eq_some_iff.mp hm
  obtain ⟨hsent', hopen⟩ := client_step hw
  obtain ⟨pre, post, tail, hsent, hpassed, hlanes, htail, hend⟩ := h.passed
  refine ⟨h.client, h.source, client_inv hS h.path hw, ?_, h.waits, h.done⟩
  obtain ⟨post', rfl⟩ : ∃ post', post = f :: post' := by
    rw [hsent, hpassed, List.getElem?_cons_succ, List.getElem?_append_right (Nat.le_refl _),
      Nat.sub_self] at hf
    cases post with
    | nil => cases hf
    | cons g post =>
      obtain rfl := Option.some.inj hf
      exact ⟨post, rfl⟩
  obtain rfl : tail = [] := by
    cases tail with
    | nil => rfl
    | cons i tail =>
      have ho := hopen i (hlanes ▸ by simp)
      rw [htail i List.mem_cons_self] at ho
      cases ho
  refine ⟨pre ++ [f], post', [], ?_, ?_, ?_, by simp, by simp⟩
  · rw [hsent, List.append_assoc, List.singleton_append]
  · show t.passed + 1 = _
    rw [hpassed, List.length_append, List.length_singleton]
  · rw [hsent', hlanes, List.append_nil, List.append_nil, List.map_append]
    rfl

theorem refines_ends (h : Refines hX req t u) (hS : InputLanes.SignalsEncode X)
    {i : InputLanes.Item} (hs : step K J X t (.ends i) = some v) : Refines hX req v u := by
  obtain ⟨⟨hi, hsome⟩, hm⟩ := Option.ite_none_right_eq_some.mp hs
  obtain ⟨w, hw, rfl⟩ := Option.map_eq_some_iff.mp hm
  obtain ⟨pre, post, tail, hsent, hpassed, hlanes, htail, -⟩ := h.passed
  refine ⟨h.client, h.source, client_inv hS h.path hw, ?_, h.waits, h.done⟩
  refine ⟨pre, post, tail ++ [i], hsent, hpassed, ?_, ?_, fun _ => hsome⟩
  · rw [(client_step hw).1, hlanes, List.append_assoc]
  · exact List.forall_mem_append.mpr ⟨htail, List.forall_mem_singleton.mpr hi⟩

theorem refines_path (h : Refines hX req t u) (hS : InputLanes.SignalsEncode X)
    {e : StdinPath.Ev I} (hok : Up t.path e) (hs : step K J X t (.path e) = some v) :
    Refines hX req v u := by
  obtain ⟨w, hw, rfl, hsame⟩ := path_step hs
  obtain ⟨pre, post, tail, hsent, hpassed, hlanes, htail, hend⟩ := h.passed
  exact ⟨h.client, h.source, StdinPath.inv_step hS h.path hok hw,
    ⟨pre, post, tail, hsent, hpassed, hsame.trans hlanes, htail, hend⟩, h.waits, h.done⟩

theorem frame_inside {frames : List (ExecFrame ExecRequest)} {f : ExecFrame ExecRequest}
    {tail pre post : List InputLanes.Item} (htail : ∀ i ∈ tail, i.terminal = true)
    (h : frames.map .frame ++ tail = pre ++ .frame f :: post) :
    ∃ p q, frames = p ++ f :: q ∧ p.map .frame = pre := by
  have hnot : InputLanes.Item.frame f ∉ tail := fun hm => nomatch htail _ hm
  rcases List.append_eq_append_iff.mp h with ⟨a, -, ha⟩ | ⟨c, hc, ha⟩
  · exact absurd (ha ▸ by simp) hnot
  · cases c with
    | nil =>
      rw [List.nil_append] at ha
      exact absurd (ha ▸ List.mem_cons_self) hnot
    | cons x c =>
      obtain ⟨rfl, -⟩ := List.cons.inj ha
      obtain ⟨p, r, rfl, hp, hr⟩ := List.map_eq_append_iff.mp hc
      obtain ⟨g, q, rfl, hg, -⟩ := List.map_eq_cons_iff.mp hr
      obtain rfl := InputLanes.Item.frame.inj hg
      exact ⟨p, q, rfl, hp⟩

/-- The command has seen the end of its input: the client sent it, and the command has the frames
before it, or the client is gone. -/
theorem cat_ends (h : Refines hX req t u) (hl : t.path.serve.loops = true)
    (hc : t.path.serve.childClosed = false) (hp : t.path.serve.pump = .ended) :
    t.client.result.isSome = true ∨ ∃ pre post, .stdinEof ∉ pre ∧
      t.client.sent = .exec req :: (pre ++ .stdinEof :: post) ∧
        t.path.serve.childIn = dataOf (pre.map .frame) := by
  obtain ⟨fs, done, ahead, -, -, harr, -⟩ := h.path.linked hl
  have hplain : Plain t.path.serve := by
    rw [Plain, harr]
    simp [ServeInput.Item.terminal]
  obtain ⟨taken, rest, heof, hflow, hdata⟩ := h.path.pumped.closed hl hplain hc hp
  obtain ⟨more, hmore⟩ := h.path.le
  rw [hflow, List.append_assoc, List.cons_append] at hmore
  obtain ⟨pre, i, post, hi, hend, hpre⟩ := eof_sent hmore.symm heof
  obtain ⟨frames, later, tail, hsent, -, hlanes, htail, hgone⟩ := h.passed
  rw [hlanes] at hi
  rcases hend with rfl | rfl
  · right
    obtain ⟨p, q, rfl, rfl⟩ := frame_inside htail hi
    refine ⟨p, q ++ later, fun hmem => heof ?_, by rw [hsent]; simp, ?_⟩
    · have hframe : InputLanes.Item.frame .stdinEof ∈ p.map InputLanes.Item.frame :=
        List.mem_map_of_mem hmem
      have hevent : ExecChannel.StdinEvent.eof ∈ (p.map .frame).flatMap InputLanes.Item.stdin :=
        List.mem_flatMap.mpr ⟨_, hframe, List.mem_singleton.mpr rfl⟩
      exact hpre ▸ List.mem_map_of_mem (f := toMsg) hevent
    · rw [← data_input, hpre, hdata]
  · left
    refine hgone (List.ne_nil_of_mem (a := .gone) ?_)
    have hmem : InputLanes.Item.gone ∈ frames.map .frame ++ tail := hi ▸ by simp
    simpa using hmem

theorem refines_catEnds (h : Refines hX req t u) (hs : step K J X t .catEnds = some v) :
    ∃ fs u', Path (Push.step J) Push.Sound u fs u' ∧ Refines hX req v u' := by
  obtain ⟨⟨hnone, hl, hc, hp⟩, hv⟩ := Option.ite_none_right_eq_some.mp hs
  obtain rfl := Option.some.inj hv
  obtain ⟨htaken, hcat⟩ := h.waits hnone
  rcases cat_ends h hl hc hp with hsome | ⟨pre, post, hpre, hsent, hin⟩
  · exact ⟨[], u, .refl, h.client, h.source, h.path, h.passed, by simp,
      fun b _ => .inr ⟨hcat, hsome⟩⟩
  · have htake : u.client.sent.take (pre.length + 2) = .exec req :: (pre ++ [.stdinEof]) := by
      rw [h.client, hsent, List.take_succ_cons, List.take_length_add_append]
      rfl
    have hle : pre.length + 2 ≤ u.client.sent.length := by
      rw [h.client, hsent]
      simp
    obtain ⟨fs, hpath⟩ := takes (J := J) hle htaken hcat
    refine ⟨fs, _, hpath, h.client, h.source, h.path, h.passed, by simp, ?_⟩
    intro b hb
    obtain rfl := Option.some.inj hb
    refine .inl ?_
    show Push.copyOf (u.client.sent.take (pre.length + 2)) = _
    rw [htake, copyOf_request hpre, hin]

theorem refines_emit (h : Refines hX req t u) {f : EventFrame}
    (hs : step K J X t (.emit f) = some v) :
    ∃ u', Push.step J u (.emit f) = some u' ∧ Refines hX req v u' := by
  obtain ⟨hg, hv⟩ := Option.ite_none_right_eq_some.mp hs
  obtain rfl := Option.some.inj hv
  refine ⟨u.receive (wire J f), if_pos ?_, ?_⟩
  · simp only [Bool.and_eq_true, Bool.or_eq_true] at hg ⊢
    refine ⟨hg.1, ?_⟩
    rcases hg.2 with hplain | hcat
    · exact .inl (.inl hplain)
    · obtain ⟨b, hb⟩ := Option.isSome_iff_exists.mp hcat
      rcases h.done b hb with hu | ⟨-, hsome⟩
      · exact .inl (.inr (by rw [hu]))
      · exact .inr (h.client ▸ hsome)
  · refine ⟨?_, h.source, h.path, h.passed, h.waits, h.done⟩
    show { u.client with unread := u.client.unread ++ wire J f } = _
    rw [h.client]
    rfl

theorem refines_step (hS : InputLanes.SignalsEncode X) {e : Ev I} (h : Refines hX req t u)
    (hok : Sound t e) (hs : step K J X t e = some v) :
    ∃ fs u', Path (Push.step J) Push.Sound u fs u' ∧ Refines hX req v u' := by
  cases e with
  | client i =>
    obtain ⟨u', hu, hr⟩ := refines_client h hok.1 hs
    refine ⟨[.client i], u', Path.head ?_ hu .refl, hr⟩
    exact ⟨hok.1, h.client ▸ hok.2⟩
  | pass => exact ⟨[], u, .refl, refines_pass h hS hs⟩
  | ends i => exact ⟨[], u, .refl, refines_ends h hS hs⟩
  | path e => exact ⟨[], u, .refl, refines_path h hS hok hs⟩
  | catEnds => exact refines_catEnds h hs
  | emit f =>
    obtain ⟨u', hu, hr⟩ := refines_emit h hs
    exact ⟨[.emit f], u', Path.head trivial hu .refl, hr⟩

end Simulation

theorem refined (hJ : J.Lawful) (hX : X.Lawful) (hS : InputLanes.SignalsEncode X)
    {req : ExecRequest} {src : Push.Source} {l : ControlLoop.Loop I} {es : List (Ev I)}
    {t : Transfer I} (h : Path (step K J X) Sound (start req src l) es t) :
    ∃ u, Refines hX req t u ∧ Push.Inv J src u := by
  obtain ⟨fs, u, hpath, href⟩ := h.simulated
    (fun _ _ _ _ hR hok hs => refines_step hS hR hok hs) (refines_start hX src l)
  exact ⟨u, href, hpath.invariant (fun _ _ _ hi hk hs => Push.inv_step hJ hi hk hs)
    (Push.inv_start _ src)⟩

/-- Behind a reported success the copy is the whole file. -/
theorem Refines.whole {hX : X.Lawful} {req : ExecRequest} {src : Push.Source} {t : Transfer I}
    {u : Push.Transfer} (href : Refines hX req t u) (hi : Push.Inv J src u)
    {r : ClientRun.RunReport} (hr : t.client.result = some (.ok r)) (hc : r.code = 0)
    (he : r.error = none) : t.cat = some src.bytes ∧ src.failure = none := by
  have hended := hi.heard.reported r (href.client ▸ hr) hc he
  have hcopied : u.cat = Push.copyOf u.client.sent := by
    have htaken := hi.copied
    rw [htaken] at hended ⊢
    exact Push.copyOf_take hended
  have hwhole := (hi.ended (hcopied ▸ hended)).2
  rw [← hcopied] at hwhole
  cases hcat : t.cat with
  | none =>
    rw [(href.waits hcat).2] at hended
    cases hended
  | some b =>
    rcases href.done b hcat with hu | ⟨hu, -⟩
    · rw [hu] at hwhole
      exact ⟨congrArg some hwhole.1, hwhole.2⟩
    · rw [hu] at hended
      cases hended

/-- In every run without a failed local read, a lost fragment of a frame or a failing transport, a
push that reports success has left on the remote side the whole of the local file, which did end. -/
theorem upload_success_whole (hJ : J.Lawful) (hX : X.Lawful) (hS : InputLanes.SignalsEncode X)
    (host session : String) (remote : Shell.Text) (cwd : Option String) (timeoutMs : Option Nat)
    (src : Push.Source) (now : I) (es : List (Ev I)) (t : Transfer I)
    (h : Path (step K J X) Sound (start (Quoting.uploadRequest host session remote cwd timeoutMs)
      src (ControlLoop.start K timeoutMs now)) es t)
    (r : ClientRun.RunReport) (hr : t.client.result = some (.ok r)) (hc : r.code = 0)
    (he : r.error = none) : t.cat = some src.bytes ∧ src.failure = none := by
  obtain ⟨u, href, hi⟩ := refined hJ hX hS h
  exact href.whole hi hr hc he

def sampleReads : List (Ev Nat) :=
  [.client (.stdin (.ok [97]) (.ok ())), .client (.stdin (.ok []) (.ok ()))]

def samplePath : List (StdinPath.Ev Nat) :=
  [.lanes .opens, .lanes (.adjust 100), .lanes .read, .lanes .handOver, .lanes .read,
    .lanes .handOver, .lanes (.chan (.poll .stdin)), .lanes (.put 6), .lanes (.chan (.wrote .ok)),
    .lanes (.chan (.poll .stdin)), .lanes (.put 5), .lanes (.chan (.wrote .ok)), .feed 5, .feed 1,
    .serve .read, .serve .handOver, .serve .pumpTake, .serve (.pumpWrite 1), .serve .pumpWrote,
    .feed 5, .serve .read, .serve .handOver, .serve .pumpTake]

def sampleRun : List (Ev Nat) :=
  [.pass, .pass] ++ samplePath.map .path ++
    [.catEnds, .emit (.exit sampleReport), .client (.read 5 none), .client (.read 52 none)]

abbrev sampleStep : Transfer Nat → Ev Nat → Option (Transfer Nat) :=
  step ControlLoop.sampleClock sampleJson InputLanes.sampleExec

abbrev sampleStart (req : ExecRequest) : Transfer Nat :=
  start req (Push.sampleSource none) (ControlLoop.start ControlLoop.sampleClock none 0)

theorem sample_transfer (req : ExecRequest) : ∃ t : Transfer Nat,
    Path sampleStep Sound (sampleStart req) (sampleReads ++ sampleRun) t ∧
      t.client.result = some (.ok ⟨0, none, false, none⟩) := by
  have hreads : ∃ t : Transfer Nat, Path sampleStep Sound (sampleStart req) sampleReads t ∧
      ∃ u, run sampleStep sampleRun t = some u ∧
        u.client.result = some (.ok ⟨0, none, false, none⟩) :=
    ⟨_, Path.head ⟨rfl, fun _ => rfl⟩ rfl (Path.head ⟨rfl, fun _ => rfl⟩ rfl .refl), _, rfl, rfl⟩
  obtain ⟨t, hpath, u, hrun, hresult⟩ := hreads
  refine ⟨u, hpath.append (path_of_run_all ?_ hrun), hresult⟩
  simp [sampleRun, samplePath, Sound, Up, ClientRun.Keeps, ClientRun.Client.loops, Push.readFails]

theorem upload_success_sample : ∃ t : Transfer Nat,
    Path sampleStep Sound (sampleStart Push.sampleUpload) (sampleReads ++ sampleRun) t ∧
      t.client.result = some (.ok ⟨0, none, false, none⟩) ∧ t.cat = some [97] := by
  obtain ⟨t, hpath, hresult⟩ := sample_transfer Push.sampleUpload
  have hwhole := upload_success_whole sampleJson_lawful InputLanes.sampleExec_lawful
    InputLanes.sampleExec_signals "h" "s" ['x'] none none (Push.sampleSource none) 0 _ t hpath _
    hresult rfl rfl
  exact ⟨t, hpath, hresult, hwhole.1⟩

end ShellProxy.Upload
