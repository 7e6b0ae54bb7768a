import Mathlib.Data.List.Infix

/-! Streams cut into self-delimiting items, and the drain loop of an incremental decoder.
Nothing here knows what an item is: a splitter looks at a buffer and either asks for more,
refuses, or takes one item off the front. -/
namespace ShellProxy.Framing
variable {α β ε : Type*}

/-- What a splitter makes of the bytes at hand; `item a n` consumes the first `n`. -/
inductive Next (ε α : Type*) where
  | more
  | bad (e : ε)
  | item (a : α) (n : Nat)

/-- A splitter never takes nothing and never takes more than it was given. -/
structure Splitter (β ε α : Type*) where
  next : List β → Next ε α
  used : ∀ b a n, next b = .item a n → 0 < n ∧ n ≤ b.length

/-- Take items until the buffer holds no complete one. A refusal abandons the whole call. -/
def Splitter.drain (S : Splitter β ε α) (buf : List β) : Except ε (List α × List β) :=
  match _h : S.next buf with
  | .more => .ok ([], buf)
  | .bad e => .error e
  | .item a n =>
    match S.drain (buf.drop n) with
    | .error e => .error e
    | .ok (as, rest) => .ok (a :: as, rest)
termination_by buf.length
decreasing_by
  have hu := S.used buf a n _h
  simp only [List.length_drop]
  omega

theorem Splitter.drain_more (S : Splitter β ε α) {buf : List β} (h : S.next buf = .more) :
    S.drain buf = .ok ([], buf) := by
  rw [Splitter.drain]
  split <;> simp_all

theorem Splitter.drain_bad (S : Splitter β ε α) {buf : List β} {e : ε} (h : S.next buf = .bad e) :
    S.drain buf = .error e := by
  rw [Splitter.drain]
  split <;> simp_all

theorem Splitter.drain_item (S : Splitter β ε α) {buf : List β} {a : α} {n : Nat}
    (h : S.next buf = .item a n) :
    S.drain buf = (S.drain (buf.drop n)).map fun p => (a :: p.1, p.2) := by
  rw [Splitter.drain]
  split
  · simp_all
  · simp_all
  · rename_i b m hb
    obtain ⟨rfl, rfl⟩ : a = b ∧ n = m := by simpa [h] using hb
    cases S.drain (buf.drop n) <;> rfl

def encodeAll (enc : α → List β) (as : List α) : List β := as.flatMap enc

@[simp] theorem encodeAll_nil (enc : α → List β) : encodeAll enc [] = [] := rfl

@[simp] theorem encodeAll_cons (enc : α → List β) (a : α) (as : List α) :
    encodeAll enc (a :: as) = enc a ++ encodeAll enc as := by simp [encodeAll]

@[simp] theorem encodeAll_append (enc : α → List β) (as bs : List α) :
    encodeAll enc (as ++ bs) = encodeAll enc as ++ encodeAll enc bs := by simp [encodeAll]

/-- `S` reads back `enc` on the valid items: a whole item is taken off the front whatever
follows it, and a proper prefix of one always asks for more. -/
structure Reads (S : Splitter β ε α) (enc : α → List β) (valid : α → Prop) : Prop where
  whole : ∀ a, valid a → ∀ t, S.next (enc a ++ t) = .item a (enc a).length
  short : ∀ a, valid a → ∀ p, p <+: enc a → p.length < (enc a).length → S.next p = .more

theorem Reads.enc_pos {S : Splitter β ε α} {enc : α → List β} {valid : α → Prop}
    (h : Reads S enc valid) {a : α} (ha : valid a) : 0 < (enc a).length :=
  (S.used _ a _ (h.whole a ha [])).1

theorem Reads.front {S : Splitter β ε α} {enc : α → List β} {valid : α → Prop}
    (h : Reads S enc valid) {a : α} {as : List α} {buf rest : List β} (ha : valid a)
    (hb : buf ++ rest = encodeAll enc (a :: as)) :
    (buf.length < (enc a).length ∧ S.next buf = .more) ∨
      (∃ t, buf = enc a ++ t ∧ t ++ rest = encodeAll enc as) := by
  rw [encodeAll_cons] at hb
  rcases Nat.lt_or_ge buf.length (enc a).length with hlt | hge
  · refine .inl ⟨hlt, h.short a ha buf ?_ hlt⟩
    exact List.prefix_of_prefix_length_le ⟨rest, hb⟩ ⟨encodeAll enc as, rfl⟩ (by omega)
  · have hp : enc a <+: buf :=
      List.prefix_of_prefix_length_le ⟨encodeAll enc as, rfl⟩ ⟨rest, hb⟩ hge
    obtain ⟨t, rfl⟩ := hp
    refine .inr ⟨t, rfl, ?_⟩
    simpa only [List.append_assoc, List.append_cancel_left_eq] using hb

/-- Draining the front of an encoded list never fails: it hands out the complete items, in
order, and keeps exactly the bytes of the others that have arrived. -/
theorem Reads.drain {S : Splitter β ε α} {enc : α → List β} {valid : α → Prop}
    (h : Reads S enc valid) (hmore : S.next [] = .more) (as : List α) (buf rest : List β)
    (hv : ∀ a ∈ as, valid a) (hb : buf ++ rest = encodeAll enc as) :
    ∃ done left kept, as = done ++ left ∧ S.drain buf = .ok (done, kept) ∧
      buf = encodeAll enc done ++ kept ∧ kept ++ rest = encodeAll enc left ∧
      S.next kept = .more ∧ (∀ a as', left = a :: as' → kept.length < (enc a).length) := by
  induction as generalizing buf with
  | nil =>
    obtain ⟨rfl, rfl⟩ : buf = [] ∧ rest = [] := by simpa using hb
    exact ⟨[], [], [], rfl, S.drain_more hmore, rfl, rfl, hmore, by simp⟩
  | cons a as ih =>
    have ha : valid a := hv a (by simp)
    rcases h.front ha hb with ⟨hlt, hm⟩ | ⟨t, rfl, ht⟩
    · refine ⟨[], a :: as, buf, rfl, S.drain_more hm, rfl, hb, hm, ?_⟩
      intro b bs hbs
      obtain ⟨rfl, rfl⟩ : a = b ∧ as = bs := by simpa using hbs
      exact hlt
    · obtain ⟨done, left, kept, rfl, hd, ht', hk, hm, hs⟩ :=
        ih t (fun b hb => hv b (List.mem_cons_of_mem a hb)) ht
      refine ⟨a :: done, left, kept, rfl, ?_, ?_, hk, hm, hs⟩
      · rw [S.drain_item (h.whole a ha t), List.drop_left, hd]
        rfl
      · rw [ht', encodeAll_cons, List.append_assoc]

/-- Feed chunks one after another, each appended to what the last drain kept. -/
def Splitter.feedAll (S : Splitter β ε α) : List β → List (List β) → Except ε (List (List α) × List β)
  | buf, [] => .ok ([], buf)
  | buf, c :: cs =>
    match S.drain (buf ++ c) with
    | .error e => .error e
    | .ok (as, kept) => (S.feedAll kept cs).map fun p => (as :: p.1, p.2)

/-- Feeding any chunks of an encoded list hands out its items in order, keeps exactly the bytes
that are not decoded yet, and never keeps a whole item. -/
theorem Reads.feedAll {S : Splitter β ε α} {enc : α → List β} {valid : α → Prop}
    (h : Reads S enc valid) (hmore : S.next [] = .more) (chunks : List (List β))
    (as : List α) (buf rest : List β) (hv : ∀ a ∈ as, valid a)
    (hb : buf ++ chunks.flatten ++ rest = encodeAll enc as)
    (hm : S.next buf = .more) (hs : ∀ a as', as = a :: as' → buf.length < (enc a).length) :
    ∃ outs left kept, as = outs.flatten ++ left ∧ S.feedAll buf chunks = .ok (outs, kept) ∧
      buf ++ chunks.flatten = encodeAll enc outs.flatten ++ kept ∧
      kept ++ rest = encodeAll enc left ∧
      S.next kept = .more ∧ (∀ a as', left = a :: as' → kept.length < (enc a).length) := by
  induction chunks generalizing as buf with
  | nil => exact ⟨[], as, buf, rfl, rfl, by simp, by simpa using hb, hm, hs⟩
  | cons c cs ih =>
    have hb' : (buf ++ c) ++ (cs.flatten ++ rest) = encodeAll enc as := by
      simpa only [List.flatten_cons, List.append_assoc] using hb
    obtain ⟨done, left, kept, rfl, hd, hbc, hk, hkm, hks⟩ := h.drain hmore as _ _ hv hb'
    obtain ⟨outs, left', kept', rfl, hf, hkc, hk', hm', hs'⟩ :=
      ih left kept (fun a ha => hv a (List.mem_append_right done ha))
        (by simpa only [List.append_assoc] using hk) hkm hks
    refine ⟨done :: outs, left', kept', by simp, ?_, ?_, hk', hm', hs'⟩
    · simp only [Splitter.feedAll, hd, hf]
      rfl
    · calc
        buf ++ (c :: cs).flatten = (buf ++ c) ++ cs.flatten := by simp
        _ = encodeAll enc done ++ (kept ++ cs.flatten) := by rw [hbc, List.append_assoc]
        _ = encodeAll enc (done :: outs).flatten ++ kept' := by rw [hkc]; simp

/-! ### Refusals -/

/-- The items on the front of a buffer, and what is left of it. -/
inductive Splitter.Items (S : Splitter β ε α) : List β → List α → List β → Prop where
  | nil (b : List β) : S.Items b [] b
  | cons {b rest : List β} {a : α} {as : List α} {n : Nat} :
      S.next b = .item a n → S.Items (b.drop n) as rest → S.Items b (a :: as) rest

def Splitter.Stuck (S : Splitter β ε α) (b : List β) : Prop :=
  S.next b = .more ∨ ∃ e, S.next b = .bad e

/-- An item depends on its own bytes only, and a refusal is final. -/
structure Splitter.Stable (S : Splitter β ε α) : Prop where
  item : ∀ {b a n}, S.next b = .item a n → ∀ t, S.next (b.take n ++ t) = .item a n
  bad : ∀ {b e}, S.next b = .bad e → ∀ t, ∃ e', S.next (b ++ t) = .bad e'

/-- Feed chunks until a refusal, and join what the calls return. -/
def Splitter.deliver (S : Splitter β ε α) : List β → List (List β) → List α
  | _, [] => []
  | buf, c :: cs =>
    match S.drain (buf ++ c) with
    | .error _ => []
    | .ok (as, kept) => as ++ S.deliver kept cs

/-- Where a refused item becomes known, the chunk at hand holds nothing before it. -/
def Splitter.Clean (S : Splitter β ε α) (buf : List β) (chunks : List (List β)) : Prop :=
  ∀ pre c post, chunks = pre ++ c :: post → ∀ as t e, S.Items (buf ++ (pre.flatten ++ c)) as t →
    S.next t = .bad e → c.length ≤ t.length

section
variable {S : Splitter β ε α} {b rest : List β} {as : List α}

theorem items_append {mid : List β} {bs : List α} (h : S.Items b as mid) (g : S.Items mid bs rest) :
    S.Items b (as ++ bs) rest := by
  induction h with
  | nil => exact g
  | cons hn _ ih => exact .cons hn (ih g)

theorem items_exists (S : Splitter β ε α) (b : List β) :
    ∃ as rest, S.Items b as rest ∧ S.Stuck rest := by
  induction hl : b.length using Nat.strongRecOn generalizing b with
  | ind l ih =>
    cases hn : S.next b with
    | more => exact ⟨[], b, .nil b, .inl hn⟩
    | bad e => exact ⟨[], b, .nil b, .inr ⟨e, hn⟩⟩
    | item a n =>
      have hu := S.used b a n hn
      have hlt : (b.drop n).length < l := by
        rw [List.length_drop]
        omega
      obtain ⟨as, rest, hi, hs⟩ := ih _ hlt (b.drop n) rfl
      exact ⟨a :: as, rest, .cons hn hi, hs⟩

theorem items_unique {as' : List α} {rest' : List β} (h : S.Items b as rest) (hs : S.Stuck rest)
    (h' : S.Items b as' rest') (hs' : S.Stuck rest') : as = as' ∧ rest = rest' := by
  induction h generalizing as' with
  | nil b =>
    cases h' with
    | nil => exact ⟨rfl, rfl⟩
    | cons hn _ => rcases hs with h | ⟨e, h⟩ <;> simp [hn] at h
  | cons hn _ ih =>
    cases h' with
    | nil => rcases hs' with h | ⟨e, h⟩ <;> simp [hn] at h
    | cons hn' hi' =>
      obtain ⟨rfl, rfl⟩ : _ = _ ∧ _ = _ := by simpa using hn.symm.trans hn'
      obtain ⟨rfl, rfl⟩ := ih hs hi'
      exact ⟨rfl, rfl⟩

theorem items_length (h : S.Items b as rest) : rest.length ≤ b.length := by
  induction h with
  | nil => exact Nat.le_refl _
  | cons _ _ ih =>
    rw [List.length_drop] at ih
    omega

theorem drain_of_more (h : S.Items b as rest) (hm : S.next rest = .more) :
    S.drain b = .ok (as, rest) := by
  induction h with
  | nil => exact S.drain_more hm
  | cons hn _ ih =>
    rw [S.drain_item hn, ih hm]
    rfl

theorem drain_of_bad (h : S.Items b as rest) {e : ε} (hb : S.next rest = .bad e) :
    S.drain b = .error e := by
  induction h with
  | nil => exact S.drain_bad hb
  | cons hn _ ih =>
    rw [S.drain_item hn, ih hb]
    rfl

theorem Splitter.Stable.next_append (hS : S.Stable) {a : α} {n : Nat} (h : S.next b = .item a n)
    (t : List β) : S.next (b ++ t) = .item a n ∧ (b ++ t).drop n = b.drop n ++ t := by
  have hu := S.used b a n h
  refine ⟨?_, List.drop_append_of_le_length hu.2⟩
  have hi := hS.item h (b.drop n ++ t)
  rwa [← List.append_assoc, List.take_append_drop] at hi

theorem Splitter.Stable.items_behind (hS : S.Stable) (h : S.Items b as rest) (t : List β) :
    S.Items (b ++ t) as (rest ++ t) := by
  induction h with
  | nil => exact .nil _
  | cons hn _ ih =>
    obtain ⟨hn', hd⟩ := hS.next_append hn t
    refine .cons hn' ?_
    rw [hd]
    exact ih

theorem Splitter.Stable.ends_in (hS : S.Stable) {buf c : List β} {a : α}
    (hm : S.next buf = .more) (h : S.Items (buf ++ c) (a :: as) rest) : rest.length < c.length := by
  cases h with
  | cons hn hi =>
    rename_i n
    have hle := items_length hi
    have hu := S.used _ _ _ hn
    simp only [List.length_drop, List.length_append] at hle hu
    by_contra hge
    have hnb : n ≤ buf.length := by omega
    have hbuf := hS.item hn (buf.drop n)
    rw [List.take_append_of_le_length hnb, List.take_append_drop, hm] at hbuf
    cases hbuf

theorem clean_cons (hS : S.Stable) {buf c : List β} {cs : List (List β)}
    (hi : S.Items (buf ++ c) as rest) (hm : S.next rest = .more) :
    S.Clean buf (c :: cs) ↔ S.Clean rest cs := by
  have hjoin : ∀ x, buf ++ (c ++ x) = (buf ++ c) ++ x := fun x => (List.append_assoc _ _ _).symm
  constructor
  · intro h pre d post hsplit as' t e hi' hbad
    have hfront := items_append (hS.items_behind hi (pre.flatten ++ d)) hi'
    refine h (c :: pre) d post (by rw [hsplit]; rfl) (as ++ as') t e ?_ hbad
    rw [List.flatten_cons, List.append_assoc, hjoin]
    exact hfront
  · intro h pre d post hsplit as' t e hi' hbad
    cases pre with
    | nil =>
      obtain ⟨rfl, rfl⟩ : c = d ∧ cs = post := by simpa using hsplit
      obtain ⟨-, rfl⟩ := items_unique hi (.inl hm) hi' (.inr ⟨e, hbad⟩)
      rw [hm] at hbad
      cases hbad
    | cons p pre =>
      obtain ⟨rfl, rfl⟩ : c = p ∧ cs = pre ++ d :: post := by simpa using hsplit
      obtain ⟨bs, u, hu, hs⟩ := items_exists S (rest ++ (pre.flatten ++ d))
      have hfront := items_append (hS.items_behind hi (pre.flatten ++ d)) hu
      rw [List.flatten_cons, List.append_assoc, hjoin] at hi'
      obtain ⟨-, rfl⟩ := items_unique hfront hs hi' (.inr ⟨e, hbad⟩)
      exact h pre d post rfl bs u e hu hbad

/-- Cutting a stream into chunks loses nothing before a refusal exactly when it is clean. -/
theorem deliver_iff (hS : S.Stable) (chunks : List (List β)) (buf : List β) (hm : S.next buf = .more)
    (hi : S.Items (buf ++ chunks.flatten) as rest) (hs : S.Stuck rest) :
    S.deliver buf chunks = as ↔ S.Clean buf chunks := by
  induction chunks generalizing buf as rest with
  | nil =>
    rw [List.flatten_nil, List.append_nil] at hi
    obtain ⟨rfl, -⟩ := items_unique (.nil buf) (.inl hm) hi hs
    refine ⟨?_, fun _ => rfl⟩
    rintro - pre c post hsplit
    cases pre <;> cases hsplit
  | cons c cs ih =>
    rw [List.flatten_cons, ← List.append_assoc] at hi
    obtain ⟨bs, kept, hk, hkept⟩ := items_exists S (buf ++ c)
    have hfront := hS.items_behind hk cs.flatten
    rcases hkept with hmore | ⟨e, hbad⟩
    · obtain ⟨ds, last, hd, hlast⟩ := items_exists S (kept ++ cs.flatten)
      obtain ⟨rfl, rfl⟩ := items_unique (items_append hfront hd) hlast hi hs
      rw [clean_cons hS hk hmore, ← ih kept hmore hd hlast, Splitter.deliver, drain_of_more hk hmore]
      exact List.append_right_inj bs
    · obtain ⟨e', hbad'⟩ := hS.bad hbad cs.flatten
      obtain ⟨rfl, -⟩ := items_unique hfront (.inr ⟨e', hbad'⟩) hi hs
      rw [Splitter.deliver, drain_of_bad hk hbad]
      constructor
      · rintro rfl pre d post hsplit as' t e'' hi' hbad''
        obtain rfl : buf ++ c = kept := by
          cases hk
          rfl
        cases pre with
        | nil =>
          obtain ⟨rfl, rfl⟩ : c = d ∧ cs = post := by simpa using hsplit
          obtain ⟨-, rfl⟩ := items_unique (.nil _) (.inr ⟨e, hbad⟩) hi' (.inr ⟨e'', hbad''⟩)
          rw [List.length_append]
          omega
        | cons p pre =>
          obtain ⟨rfl, rfl⟩ : c = p ∧ cs = pre ++ d :: post := by simpa using hsplit
          obtain ⟨e₃, hbad₃⟩ := hS.bad hbad (pre.flatten ++ d)
          rw [List.flatten_cons, List.append_assoc, ← List.append_assoc] at hi'
          obtain ⟨-, rfl⟩ := items_unique (.nil _) (.inr ⟨e₃, hbad₃⟩) hi' (.inr ⟨e'', hbad''⟩)
          simp only [List.length_append]
          omega
      · intro h
        cases bs with
        | nil => rfl
        | cons a bs =>
          have hle := h [] c cs rfl (a :: bs) kept e (by simpa using hk) hbad
          have hlt := hS.ends_in hm hk
          omega

end

end ShellProxy.Framing
