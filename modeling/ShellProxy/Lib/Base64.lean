/-! Base64 with the standard alphabet. Encoding pads the last group; decoding takes it with all, some
or none of its padding, and no bits but zeros behind the last byte. -/
namespace ShellProxy.Base64

def symbol (n : Nat) : UInt8 :=
  if n < 26 then UInt8.ofNat (65 + n)
  else if n < 52 then UInt8.ofNat (71 + n)
  else if n < 62 then UInt8.ofNat (n - 4)
  else if n = 62 then 43
  else 47

def value (c : UInt8) : Option Nat :=
  if 65 ≤ c ∧ c ≤ 90 then some (c.toNat - 65)
  else if 97 ≤ c ∧ c ≤ 122 then some (c.toNat - 71)
  else if 48 ≤ c ∧ c ≤ 57 then some (c.toNat + 4)
  else if c = 43 then some 62
  else if c = 47 then some 63
  else none

def pad : UInt8 := 61

def encode : List UInt8 → List UInt8
  | [] => []
  | [a] => [symbol (a.toNat / 4), symbol (a.toNat % 4 * 16), pad, pad]
  | [a, b] =>
    [symbol (a.toNat / 4), symbol (a.toNat % 4 * 16 + b.toNat / 16), symbol (b.toNat % 16 * 4), pad]
  | a :: b :: c :: rest =>
    symbol (a.toNat / 4) :: symbol (a.toNat % 4 * 16 + b.toNat / 16) ::
      symbol (b.toNat % 16 * 4 + c.toNat / 64) :: symbol (c.toNat % 64) :: encode rest

/-- One byte, with the low bits of the last symbol zero. -/
def pair (p q : UInt8) : Option (List UInt8) := do
  let v ← value p
  let w ← value q
  if w % 16 = 0 then some [UInt8.ofNat (v * 4 + w / 16)] else none

def triple (p q r : UInt8) : Option (List UInt8) := do
  let v ← value p
  let w ← value q
  let x ← value r
  if x % 4 = 0 then some [UInt8.ofNat (v * 4 + w / 16), UInt8.ofNat (w % 16 * 16 + x / 4)] else none

def group (p q r s : UInt8) : Option (List UInt8) := do
  let v ← value p
  let w ← value q
  let x ← value r
  let y ← value s
  some [UInt8.ofNat (v * 4 + w / 16), UInt8.ofNat (w % 16 * 16 + x / 4),
    UInt8.ofNat (x % 4 * 64 + y)]

def decode : List UInt8 → Option (List UInt8)
  | [] => some []
  | [_] => none
  | [p, q] => pair p q
  | [p, q, r] => if r = pad then pair p q else triple p q r
  | p :: q :: r :: s :: rest =>
    if s = pad ∧ rest = [] then if r = pad then pair p q else triple p q r
    else (group p q r s).bind fun front => (decode rest).map (front ++ ·)

theorem value_symbol {n : Nat} (h : n < 64) : value (symbol n) = some n := by
  have hall : ∀ n : Fin 64, value (symbol n) = some n.val := by decide +kernel
  exact hall ⟨n, h⟩

theorem symbol_value {c : UInt8} {n : Nat} (h : value c = some n) : n < 64 ∧ symbol n = c := by
  have hall : ∀ c : Fin 256, (value (UInt8.ofNat c)).all
      (fun n => decide (n < 64 ∧ symbol n = UInt8.ofNat c)) = true := by decide +kernel
  have hc := hall ⟨c.toNat, c.toNat_lt⟩
  rw [UInt8.ofNat_toNat, h] at hc
  simpa using hc

theorem value_pad : value pad = none := by decide

theorem symbol_ne_pad {n : Nat} (h : n < 64) : symbol n ≠ pad := by
  intro he
  have hv := value_symbol h
  rw [he, value_pad] at hv
  cases hv

theorem byte_eq {a : UInt8} {n : Nat} (h : n = a.toNat) : UInt8.ofNat n = a := by
  rw [h, UInt8.ofNat_toNat]

theorem toNat_byte {n : Nat} (h : n < 256) : (UInt8.ofNat n).toNat = n := by
  rw [UInt8.toNat_ofNat', Nat.mod_eq_of_lt h]

section Groups
variable (a b c : UInt8)

theorem pair_symbols :
    pair (symbol (a.toNat / 4)) (symbol (a.toNat % 4 * 16)) = some [a] := by
  have ha := a.toNat_lt
  have hv : value (symbol (a.toNat / 4)) = some (a.toNat / 4) := value_symbol (by omega)
  have hw : value (symbol (a.toNat % 4 * 16)) = some (a.toNat % 4 * 16) := value_symbol (by omega)
  have he : UInt8.ofNat (a.toNat / 4 * 4 + a.toNat % 4 * 16 / 16) = a := byte_eq (by omega)
  have hz : a.toNat % 4 * 16 % 16 = 0 := by omega
  simp only [pair, hv, hw, Option.bind_eq_bind, Option.bind_some, hz, ↓reduceIte, he]

theorem triple_symbols :
    triple (symbol (a.toNat / 4)) (symbol (a.toNat % 4 * 16 + b.toNat / 16))
      (symbol (b.toNat % 16 * 4)) = some [a, b] := by
  have ha := a.toNat_lt
  have hb := b.toNat_lt
  have hv : value (symbol (a.toNat / 4)) = some (a.toNat / 4) := value_symbol (by omega)
  have hw : value (symbol (a.toNat % 4 * 16 + b.toNat / 16)) =
      some (a.toNat % 4 * 16 + b.toNat / 16) := value_symbol (by omega)
  have hx : value (symbol (b.toNat % 16 * 4)) = some (b.toNat % 16 * 4) := value_symbol (by omega)
  have he : UInt8.ofNat (a.toNat / 4 * 4 + (a.toNat % 4 * 16 + b.toNat / 16) / 16) = a :=
    byte_eq (by omega)
  have hf : UInt8.ofNat ((a.toNat % 4 * 16 + b.toNat / 16) % 16 * 16 + b.toNat % 16 * 4 / 4) = b :=
    byte_eq (by omega)
  have hz : b.toNat % 16 * 4 % 4 = 0 := by omega
  simp only [triple, hv, hw, hx, Option.bind_eq_bind, Option.bind_some, hz, ↓reduceIte, he, hf]

theorem group_symbols :
    group (symbol (a.toNat / 4)) (symbol (a.toNat % 4 * 16 + b.toNat / 16))
      (symbol (b.toNat % 16 * 4 + c.toNat / 64)) (symbol (c.toNat % 64)) = some [a, b, c] := by
  have ha := a.toNat_lt
  have hb := b.toNat_lt
  have hc := c.toNat_lt
  have hv : value (symbol (a.toNat / 4)) = some (a.toNat / 4) := value_symbol (by omega)
  have hw : value (symbol (a.toNat % 4 * 16 + b.toNat / 16)) =
      some (a.toNat % 4 * 16 + b.toNat / 16) := value_symbol (by omega)
  have hx : value (symbol (b.toNat % 16 * 4 + c.toNat / 64)) =
      some (b.toNat % 16 * 4 + c.toNat / 64) := value_symbol (by omega)
  have hy : value (symbol (c.toNat % 64)) = some (c.toNat % 64) := value_symbol (by omega)
  have he : UInt8.ofNat (a.toNat / 4 * 4 + (a.toNat % 4 * 16 + b.toNat / 16) / 16) = a :=
    byte_eq (by omega)
  have hf : UInt8.ofNat ((a.toNat % 4 * 16 + b.toNat / 16) % 16 * 16 +
      (b.toNat % 16 * 4 + c.toNat / 64) / 4) = b := byte_eq (by omega)
  have hg : UInt8.ofNat ((b.toNat % 16 * 4 + c.toNat / 64) % 4 * 64 + c.toNat % 64) = c :=
    byte_eq (by omega)
  simp only [group, hv, hw, hx, hy, Option.bind_eq_bind, Option.bind_some, he, hf, hg]

end Groups

theorem decode_encode (bs : List UInt8) : decode (encode bs) = some bs := by
  induction bs using encode.induct with
  | case1 => rfl
  | case2 a => simpa [encode, decode] using pair_symbols a
  | case3 a b =>
    have hn : symbol (b.toNat % 16 * 4) ≠ pad := symbol_ne_pad (by omega)
    simpa [encode, decode, hn] using triple_symbols a b
  | case4 a b c rest ih =>
    have hn : symbol (c.toNat % 64) ≠ pad := symbol_ne_pad (by omega)
    simp [encode, decode, hn, group_symbols, ih]

section Decoded
variable {p q r s : UInt8} {bs : List UInt8}

theorem encode_pair (h : pair p q = some bs) : encode bs = [p, q, pad, pad] := by
  simp only [pair, Option.bind_eq_bind, Option.bind_eq_some_iff, Option.ite_none_right_eq_some,
    Option.some.injEq] at h
  obtain ⟨v, hv, w, hw, hz, rfl⟩ := h
  obtain ⟨hv64, rfl⟩ := symbol_value hv
  obtain ⟨hw64, rfl⟩ := symbol_value hw
  have ha : (UInt8.ofNat (v * 4 + w / 16)).toNat = v * 4 + w / 16 := toNat_byte (by omega)
  have hp : (v * 4 + w / 16) / 4 = v := by omega
  have hq : (v * 4 + w / 16) % 4 * 16 = w := by omega
  rw [encode, ha, hp, hq]

theorem encode_triple (h : triple p q r = some bs) : encode bs = [p, q, r, pad] := by
  simp only [triple, Option.bind_eq_bind, Option.bind_eq_some_iff, Option.ite_none_right_eq_some,
    Option.some.injEq] at h
  obtain ⟨v, hv, w, hw, x, hx, hz, rfl⟩ := h
  obtain ⟨hv64, rfl⟩ := symbol_value hv
  obtain ⟨hw64, rfl⟩ := symbol_value hw
  obtain ⟨hx64, rfl⟩ := symbol_value hx
  have ha : (UInt8.ofNat (v * 4 + w / 16)).toNat = v * 4 + w / 16 := toNat_byte (by omega)
  have hb : (UInt8.ofNat (w % 16 * 16 + x / 4)).toNat = w % 16 * 16 + x / 4 :=
    toNat_byte (by omega)
  have hp : (v * 4 + w / 16) / 4 = v := by omega
  have hq : (v * 4 + w / 16) % 4 * 16 + (w % 16 * 16 + x / 4) / 16 = w := by omega
  have hr : (w % 16 * 16 + x / 4) % 16 * 4 = x := by omega
  rw [encode, ha, hb, hp, hq, hr]

theorem encode_group (h : group p q r s = some bs) (rest : List UInt8) :
    encode (bs ++ rest) = p :: q :: r :: s :: encode rest := by
  simp only [group, Option.bind_eq_bind, Option.bind_eq_some_iff, Option.some.injEq] at h
  obtain ⟨v, hv, w, hw, x, hx, y, hy, rfl⟩ := h
  obtain ⟨hv64, rfl⟩ := symbol_value hv
  obtain ⟨hw64, rfl⟩ := symbol_value hw
  obtain ⟨hx64, rfl⟩ := symbol_value hx
  obtain ⟨hy64, rfl⟩ := symbol_value hy
  have ha : (UInt8.ofNat (v * 4 + w / 16)).toNat = v * 4 + w / 16 := toNat_byte (by omega)
  have hb : (UInt8.ofNat (w % 16 * 16 + x / 4)).toNat = w % 16 * 16 + x / 4 :=
    toNat_byte (by omega)
  have hc : (UInt8.ofNat (x % 4 * 64 + y)).toNat = x % 4 * 64 + y := toNat_byte (by omega)
  have hp : (v * 4 + w / 16) / 4 = v := by omega
  have hq : (v * 4 + w / 16) % 4 * 16 + (w % 16 * 16 + x / 4) / 16 = w := by omega
  have hr : (w % 16 * 16 + x / 4) % 16 * 4 + (x % 4 * 64 + y) / 64 = x := by omega
  have hs : (x % 4 * 64 + y) % 64 = y := by omega
  rw [List.cons_append, List.cons_append, List.cons_append, List.nil_append, encode, ha, hb, hc, hp,
    hq, hr, hs]

end Decoded

/-- What decodes is the encoding of its bytes, but for padding that is left out at the end. -/
theorem encode_decode {t bs : List UInt8} (h : decode t = some bs) :
    ∃ n ≤ 2, encode bs = t ++ List.replicate n pad := by
  induction t using decode.induct generalizing bs with
  | case1 =>
    obtain rfl := Option.some.inj h
    exact ⟨0, by decide, rfl⟩
  | case2 p => cases h
  | case3 p q => exact ⟨2, Nat.le_refl _, encode_pair h⟩
  | case4 p q =>
    rw [decode, if_pos rfl] at h
    exact ⟨1, by decide, encode_pair h⟩
  | case5 p q r hr =>
    rw [decode, if_neg hr] at h
    exact ⟨1, by decide, encode_triple h⟩
  | case6 p q s rest hs =>
    obtain ⟨rfl, rfl⟩ := hs
    rw [decode, if_pos ⟨rfl, rfl⟩, if_pos rfl] at h
    exact ⟨0, by decide, encode_pair h⟩
  | case7 p q r s rest hs hr =>
    obtain ⟨rfl, rfl⟩ := hs
    rw [decode, if_pos ⟨rfl, rfl⟩, if_neg hr] at h
    exact ⟨0, by decide, encode_triple h⟩
  | case8 p q r s rest hs ih =>
    rw [decode, if_neg hs, Option.bind_eq_some_iff] at h
    obtain ⟨front, hfront, hrest⟩ := h
    obtain ⟨behind, hbehind, rfl⟩ := Option.map_eq_some_iff.mp hrest
    obtain ⟨n, hn, he⟩ := ih hbehind
    exact ⟨n, hn, by rw [encode_group hfront, he]; rfl⟩

theorem length_encode (bs : List UInt8) : (encode bs).length = 4 * ((bs.length + 2) / 3) := by
  induction bs using encode.induct with
  | case1 => rfl
  | case2 a | case3 a b => simp [encode]
  | case4 a b c rest ih =>
    rw [encode, List.length_cons, List.length_cons, List.length_cons, List.length_cons, ih,
      List.length_cons, List.length_cons, List.length_cons]
    omega

end ShellProxy.Base64
