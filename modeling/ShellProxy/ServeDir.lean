import ShellProxy.Errors
import ShellProxy.HostPattern

/-! The remote directory of the serve binaries: the names in it, what `deploy` reads out of the
answers of the remote commands, and the paths its cleanup hands to `rm`. -/
namespace ShellProxy.ServeDir
open Frame Errors HostPattern

def serveDir : Text := "~/.local/share/shell-proxy".toList
def uploadGcMinutes : Nat := 10

inductive Arch where
  | x86_64 | aarch64
  deriving DecidableEq, Repr

def Arch.parse (uname : Text) : Option Arch :=
  let name := trim uname
  if name = "x86_64".toList ∨ name = "amd64".toList then some .x86_64
  else if name = "aarch64".toList ∨ name = "arm64".toList then some .aarch64
  else none

def Arch.asStr : Arch → Text
  | .x86_64 => "x86_64".toList
  | .aarch64 => "aarch64".toList

def Arch.envVar : Arch → String
  | .x86_64 => "SP_SERVE_X86_64"
  | .aarch64 => "SP_SERVE_AARCH64"

def plainChar (c : Char) : Bool := c ≠ '/' && c ≠ '\n'

/-- A name in one directory that fits on one line. -/
structure FileName where
  text : Text
  plain : text.all plainChar = true
  deriving DecidableEq

def FileName.ofText (t : Text) : Option FileName :=
  if h : t.all plainChar = true then some ⟨t, h⟩ else none

theorem plain_append {a b : Text} (ha : a.all plainChar = true) (hb : b.all plainChar = true) :
    (a ++ b).all plainChar = true := by
  rw [List.all_append, ha, hb]
  rfl

theorem FileName.no_slash (n : FileName) : ∀ c ∈ n.text, c ≠ '/' := by
  intro c hc
  have hp := List.all_eq_true.mp n.plain c hc
  simp only [plainChar, Bool.and_eq_true, decide_eq_true_eq] at hp
  exact hp.1

theorem FileName.no_newline (n : FileName) : ∀ c ∈ n.text, c ≠ '\n' := by
  intro c hc
  have hp := List.all_eq_true.mp n.plain c hc
  simp only [plainChar, Bool.and_eq_true, decide_eq_true_eq] at hp
  exact hp.2

/-- `sp-serve-{version}-{arch}`. -/
def serveName (version : FileName) (arch : Arch) : FileName where
  text := "sp-serve-".toList ++ (version.text ++ ("-".toList ++ arch.asStr))
  plain := plain_append rfl (plain_append version.plain (by cases arch <;> rfl))

/-- `.upload-{nonce}`. -/
def uploadName (nonce : FileName) : FileName where
  text := ".upload-".toList ++ nonce.text
  plain := plain_append rfl nonce.plain

def pathOf (name : FileName) : Text := serveDir ++ '/' :: name.text

theorem FileName.ext {n m : FileName} (h : n.text = m.text) : n = m := by
  cases n
  cases m
  cases h
  rfl

theorem serveName_text (v : FileName) (a : Arch) :
    (serveName v a).text = "sp-serve-".toList ++ (v.text ++ ("-".toList ++ a.asStr)) := rfl

theorem uploadName_text (n : FileName) : (uploadName n).text = ".upload-".toList ++ n.text := rfl

def Arch.third : Arch → Char
  | .x86_64 => '_'
  | .aarch64 => 'h'

theorem third_letter (t : Text) (a : Arch) :
    (t ++ ("-".toList ++ a.asStr)).reverse[2]? = some a.third := by
  have hlen : 2 < ("-".toList ++ a.asStr).reverse.length := by cases a <;> decide
  rw [List.reverse_append, List.getElem?_append_left hlen]
  cases a <;> rfl

theorem serveName_eq {v w : FileName} {a b : Arch} (h : serveName v a = serveName w b) :
    v = w ∧ a = b := by
  have ht : (serveName v a).text = (serveName w b).text := by rw [h]
  rw [serveName_text, serveName_text, List.append_cancel_left_eq] at ht
  have hab : a = b := by
    have hr := third_letter v.text a
    rw [ht, third_letter, Option.some.injEq] at hr
    cases a with
    | x86_64 =>
      cases b with
      | x86_64 => rfl
      | aarch64 => exact absurd hr (by decide)
    | aarch64 =>
      cases b with
      | x86_64 => exact absurd hr (by decide)
      | aarch64 => rfl
  subst hab
  exact ⟨FileName.ext (List.append_cancel_right ht), rfl⟩

theorem uploadName_eq {n m : FileName} (h : uploadName n = uploadName m) : n = m := by
  have ht : (uploadName n).text = (uploadName m).text := by rw [h]
  rw [uploadName_text, uploadName_text] at ht
  exact FileName.ext (List.append_cancel_left ht)

theorem upload_ne_serve (n v : FileName) (a : Arch) : uploadName n ≠ serveName v a := by
  intro h
  have ht : (uploadName n).text.head? = (serveName v a).text.head? := by rw [h]
  rw [uploadName_text, serveName_text] at ht
  simp at ht

/-! ### The checksum -/

def hexDigit (n : Nat) : Char := if n < 10 then Char.ofNat (48 + n) else Char.ofNat (87 + n)

/-- `hex_simd`, lower case. -/
def encodeHex (bytes : Bytes) : Text :=
  bytes.flatMap fun b => [hexDigit (b.toNat / 16), hexDigit (b.toNat % 16)]

/-- What `sha256sum` prints for one file. -/
def sumLine (hex path : Text) : Text := hex ++ ' ' :: ' ' :: (path ++ ['\n'])

/-- The comparison of `remote_matches` on that line. -/
def sumMatches (out expectedHex : Text) : Bool :=
  toAsciiLowercase ((splitWhitespace out).head?.getD []) = expectedHex

theorem hexDigit_lower (n : Nat) (h : n < 16) :
    (hexDigit n).toLower = hexDigit n ∧ isWhitespace (hexDigit n) = false := by
  have key : ∀ k : Fin 16,
      (hexDigit k).toLower = hexDigit k ∧ isWhitespace (hexDigit k) = false := by
    decide
  exact key ⟨n, h⟩

theorem hexDigit_eq {n m : Nat} (hn : n < 16) (hm : m < 16) (h : hexDigit n = hexDigit m) :
    n = m := by
  have key : ∀ a b : Fin 16, hexDigit a = hexDigit b → a = b := by decide
  exact congrArg Fin.val (key ⟨n, hn⟩ ⟨m, hm⟩ h)

theorem encodeHex_lower (bytes : Bytes) :
    ∀ c ∈ encodeHex bytes, c.toLower = c ∧ isWhitespace c = false := by
  intro c hc
  obtain ⟨b, -, hb⟩ := List.mem_flatMap.mp hc
  have hlt := b.toNat_lt
  simp only [List.mem_cons, List.not_mem_nil, or_false] at hb
  rcases hb with rfl | rfl
  · exact hexDigit_lower _ (by omega)
  · exact hexDigit_lower _ (by omega)

theorem encodeHex_eq {a b : Bytes} (h : encodeHex a = encodeHex b) : a = b := by
  induction a generalizing b with
  | nil =>
    cases b with
    | nil => rfl
    | cons y ys => simp [encodeHex] at h
  | cons x xs ih =>
    cases b with
    | nil => simp [encodeHex] at h
    | cons y ys =>
      simp only [encodeHex, List.flatMap_cons, List.cons_append, List.nil_append,
        List.cons.injEq] at h
      obtain ⟨hhi, hlo, hrest⟩ := h
      have hx := x.toNat_lt
      have hy := y.toNat_lt
      have hdiv := hexDigit_eq (by omega) (by omega) hhi
      have hmod := hexDigit_eq (by omega) (by omega) hlo
      have hxy : x = y := UInt8.toNat_inj.mp (by omega)
      rw [hxy, ih hrest]

theorem sumMatches_iff {d e : Bytes} (hd : d ≠ []) (path : Text) :
    sumMatches (sumLine (encodeHex d) path) (encodeHex e) = true ↔ d = e := by
  have hne : encodeHex d ≠ [] := by
    cases d with
    | nil => exact absurd rfl hd
    | cons x xs => simp [encodeHex]
  have hsplit : (splitWhitespace (sumLine (encodeHex d) path)).head? = some (encodeHex d) := by
    unfold splitWhitespace sumLine
    rw [List.splitOnP_append_cons_of_forall_mem (fun c hc => (encodeHex_lower d c hc).2) ' ' rfl,
      List.filter_cons_of_pos (by simpa using hne)]
    rfl
  have hlow : toAsciiLowercase (encodeHex d) = encodeHex d := by
    unfold toAsciiLowercase
    exact List.map_congr_left (fun c hc => (encodeHex_lower d c hc).1) |>.trans (List.map_id _)
  simp only [sumMatches, hsplit, Option.getD_some, hlow, decide_eq_true_eq]
  exact ⟨encodeHex_eq, congrArg encodeHex⟩

/-! ### The cleanup lists -/

/-- What the remote shell makes of `SERVE_DIR`. `rm` gets the paths of `find` as they are, so the
model takes a directory without blanks. -/
structure Home where
  dir : Text
  solid : dir.all (fun c => !isWhitespace c) = true

theorem Home.no_blank (home : Home) : ∀ c ∈ home.dir, isWhitespace c = false := by
  simpa using home.solid

def printed (rows : List Text) : Text := rows.flatMap fun row => row ++ ['\n']

/-- `ls` leaves the dot files out. -/
def lsOut (names : List FileName) : Text :=
  printed ((names.map (·.text)).filter fun n => n.head? ≠ some '.')

def isUpload (name : FileName) : Bool := ".upload-".toList.isPrefixOf name.text

/-- `find` prints the names of old enough uploads below the directory. -/
def findOut (home : Home) (aged : List FileName) : Text :=
  printed ((aged.filter isUpload).map fun n => home.dir ++ '/' :: n.text)

def toolGenerated (name : Text) : Bool :=
  ("sp-serve-".toList.isPrefixOf name || ".upload-".toList.isPrefixOf name) &&
    name.all fun c => c.isAlphanum || c = '-' || c = '_' || c = '.'

/-- `rsplit('/').next()`. -/
def lastComponent (p : Text) : Text := p.rtakeWhile (· ≠ '/')

def staleServe (keep out : Text) : List Text :=
  (((lines out).map trim).filter fun n => n ≠ keep ∧ toolGenerated n).map
    fun n => serveDir ++ '/' :: n

def staleUploads (out : Text) : List Text :=
  ((lines out).map trim).filter fun p => toolGenerated (lastComponent p)

def below (dir p : Text) : Option FileName :=
  if (dir ++ ['/']).isPrefixOf p then FileName.ofText (p.drop (dir.length + 1)) else none

/-- The file of the directory that a path names on the remote side. -/
def Home.resolve (home : Home) (p : Text) : Option FileName :=
  (below serveDir p).or (below home.dir p)

theorem lastComponent_append (d n : Text) (h : ∀ c ∈ n, c ≠ '/') :
    lastComponent (d ++ '/' :: n) = n := by
  have hall : ∀ c ∈ n.reverse, (decide (c ≠ '/')) = true := by
    simpa using h
  simp only [lastComponent, List.rtakeWhile, List.reverse_append, List.reverse_cons,
    List.append_assoc]
  rw [List.takeWhile_append_of_pos hall]
  simp

theorem below_last {dir p : Text} {n : FileName} (h : below dir p = some n) :
    lastComponent p = n.text := by
  simp only [below, FileName.ofText, Option.ite_none_right_eq_some, Option.dite_none_right_eq_some,
    Option.some.injEq, List.isPrefixOf_iff_prefix] at h
  obtain ⟨⟨rest, rfl⟩, hp, rfl⟩ := h
  have hd : (dir ++ ['/'] ++ rest).drop (dir.length + 1) = rest := by simp
  simp only [hd] at hp ⊢
  rw [List.append_assoc, List.singleton_append]
  exact lastComponent_append dir rest (FileName.no_slash ⟨rest, hp⟩)

theorem resolve_last {home : Home} {p : Text} {n : FileName} (h : home.resolve p = some n) :
    lastComponent p = n.text := by
  rcases Option.or_eq_some_iff.mp h with hb | ⟨-, hb⟩
  · exact below_last hb
  · exact below_last hb

theorem resolve_pathOf (home : Home) (n : FileName) : home.resolve (pathOf n) = some n := by
  have hpath : pathOf n = serveDir ++ ['/'] ++ n.text := by simp [pathOf]
  have hrest : (pathOf n).drop (serveDir.length + 1) = n.text := by
    rw [hpath]
    simp
  have hpre : (serveDir ++ ['/']).isPrefixOf (pathOf n) = true :=
    List.isPrefixOf_iff_prefix.mpr ⟨n.text, hpath.symm⟩
  rw [Home.resolve, below, if_pos hpre, hrest, FileName.ofText, dif_pos n.plain]
  rfl

theorem mem_staleServe {keep out p : Text} (h : p ∈ staleServe keep out) :
    lastComponent p ≠ keep := by
  simp only [staleServe, List.mem_map, List.mem_filter, decide_eq_true_eq] at h
  obtain ⟨n, ⟨-, hne, htool⟩, rfl⟩ := h
  have hslash : ∀ c ∈ n, c ≠ '/' := by
    rintro c hc rfl
    simp only [toolGenerated, Bool.and_eq_true, List.all_eq_true] at htool
    exact absurd (htool.2 '/' hc) (by decide)
  rw [lastComponent_append serveDir n hslash]
  exact hne

theorem splitOn_printed {rows : List Text} (h : ∀ r ∈ rows, ∀ c ∈ r, c ≠ '\n') :
    (printed rows).splitOn '\n' = rows ++ [[]] := by
  induction rows with
  | nil => rfl
  | cons r rows ih =>
    have hr : ∀ c ∈ r, (c == '\n') = false := by
      simpa using h r List.mem_cons_self
    have htail := ih fun q hq => h q (List.mem_cons_of_mem r hq)
    simp only [List.splitOn, printed, List.flatMap_cons, List.append_assoc, List.singleton_append]
      at htail ⊢
    rw [List.splitOnP_append_cons_of_forall_mem hr '\n' rfl, htail]
    rfl

theorem lines_printed {rows : List Text} (h : ∀ r ∈ rows, ∀ c ∈ r, c ≠ '\n') :
    lines (printed rows) = rows.map stripCr := by
  simp [lines, splitOn_printed h]

theorem trim_front {a r : Text} (ha : ∀ c ∈ a, isWhitespace c = false) (hne : a ≠ []) :
    ∃ r', r' <+: r ∧ trim (stripCr (a ++ r)) = a ++ r' := by
  have hcr : ∃ r', r' <+: r ∧ stripCr (a ++ r) = a ++ r' := by
    unfold stripCr
    split
    · rename_i hlast
      by_cases hr : r = []
      · subst hr
        rw [List.append_nil] at hlast
        have hmem := List.mem_of_getLast? hlast
        exact absurd (ha _ hmem) (by decide)
      · exact ⟨r.dropLast, List.dropLast_prefix r, List.dropLast_append_of_ne_nil hr⟩
    · exact ⟨r, List.prefix_rfl, rfl⟩
  obtain ⟨q, hq, hs⟩ := hcr
  have hfront : (a ++ q).dropWhile isWhitespace = a ++ q := by
    cases a with
    | nil => exact absurd rfl hne
    | cons c cs => simp [ha c List.mem_cons_self]
  have hback : a <+: (a ++ q).rdropWhile isWhitespace := by
    have hnone : (a.reverse).dropWhile isWhitespace = a.reverse := by
      cases hrev : a.reverse with
      | nil => rfl
      | cons c cs =>
        have hc : c ∈ a := by simpa [hrev] using List.mem_reverse.mp (hrev ▸ List.mem_cons_self)
        simp [ha c hc]
    rw [List.rdropWhile, List.reverse_append, List.dropWhile_append]
    split
    · rw [hnone, List.reverse_reverse]
    · simp
  obtain ⟨t, ht⟩ := hback
  refine ⟨t, ?_, by rw [trim, hs, hfront, ht]⟩
  have hp := List.rdropWhile_prefix isWhitespace (a ++ q)
  rw [← ht, List.prefix_append_right_inj] at hp
  exact hp.trans hq

theorem mem_staleUploads {home : Home} {aged : List FileName} {p : Text}
    (h : p ∈ staleUploads (findOut home aged)) : ".upload-".toList <+: lastComponent p := by
  have hrows : ∀ r ∈ (aged.filter isUpload).map (fun n => home.dir ++ '/' :: n.text),
      ∀ c ∈ r, c ≠ '\n' := by
    intro r hr c hc
    obtain ⟨n, -, rfl⟩ := List.mem_map.mp hr
    rcases List.mem_append.mp hc with hd | hd
    · rintro rfl
      exact absurd (home.no_blank _ hd) (by decide)
    · rcases List.mem_cons.mp hd with rfl | hd
      · decide
      · exact n.no_newline c hd
  simp only [staleUploads, findOut, lines_printed hrows, List.map_map, List.mem_filter,
    List.mem_map, Function.comp_apply] at h
  obtain ⟨⟨n, ⟨-, hup⟩, rfl⟩, -⟩ := h
  obtain ⟨r, hr⟩ := List.isPrefixOf_iff_prefix.mp hup
  have hsolid : ∀ c ∈ home.dir ++ '/' :: ".upload-".toList, isWhitespace c = false := by
    have hall : (home.dir ++ '/' :: ".upload-".toList).all (fun c => !isWhitespace c) = true := by
      rw [List.all_append, home.solid]
      rfl
    intro c hc
    simpa using List.all_eq_true.mp hall c hc
  obtain ⟨r', hr', ht⟩ := trim_front (r := r) hsolid (by simp)
  have hline : home.dir ++ '/' :: n.text = home.dir ++ '/' :: ".upload-".toList ++ r := by
    rw [← hr, List.append_assoc, List.cons_append]
  rw [hline, ht, List.append_assoc, List.cons_append]
  refine lastComponent_append home.dir _ ?_ ▸ List.prefix_append _ r'
  intro c hc
  have hmem : c ∈ n.text := by
    rw [← hr]
    rcases List.mem_append.mp hc with hd | hd
    · exact List.mem_append_left r hd
    · exact List.mem_append_right _ (hr'.subset hd)
  exact n.no_slash c hmem

/-- Paths whose removal leaves one name alone. -/
def Spares (home : Home) (keep : FileName) (paths : List Text) : Prop :=
  ∀ p ∈ paths, home.resolve p ≠ some keep

theorem spares_serve (home : Home) (keep : FileName) (out : Text) :
    Spares home keep (staleServe keep.text out) := by
  intro p hp hr
  exact mem_staleServe hp (resolve_last hr)

theorem spares_uploads (home : Home) (v : FileName) (a : Arch) (aged : List FileName) :
    Spares home (serveName v a) (staleUploads (findOut home aged)) := by
  intro p hp hr
  have hpre := mem_staleUploads hp
  rw [resolve_last hr] at hpre
  obtain ⟨t, ht⟩ := hpre
  have hhead := congrArg List.head? ht
  rw [serveName_text] at hhead
  simp at hhead

/-! ### The version line -/

/-- Status 0 and exactly one line; the escapes of quoted output are Lean's. -/
def verifyServeVersion (stdout : Text) (status : Nat) (expected : Text) : Except String Unit :=
  let got := if stdout.getLast? = some '\n' then stdout.dropLast else stdout
  if status = 0 ∧ got = expected then .ok ()
  else if status ≠ 0 then
    .error s!"exit status {status}, output {(String.ofList (trim got)).quote}"
  else
    .error s!"reported {(String.ofList got).quote}, expected {(String.ofList expected).quote}"

def versionMismatch (path : Text) (arch : Arch) (reason : String) : Errors.Error :=
  .remote (s!"deployed {String.ofList path} failed the version check ({reason}); " ++
    s!"{arch.envVar} may point at a stale sp-serve build - rebuild it from this source tree")

theorem verified_status {out expected : Text} {status : Nat}
    (h : verifyServeVersion out status expected = .ok ()) : status = 0 := by
  by_contra hne
  simp [verifyServeVersion, hne] at h

end ShellProxy.ServeDir
