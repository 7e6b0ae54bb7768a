import ShellProxy.Lib.Utf8
import ShellProxy.ServeDir

/-! The command line of `cleanup_stale`, for any home directory and any file names. -/
namespace ShellProxy.Cleanup
open Frame HostPattern ServeDir Utf8

def lsCommand : Text := "ls ".toList ++ serveDir

def findCommand : Text :=
  "find ".toList ++ (serveDir ++ (" -maxdepth 1 -name '.upload-*' -mmin +".toList ++
    (toString uploadGcMinutes).toList))

def stale (execCollect : Text → Except Errors.Error (Nat × Bytes)) (keep : Text) :
    Except Errors.Error (List Text) := do
  let (rc, out) ← execCollect lsCommand
  -- directory gone: nothing to clean
  if rc ≠ 0 then return []
  let (frc, fout) ← execCollect findCommand
  let listed := staleServe keep (lossy out)
  return if frc = 0 then listed ++ staleUploads (lossy fout) else listed

def rmLine (stale : List Text) : Text := "rm -f ".toList ++ [' '].intercalate stale

/-- The line that goes to the remote shell, if any. -/
def cleanupStale (execCollect : Text → Except Errors.Error (Nat × Bytes)) (keep : Text) :
    Except Errors.Error (Option Text) :=
  (stale execCollect keep).map fun s => if s = [] then none else some (rmLine s)

def slash : UInt8 := 47

def newline : UInt8 := 10

def tailDir : Text := "/.local/share/shell-proxy".toList

def relDir : Text := ".local/share/shell-proxy".toList

structure Entry where
  name : Bytes
  old : Bool
  plain : slash ∉ name

/-- The remote account: names are bytes, and neither they nor the home directory need be text. -/
structure Account where
  home : Bytes
  absolute : home.head? = some slash
  entries : List Entry

namespace Account
variable (a : Account)

def dir : Bytes := a.home ++ encode tailDir

def uploads : List Bytes :=
  (a.entries.filter fun e => e.old && (encode ".upload-".toList).isPrefixOf e.name).map (·.name)

def printedBytes (rows : List Bytes) : Bytes := rows.flatMap fun row => row ++ [newline]

/-- `ls` prints plain names and leaves the dot files out; `find` prints expanded paths. -/
def exec (cmd : Text) : Except Errors.Error (Nat × Bytes) :=
  if cmd = lsCommand then
    .ok (0, printedBytes ((a.entries.map (·.name)).filter fun n => n.head? ≠ some 46))
  else if cmd = findCommand then
    .ok (0, printedBytes (a.uploads.map fun n => a.dir ++ slash :: n))
  else .ok (0, [])

def operands (keep : Text) : List Text :=
  staleServe keep
      (lossy (printedBytes ((a.entries.map (·.name)).filter fun n => n.head? ≠ some 46))) ++
    staleUploads (lossy (printedBytes (a.uploads.map fun n => a.dir ++ slash :: n)))

theorem stale_exec (keep : Text) : stale a.exec keep = .ok (a.operands keep) := by
  have hne : findCommand ≠ lsCommand := by decide
  simp only [stale, exec, if_pos, if_neg hne, operands]
  rfl

/-- The file that a word of the command line names, in a shell that starts in the home directory. -/
def denotes (p : Text) : Option Bytes :=
  match p with
  | '~' :: '/' :: rest => some (a.home ++ slash :: encode rest)
  | '~' :: _ => none
  | '/' :: rest => some (slash :: encode rest)
  | p => some (a.home ++ slash :: encode p)

end Account

def ordinary (c : Char) : Bool := c.isAlphanum || c = '-' || c = '_' || c = '.' || c = '/'

/-- Which characters no login shell treats specially. -/
structure Shells where
  plain : Char → Bool
  plain_of_ordinary : ∀ c, ordinary c = true → plain c = true
  blank : plain ' ' = false
  newline : plain '\n' = false

def untilded (p : Text) : Text := if p.head? = some '~' then p.tail else p

structure Good (S : Shells) (a : Account) (keep : Text) (p : Text) : Prop where
  plain : ∀ c ∈ untilded p, S.plain c = true
  direct : ∃ f : Text, a.denotes p = some (a.dir ++ slash :: encode f) ∧ '/' ∉ f ∧
    ("sp-serve-".toList <+: f ∨ ".upload-".toList <+: f) ∧ f ≠ keep

/-! ### The operands -/

theorem lossy_slash (a c : Bytes) : lossy (a ++ slash :: c) = lossy a ++ '/' :: lossy c :=
  lossy_ascii a c (by decide)

theorem lossy_newline (a c : Bytes) : lossy (a ++ newline :: c) = lossy a ++ '\n' :: lossy c :=
  lossy_ascii a c (by decide)

theorem lossy_printed (rows : List Bytes) :
    lossy (Account.printedBytes rows) = printed (rows.map lossy) := by
  induction rows with
  | nil => rfl
  | cons r rows ih =>
    simp only [Account.printedBytes, printed, List.flatMap_cons, List.map_cons, List.append_assoc,
      List.singleton_append] at ih ⊢
    rw [lossy_newline, ih]

def textLines (t : Text) : List Text := t.splitOn '\n'

theorem textLines_ne_nil (t : Text) : textLines t ≠ [] := List.splitOn_ne_nil '\n' t

theorem intercalate_newline {rows : List Text} (h : rows ≠ []) :
    ['\n'].intercalate rows ++ ['\n'] = printed rows := by
  induction rows with
  | nil => exact absurd rfl h
  | cons r rows ih =>
    cases rows with
    | nil => simp [printed]
    | cons q rows =>
      have hq := ih (List.cons_ne_nil q rows)
      simp only [printed, List.flatMap_cons] at hq ⊢
      rw [List.intercalate_cons_cons, List.append_assoc, List.append_assoc, hq]
      simp

theorem printed_textLines (t : Text) : printed (textLines t) = t ++ ['\n'] := by
  rw [← intercalate_newline (textLines_ne_nil t), textLines, List.intercalate_splitOn]

theorem textLines_newline {t : Text} : ∀ l ∈ textLines t, ∀ c ∈ l, c ≠ '\n' := by
  induction t with
  | nil => simp [textLines]
  | cons x t ih =>
    rw [textLines, List.splitOn_cons_eq_if_modifyHead]
    split
    · exact List.forall_mem_cons.mpr ⟨by simp, ih⟩
    · rename_i hx
      cases ht : t.splitOn '\n' with
      | nil => exact absurd ht (List.splitOn_ne_nil '\n' t)
      | cons r rows =>
        rw [textLines, ht, List.forall_mem_cons] at ih
        rw [List.modifyHead_cons, List.forall_mem_cons]
        exact ⟨List.forall_mem_cons.mpr ⟨by simpa using hx, ih.1⟩, ih.2⟩

theorem printed_append (xs ys : List Text) : printed (xs ++ ys) = printed xs ++ printed ys :=
  List.flatMap_append

namespace Account
variable (a : Account)

def homeText : Text := lossy a.home

def front : List Text := (textLines a.homeText).dropLast

def lastLine : Text := (textLines a.homeText).getLast (textLines_ne_nil _)

theorem front_last : printed a.front ++ a.lastLine = a.homeText := by
  have h := printed_textLines a.homeText
  rw [← List.dropLast_append_getLast (textLines_ne_nil a.homeText), printed_append] at h
  refine (List.append_left_inj ['\n']).mp ?_
  rw [← h, List.append_assoc]
  congr 1
  simp [printed, lastLine]

def firstLine (name : Bytes) : Text := (textLines (lossy name)).head (textLines_ne_nil _)

def laterLines (name : Bytes) : List Text := (textLines (lossy name)).tail

theorem first_later (name : Bytes) :
    firstLine name ++ '\n' :: printed (laterLines name) = lossy name ++ ['\n'] := by
  have hcons : firstLine name :: laterLines name = textLines (lossy name) :=
    List.cons_head_tail (textLines_ne_nil _)
  rw [← printed_textLines, ← hcons]
  simp [printed]

def rows (name : Bytes) : List Text :=
  a.front ++ (a.lastLine ++ (tailDir ++ '/' :: firstLine name)) :: laterLines name

theorem lossy_path (name : Bytes) :
    lossy (a.dir ++ slash :: name) = a.homeText ++ (tailDir ++ '/' :: lossy name) := by
  have htail : encode tailDir = slash :: encode relDir := rfl
  rw [lossy_slash, dir, htail, lossy_slash, lossy_encode, List.append_assoc]
  rfl

theorem printed_rows (name : Bytes) :
    printed (a.rows name) = lossy (a.dir ++ slash :: name) ++ ['\n'] := by
  have hrest := first_later name
  have hrow : printed ((a.lastLine ++ (tailDir ++ '/' :: firstLine name)) :: laterLines name) =
      a.lastLine ++ (tailDir ++ '/' :: (firstLine name ++ '\n' :: printed (laterLines name))) := by
    simp [printed]
  rw [rows, printed_append, hrow, hrest, lossy_path, ← front_last]
  simp

theorem rows_newline (name : Bytes) : ∀ l ∈ a.rows name, ∀ c ∈ l, c ≠ '\n' := by
  intro l hl
  obtain hl | hl := List.mem_append.mp hl
  · exact textLines_newline l (List.mem_of_mem_dropLast hl)
  · obtain rfl | hl := List.mem_cons.mp hl
    · intro c hc
      obtain hc | hc := List.mem_append.mp hc
      · exact textLines_newline _ (List.getLast_mem _) c hc
      · obtain hc | hc := List.mem_append.mp hc
        · exact fun he => absurd (he ▸ hc) (by decide : '\n' ∉ tailDir)
        · obtain rfl | hc := List.mem_cons.mp hc
          · decide
          · exact textLines_newline _ (List.head_mem _) c hc
    · exact textLines_newline l (List.mem_of_mem_tail hl)

theorem mem_staleUploads_iff (p : Text) :
    p ∈ staleUploads (lossy (printedBytes (a.uploads.map fun n => a.dir ++ slash :: n))) ↔
      ∃ n ∈ a.uploads, ∃ row ∈ a.rows n, p = trim row ∧ toolGenerated (lastComponent p) = true := by
  have hprinted : printed ((a.uploads.map fun n => a.dir ++ slash :: n).map lossy) =
      printed (a.uploads.flatMap a.rows) := by
    induction a.uploads with
    | nil => rfl
    | cons n ns ih =>
      simp only [List.map_cons, List.flatMap_cons, printed_append, printed_rows, ← ih]
      rfl
  rw [lossy_printed, hprinted, staleUploads, lines_printed (by
    intro r hr
    obtain ⟨n, -, hn⟩ := List.mem_flatMap.mp hr
    exact a.rows_newline n r hn)]
  simp only [List.map_map, List.mem_filter, List.mem_map, List.mem_flatMap, Function.comp_apply,
    trim_stripCr]
  constructor
  · rintro ⟨⟨row, ⟨n, hn, hrow⟩, rfl⟩, htool⟩
    exact ⟨n, hn, row, hrow, rfl, htool⟩
  · rintro ⟨n, hn, row, hrow, rfl, htool⟩
    exact ⟨⟨row, ⟨n, hn, hrow⟩, rfl⟩, htool⟩

theorem homeText_head : ∃ rest, a.homeText = '/' :: rest := by
  obtain ⟨rest, hr⟩ := List.head?_eq_some_iff.mp a.absolute
  exact ⟨lossy rest, by rw [homeText, hr]; exact lossy_slash [] rest⟩

theorem dir_slash (f : Text) :
    a.dir ++ slash :: encode f = a.home ++ encode (tailDir ++ '/' :: f) := by
  rw [dir, encode_append, List.append_assoc]
  rfl

/-- The three ways to write the path of a file in the directory. -/
inductive Written (p f : Text) : Prop where
  | tilde : p = serveDir ++ '/' :: f → Written p f
  | relative : p = relDir ++ '/' :: f → Written p f
  | expanded : p = a.homeText ++ (tailDir ++ '/' :: f) → encode a.homeText = a.home → Written p f

theorem written_iff (p f : Text) :
    a.denotes p = some (a.dir ++ slash :: encode f) ↔ a.Written p f := by
  rw [dir_slash]
  constructor
  · intro h
    unfold denotes at h
    split at h
    · rename_i rest
      have ht : encode ('/' :: rest) = encode (tailDir ++ '/' :: f) :=
        List.append_cancel_left (Option.some.inj h)
      refine .tilde ?_
      rw [encode_injective ht]
      rfl
    · cases h
    · rename_i rest
      have ht : encode ('/' :: rest) = a.home ++ encode (tailDir ++ '/' :: f) := Option.some.inj h
      have htext : '/' :: rest = a.homeText ++ (tailDir ++ '/' :: f) := by
        rw [← lossy_encode ('/' :: rest), ht, ← dir_slash, lossy_path, lossy_encode]
      refine .expanded htext ?_
      rw [htext, encode_append] at ht
      exact List.append_cancel_right ht
    · have ht : encode ('/' :: p) = encode (tailDir ++ '/' :: f) :=
        List.append_cancel_left (Option.some.inj h)
      exact .relative (List.cons.inj (encode_injective ht)).2
  · rintro (rfl | rfl | ⟨rfl, hv⟩)
    · rfl
    · rfl
    · obtain ⟨rest, hrest⟩ := a.homeText_head
      rw [← hv, ← encode_append, hrest]
      rfl

theorem Written.last {p f : Text} (h : a.Written p f) (hf : '/' ∉ f) : lastComponent p = f := by
  have hs : ∀ c ∈ f, c ≠ '/' := fun c hc he => hf (he ▸ hc)
  obtain rfl | rfl | ⟨rfl, -⟩ := h
  · exact lastComponent_append _ f hs
  · exact lastComponent_append _ f hs
  · rw [← List.append_assoc]
    exact lastComponent_append _ f hs

end Account

theorem ordinary_of_toolGenerated {g : Text} (h : toolGenerated g = true) :
    (∀ c ∈ g, ordinary c = true) ∧ '/' ∉ g := by
  simp only [toolGenerated, Bool.and_eq_true, List.all_eq_true] at h
  refine ⟨fun c hc => ?_, fun hc => absurd (h.2 '/' hc) (by decide)⟩
  have hg := h.2 c hc
  simp only [Bool.or_eq_true] at hg
  simp only [ordinary, Bool.or_eq_true]
  exact .inl hg

theorem prefixed_of_toolGenerated {g : Text} (h : toolGenerated g = true) :
    "sp-serve-".toList <+: g ∨ ".upload-".toList <+: g := by
  simp only [toolGenerated, Bool.and_eq_true, Bool.or_eq_true, List.isPrefixOf_iff_prefix] at h
  exact h.1

variable (S : Shells) (a : Account) (keep : Text)

theorem good_iff {p : Text} (hp : toolGenerated (lastComponent p) = true) :
    Good S a keep p ↔ lastComponent p ≠ keep ∧ a.Written p (lastComponent p) ∧
      (p = a.homeText ++ (tailDir ++ '/' :: lastComponent p) →
        ∀ c ∈ a.homeText, S.plain c = true) := by
  obtain ⟨hord, hslash⟩ := ordinary_of_toolGenerated hp
  obtain ⟨rest, hrest⟩ := a.homeText_head
  constructor
  · rintro ⟨hplain, f, hf, hno, hpre, hkeep⟩
    have hw := (a.written_iff p f).mp hf
    obtain rfl := hw.last a hno
    refine ⟨hkeep, hw, fun he c hc => hplain c ?_⟩
    rw [he, hrest, untilded, if_neg (by simp), ← hrest]
    exact List.mem_append_left _ hc
  · rintro ⟨hkeep, hw, hhome⟩
    refine ⟨?_, _, (a.written_iff p _).mpr hw, hslash, prefixed_of_toolGenerated hp, hkeep⟩
    generalize lastComponent p = g at hord hw hhome
    have htail : ∀ d : Text, (∀ c ∈ d, ordinary c = true) →
        ∀ c ∈ d ++ '/' :: g, S.plain c = true := by
      intro d hd c hc
      refine S.plain_of_ordinary c ?_
      obtain hc | hc := List.mem_append.mp hc
      · exact hd c hc
      · obtain rfl | hc := List.mem_cons.mp hc
        · rfl
        · exact hord c hc
    obtain rfl | rfl | ⟨rfl, -⟩ := hw
    · exact htail tailDir (List.all_eq_true.mp rfl)
    · exact htail relDir (List.all_eq_true.mp rfl)
    · have hhead : untilded (a.homeText ++ (tailDir ++ '/' :: g)) =
          a.homeText ++ (tailDir ++ '/' :: g) := by
        rw [hrest, untilded, if_neg (by simp)]
      rw [hhead, List.forall_mem_append]
      exact ⟨hhome rfl, htail tailDir (List.all_eq_true.mp rfl)⟩

/-- The home directory reaches the command line unharmed: it is text without special characters,
or its last line is a tilde that stands for all of it. -/
def HomeOk : Prop :=
  a.lastLine.dropWhile isWhitespace = ['~'] ∨
    encode a.homeText = a.home ∧ ∀ c ∈ a.homeText, S.plain c = true

/-- What the listing of old uploads may contain. -/
structure Tame : Prop where
  /-- no upload has a line break with a generated name behind it -/
  later : ∀ n ∈ a.uploads, ∀ l ∈ Account.laterLines n, toolGenerated (trim l) = false
  home : (∃ n ∈ a.uploads, toolGenerated (trim (Account.firstLine n)) = true) → HomeOk S a
  /-- the lines before the last one of a home directory with line breaks -/
  front : a.uploads ≠ [] → ∀ l ∈ a.front, toolGenerated (lastComponent (trim l)) = true →
    lastComponent (trim l) ≠ keep ∧
      (trim l = serveDir ++ '/' :: lastComponent (trim l) ∨
        trim l = relDir ++ '/' :: lastComponent (trim l))

namespace Account

theorem mem_uploads {n : Bytes} (h : n ∈ a.uploads) :
    slash ∉ n ∧ encode ".upload-".toList <+: n := by
  simp only [uploads, List.mem_map, List.mem_filter, Bool.and_eq_true,
    List.isPrefixOf_iff_prefix] at h
  obtain ⟨e, ⟨-, -, hpre⟩, rfl⟩ := h
  exact ⟨e.plain, hpre⟩

theorem name_slash {n : Bytes} (h : n ∈ a.uploads) : '/' ∉ lossy n := by
  intro hm
  obtain ⟨b, hb, he⟩ := mem_lossy_ascii (by decide) (by decide) hm
  obtain rfl : b = slash := UInt8.toNat_inj.mp he
  exact (a.mem_uploads h).1 hb

theorem line_slash {n : Bytes} {l : Text} (h : n ∈ a.uploads) (hl : l ∈ textLines (lossy n)) :
    '/' ∉ l := by
  intro hm
  have hmem : '/' ∈ printed (textLines (lossy n)) :=
    List.mem_flatMap.mpr ⟨l, hl, List.mem_append_left _ hm⟩
  rw [printed_textLines] at hmem
  obtain hmem | hmem := List.mem_append.mp hmem
  · exact a.name_slash h hmem
  · exact absurd (List.mem_singleton.mp hmem) (by decide)

theorem firstLine_head {n : Bytes} (h : n ∈ a.uploads) : ∃ r, firstLine n = '.' :: r := by
  obtain ⟨rest, rfl⟩ := (a.mem_uploads h).2
  have hf := first_later (encode ".upload-".toList ++ rest)
  rw [lossy_encode_append] at hf
  cases hl : firstLine (encode ".upload-".toList ++ rest) with
  | nil =>
    rw [hl] at hf
    exact absurd (List.cons.inj hf).1 (by decide)
  | cons c r =>
    rw [hl] at hf
    obtain rfl := (List.cons.inj hf).1
    exact ⟨r, rfl⟩

theorem trim_firstLine {n : Bytes} (h : n ∈ a.uploads) :
    trim (firstLine n) = (firstLine n).rdropWhile isWhitespace := by
  obtain ⟨r, hr⟩ := a.firstLine_head h
  rw [trim, hr, List.dropWhile_cons_of_neg (by decide)]

theorem trim_middle {n : Bytes} (h : n ∈ a.uploads) :
    trim (a.lastLine ++ (tailDir ++ '/' :: firstLine n)) =
      a.lastLine.dropWhile isWhitespace ++ (tailDir ++ '/' :: trim (firstLine n)) := by
  rw [a.trim_firstLine h]
  exact trim_between _ relDir _ (by decide) (by decide)

end Account

theorem mem_of_mem_trim {t : Text} {c : Char} (h : c ∈ trim t) : c ∈ t :=
  (List.dropWhile_suffix _).subset ((List.rdropWhile_prefix _ _).subset h)

theorem lastComponent_self {t : Text} (h : '/' ∉ t) : lastComponent t = t := by
  rw [lastComponent, List.rtakeWhile_eq_self_iff]
  intro c hc
  simpa using fun he : c = '/' => h (he ▸ hc)

theorem Account.Written.slash {p f : Text} (h : a.Written p f) : '/' ∈ p := by
  obtain rfl | rfl | ⟨rfl, -⟩ := h <;> simp

theorem Account.newline_of_front {l : Text} (h : l ∈ a.front) : '\n' ∈ a.homeText := by
  rw [← a.front_last]
  refine List.mem_append_left _ (List.mem_flatMap.mpr ⟨l, h, ?_⟩)
  simp

theorem good_of_ls {out p : Text} (h : p ∈ staleServe keep out) : Good S a keep p := by
  obtain ⟨rest, hrest⟩ := a.homeText_head
  have hne := mem_staleServe h
  simp only [staleServe, List.mem_map, List.mem_filter, decide_eq_true_eq] at h
  obtain ⟨n, ⟨-, -, htool⟩, rfl⟩ := h
  have hlast : lastComponent (serveDir ++ '/' :: n) = n :=
    lastComponent_append _ n fun c hc he => (ordinary_of_toolGenerated htool).2 (he ▸ hc)
  rw [good_iff S a keep (by rw [hlast]; exact htool)]
  refine ⟨hne, .tilde (by rw [hlast]), fun he => ?_⟩
  rw [hrest] at he
  exact absurd (List.cons.inj he).1 (by decide)

theorem keep_head (v : FileName) (arch : Arch) : ∃ r, (serveName v arch).text = 's' :: r := by
  rw [serveName_text]
  exact ⟨_, rfl⟩

theorem middle_good_iff (v : FileName) (arch : Arch) {n : Bytes} (hn : n ∈ a.uploads)
    (htool : toolGenerated (trim (Account.firstLine n)) = true) :
    Good S a (serveName v arch).text
      (trim (a.lastLine ++ (tailDir ++ '/' :: Account.firstLine n))) ↔ HomeOk S a := by
  obtain ⟨rest, hrest⟩ := a.homeText_head
  obtain ⟨r, hr⟩ := a.firstLine_head hn
  obtain ⟨k, hk⟩ := keep_head v arch
  have hg : trim (Account.firstLine n) = '.' :: r.rdropWhile isWhitespace := by
    rw [a.trim_firstLine hn, hr]
    exact rdropWhile_behind [] r (by decide)
  rw [a.trim_middle hn]
  generalize trim (Account.firstLine n) = g at htool hg
  have hslash := (ordinary_of_toolGenerated htool).2
  have hlast : lastComponent (a.lastLine.dropWhile isWhitespace ++ (tailDir ++ '/' :: g)) = g := by
    rw [← List.append_assoc]
    exact lastComponent_append _ g fun c hc he => hslash (he ▸ hc)
  rw [good_iff S a _ (by rw [hlast]; exact htool), hlast]
  have hkeep : g ≠ (serveName v arch).text := by
    rw [hg, hk]
    simp
  constructor
  · rintro ⟨-, hw | hw | ⟨hw, hv⟩, hplain⟩
    · exact .inl ((List.append_left_inj (tailDir ++ '/' :: g)).mp hw)
    · have hlen := congrArg List.length hw
      have htail : tailDir.length = relDir.length + 1 := rfl
      simp only [List.length_append, List.length_cons] at hlen
      omega
    · exact .inr ⟨hv, hplain hw⟩
  · rintro (htilde | ⟨hv, hplain⟩)
    · refine ⟨hkeep, .tilde (by rw [htilde]; rfl), fun he => ?_⟩
      rw [htilde, hrest] at he
      exact absurd (List.cons.inj he).1 (by decide)
    · have hfront : a.front = [] := by
        refine List.eq_nil_iff_forall_not_mem.mpr fun l hl => ?_
        have hnl := hplain _ (a.newline_of_front hl)
        rw [S.newline] at hnl
        cases hnl
      have hlastLine : a.lastLine.dropWhile isWhitespace = a.homeText := by
        have hfl := a.front_last
        rw [hfront] at hfl
        have hl : a.lastLine = a.homeText := hfl
        rw [hl, hrest, List.dropWhile_cons_of_neg (by decide)]
      refine ⟨hkeep, .expanded (by rw [hlastLine]) hv, fun _ => hplain⟩

theorem operands_good_iff (v : FileName) (arch : Arch) :
    (∀ p ∈ a.operands (serveName v arch).text, Good S a (serveName v arch).text p) ↔
      Tame S a (serveName v arch).text := by
  generalize hkeep : (serveName v arch).text = keep
  constructor
  · intro hall
    have hrow : ∀ n ∈ a.uploads, ∀ row ∈ a.rows n,
        toolGenerated (lastComponent (trim row)) = true → Good S a keep (trim row) := by
      intro n hn row hr htool
      exact hall _ (List.mem_append_right _
        ((a.mem_staleUploads_iff _).mpr ⟨n, hn, row, hr, rfl, htool⟩))
    constructor
    · intro n hn l hl
      by_contra htool
      rw [Bool.not_eq_false] at htool
      have hno : '/' ∉ trim l := (ordinary_of_toolGenerated htool).2
      have hlast := lastComponent_self hno
      have hgood := hrow n hn l (List.mem_append_right _ (List.mem_cons_of_mem _ hl))
        (by rw [hlast]; exact htool)
      have hw := ((good_iff S a keep (by rw [hlast]; exact htool)).mp hgood).2.1
      exact hno (hw.slash a)
    · rintro ⟨n, hn, htool⟩
      subst hkeep
      refine (middle_good_iff S a v arch hn htool).mp (hrow n hn _ ?_ ?_)
      · exact List.mem_append_right _ List.mem_cons_self
      · have hslash := (ordinary_of_toolGenerated htool).2
        rw [a.trim_middle hn, ← List.append_assoc,
          lastComponent_append _ _ fun c hc he => hslash (he ▸ hc)]
        exact htool
    · intro hne l hl htool
      obtain ⟨n, hn⟩ := List.exists_mem_of_ne_nil _ hne
      have hgood := hrow n hn l (List.mem_append_left _ hl) htool
      obtain ⟨hk, hw, -⟩ := (good_iff S a keep htool).mp hgood
      refine ⟨hk, ?_⟩
      obtain hw | hw | ⟨hw, -⟩ := hw
      · exact .inl hw
      · exact .inr hw
      · have hnl := List.mem_append_left (tailDir ++ '/' :: lastComponent (trim l))
          (a.newline_of_front hl)
        rw [← hw] at hnl
        exact absurd rfl (textLines_newline l (List.mem_of_mem_dropLast hl) _ (mem_of_mem_trim hnl))
  · intro ht p hp
    obtain hp | hp := List.mem_append.mp hp
    · exact good_of_ls S a keep hp
    · obtain ⟨n, hn, row, hr, rfl, htool⟩ := (a.mem_staleUploads_iff p).mp hp
      obtain hr | hr := List.mem_append.mp hr
      · obtain ⟨hk, hw⟩ := ht.front (List.ne_nil_of_mem hn) row hr htool
        refine (good_iff S a keep htool).mpr ⟨hk, hw.elim .tilde .relative, fun he => ?_⟩
        have hnl := List.mem_append_left (tailDir ++ '/' :: lastComponent (trim row))
          (a.newline_of_front hr)
        rw [← he] at hnl
        exact absurd rfl (textLines_newline row (List.mem_of_mem_dropLast hr) _ (mem_of_mem_trim hnl))
      · obtain rfl | hr := List.mem_cons.mp hr
        · subst hkeep
          have hslash : '/' ∉ trim (Account.firstLine n) :=
            fun h => a.line_slash hn (List.head_mem _) (mem_of_mem_trim h)
          have hg : toolGenerated (trim (Account.firstLine n)) = true := by
            rw [a.trim_middle hn, ← List.append_assoc,
              lastComponent_append _ _ fun c hc he => hslash (he ▸ hc)] at htool
            exact htool
          exact (middle_good_iff S a v arch hn hg).mpr (ht.home ⟨n, hn, hg⟩)
        · have hslash : '/' ∉ trim row :=
            fun h => a.line_slash hn (List.mem_of_mem_tail hr) (mem_of_mem_trim h)
          rw [lastComponent_self hslash, ht.later n hn row hr] at htool
          cases htool

/-- What `cleanup_stale` collects on this account is fit for the command line. -/
def Harmless : Prop := ∃ s, stale a.exec keep = .ok s ∧ ∀ p ∈ s, Good S a keep p

theorem cleanup_line : cleanupStale a.exec keep =
    .ok (if a.operands keep = [] then none else some (rmLine (a.operands keep))) := by
  rw [cleanupStale, a.stale_exec]
  rfl

theorem Good.blank {S : Shells} {a : Account} {keep p : Text} (h : Good S a keep p) : ' ' ∉ p := by
  intro hb
  have hmem : ' ' ∈ untilded p := by
    unfold untilded
    split
    · rename_i ht
      obtain ⟨r, rfl⟩ := List.head?_eq_some_iff.mp ht
      exact (List.mem_cons.mp hb).resolve_left (by decide)
    · exact hb
  have hp := h.plain ' ' hmem
  rw [S.blank] at hp
  cases hp

theorem rmLine_words {S : Shells} {a : Account} {keep : Text} {s : List Text} (hne : s ≠ [])
    (h : ∀ p ∈ s, Good S a keep p) :
    (rmLine s).splitOn ' ' = "rm".toList :: "-f".toList :: s := by
  obtain ⟨p, s, rfl⟩ := List.exists_cons_of_ne_nil hne
  have hline : rmLine (p :: s) = [' '].intercalate ("rm".toList :: "-f".toList :: p :: s) := by
    simp only [List.intercalate_cons_cons]
    rfl
  rw [hline, List.splitOn_intercalate]
  · refine List.forall_mem_cons.mpr ⟨by decide, List.forall_mem_cons.mpr ⟨by decide, ?_⟩⟩
    exact fun q hq => (h q hq).blank
  · exact List.cons_ne_nil _ _

/-- Every operand is harmless and in place exactly for tame listings. -/
theorem cleanup_harmless_iff (v : FileName) (arch : Arch) :
    Harmless S a (serveName v arch).text ↔ Tame S a (serveName v arch).text := by
  rw [← operands_good_iff, Harmless, a.stale_exec]
  simp

def strict : Shells where
  plain := ordinary
  plain_of_ordinary _ h := h
  blank := rfl
  newline := rfl

def spaced : Account where
  home := encode "/home/a b".toList
  absolute := rfl
  entries := [⟨encode ".upload-0".toList, true, by decide⟩]

def broken : Account where
  home := encode "/home/a".toList
  absolute := rfl
  entries := [⟨encode ".upload-0\nsp-serve-x".toList, true, by decide⟩]

def sampleKeep : Text := (serveName ⟨"0.1".toList, rfl⟩ .x86_64).text

theorem cleanup_not_harmless :
    ¬ Harmless strict spaced sampleKeep ∧ ¬ Harmless strict broken sampleKeep := by
  constructor
  · rintro ⟨s, hs, hall⟩
    rw [spaced.stale_exec] at hs
    obtain rfl := Except.ok.inj hs
    have hmem : "/home/a b/.local/share/shell-proxy/.upload-0".toList ∈
        spaced.operands sampleKeep := by decide +kernel
    exact (hall _ hmem).blank (by decide)
  · rintro ⟨s, hs, hall⟩
    rw [broken.stale_exec] at hs
    obtain rfl := Except.ok.inj hs
    have hmem : "sp-serve-x".toList ∈ broken.operands sampleKeep := by decide +kernel
    obtain ⟨f, hf, -⟩ := (hall _ hmem).direct
    exact absurd (((broken.written_iff _ f).mp hf).slash broken) (by decide)

end ShellProxy.Cleanup
