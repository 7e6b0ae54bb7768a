import ShellProxy.Deploy

/-! Which files of the directory the cleanup of a deploy names, when `ls` and `find` list it. -/
namespace ShellProxy.Listing
open Frame HostPattern ServeDir Deploy
variable {ι : Type}

/-! ### Lines that come back as they were printed -/

theorem trimmed_ends {t : Text} (h : trim t = t) :
    (∀ c, t.head? = some c → isWhitespace c = false) ∧
      ∀ c, t.getLast? = some c → isWhitespace c = false := by
  have hlast : t.rdropWhile isWhitespace = t := by
    rw [← h, trim, List.rdropWhile_idempotent]
  constructor
  · intro c hc
    have hpre : t <+: t.dropWhile isWhitespace := by
      have hp := List.rdropWhile_prefix isWhitespace (t.dropWhile isWhitespace)
      rwa [show (t.dropWhile isWhitespace).rdropWhile isWhitespace = t from h] at hp
    obtain ⟨r, hr⟩ := hpre
    have hhead : (t.dropWhile isWhitespace).head? = some c := by
      rw [← hr, List.head?_append, hc]
      rfl
    have hn := List.head?_dropWhile_not isWhitespace t
    rw [hhead] at hn
    simpa using hn
  · intro c hc
    have hne : t ≠ [] := by
      rintro rfl
      cases hc
    have hn := List.rdropWhile_eq_self_iff.mp hlast hne
    rw [List.getLast?_eq_some_getLast hne, Option.some.injEq] at hc
    simpa [hc] using hn

theorem trim_self {r : Text} (hhead : ∀ c, r.head? = some c → isWhitespace c = false)
    (hlast : ∀ c, r.getLast? = some c → isWhitespace c = false) : trim r = r := by
  have hfront : r.dropWhile isWhitespace = r := by
    cases r with
    | nil => rfl
    | cons c cs => rw [List.dropWhile_cons_of_neg (by simp [hhead c rfl])]
  rw [trim, hfront, List.rdropWhile_eq_self_iff]
  intro hne
  simpa using hlast _ (List.getLast?_eq_some_getLast hne)

theorem kept_line {r : Text} (hhead : ∀ c, r.head? = some c → isWhitespace c = false)
    (hlast : ∀ c, r.getLast? = some c → isWhitespace c = false) : trim (stripCr r) = r := by
  have hcr : stripCr r = r := by
    unfold stripCr
    split
    · rename_i hr
      exact absurd (hlast _ hr) (by decide)
    · rfl
  rw [hcr, trim_self hhead hlast]

def Trimmed (n : FileName) : Prop := trim n.text = n.text

theorem Trimmed.line {n : FileName} (h : Trimmed n) : trim (stripCr n.text) = n.text :=
  kept_line (trimmed_ends h).1 (trimmed_ends h).2

theorem Trimmed.path {home : Home} {n : FileName} (h : Trimmed n) (hne : n.text ≠ []) :
    trim (stripCr (home.dir ++ '/' :: n.text)) = home.dir ++ '/' :: n.text := by
  apply kept_line
  · intro c hc
    cases hd : home.dir with
    | nil =>
      rw [hd] at hc
      obtain rfl : '/' = c := Option.some.inj hc
      decide
    | cons x xs =>
      rw [hd] at hc
      obtain rfl : x = c := Option.some.inj hc
      exact home.no_blank x (by simp [hd])
  · intro c hc
    obtain ⟨x, hx⟩ := Option.ne_none_iff_exists'.mp (mt List.getLast?_eq_none_iff.mp hne)
    rw [List.getLast?_append, List.getLast?_cons, hx] at hc
    obtain rfl : x = c := Option.some.inj hc
    exact (trimmed_ends h).2 x hx

theorem serveName_trimmed (v : FileName) (a : Arch) : Trimmed (serveName v a) := by
  apply trim_self
  · intro c hc
    obtain rfl : 's' = c := Option.some.inj hc
    decide
  · intro c hc
    have hlen : a.asStr ≠ [] := by cases a <;> decide
    rw [serveName_text, ← List.append_assoc, ← List.append_assoc,
      List.getLast?_append_of_ne_nil _ hlen] at hc
    cases a with
    | x86_64 =>
      obtain rfl : '4' = c := Option.some.inj hc
      decide
    | aarch64 =>
      obtain rfl : '4' = c := Option.some.inj hc
      decide

/-- A generated name is that of a binary, which `ls` lists, or of an upload, which it does not. -/
theorem dot_iff_upload {n : FileName} (h : toolGenerated n.text = true) :
    n.text.head? = some '.' ↔ isUpload n = true := by
  simp only [toolGenerated, Bool.and_eq_true, Bool.or_eq_true, List.isPrefixOf_iff_prefix] at h
  rw [isUpload, List.isPrefixOf_iff_prefix]
  constructor
  · intro hdot
    rcases h.1 with ⟨r, hr⟩ | hup
    · rw [← hr] at hdot
      cases hdot
    · exact hup
  · rintro ⟨r, hr⟩
    rw [← hr]
    rfl

/-! ### The two lists -/

theorem lines_ls (names : List FileName) : lines (lsOut names) =
    (((names.map (·.text)).filter fun n => n.head? ≠ some '.').map stripCr) := by
  apply lines_printed
  intro r hr c hc
  obtain ⟨n, -, rfl⟩ := List.mem_map.mp (List.mem_filter.mp hr).1
  exact n.no_newline c hc

theorem lines_find (home : Home) (aged : List FileName) : lines (findOut home aged) =
    ((aged.filter isUpload).map fun n => home.dir ++ '/' :: n.text).map stripCr := by
  apply lines_printed
  intro r hr c hc
  obtain ⟨n, -, rfl⟩ := List.mem_map.mp hr
  rcases List.mem_append.mp hc with hd | hd
  · rintro rfl
    exact absurd (home.no_blank _ hd) (by decide)
  · rcases List.mem_cons.mp hd with rfl | hd
    · decide
    · exact n.no_newline c hd

theorem staleServe_iff {names : List FileName} (h : ∀ n ∈ names, Trimmed n) {keep p : Text} :
    p ∈ staleServe keep (lsOut names) ↔ ∃ n ∈ names, p = pathOf n ∧ n.text ≠ keep ∧
      toolGenerated n.text = true ∧ isUpload n = false := by
  simp only [staleServe, lines_ls, List.mem_map, List.mem_filter, decide_eq_true_eq]
  constructor
  · rintro ⟨x, ⟨⟨y, ⟨_, ⟨⟨n, hn, rfl⟩, hdot⟩, rfl⟩, rfl⟩, hne, htool⟩, rfl⟩
    rw [(h n hn).line] at hne htool ⊢
    refine ⟨n, hn, rfl, hne, htool, ?_⟩
    rw [← Bool.not_eq_true, ← dot_iff_upload htool]
    exact hdot
  · rintro ⟨n, hn, rfl, hne, htool, hup⟩
    have hdot : n.text.head? ≠ some '.' := by
      rw [Ne, dot_iff_upload htool, hup]
      decide
    exact ⟨n.text, ⟨⟨stripCr n.text, ⟨n.text, ⟨⟨n, hn, rfl⟩, hdot⟩, rfl⟩, (h n hn).line⟩, hne,
      htool⟩, rfl⟩

theorem staleUploads_iff {home : Home} {aged : List FileName} (h : ∀ n ∈ aged, Trimmed n)
    {p : Text} : p ∈ staleUploads (findOut home aged) ↔ ∃ n ∈ aged,
      p = home.dir ++ '/' :: n.text ∧ isUpload n = true ∧ toolGenerated n.text = true := by
  have hne : ∀ n : FileName, isUpload n = true → n.text ≠ [] := by
    intro n hup he
    rw [isUpload, he] at hup
    cases hup
  simp only [staleUploads, lines_find, List.mem_filter, List.mem_map]
  constructor
  · rintro ⟨⟨_, ⟨_, ⟨n, ⟨hn, hup⟩, rfl⟩, rfl⟩, rfl⟩, htool⟩
    rw [(h n hn).path (hne n hup)] at htool ⊢
    rw [lastComponent_append home.dir n.text n.no_slash] at htool
    exact ⟨n, hn, rfl, hup, htool⟩
  · rintro ⟨n, hn, rfl, hup, htool⟩
    refine ⟨⟨stripCr (home.dir ++ '/' :: n.text), ⟨_, ⟨n, ⟨hn, hup⟩, rfl⟩, rfl⟩,
      (h n hn).path (hne n hup)⟩, ?_⟩
    rw [lastComponent_append home.dir n.text n.no_slash]
    exact htool

/-! ### What the paths name -/

theorem resolve_found (home : Home) (n : FileName) :
    home.resolve (home.dir ++ '/' :: n.text) = some n := by
  have hlast := lastComponent_append home.dir n.text n.no_slash
  have hpath : home.dir ++ '/' :: n.text = home.dir ++ ['/'] ++ n.text := by simp
  have hpre : (home.dir ++ ['/']).isPrefixOf (home.dir ++ '/' :: n.text) = true :=
    List.isPrefixOf_iff_prefix.mpr ⟨n.text, hpath.symm⟩
  have hdrop : (home.dir ++ '/' :: n.text).drop (home.dir.length + 1) = n.text := by
    rw [hpath]
    simp
  rw [Home.resolve]
  cases hb : below serveDir (home.dir ++ '/' :: n.text) with
  | some m =>
    obtain rfl : n = m := FileName.ext (hlast.symm.trans (below_last hb))
    rfl
  | none =>
    rw [Option.none_or, below, if_pos hpre, hdrop, FileName.ofText, dif_pos n.plain]

theorem mem_keys {fs : Files} {n : FileName} :
    n ∈ fs.keys ↔ ∃ f, fs.lookup n = some f := by
  rw [← AList.mem_keys, ← AList.lookup_isSome, Option.isSome_iff_exists]

theorem mem_aged {d : Disk} {n : FileName} :
    n ∈ d.aged ↔ ∃ f, d.files.lookup n = some f ∧ uploadGcMinutes < d.now - f.mtime := by
  simp only [Disk.aged, List.mem_map, List.mem_filter, decide_eq_true_eq]
  constructor
  · rintro ⟨⟨m, f⟩, ⟨hmem, hold⟩, rfl⟩
    exact ⟨f, AList.mem_lookup_iff.mpr hmem, hold⟩
  · rintro ⟨f, hf, hold⟩
    exact ⟨⟨n, f⟩, ⟨AList.mem_lookup_iff.mp hf, hold⟩, rfl⟩

end ShellProxy.Listing
