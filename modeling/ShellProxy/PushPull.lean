import ShellProxy.Quoting
import Mathlib.Data.List.DropRight

/-! A push and a pull of one remote path: what `wrapper.sh` reads of the command, what a shell does
with it, and where the bytes go. Files are those of one directory; all of them are regular. -/
namespace ShellProxy.PushPull
open Frame Shell Quoting

/-- `$(cat /dev/fd/8)`: NULs and trailing newlines are lost. -/
def captured (t : Text) : Text := (t.filter (· != '\x00')).rdropWhile (· == '\n')

/-- What a cat prints of its input under some options, and without any. -/
structure Cat where
  print : List Text → Bytes → Bytes
  plain : ∀ input, print [] input = input

/-- The host behind a session: its shell, the names a pattern can stand for, the files by name, and
which of them can be written to. -/
structure Remote where
  env : Env
  listing : Listing
  files : Text → Option Bytes
  canWrite : Text → Bool

def Remote.write (r : Remote) (f : Text) (content : Bytes) : Remote :=
  { r with files := fun n => if n = f then some content else r.files n }

def dash (t : Text) : Bool := t.head? == some '-'

/-- A lone dash is standard input, an operand behind a dash is an option. -/
def Cat.run (k : Cat) (files : Text → Option Bytes) (stdin : Bytes) (args : List Text) : Bytes :=
  let operands := args.filter fun a => a == ['-'] || !dash a
  k.print (args.filter fun a => !(a == ['-'] || !dash a)) <|
    if operands.isEmpty then stdin
    else operands.flatMap fun a => if a = ['-'] then stdin else (files a).getD []

/-- The target of a redirection has to be one word, and the name of a file. -/
def openOut (r : Remote) (w : Word) : Option Text :=
  match expand r.env r.listing w with
  | [f] => if f ≠ [] ∧ r.canWrite f = true then some f else none
  | _ => none

/-- Run a command line: what it prints, and what is left. Any other command than `cat` and any
failure of the shell is none. -/
def run (k : Cat) (r : Remote) (t : Text) (stdin : Bytes) : Option (Bytes × Remote) := do
  let c ← (lex (captured t)).bind command
  let outs ← c.outs.mapM (openOut r)
  let opened := outs.foldl (fun r f => r.write f []) r
  match c.words.flatMap (expand r.env r.listing), outs.getLast? with
  | ['c', 'a', 't'] :: args, none => some (k.run opened.files stdin args, opened)
  | ['c', 'a', 't'] :: args, some f => some ([], opened.write f (k.run opened.files stdin args))
  | _, _ => none

/-- What a request leaves on the host, given its standard input, and what it prints. -/
def push (k : Cat) (r : Remote) (req : ExecRequest) (content : Bytes) : Option Remote :=
  (run k r req.command.toList content).map Prod.snd

def pull (k : Cat) (r : Remote) (req : ExecRequest) : Option Bytes :=
  (run k r req.command.toList []).map Prod.fst

section Command
variable {path t : Text}

theorem captured_eq {c : Char} (hz : '\x00' ∉ t ++ [c]) (hc : c ≠ '\n') :
    captured (t ++ [c]) = t ++ [c] := by
  have hf : (t ++ [c]).filter (· != '\x00') = t ++ [c] :=
    List.filter_eq_self.mpr fun d hd => bne_iff_ne.mpr fun he => hz (he ▸ hd)
  rw [captured, hf, List.rdropWhile_concat_neg]
  simpa using hc

theorem shellQuote_last {s : Text} : ∃ u c, shellQuote s = u ++ [c] ∧ c ≠ '\n' := by
  rw [shellQuote]
  split_ifs with h
  · obtain ⟨hs, hm⟩ := bare_word h
    refine ⟨s.dropLast, s.getLast hs, (List.dropLast_append_getLast hs).symm, fun hn => ?_⟩
    have hl := hm _ (List.getLast_mem hs)
    rw [hn] at hl
    cases hl
  · exact ⟨'\'' :: s.flatMap escapeQuote, '\'', rfl, by decide⟩

theorem quoteRemotePath_last : ∃ u c, quoteRemotePath path = u ++ [c] ∧ c ≠ '\n' := by
  obtain ⟨d, tail, rfl⟩ | rfl | rfl | ⟨-, hq⟩ := path_cases path
  · obtain ⟨u, c, hs, hc⟩ := @shellQuote_last (d :: tail)
    refine ⟨homeParam ++ '/' :: u, c, ?_, hc⟩
    rw [quoteRemotePath, hs, List.append_assoc, List.cons_append]
  · exact ⟨['$', 'H', 'O', 'M'], 'E', rfl, by decide⟩
  · exact ⟨['$', 'H', 'O', 'M'], 'E', rfl, by decide⟩
  · rw [hq]; exact shellQuote_last

theorem captured_command {s : Text} (hs : '\x00' ∉ s) (hz : '\x00' ∉ path) :
    captured (s ++ quoteRemotePath path) = s ++ quoteRemotePath path := by
  obtain ⟨u, c, hq, hc⟩ := @quoteRemotePath_last path
  have hn := nul_remote hz
  rw [hq] at hn ⊢
  rw [← List.append_assoc]
  refine captured_eq ?_ hc
  rw [List.append_assoc, List.mem_append, not_or]
  exact ⟨hs, hn⟩

def cat : Word := [.plain 'c', .plain 'a', .plain 't']

theorem lexFrom_cat : lexFrom (.unquoted none) ('c' :: 'a' :: 't' :: ' ' :: t) =
    (lexFrom (.unquoted none) t).map (.word cat :: ·) := by
  rw [lexFrom_cons rfl, lexFrom_cons rfl, lexFrom_cons rfl]
  exact lexFrom_blank rfl

theorem upload_command (hz : '\x00' ∉ path) :
    (lex (captured (['c', 'a', 't', ' ', '>', ' '] ++ quoteRemotePath path))).bind command =
      some ⟨[cat], [remoteWord path]⟩ := by
  rw [captured_command (by decide) hz, lex, if_neg]
  · show (lexFrom _ ('c' :: 'a' :: 't' :: ' ' :: '>' :: ' ' :: quoteRemotePath path)).bind _ = _
    have hr : lexFrom (.unquoted none) ('>' :: ' ' :: quoteRemotePath path) =
        some [.redirect, .word (remoteWord path)] := by
      show (lexFrom (.unquoted none) (' ' :: quoteRemotePath path)).map (.redirect :: ·) = _
      rw [lexFrom_cons rfl, lexFrom_remote]
      rfl
    rw [lexFrom_cat, hr]
    rfl
  · rw [List.mem_append, not_or]
    exact ⟨by decide, nul_remote hz⟩

theorem download_command (hz : '\x00' ∉ path) :
    (lex (captured (['c', 'a', 't', ' '] ++ quoteRemotePath path))).bind command =
      some ⟨[cat, remoteWord path], []⟩ := by
  rw [captured_command (by decide) hz, lex, if_neg]
  · show (lexFrom _ ('c' :: 'a' :: 't' :: ' ' :: quoteRemotePath path)).bind _ = _
    rw [lexFrom_cat, lexFrom_remote]
    rfl
  · rw [List.mem_append, not_or]
    exact ⟨by decide, nul_remote hz⟩

end Command

section Run
variable {k : Cat} {r after : Remote} {path : Text} {content printed : Bytes}
  {host session : String} {cwd : Option String} {timeoutMs : Option Nat}

theorem expand_cat (e : Env) (l : Listing) : expand e l cat = [['c', 'a', 't']] :=
  expand_quiet (List.cons_ne_nil _ _) (by decide)

theorem run_no_operand (files : Text → Option Bytes) : k.run files content [] = content :=
  k.plain content

theorem write_same (r : Remote) (f : Text) (content : Bytes) :
    (r.write f content).files f = some content := if_pos rfl

theorem run_name {files : Text → Option Bytes} {f : Text} (hd : dash f = false)
    (hf : files f = some content) : k.run files [] [f] = content := by
  have hn : f ≠ ['-'] := by
    rintro rfl
    cases hd
  simp [Cat.run, hd, hn, hf, k.plain]

theorem run_dashed {f : Text} (hd : dash f = true) :
    ∃ printed, ∀ files, k.run files [] [f] = printed := by
  by_cases hf : f = ['-']
  · exact ⟨[], fun files => by simp [Cat.run, hf, k.plain]⟩
  · exact ⟨k.print [f] [], fun files => by simp [Cat.run, hd, hf]⟩

theorem push_iff (hz : '\x00' ∉ path) :
    push k r (uploadRequest host session path cwd timeoutMs) content = some after ↔
      ∃ f, openOut r (remoteWord path) = some f ∧ after = (r.write f []).write f content := by
  rw [push, uploadRequest, String.toList_ofList, run, upload_command hz]
  cases ho : openOut r (remoteWord path) with
  | none => simp [ho]
  | some f => simp [ho, expand_cat, run_no_operand, eq_comm]

theorem pull_eq (hz : '\x00' ∉ path) :
    pull k r (downloadRequest host session path cwd timeoutMs) =
      some (k.run r.files [] (expand r.env r.listing (remoteWord path))) := by
  rw [pull, downloadRequest, String.toList_ofList, run, download_command hz]
  simp [expand_cat]

theorem openOut_iff {w : Word} {f : Text} : openOut r w = some f ↔
    expand r.env r.listing w = [f] ∧ f ≠ [] ∧ r.canWrite f = true := by
  rw [openOut]
  split
  next g hg =>
    rw [hg]
    simp only [Option.ite_none_right_eq_some, Option.some.injEq, List.cons.injEq, and_true]
    constructor
    · rintro ⟨h, rfl⟩; exact ⟨rfl, h⟩
    · rintro ⟨rfl, h⟩; exact ⟨h, rfl⟩
  next hn =>
    refine iff_of_false (fun h => nomatch h) fun h => hn f h.1

end Run

def dashed (home path : Text) : Bool := dash (if (homeRest path).isSome then home else path)

section Name
variable {e : Env} {l : Listing} {path rest f : Text}

theorem remoteWord_rest (h : homeRest path = some rest) :
    remoteWord path = .param HOME :: restWord rest := by
  rw [remoteWord, h]
  rfl

theorem remote_literal (hh : ∀ c ∈ e.param HOME, bareChar c = true) :
    isPattern (cells e (remoteWord path)) = false := by
  cases hr : homeRest path with
  | none =>
    rw [remoteWord, hr]
    exact (quiet_cells fun p hp => quiet_of_shielded (quotedWord_shielded p hp)).2.1
  | some rest =>
    have hq : isPattern (cells e (restWord rest)) = false :=
      (quiet_cells fun p hp => quiet_of_shielded ((rest_spec hr).1 p hp)).2.1
    rw [remoteWord_rest hr, cells_param, isPattern, List.any_append, ← isPattern, ← isPattern, hq,
      acts_exp, Bool.or_false, List.any_eq_false]
    intro c hc hp
    have hm := bare_not_meta (hh c hc)
    rw [isMeta, hp, Bool.or_true] at hm
    cases hm

theorem expand_remote (hh : ∀ c ∈ e.param HOME, bareChar c = true) :
    expand e l (remoteWord path) = (fields e (remoteWord path)).map text :=
  expand_literal (remote_literal hh)

/-- The one name a remote word stands for begins as the home directory does, or else as the path. -/
theorem dashed_spec (hh : ∀ c ∈ e.param HOME, bareChar c = true) (hf : f ≠ [])
    (hx : expand e l (remoteWord path) = [f]) : dash f = dashed (e.param HOME) path := by
  cases hr : homeRest path with
  | none =>
    have hw : remoteWord path = quotedWord path := by rw [remoteWord, hr]; rfl
    rw [hw, expand_quotedWord] at hx
    rw [dashed, hr, ← (List.cons.inj hx).1]
    rfl
  | some rest =>
    have hd : dashed (e.param HOME) path = dash (e.param HOME) := by rw [dashed, hr]; rfl
    rw [expand_remote hh, remoteWord_rest hr] at hx
    obtain ⟨g, hg, rfl⟩ := List.map_eq_singleton_iff.mp hx
    rw [fields, cells_param] at hg
    rw [hd]
    cases hv : e.param HOME with
    | nil =>
      -- nothing of the home directory is left, the rest begins with a slash
      rw [hv, List.map_nil, List.nil_append] at hg
      obtain ⟨hq, ht, -, -⟩ := rest_spec hr
      obtain ⟨hs, -, hl, -⟩ := @quiet_cells e (restWord rest) fun p hp =>
        quiet_of_shielded (hq p hp)
      have hn : cells e (restWord rest) ≠ [] := by
        intro hc
        rw [hc] at hg
        cases hg
      rw [split_none hs hn] at hg
      rw [← (List.cons.inj hg).1, hl, ht]
      obtain rfl | ⟨tail, rfl⟩ := rest_cases hr
      · rfl
      · rfl
    | cons h hs =>
      rw [hv, List.map_cons, List.cons_append] at hg
      have hm := bare_not_meta (hh h (hv ▸ List.mem_cons_self))
      have hw : (Cell.exp h).isWhite = false := by
        show isBlank h = false
        cases hb : isBlank h with
        | false => rfl
        | true => rw [isMeta, hb] at hm; cases hm
      obtain rfl | ⟨u, rfl⟩ := split_single hw hg
      · exact absurd rfl hf
      · rfl

end Name

/-- Every content that can be pushed to a path comes back from a pull of it, unless the name begins
with a dash. -/
theorem push_then_pull_iff (k : Cat) (r : Remote) (l : Listing) (host session : String)
    (path : Text) (cwd : Option String) (timeoutMs : Option Nat) (hz : '\x00' ∉ path)
    (hh : ∀ c ∈ r.env.param HOME, bareChar c = true)
    (hw : ∃ content after,
      push k r (uploadRequest host session path cwd timeoutMs) content = some after) :
    (∀ content after, push k r (uploadRequest host session path cwd timeoutMs) content = some after →
      pull k { after with listing := l } (downloadRequest host session path cwd timeoutMs) =
        some content) ↔ dashed (r.env.param HOME) path = false := by
  obtain ⟨_, _, hw⟩ := hw
  obtain ⟨f, ho, -⟩ := (push_iff hz).mp hw
  obtain ⟨hx, hf, -⟩ := openOut_iff.mp ho
  have hd := dashed_spec hh hf hx
  have hpull (content : Bytes) :
      pull k { (r.write f []).write f content with listing := l }
        (downloadRequest host session path cwd timeoutMs) =
          some (k.run ((r.write f []).write f content).files [] [f]) := by
    rw [pull_eq hz]
    show some (k.run _ [] (expand r.env l (remoteWord path))) = _
    rw [expand_remote hh, ← @expand_remote r.env r.listing path hh, hx]
  constructor
  · intro h
    cases hb : dashed (r.env.param HOME) path with
    | false => rfl
    | true =>
      obtain ⟨printed, hk⟩ := @run_dashed k f (hd.trans hb)
      have hs := h (printed ++ [0]) _ ((push_iff hz).mpr ⟨f, ho, rfl⟩)
      rw [hpull, hk] at hs
      have hn : printed = printed ++ [0] := Option.some.inj hs
      exact absurd (List.self_eq_append_right.mp hn) (List.cons_ne_nil _ _)
  · intro hb content after hp
    obtain ⟨g, hg, rfl⟩ := (push_iff hz).mp hp
    obtain rfl := Option.some.inj (ho.symm.trans hg)
    rw [hpull, run_name (hd.trans hb) (write_same _ f content)]

def plainCat : Cat where
  print opts input := if opts = [] then input else []
  plain _ := if_pos rfl

def sampleRemote : Remote where
  env := homeEnv ['/', 'r']
  listing := ⟨[], List.nodup_nil⟩
  files _ := none
  canWrite _ := true

theorem push_then_pull_sample : ∃ after,
    push plainCat sampleRemote (uploadRequest "h" "s" ['~', '/', '-', 'a'] none none) [104] =
      some after ∧
    pull plainCat { after with listing := sampleRemote.listing }
      (downloadRequest "h" "s" ['~', '/', '-', 'a'] none none) = some [104] := by
  have hp := (@push_iff plainCat sampleRemote _ ['~', '/', '-', 'a'] [104] "h" "s" none none
    (by decide)).mpr ⟨['/', 'r', '/', '-', 'a'], by decide, rfl⟩
  refine ⟨_, hp, (push_then_pull_iff plainCat sampleRemote sampleRemote.listing "h" "s"
    ['~', '/', '-', 'a'] none none (by decide) (by simp [sampleRemote, homeEnv, bareChar])
    ⟨_, _, hp⟩).mpr rfl _ _ hp⟩

/-- What was pushed to a file named by a lone dash is not what a pull prints. -/
theorem lone_dash_not_read_back : ¬ ∀ content after,
    push plainCat sampleRemote (uploadRequest "h" "s" ['-'] none none) content = some after →
      pull plainCat after (downloadRequest "h" "s" ['-'] none none) = some content := by
  intro h
  have hs := h [104] _ ((push_iff (by decide)).mpr ⟨['-'], by decide, rfl⟩)
  have hp : pull plainCat ((sampleRemote.write ['-'] []).write ['-'] [104])
      (downloadRequest "h" "s" ['-'] none none) = some [] := by
    rw [pull_eq (by decide)]
    exact congrArg some (by decide)
  rw [hp] at hs
  cases hs

end ShellProxy.PushPull
