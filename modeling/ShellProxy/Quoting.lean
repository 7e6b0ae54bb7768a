import ShellProxy.Frame
import ShellProxy.Lib.Shell

/-! Text for the remote shell: the quoting of `client.rs`, the requests that carry a remote path,
and `join_command` of `main.rs`. -/
namespace ShellProxy.Quoting
open Frame Shell

def bareChar (c : Char) : Bool :=
  c.isAlphanum || c == '_' || c == '-' || c == '.' || c == '/' || c == '=' || c == ':' ||
    c == ',' || c == '%' || c == '@' || c == '+'

def isBareWord (s : Text) : Bool := !s.isEmpty && s.all bareChar

/-- `replace('\'', r"'\''")`, one character of it. -/
def escapeQuote (c : Char) : Text := if c = '\'' then ['\'', '\\', '\'', '\''] else [c]

def shellQuote (s : Text) : Text :=
  if isBareWord s then s else '\'' :: (s.flatMap escapeQuote ++ ['\''])

def homeParam : Text := ['$', 'H', 'O', 'M', 'E']

def quoteRemotePath : Text → Text
  | '~' :: '/' :: c :: tail => homeParam ++ '/' :: shellQuote (c :: tail)
  | ['~'] | ['~', '/'] => homeParam
  | remote => shellQuote remote

def uploadRequest (host session : String) (remote : Text) (cwd : Option String)
    (timeoutMs : Option Nat) : ExecRequest :=
  { host, command := String.ofList (['c', 'a', 't', ' ', '>', ' '] ++ quoteRemotePath remote),
    cwd, timeoutMs, session := some session }

def downloadRequest (host session : String) (remote : Text) (cwd : Option String)
    (timeoutMs : Option Nat) : ExecRequest :=
  { host, command := String.ofList (['c', 'a', 't', ' '] ++ quoteRemotePath remote),
    cwd, timeoutMs, session := some session }

def joinCommand : List Text → Text
  | [single] => single
  | many => [' '].intercalate (many.map shellQuote)

/-- What a shell reads back for a character between the quotes. -/
def quotedPieces (c : Char) : Word := if c = '\'' then [.quoted c, .null] else [.quoted c]

def quotedWord (s : Text) : Word :=
  if isBareWord s then s.map .plain else .null :: s.flatMap quotedPieces

section Quote
variable {s t : Text} {cur : Option Word}

theorem bare_not_meta {c : Char} (h : bareChar c = true) : isMeta c = false := by
  have hn (d : Char) (hd : bareChar d = false) : (c == d) = false := by
    rw [beq_eq_false_iff_ne]
    rintro rfl
    rw [h] at hd
    cases hd
  simp [isMeta, isBlank, isSpecial, isOpening, isPatternChar, hn ' ' rfl, hn '\t' rfl, hn '\n' rfl,
    hn '>' rfl, hn '\'' rfl, hn '\\' rfl, hn '$' rfl, hn '!' rfl, hn '"' rfl,
    hn (Char.ofNat 96) rfl, hn '(' rfl, hn ')' rfl, hn '|' rfl, hn '&' rfl, hn ';' rfl,
    hn '<' rfl, hn '\x7b' rfl, hn '\x7d' rfl, hn '#' rfl, hn '~' rfl, hn '*' rfl, hn '?' rfl,
    hn '[' rfl]

theorem bare_word (h : isBareWord s = true) : s ≠ [] ∧ ∀ c ∈ s, isMeta c = false := by
  obtain ⟨hs, hc⟩ := Bool.and_eq_true_iff.mp h
  exact ⟨by simpa using hs, fun c hm => bare_not_meta (List.all_eq_true.mp hc c hm)⟩

theorem lexFrom_escaped {w : Word} : lexFrom (.single w) (s.flatMap escapeQuote ++ t) =
    lexFrom (.single (w ++ s.flatMap quotedPieces)) t := by
  induction s generalizing w with
  | nil => rw [List.flatMap_nil, List.flatMap_nil, List.nil_append, List.append_nil]
  | cons c s ih =>
    rw [List.flatMap_cons, List.flatMap_cons, List.append_assoc, ← List.append_assoc w, ← ih]
    by_cases hc : c = '\''
    · rw [escapeQuote, quotedPieces, if_pos hc, if_pos hc]
      -- the quotation ends, the quote follows escaped, and the next quotation begins
      show lexFrom _ ('\'' :: '\\' :: '\'' :: '\'' :: (s.flatMap escapeQuote ++ t)) = _
      rw [lexFrom_close, lexFrom_escape (by decide), lexFrom_open, add, Option.getD_some,
        Option.getD_some, List.append_assoc, hc]
      rfl
    · have hq : '\'' ∉ [c] := fun hm => hc (List.mem_singleton.mp hm).symm
      rw [escapeQuote, quotedPieces, if_neg hc, if_neg hc, lexFrom_quoted hq]
      rfl

theorem lexFrom_shellQuote : lexFrom (.unquoted cur) (shellQuote s ++ t) =
    lexFrom (.unquoted (some (cur.getD [] ++ quotedWord s))) t := by
  rw [shellQuote, quotedWord]
  split_ifs with h
  · obtain ⟨hs, hm⟩ := bare_word h
    cases s with
    | nil => exact absurd rfl hs
    | cons c s =>
      rw [List.cons_append, lexFrom_inert (hm c List.mem_cons_self), add,
        lexFrom_plain fun d hd => hm d (List.mem_cons_of_mem c hd), List.append_assoc]
      rfl
  · rw [List.cons_append, List.append_assoc, lexFrom_open, lexFrom_escaped, List.singleton_append,
      lexFrom_close, List.append_assoc]
    rfl

theorem lexFrom_shellQuote_end : lexFrom (.unquoted cur) (shellQuote s) =
    some [.word (cur.getD [] ++ quotedWord s)] := by
  rw [← List.append_nil (shellQuote s), lexFrom_shellQuote]
  rfl

theorem quotedWord_ne_nil : quotedWord s ≠ [] := by
  rw [quotedWord]
  split_ifs with h
  · simpa using (bare_word h).1
  · exact List.cons_ne_nil _ _

theorem quotedWord_shielded : ∀ p ∈ quotedWord s, p.isShielded = true := by
  rw [quotedWord]
  split_ifs with h
  · intro p hp
    obtain ⟨c, hc, rfl⟩ := List.mem_map.mp hp
    rw [Piece.isShielded, (bare_word h).2 c hc]
    rfl
  · rw [List.forall_mem_cons]
    refine ⟨rfl, fun p hp => ?_⟩
    obtain ⟨c, -, hc⟩ := List.mem_flatMap.mp hp
    rw [quotedPieces] at hc
    split_ifs at hc with hq
    · obtain rfl | hc := List.mem_cons.mp hc
      · rfl
      · rw [List.mem_singleton.mp hc]; rfl
    · rw [List.mem_singleton.mp hc]; rfl

theorem literal_quotedPieces {c : Char} : literal (quotedPieces c) = [c] := by
  rw [quotedPieces]
  split_ifs <;> rfl

theorem literal_quotedWord : literal (quotedWord s) = s := by
  rw [quotedWord]
  split_ifs with h
  · rw [literal, List.filterMap_map]
    exact List.filterMap_some
  · show literal (s.flatMap quotedPieces) = s
    clear h
    induction s with
    | nil => rfl
    | cons c s ih =>
      rw [List.flatMap_cons, literal_append, literal_quotedPieces, ih]
      rfl

theorem expand_quotedWord (e : Env) (l : Listing) : expand e l (quotedWord s) = [s] := by
  rw [expand_quiet quotedWord_ne_nil fun p hp => quiet_of_shielded (quotedWord_shielded p hp),
    literal_quotedWord]

theorem mem_shellQuote {c : Char} (h : c ∈ shellQuote s) : c ∈ s ∨ c = '\'' ∨ c = '\\' := by
  rw [shellQuote] at h
  split_ifs at h with hb
  · exact .inl h
  · obtain rfl | h := List.mem_cons.mp h
    · exact .inr (.inl rfl)
    obtain h | h := List.mem_append.mp h
    · obtain ⟨d, hd, hc⟩ := List.mem_flatMap.mp h
      rw [escapeQuote] at hc
      split_ifs at hc with hq
      · simp only [List.mem_cons, List.not_mem_nil, or_false] at hc
        tauto
      · exact .inl (List.mem_singleton.mp hc ▸ hd)
    · exact .inr (.inl (List.mem_singleton.mp h))

theorem nul_shellQuote (h : '\x00' ∉ s) : '\x00' ∉ shellQuote s := by
  intro hm
  obtain hm | hm | hm := mem_shellQuote hm
  · exact h hm
  · cases hm
  · cases hm

theorem lex_shellQuote (h : '\x00' ∉ s) : lex (shellQuote s) = some [.word (quotedWord s)] := by
  rw [lex, if_neg (nul_shellQuote h), lexFrom_shellQuote_end]
  rfl

theorem lexFrom_join {args : List Text} :
    lexFrom (.unquoted none) ([' '].intercalate (args.map shellQuote)) =
      some (args.map fun s => .word (quotedWord s)) := by
  induction args with
  | nil => rfl
  | cons s args ih =>
    cases args with
    | nil =>
      rw [List.map_cons, List.map_nil, List.intercalate_singleton, lexFrom_shellQuote_end]
      rfl
    | cons s' args =>
      rw [List.map_cons, List.map_cons, List.intercalate_cons_cons, ← List.map_cons,
        List.append_assoc, List.singleton_append, lexFrom_shellQuote, lexFrom_blank rfl, ih]
      rfl

theorem join_many {args : List Text} (h : 2 ≤ args.length) :
    joinCommand args = [' '].intercalate (args.map shellQuote) := by
  obtain _ | ⟨s, _ | ⟨s', args⟩⟩ := args
  · rfl
  · exact absurd h (Nat.not_succ_le_self 1)
  · rfl

theorem nul_join {args : List Text} (h : ∀ s ∈ args, '\x00' ∉ s) :
    '\x00' ∉ [' '].intercalate (args.map shellQuote) := by
  induction args with
  | nil => exact List.not_mem_nil
  | cons s args ih =>
    obtain ⟨hs, ha⟩ := List.forall_mem_cons.mp h
    cases args with
    | nil =>
      rw [List.map_cons, List.map_nil, List.intercalate_singleton]
      exact nul_shellQuote hs
    | cons s' args =>
      rw [List.map_cons, List.map_cons, List.intercalate_cons_cons, ← List.map_cons]
      simp only [List.mem_append, not_or]
      exact ⟨⟨nul_shellQuote hs, by decide⟩, ih ha⟩

end Quote

/-- A shell reads several arguments back as they were, and one quoted text as one word. -/
theorem quoting_exact :
    (∀ args : List Text, 2 ≤ args.length → (∀ s ∈ args, '\x00' ∉ s) →
      ∃ ws : List Word, lex (joinCommand args) = some (ws.map .word) ∧ ws.map literal = args ∧
        (∀ w ∈ ws, ∀ p ∈ w, p.isShielded = true) ∧
        ∀ e l, ws.flatMap (expand e l) = args) ∧
      ∀ s : Text, '\x00' ∉ s → ∃ w : Word, lex (shellQuote s) = some [.word w] ∧
        literal w = s ∧ (∀ p ∈ w, p.isShielded = true) ∧ ∀ e l, expand e l w = [s] := by
  constructor
  · intro args hn hz
    refine ⟨args.map quotedWord, ?_, ?_, ?_, fun e l => ?_⟩
    · rw [join_many hn, lex, if_neg (nul_join hz), lexFrom_join, List.map_map]
      rfl
    · rw [List.map_map]
      exact List.map_id'' (fun s => literal_quotedWord) args
    · intro w hw
      obtain ⟨s, -, rfl⟩ := List.mem_map.mp hw
      exact quotedWord_shielded
    · rw [List.flatMap_map, List.flatMap_congr fun s _ => expand_quotedWord e l]
      exact List.flatMap_singleton' args
  · exact fun s hz => ⟨quotedWord s, lex_shellQuote hz, literal_quotedWord, quotedWord_shielded,
      fun e l => expand_quotedWord e l⟩

/-- `echo` and `it's`. -/
theorem quoting_exact_sample : ∃ ws : List Word,
    lex (joinCommand [['e', 'c', 'h', 'o'], ['i', 't', '\'', 's']]) = some (ws.map .word) ∧
      ws.map literal = [['e', 'c', 'h', 'o'], ['i', 't', '\'', 's']] :=
  have ⟨ws, hl, ht, _⟩ := quoting_exact.1 [['e', 'c', 'h', 'o'], ['i', 't', '\'', 's']]
    (by decide) (by decide)
  ⟨ws, hl, ht⟩

section RemotePath
variable {path : Text}

def HOME : Text := ['H', 'O', 'M', 'E']

def homeRest : Text → Option Text
  | '~' :: '/' :: c :: tail => some ('/' :: c :: tail)
  | ['~'] | ['~', '/'] => some []
  | _ => none

def target (home path : Text) : Text := ((homeRest path).map (home ++ ·)).getD path

def restWord : Text → Word
  | '/' :: tail => .plain '/' :: quotedWord tail
  | _ => []

def remoteWord (path : Text) : Word :=
  ((homeRest path).map fun rest => .param HOME :: restWord rest).getD (quotedWord path)

theorem path_cases (path : Text) :
    (∃ c tail, path = '~' :: '/' :: c :: tail) ∨ path = ['~'] ∨ path = ['~', '/'] ∨
      (homeRest path = none ∧ quoteRemotePath path = shellQuote path) := by
  fun_cases quoteRemotePath path with
  | case1 c tail => exact .inl ⟨c, tail, rfl⟩
  | case2 => exact .inr (.inl rfl)
  | case3 => exact .inr (.inr (.inl rfl))
  | case4 _ h₁ h₂ h₃ => exact .inr (.inr (.inr ⟨homeRest.eq_4 path h₁ h₂ h₃, rfl⟩))

theorem lexFrom_home {t : Text} : lexFrom (.unquoted none) (homeParam ++ '/' :: t) =
    lexFrom (.unquoted (some [.param HOME, .plain '/'])) t := by
  show lexFrom _ ('$' :: 'H' :: 'O' :: 'M' :: 'E' :: '/' :: t) = _
  rw [lexFrom_cons rfl, lexFrom_cons rfl, lexFrom_cons rfl, lexFrom_cons rfl, lexFrom_cons rfl,
    lexFrom_cons rfl]
  rfl

theorem lexFrom_remote :
    lexFrom (.unquoted none) (quoteRemotePath path) = some [.word (remoteWord path)] := by
  obtain ⟨c, tail, rfl⟩ | rfl | rfl | ⟨hr, hq⟩ := path_cases path
  · rw [quoteRemotePath, lexFrom_home, lexFrom_shellQuote_end]
    rfl
  · rfl
  · rfl
  · rw [hq, lexFrom_shellQuote_end, remoteWord, hr]
    rfl

theorem nul_remote (h : '\x00' ∉ path) : '\x00' ∉ quoteRemotePath path := by
  obtain ⟨c, tail, rfl⟩ | rfl | rfl | ⟨-, hq⟩ := path_cases path
  · have hs : '\x00' ∉ shellQuote (c :: tail) :=
      nul_shellQuote fun hm => h (List.mem_cons_of_mem _ (List.mem_cons_of_mem _ hm))
    rw [quoteRemotePath, List.mem_append, List.mem_cons]
    rintro (hm | hm | hm)
    · exact absurd hm (by decide)
    · cases hm
    · exact hs hm
  · decide
  · decide
  · rw [hq]; exact nul_shellQuote h

theorem lex_remote (h : '\x00' ∉ path) :
    lex (quoteRemotePath path) = some [.word (remoteWord path)] := by
  rw [lex, if_neg (nul_remote h), lexFrom_remote]

/-- `$HOME` with the rest of a path behind it, as a pattern. Each character is marked as active
unless it is quoted. -/
def homePattern (home : Text) : Text → List (Char × Bool)
  | '/' :: tail => home.map (·, true) ++ ('/', true) :: tail.map (·, isBareWord tail)
  | _ => home.map (·, true)

theorem pattern_plain {e : Env} {s : Text} : pattern (cells e (s.map .plain)) = s.map (·, true) := by
  induction s with
  | nil => rfl
  | cons c s ih => exact congrArg ((c, true) :: ·) ih

theorem pattern_quotedPieces {e : Env} {c : Char} :
    pattern (cells e (quotedPieces c)) = [(c, false)] := by
  rw [quotedPieces]
  split_ifs <;> rfl

theorem pattern_quotedWord {e : Env} {s : Text} :
    pattern (cells e (quotedWord s)) = s.map (·, isBareWord s) := by
  rw [quotedWord]
  split_ifs with h
  · rw [h, pattern_plain]
  · rw [Bool.eq_false_iff.mpr h]
    clear h
    show pattern (cells e (s.flatMap quotedPieces)) = _
    induction s with
    | nil => rfl
    | cons c s ih =>
      rw [List.flatMap_cons, cells_append, pattern_append, pattern_quotedPieces, ih]
      rfl

theorem rest_cases {rest : Text} (h : homeRest path = some rest) :
    rest = [] ∨ ∃ tail, rest = '/' :: tail := by
  obtain ⟨c, tail, rfl⟩ | rfl | rfl | ⟨hn, -⟩ := path_cases path
  · exact .inr ⟨c :: tail, (Option.some.inj h).symm⟩
  · exact .inl (Option.some.inj h).symm
  · exact .inl (Option.some.inj h).symm
  · rw [hn] at h
    cases h

theorem rest_spec {rest : Text} (h : homeRest path = some rest) :
    (∀ p ∈ restWord rest, p.isShielded = true) ∧ literal (restWord rest) = rest ∧
      (restWord rest = [] ↔ rest = []) ∧ ∀ e : Env,
        pattern (cells e (.param HOME :: restWord rest)) = homePattern (e.param HOME) rest := by
  obtain rfl | ⟨tail, rfl⟩ := rest_cases h
  · refine ⟨fun p hp => absurd hp List.not_mem_nil, rfl, iff_of_true rfl rfl, fun e => ?_⟩
    show pattern ((e.param HOME).map .exp ++ []) = _
    rw [List.append_nil, pattern_exp]
    rfl
  · refine ⟨List.forall_mem_cons.mpr ⟨rfl, quotedWord_shielded⟩,
      congrArg ('/' :: ·) literal_quotedWord,
      iff_of_false (List.cons_ne_nil _ _) (List.cons_ne_nil _ _), fun e => ?_⟩
    rw [cells_param, pattern_append, pattern_exp]
    exact congrArg (fun u => _ ++ ('/', true) :: u) pattern_quotedWord

/-- When `$HOME` may stand in a word without quotes around it, before the rest of a path. -/
structure Kept (e : Env) (rest : Text) : Prop where
  unsplit : ∀ c ∈ e.param HOME, c ∉ e.ifs
  present : rest = [] → e.param HOME ≠ []
  unmatched : (∃ c ∈ e.param HOME, isPatternChar c = true) →
    ∀ t, e.fits (homePattern (e.param HOME) rest) t = true → t = e.param HOME ++ rest

/-- A remote path is one word that names the file it is meant to, whatever files there are, where
it has no leading tilde, and else where the home directory stands as it is. -/
theorem remote_path_iff (path : Text) (hz : '\x00' ∉ path) (e : Env) :
    (∃ w, lex (quoteRemotePath path) = some [.word w] ∧
      ∀ l, expand e l w = [target (e.param HOME) path]) ↔
        ∀ rest, homeRest path = some rest → Kept e rest := by
  have hw : (∃ w, lex (quoteRemotePath path) = some [.word w] ∧
      ∀ l, expand e l w = [target (e.param HOME) path]) ↔
        ∀ l, expand e l (remoteWord path) = [target (e.param HOME) path] := by
    rw [lex_remote hz]
    simp
  rw [hw, target, remoteWord]
  cases hr : homeRest path with
  | none => simp [expand_quotedWord]
  | some rest =>
    obtain ⟨hq, ht, hn, hp⟩ := rest_spec hr
    have hx := @expand_param e (restWord rest) HOME fun p hm => quiet_of_shielded (hq p hm)
    rw [ht, hp e] at hx
    show (∀ l, expand e l (.param HOME :: restWord rest) = [e.param HOME ++ rest]) ↔ _
    rw [hx]
    constructor
    · rintro ⟨hu, hs, hm⟩ r hr
      obtain rfl := Option.some.inj hr
      exact ⟨hu, fun hr hv => hs hv (hn.mpr hr), hm⟩
    · intro h
      obtain ⟨hu, hs, hm⟩ := h rest rfl
      exact ⟨hu, fun hv hr => hs (hn.mp hr) hv, hm⟩

/-- A home directory, with the separators a shell starts with. A pattern in which nothing acts
stands for its own text. -/
def homeEnv (home : Text) : Env where
  param _ := home
  ifs := [' ', '\t', '\n']
  fits p t := p.map Prod.fst == t

theorem remote_path_sample : ∃ w, lex (quoteRemotePath ['~', '/', 'x']) = some [.word w] ∧
    ∀ l, expand (homeEnv ['/', 'r']) l w = [['/', 'r', '/', 'x']] := by
  refine (remote_path_iff ['~', '/', 'x'] (by decide) (homeEnv ['/', 'r'])).mpr ?_
  intro rest hr
  obtain rfl : ['/', 'x'] = rest := Option.some.inj hr
  exact ⟨by simp [homeEnv], fun h => absurd h (by decide), by simp [homeEnv, isPatternChar]⟩

/-- A blank in the home directory cuts the path in two. -/
theorem home_with_blank_splits :
    ¬ ∃ w, lex (quoteRemotePath ['~', '/', 'x']) = some [.word w] ∧
      ∀ l, expand (homeEnv ['/', 'a', ' ', 'b']) l w =
        [target ['/', 'a', ' ', 'b'] ['~', '/', 'x']] := by
  rintro ⟨w, hw, hx⟩
  have hl : lex (quoteRemotePath ['~', '/', 'x']) =
      some [.word [.param HOME, .plain '/', .plain 'x']] := by decide
  rw [hl] at hw
  obtain rfl : [.param HOME, .plain '/', .plain 'x'] = w := by simpa using hw
  have he : expand (homeEnv ['/', 'a', ' ', 'b']) ⟨[], List.nodup_nil⟩
      [.param HOME, .plain '/', .plain 'x'] = [['/', 'a'], ['b', '/', 'x']] := by decide
  have ht := hx ⟨[], List.nodup_nil⟩
  rw [he] at ht
  exact absurd ht (by decide)

end RemotePath

end ShellProxy.Quoting
