import ShellProxy.SshConfig

/-! What the output of `ssh -G` comes to, keyword by keyword. -/
namespace ShellProxy.Keywords
open HostPattern SshConfig

attribute [ext] Fields

def valueOn (keys : List String) (line : Text) : Option Text :=
  match splitOnce line with
  | some (key, value) => if String.ofList key ∈ keys then some value else none
  | none => none

/-- The values behind these keywords, in the order of their lines. -/
def values (keys : List String) (text : Text) : List Text := (lines text).filterMap (valueOn keys)

def lastSet (unset : Text → Bool) (vs : List Text) : Option Text :=
  ((vs.map unquote).filter fun v => !unset v).getLast?

def isNone (v : Text) : Bool := v = "none".toList

def isNoneAnyCase (v : Text) : Bool := toAsciiLowercase v = "none".toList

/-- The keywords by the variable they set. Both lists of known_hosts files are one variable. -/
def groups : List (List String) :=
  [["hostname"], ["port"], ["user"], ["connecttimeout"], ["identityfile"],
    ["userknownhostsfile", "globalknownhostsfile"], ["stricthostkeychecking"], ["proxycommand"],
    ["proxyjump"], ["hostkeyalias"]]

/-- The variables behind the loop, each from the values of its own keywords: the last value counts,
also where it does not parse, `none` unsets nothing, and files add up. -/
def settings (E : LocalEnv) (text : Text) : Fields where
  hostname := (values ["hostname"] text).getLast?.map unquote
  port := (values ["port"] text).getLast?.elim 22 fun v => (parseUnsigned maxU16 v).getD 22
  user := (values ["user"] text).getLast?.map unquote
  identityFiles := (values ["identityfile"] text).map fun v => expandTilde E (unquote v)
  knownHostsFiles :=
    (values ["userknownhostsfile", "globalknownhostsfile"] text).flatMap fun v =>
      (splitValues v).map (expandTilde E)
  proxyCommand := lastSet isNone (values ["proxycommand"] text)
  proxyJump := lastSet isNone (values ["proxyjump"] text)
  connectTimeout := (values ["connecttimeout"] text).getLast?.bind fun v =>
    (parseUnsigned maxU64 (unquote v)).filter (0 < ·)
  strictHostKeys := (values ["stricthostkeychecking"] text).getLast?.elim true fun v =>
    !(["no", "off", "false", "accept-new"].contains (String.ofList (unquote v)))
  hostKeyAlias := lastSet isNoneAnyCase (values ["hostkeyalias"] text)

section Fold
variable {γ : Type}

theorem foldl_last (g : Text → γ) (init : γ) (vs : List Text) :
    vs.foldl (fun _ v => g v) init = vs.getLast?.elim init g := by
  induction vs generalizing init with
  | nil => rfl
  | cons v vs ih =>
    rw [List.foldl_cons, ih, List.getLast?_cons]
    cases vs.getLast? <;> rfl

theorem foldl_last_map (g : Text → Text) (vs : List Text) :
    vs.foldl (fun _ v => some (g v)) none = vs.getLast?.map g := by
  rw [foldl_last]
  cases vs.getLast? <;> rfl

theorem foldl_last_bind (g : Text → Option γ) (vs : List Text) :
    vs.foldl (fun _ v => g v) none = vs.getLast?.bind g := by
  rw [foldl_last]
  cases vs.getLast? <;> rfl

theorem foldl_lastSet (unset : Text → Bool) (init : Option Text) (vs : List Text) :
    vs.foldl (fun old v => if unset (unquote v) then old else some (unquote v)) init =
      (lastSet unset vs).or init := by
  induction vs generalizing init with
  | nil => rfl
  | cons v vs ih =>
    rw [List.foldl_cons, ih, lastSet, lastSet, List.map_cons]
    cases hu : unset (unquote v) with
    | true => rw [List.filter_cons_of_neg (by simp [hu]), if_pos rfl]
    | false =>
      rw [List.filter_cons_of_pos (by simp [hu]), List.getLast?_cons, if_neg Bool.false_ne_true]
      cases ((vs.map unquote).filter fun v => !unset v).getLast? <;> rfl

theorem foldl_files (g : Text → List Text) (vs : List Text) :
    vs.foldl (fun files v => files ++ g v) [] = vs.flatMap g := by
  rw [List.foldl_append_eq_append, List.nil_append, List.flatMap_def]

end Fold

section Project
variable (E : LocalEnv) {γ : Type}

/-- The variable is set by the lines of these keywords and by no other. -/
def SetBy (var : Fields → γ) (keys : List String) (put : γ → Text → γ) : Prop :=
  ∀ f key v, var (f.set E key v) = if key ∈ keys then put (var f) v else var f

variable {E} {var : Fields → γ} {keys : List String} {put : γ → Text → γ}

theorem SetBy.line (h : SetBy E var keys put) (f : Fields) (line : Text) :
    var (f.line E line) = (valueOn keys line).elim (var f) (put (var f)) := by
  unfold Fields.line valueOn
  cases splitOnce line with
  | none => rfl
  | some kv =>
    have hset := h f (String.ofList kv.1) kv.2
    by_cases hk : String.ofList kv.1 ∈ keys
    · rw [if_pos hk] at hset
      simpa [hk] using hset
    · rw [if_neg hk] at hset
      simpa [hk] using hset

theorem SetBy.fields (h : SetBy E var keys put) (text : Text) :
    var (fields E text) = (values keys text).foldl put (var {}) := by
  unfold SshConfig.fields values
  generalize ({} : Fields) = f
  induction lines text generalizing f with
  | nil => rfl
  | cons line ls ih =>
    rw [List.foldl_cons, ih, h.line, List.filterMap_cons]
    cases valueOn keys line <;> rfl

theorem set_eq (E : LocalEnv) (f : Fields) (key : String) (v : Text) : f.set E key v = {
    hostname := if key ∈ ["hostname"] then some (unquote v) else f.hostname
    port := if key ∈ ["port"] then (parseUnsigned maxU16 v).getD 22 else f.port
    user := if key ∈ ["user"] then some (unquote v) else f.user
    identityFiles :=
      if key ∈ ["identityfile"] then f.identityFiles ++ [expandTilde E (unquote v)]
      else f.identityFiles
    knownHostsFiles :=
      if key ∈ ["userknownhostsfile", "globalknownhostsfile"] then
        f.knownHostsFiles ++ (splitValues v).map (expandTilde E)
      else f.knownHostsFiles
    proxyCommand :=
      if key ∈ ["proxycommand"] then
        if isNone (unquote v) then f.proxyCommand else some (unquote v)
      else f.proxyCommand
    proxyJump :=
      if key ∈ ["proxyjump"] then if isNone (unquote v) then f.proxyJump else some (unquote v)
      else f.proxyJump
    connectTimeout :=
      if key ∈ ["connecttimeout"] then (parseUnsigned maxU64 (unquote v)).filter (0 < ·)
      else f.connectTimeout
    strictHostKeys :=
      if key ∈ ["stricthostkeychecking"] then
        !(["no", "off", "false", "accept-new"].contains (String.ofList (unquote v)))
      else f.strictHostKeys
    hostKeyAlias :=
      if key ∈ ["hostkeyalias"] then
        if isNoneAnyCase (unquote v) then f.hostKeyAlias else some (unquote v)
      else f.hostKeyAlias } := by
  unfold Fields.set
  split
  all_goals simp_all [orNone, isNone, isNoneAnyCase]

theorem fields_eq (E : LocalEnv) (text : Text) : fields E text = settings E text := by
  have hhost : SetBy E (·.hostname) ["hostname"] fun _ v => some (unquote v) :=
    fun f key v => by rw [set_eq]
  have hport : SetBy E (·.port) ["port"] fun _ v => (parseUnsigned maxU16 v).getD 22 :=
    fun f key v => by rw [set_eq]
  have huser : SetBy E (·.user) ["user"] fun _ v => some (unquote v) :=
    fun f key v => by rw [set_eq]
  have hid : SetBy E (·.identityFiles) ["identityfile"]
      fun files v => files ++ [expandTilde E (unquote v)] := fun f key v => by rw [set_eq]
  have hknown : SetBy E (·.knownHostsFiles) ["userknownhostsfile", "globalknownhostsfile"]
      fun files v => files ++ (splitValues v).map (expandTilde E) := fun f key v => by rw [set_eq]
  have hcmd : SetBy E (·.proxyCommand) ["proxycommand"]
      fun old v => if isNone (unquote v) then old else some (unquote v) :=
    fun f key v => by rw [set_eq]
  have hjump : SetBy E (·.proxyJump) ["proxyjump"]
      fun old v => if isNone (unquote v) then old else some (unquote v) :=
    fun f key v => by rw [set_eq]
  have htime : SetBy E (·.connectTimeout) ["connecttimeout"]
      fun _ v => (parseUnsigned maxU64 (unquote v)).filter (0 < ·) := fun f key v => by rw [set_eq]
  have hstrict : SetBy E (·.strictHostKeys) ["stricthostkeychecking"]
      fun _ v => !(["no", "off", "false", "accept-new"].contains (String.ofList (unquote v))) :=
    fun f key v => by rw [set_eq]
  have halias : SetBy E (·.hostKeyAlias) ["hostkeyalias"]
      fun old v => if isNoneAnyCase (unquote v) then old else some (unquote v) :=
    fun f key v => by rw [set_eq]
  apply Fields.ext
  · exact (hhost.fields text).trans (foldl_last_map unquote _)
  · exact (hport.fields text).trans (foldl_last _ _ _)
  · exact (huser.fields text).trans (foldl_last_map unquote _)
  · rw [hid.fields, settings, List.map_eq_flatMap]
    exact foldl_files _ _
  · exact (hknown.fields text).trans (foldl_files _ _)
  · exact (hcmd.fields text).trans ((foldl_lastSet isNone _ _).trans Option.or_none)
  · exact (hjump.fields text).trans ((foldl_lastSet isNone _ _).trans Option.or_none)
  · exact (htime.fields text).trans (foldl_last_bind _ _)
  · exact (hstrict.fields text).trans (foldl_last _ _ _)
  · exact (halias.fields text).trans ((foldl_lastSet isNoneAnyCase _ _).trans Option.or_none)

end Project

theorem settings_congr {E : LocalEnv} {text text' : Text}
    (h : ∀ keys ∈ groups, values keys text' = values keys text) :
    settings E text' = settings E text := by
  simp only [groups, List.forall_mem_cons, List.not_mem_nil, false_imp_iff, implies_true,
    and_true] at h
  obtain ⟨h1, h2, h3, h4, h5, h6, h7, h8, h9, h10⟩ := h
  simp only [settings, h1, h2, h3, h4, h5, h6, h7, h8, h9, h10]

/-- The result is put together from the values of each keyword, and two outputs in which every
variable has the same values in the same order are resolved alike: other lines, and the order
between variables, do not count. -/
theorem parse_by_keyword (E : LocalEnv) (host : String) (text : Text) :
    fields E text = settings E text ∧
      ∀ text', (∀ keys ∈ groups, values keys text' = values keys text) →
        parseSshGOutput E host text' = parseSshGOutput E host text := by
  refine ⟨fields_eq E text, fun text' h => ?_⟩
  have hf : fields E text' = fields E text := by
    rw [fields_eq, fields_eq, settings_congr h]
  simp only [parseSshGOutput, hf]

def reordered : Text := "proxyjump j%h\nuser u\nforwardagent no\nhostname h\n".toList

theorem parse_by_keyword_sample :
    fields sampleEnv sampleOutput = settings sampleEnv sampleOutput ∧
      parseSshGOutput sampleEnv "a" reordered = parseSshGOutput sampleEnv "a" sampleOutput := by
  obtain ⟨hf, hparse⟩ := parse_by_keyword sampleEnv "a" sampleOutput
  exact ⟨hf, hparse reordered (by decide)⟩

end ShellProxy.Keywords
