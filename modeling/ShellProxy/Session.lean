import ShellProxy.Frame

/-! Validated session names. -/
namespace ShellProxy.Session

/-- Session used by requests that do not name one. -/
def defaultName : String := "default"
/-- Longest allowed session name, in UTF-8 bytes. -/
def maxLen : Nat := 64

inductive SessionNameError where
  | empty
  | tooLong (len : Nat)
  | badChar (c : Char)
  deriving DecidableEq, Repr

def isAllowed (c : Char) : Bool := c.isAlphanum || c == '.' || c == '_' || c == '-'

/-- A name that `parse` has accepted. -/
structure SessionId where
  name : String
  nonempty : name ≠ ""
  short : name.utf8ByteSize ≤ maxLen
  allowed : ∀ c ∈ name.toList, isAllowed c = true
  deriving DecidableEq

def SessionId.parse (s : String) : Except SessionNameError SessionId :=
  if he : s = "" then .error .empty
  else if hl : maxLen < s.utf8ByteSize then .error (.tooLong s.utf8ByteSize)
  else
    match hc : s.toList.find? fun c => !isAllowed c with
    | some c => .error (.badChar c)
    | none => .ok ⟨s, he, Nat.not_lt.mp hl, by simpa using hc⟩

/-- The names there are, and no others, are those that `parse` accepts. -/
theorem parse_iff {s : String} {i : SessionId} : SessionId.parse s = .ok i ↔ i.name = s := by
  constructor
  · intro h
    unfold SessionId.parse at h
    split at h
    · cases h
    · split at h
      · cases h
      · split at h
        · cases h
        · obtain rfl := Except.ok.inj h
          rfl
  · rintro rfl
    have hf : i.name.toList.find? (fun c => !isAllowed c) = none := by
      rw [List.find?_eq_none]
      intro c hc
      simp [i.allowed c hc]
    unfold SessionId.parse
    rw [dif_neg i.nonempty, dif_neg (Nat.not_lt.mpr i.short)]
    split
    · rename_i c h
      rw [hf] at h
      cases h
    · rfl

end ShellProxy.Session
