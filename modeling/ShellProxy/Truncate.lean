import ShellProxy.Lib.Utf8

/-! Log texts cut to a number of bytes. -/
namespace ShellProxy.Truncate
open Utf8

/-- The loop of `truncate_utf8`: down from `end` to a boundary. -/
def floorBoundary (s : Str) : Nat → Nat
  | 0 => 0
  | e + 1 => if s.isCharBoundary (e + 1) = true then e + 1 else floorBoundary s e

/-- The result is `none` where the slice panics. -/
def truncateUtf8 (s : Str) (maxBytes : Nat) : Option Str :=
  if s.len ≤ maxBytes then some s else s.sliceTo (floorBoundary s maxBytes)

theorem floorBoundary_eq (s : Str) (e : Nat) :
    floorBoundary s e = Nat.findGreatest (fun i => s.isCharBoundary i = true) e := by
  induction e with
  | zero => rfl
  | succ e ih => rw [floorBoundary, Nat.findGreatest_succ, ih]

theorem truncateUtf8_fit (t : List Char) (maxBytes : Nat) :
    ∃ r, truncateUtf8 (.of t) maxBytes = some (.of r) ∧ LongestFit t r maxBytes := by
  by_cases hfit : (encode t).length ≤ maxBytes
  · refine ⟨t, ?_, List.prefix_rfl, hfit, fun r hr _ => hr⟩
    simp [truncateUtf8, hfit]
  · obtain ⟨r, hr, hlen⟩ := Str.greatest_boundary t maxBytes
    refine ⟨r, ?_, hr⟩
    have hslice := Str.sliceTo_front hr.front
    rw [hlen, ← floorBoundary_eq] at hslice
    rw [truncateUtf8, Str.len_of, if_neg hfit, hslice]

/-- Cut between characters, as long as it fits: the whole text, or one with at most three bytes to
spare. -/
theorem truncateUtf8_longest (t : List Char) (maxBytes : Nat) :
    ∃ r, truncateUtf8 (.of t) maxBytes = some (.of r) ∧ LongestFit t r maxBytes ∧
      ((encode t).length ≤ maxBytes → r = t) ∧
      (maxBytes < (encode t).length → maxBytes ≤ (encode r).length + 3) := by
  obtain ⟨r, hcut, hr⟩ := truncateUtf8_fit t maxBytes
  exact ⟨r, hcut, hr, hr.whole, hr.room⟩

example : truncateUtf8 (.of ['a', 'b', '你', 'c', 'd']) 4 = some (.of ['a', 'b']) := by decide

/-! ### Commands in the logs -/

/-- A command as a log line shows it: the longest front within 300 bytes, and the size of the whole
where that is more. -/
def abbreviated (shown : List Char → List Char) (s : Str) : Option (List Char) :=
  if s.len ≤ 300 then some (shown s.text)
  else (truncateUtf8 s 300).map fun r =>
    shown r.text ++ ("...(total " ++ toString s.len ++ " bytes)").toList

/-- The daemon's, with the escapes of `{:?}`. -/
def abbreviate (debug : List Char → List Char) (s : Str) : Option (List Char) :=
  abbreviated debug s

/-- Serve's `abbrev`. -/
def abbrevPlain (s : Str) : Option (List Char) := abbreviated id s

/-- No command keeps its log line from being made. -/
theorem abbreviated_made (shown : List Char → List Char) (t : List Char) :
    ∃ r, LongestFit t r 300 ∧ abbreviated shown (.of t) =
      some (if (encode t).length ≤ 300 then shown t
        else shown r ++ ("...(total " ++ toString (encode t).length ++ " bytes)").toList) := by
  obtain ⟨r, hcut, hr⟩ := truncateUtf8_fit t 300
  refine ⟨r, hr, ?_⟩
  rw [abbreviated, Str.len_of, hcut, Str.text_of, Option.map_some, Str.text_of]
  split <;> rfl

end ShellProxy.Truncate
