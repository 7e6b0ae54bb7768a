import Mathlib.Data.List.Nodup
import Mathlib.Data.List.TakeWhile

/-! A lock that goes from its owner to the oldest waiter, and the line of those who want it. -/
namespace ShellProxy.FairLock
variable {α : Type*}

/-- The lock is never free while somebody waits for it. -/
structure Lock (α : Type*) where
  owner : Option α := none
  waiting : List α := []
  free : owner = none → waiting = [] := by simp

namespace Lock

def line (l : Lock α) : List α := l.owner.toList ++ l.waiting

def ofLine : List α → Lock α
  | [] => {}
  | a :: as => { owner := some a, waiting := as }

/-- Take a free lock, or wait at the end of the line. -/
def acquire (l : Lock α) (a : α) : Lock α :=
  match l.owner with
  | none => { owner := some a }
  | some o => { owner := some o, waiting := l.waiting ++ [a] }

/-- Let the lock go, which hands it to the oldest waiter, or stop waiting for it. -/
def leave [DecidableEq α] (l : Lock α) (a : α) : Lock α :=
  match l.owner with
  | none => l
  | some o => if o = a then ofLine l.waiting else { owner := some o, waiting := l.waiting.erase a }

@[simp] theorem line_empty : ({} : Lock α).line = [] := rfl

@[simp] theorem line_ofLine (as : List α) : (ofLine as).line = as := by
  cases as <;> rfl

@[simp] theorem line_acquire (l : Lock α) (a : α) : (l.acquire a).line = l.line ++ [a] := by
  unfold acquire
  cases ho : l.owner with
  | none => simp [line, ho, l.free ho]
  | some o => simp [line, ho]

@[simp] theorem line_leave [DecidableEq α] (l : Lock α) (a : α) :
    (l.leave a).line = l.line.erase a := by
  have hl : l.line = l.owner.toList ++ l.waiting := rfl
  unfold leave
  cases ho : l.owner with
  | none => simp [line, ho, l.free ho]
  | some o =>
    rw [hl, ho]
    by_cases h : o = a
    · subst h
      simp
    · simp [h, line]

theorem owner_acquire (l : Lock α) {o a : α} (ho : l.owner = some o) :
    (l.acquire a).owner = some o := by
  simp [acquire, ho]

theorem owner_leave [DecidableEq α] (l : Lock α) {o a : α} (ho : l.owner = some o) (h : o ≠ a) :
    (l.leave a).owner = some o := by
  simp [leave, ho, h]

end Lock

end ShellProxy.FairLock
