import Mathlib.Data.List.Induction

/-! The last value that the entries of a log give, for logs that only grow. -/
namespace ShellProxy.Latest
variable {α β : Type*}

/-- The value of the last entry that has one. -/
def latest (r : α → Option β) (log : List α) : Option β := log.reverse.findSome? r

@[simp] theorem latest_nil (r : α → Option β) : latest r [] = none := rfl

theorem latest_concat (r : α → Option β) (log : List α) (a : α) :
    latest r (log ++ [a]) = (r a).or (latest r log) := by
  simp only [latest, List.reverse_append, List.reverse_singleton, List.singleton_append,
    List.findSome?_cons]
  cases r a <;> rfl

theorem latest_congr {r q : α → Option β} {log : List α} (h : ∀ a ∈ log, r a = q a) :
    latest r log = latest q log := by
  induction log using List.reverseRecOn with
  | nil => rfl
  | append_singleton log a ih =>
    have hl := ih fun b hb => h b (List.mem_append_left [a] hb)
    rw [latest_concat, latest_concat, h a (by simp), hl]

end ShellProxy.Latest
