import Mathlib.Logic.Relation
import Mathlib.Tactic.Push

/-! Labelled machines given by a partial step function: runs, runs whose steps all
meet a condition, and the invariant rules used for every protocol of this project. -/
namespace ShellProxy.Machine
variable {σ ε : Type*}

/-- Run a list of labels in order; `none` as soon as a label is not enabled. -/
def run (step : σ → ε → Option σ) : List ε → σ → Option σ
  | [], s => some s
  | e :: es, s => (step s e).bind (run step es)

theorem run_congr {f g : σ → ε → Option σ} {es : List ε} (h : ∀ e ∈ es, ∀ s, f s e = g s e)
    (s : σ) : run f es s = run g es s := by
  induction es generalizing s with
  | nil => rfl
  | cons e es ih =>
    obtain ⟨he, hes⟩ := List.forall_mem_cons.mp h
    rw [run, run, he s]
    exact congrArg _ (funext (ih hes))

/-- Runs whose every step meets `ok` on the state before it. -/
inductive Path (step : σ → ε → Option σ) (ok : σ → ε → Prop) (s : σ) : List ε → σ → Prop where
  | refl : Path step ok s [] s
  | tail {t u : σ} {es : List ε} {e : ε} :
      Path step ok s es t → ok t e → step t e = some u → Path step ok s (es ++ [e]) u

abbrev Any (_ : σ) (_ : ε) : Prop := True

variable {step : σ → ε → Option σ} {ok : σ → ε → Prop}

theorem Path.append {s t u : σ} {es fs : List ε}
    (h : Path step ok s es t) (g : Path step ok t fs u) : Path step ok s (es ++ fs) u := by
  induction g with
  | refl => simpa using h
  | tail _ ho hs ih => simpa only [List.append_assoc] using ih.tail ho hs

theorem Path.head {s t u : σ} {e : ε} {es : List ε} (ho : ok s e) (hs : step s e = some t)
    (h : Path step ok t es u) : Path step ok s (e :: es) u := by
  have h0 : Path step ok s [] s := .refl
  have h1 : Path step ok s [e] t := by simpa using h0.tail ho hs
  simpa using h1.append h

theorem path_of_run_all {es : List ε} {s t : σ} (hok : ∀ e ∈ es, ∀ u, ok u e)
    (h : run step es s = some t) : Path step ok s es t := by
  induction es generalizing s with
  | nil =>
    simp only [run, Option.some.injEq] at h
    subst h
    exact .refl
  | cons e es ih =>
    simp only [run, Option.bind_eq_some_iff] at h
    obtain ⟨u, hs, hr⟩ := h
    have hrest := ih (fun f hf => hok f (List.mem_cons_of_mem e hf)) hr
    exact Path.head (hok e List.mem_cons_self s) hs hrest

theorem path_of_run {es : List ε} {s t : σ} (h : run step es s = some t) :
    Path step Any s es t := path_of_run_all (fun _ _ _ => trivial) h

theorem path_of_run_map {α : Type*} {f : σ → α} {x : α} {es : List ε} {s : σ}
    (h : (run step es s).map f = some x) : ∃ t, Path step Any s es t ∧ f t = x := by
  obtain ⟨t, hr, hx⟩ := Option.map_eq_some_iff.mp h
  exact ⟨t, path_of_run hr, hx⟩

/-- The machine that makes the allowed steps only. -/
def guarded (step : σ → ε → Option σ) (ok : σ → ε → Prop) [∀ s e, Decidable (ok s e)] (s : σ)
    (e : ε) : Option σ :=
  if ok s e then step s e else none

theorem path_of_guarded [∀ s e, Decidable (ok s e)] {es : List ε} {s t : σ}
    (h : run (guarded step ok) es s = some t) : Path step ok s es t := by
  induction es generalizing s with
  | nil =>
    simp only [run, Option.some.injEq] at h
    subst h
    exact .refl
  | cons e es ih =>
    simp only [run, guarded, Option.bind_eq_some_iff, Option.ite_none_right_eq_some] at h
    obtain ⟨u, ⟨ho, hs⟩, hr⟩ := h
    exact Path.head ho hs (ih hr)

theorem Path.mono {ok' : σ → ε → Prop} {s t : σ} {es : List ε} (himp : ∀ u e, ok u e → ok' u e)
    (h : Path step ok s es t) : Path step ok' s es t := by
  induction h with
  | refl => exact .refl
  | tail _ ho hs ih => exact ih.tail (himp _ _ ho) hs

theorem Path.invariant {I : σ → Prop} {s t : σ} {es : List ε}
    (hstep : ∀ t e u, I t → ok t e → step t e = some u → I u)
    (h : Path step ok s es t) (hs : I s) : I t := by
  induction h with
  | refl => exact hs
  | tail _ ho hst ih => exact hstep _ _ _ ih ho hst

/-- A machine whose every step another one answers with a run, in related states, answers every
run. -/
theorem Path.simulated {τ φ : Type*} {step' : τ → φ → Option τ} {ok' : τ → φ → Prop}
    {R : σ → τ → Prop} {s u : σ} {t : τ} {es : List ε}
    (hstep : ∀ s e u t, R s t → ok s e → step s e = some u →
      ∃ fs v, Path step' ok' t fs v ∧ R u v)
    (h : Path step ok s es u) (hs : R s t) : ∃ fs v, Path step' ok' t fs v ∧ R u v := by
  induction h with
  | refl => exact ⟨[], t, .refl, hs⟩
  | tail _ ho hst ih =>
    obtain ⟨fs, v, hpath, hR⟩ := ih
    obtain ⟨gs, w, hmore, hR'⟩ := hstep _ _ _ _ hR ho hst
    exact ⟨fs ++ gs, w, hpath.append hmore, hR'⟩

/-- Steps that each lower a measure which no other step raises are no more than the measure. -/
theorem Path.bounded {s t : σ} {es : List ε} (μ : σ → Nat) (counts : ε → Bool)
    (hstep : ∀ t e u, ok t e → step t e = some u → μ u + (if counts e then 1 else 0) ≤ μ t)
    (h : Path step ok s es t) : μ t + (es.filter counts).length ≤ μ s := by
  induction h with
  | refl => simp
  | tail _ ho hs ih =>
    rename_i e _
    have hd := hstep _ _ _ ho hs
    rw [List.filter_append, List.length_append, List.filter_cons, List.filter_nil]
    by_cases hc : counts e = true
    · rw [if_pos hc] at hd ⊢
      simp only [List.length_cons, List.length_nil]
      omega
    · rw [if_neg hc] at hd ⊢
      simp only [List.length_nil]
      omega

/-- A property that, once true, stays true was false all along where it is false at the end. -/
theorem Path.avoids {P : σ → Prop} {s t : σ} {es : List ε}
    (hstep : ∀ t e u, P t → step t e = some u → P u)
    (h : Path step ok s es t) (hn : ¬ P t) : Path step (fun u e => ok u e ∧ ¬ P u) s es t := by
  induction h with
  | refl => exact .refl
  | tail _ ho hs ih =>
    have hu := fun hp => hn (hstep _ _ _ hp hs)
    exact (ih hu).tail ⟨ho, hu⟩ hs

theorem Path.length_le {s t : σ} {es : List ε} (μ : σ → Nat) (I : σ → Prop)
    (hstep : ∀ s e u, I s → ok s e → step s e = some u → I u ∧ μ u < μ s)
    (h : Path step ok s es t) (hs : I s) : I t ∧ μ t + es.length ≤ μ s := by
  induction h with
  | refl => exact ⟨hs, Nat.le_refl _⟩
  | tail _ ho hst ih =>
    obtain ⟨hI, hle⟩ := ih
    obtain ⟨hu, hlt⟩ := hstep _ _ _ hI ho hst
    refine ⟨hu, ?_⟩
    rw [List.length_append, List.length_singleton]
    omega

/-- Steps that each lower a measure come to an end: some run of them cannot go on. -/
theorem exists_final (μ : σ → Nat) (I : σ → Prop) (P : ε → Prop)
    (hstep : ∀ s e u, I s → P e → step s e = some u → I u ∧ μ u < μ s) (s : σ) (hs : I s) :
    ∃ es t, Path step (fun _ e => P e) s es t ∧ I t ∧ ∀ e, P e → step t e = none := by
  induction hm : μ s using Nat.strongRecOn generalizing s with
  | ind m ih =>
    by_cases hend : ∀ e, P e → step s e = none
    · exact ⟨[], s, .refl, hs, hend⟩
    · push Not at hend
      obtain ⟨e, he, hne⟩ := hend
      obtain ⟨u, hu⟩ := Option.ne_none_iff_exists'.mp hne
      obtain ⟨hI, hlt⟩ := hstep s e u hs he hu
      obtain ⟨es, t, hp, ht, hfin⟩ := ih (μ u) (hm ▸ hlt) u hI rfl
      exact ⟨e :: es, t, Path.head he hu hp, ht, hfin⟩

/-- Where every state short of the goal has an allowed step that lowers a measure, the goal is
reached. -/
theorem exists_goal (μ : σ → Nat) (I G : σ → Prop)
    (hgo : ∀ s, I s → ¬ G s → ∃ e u, ok s e ∧ step s e = some u ∧ I u ∧ μ u < μ s)
    (s : σ) (hs : I s) : ∃ es t, Path step ok s es t ∧ I t ∧ G t := by
  induction hm : μ s using Nat.strongRecOn generalizing s with
  | ind m ih =>
    by_cases hg : G s
    · exact ⟨[], s, .refl, hs, hg⟩
    · obtain ⟨e, u, ho, hu, hI, hlt⟩ := hgo s hs hg
      obtain ⟨es, t, hp, ht, hgt⟩ := ih (μ u) (hm ▸ hlt) u hI rfl
      exact ⟨e :: es, t, Path.head ho hu hp, ht, hgt⟩

end ShellProxy.Machine
