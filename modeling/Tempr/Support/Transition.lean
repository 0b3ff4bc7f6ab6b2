import Mathlib.Data.List.Basic
import Mathlib.Logic.Basic
import Mathlib.Logic.Function.Iterate

/-!
# Transition systems

Runs of a labelled transition system, the states they reach, and the rule that
derives an invariant of all reachable states from what one step preserves.
-/

namespace Tempr.Support

/-- A transition system with states `σ` and step labels `ι`. -/
structure System (σ ι : Type*) where
  init : σ → Prop
  step : σ → ι → σ → Prop

namespace System

variable {σ ι : Type*}

/-- A finite sequence of steps. -/
inductive Run (M : System σ ι) : σ → List ι → σ → Prop
  | nil (s : σ) : Run M s [] s
  | snoc {s t u : σ} {ls : List ι} {l : ι} :
      Run M s ls t → M.step t l u → Run M s (ls ++ [l]) u

/-- A state that some run from an initial state ends in. -/
def Reachable (M : System σ ι) (s : σ) : Prop :=
  ∃ s₀ ls, M.init s₀ ∧ M.Run s₀ ls s

/-- The system that takes only the steps satisfying `P`. -/
def restrict (M : System σ ι) (P : σ → ι → Prop) : System σ ι where
  init := M.init
  step s l t := M.step s l t ∧ P s l

variable {M : System σ ι}

theorem Run.append {s t u : σ} {ls ks : List ι} (h : M.Run s ls t)
    (h' : M.Run t ks u) : M.Run s (ls ++ ks) u := by
  induction h' with
  | nil => simpa using h
  | snoc _ hstep ih =>
      rw [← List.append_assoc]
      exact ih.snoc hstep

/-- What every step preserves, every run preserves. -/
theorem Run.preserves {I : σ → Prop}
    (hstep : ∀ s l t, M.step s l t → I s → I t)
    {s t : σ} {ls : List ι} (h : M.Run s ls t) (hs : I s) : I t := by
  induction h with
  | nil => exact hs
  | snoc _ hlast ih => exact hstep _ _ _ hlast ih

theorem Reachable.init {s : σ} (h : M.init s) : M.Reachable s :=
  ⟨s, [], h, .nil s⟩

theorem Reachable.step {s t : σ} {l : ι} (h : M.Reachable s)
    (hstep : M.step s l t) : M.Reachable t := by
  obtain ⟨s₀, ls, hinit, hrun⟩ := h
  exact ⟨s₀, ls ++ [l], hinit, hrun.snoc hstep⟩

theorem Reachable.append {s t : σ} {ls : List ι} (h : M.Reachable s)
    (hrun : M.Run s ls t) : M.Reachable t := by
  obtain ⟨s₀, ks, hinit, hbefore⟩ := h
  exact ⟨s₀, ks ++ ls, hinit, Run.append hbefore hrun⟩

/-- The invariant rule. -/
theorem Reachable.invariant {I : σ → Prop} (hinit : ∀ s, M.init s → I s)
    (hstep : ∀ s l t, M.step s l t → I s → I t)
    {s : σ} (h : M.Reachable s) : I s := by
  obtain ⟨s₀, ls, hs₀, hrun⟩ := h
  exact hrun.preserves hstep (hinit s₀ hs₀)

/-- What is seen of a run is a run of `N`, if `N` can follow every step that is
taken where the invariant holds. -/
theorem Run.simulate {τ κ : Type*} {N : System τ κ} {see : σ → τ}
    {I : σ → Prop} (hstep : ∀ s l t, M.step s l t → I s → I t)
    (hsee : ∀ s l t, M.step s l t → I s → ∃ ks, N.Run (see s) ks (see t))
    {s t : σ} {ls : List ι} (h : M.Run s ls t) (hs : I s) :
    I t ∧ ∃ ks, N.Run (see s) ks (see t) := by
  induction h with
  | nil => exact ⟨hs, [], .nil _⟩
  | snoc _ hlast ih =>
      obtain ⟨ht, ks, hrun⟩ := ih
      obtain ⟨ks', hrun'⟩ := hsee _ _ _ hlast ht
      exact ⟨hstep _ _ _ hlast ht, ks ++ ks', hrun.append hrun'⟩

theorem Run.of_restrict {P : σ → ι → Prop} {s t : σ} {ls : List ι}
    (h : (M.restrict P).Run s ls t) : M.Run s ls t := by
  induction h with
  | nil => exact .nil _
  | snoc _ hstep ih => exact ih.snoc hstep.1

theorem Reachable.of_restrict {P : σ → ι → Prop} {s : σ}
    (h : (M.restrict P).Reachable s) : M.Reachable s := by
  obtain ⟨s₀, ls, hinit, hrun⟩ := h
  exact ⟨s₀, ls, hinit, hrun.of_restrict⟩

/-! ## Computed systems -/

/-- The system whose steps are computed by `next`. -/
def ofNext (init : σ → Prop) (next : σ → ι → Option σ) : System σ ι where
  init := init
  step s l t := next s l = some t

/-- The state that the steps `ls` lead to, if each of them is enabled. -/
def follow (next : σ → ι → Option σ) : σ → List ι → Option σ
  | s, [] => some s
  | s, l :: ls => (next s l).bind fun t => follow next t ls

/-- Steps that `next` computes are a run of every system that has them where an
invariant holds. -/
theorem run_of_follow_where {next : σ → ι → Option σ} {I : σ → Prop}
    (hnext : ∀ s l t, I s → next s l = some t → M.step s l t ∧ I t)
    {s t : σ} {ls : List ι} (hs : I s) (h : follow next s ls = some t) :
    M.Run s ls t ∧ I t := by
  induction ls generalizing s with
  | nil =>
      obtain rfl : s = t := by simpa [follow] using h
      exact ⟨.nil s, hs⟩
  | cons l ls ih =>
      obtain ⟨u, hu, hrest⟩ := Option.bind_eq_some_iff.1 h
      obtain ⟨hstep, hIu⟩ := hnext s l u hs hu
      have hfirst : M.Run s ([] ++ [l]) u := .snoc (.nil s) hstep
      obtain ⟨hrun, ht⟩ := ih hIu hrest
      exact ⟨hfirst.append hrun, ht⟩

/-- Steps that `next` computes are a run of every system that has them. -/
theorem run_of_follow {next : σ → ι → Option σ}
    (hnext : ∀ s l t, next s l = some t → M.step s l t)
    {s t : σ} {ls : List ι} (h : follow next s ls = some t) :
    M.Run s ls t :=
  (run_of_follow_where (I := fun _ => True)
    (fun s l t _ hs => ⟨hnext s l t hs, trivial⟩) trivial h).1

/-- The computed steps that satisfy `p`. -/
def guarded (next : σ → ι → Option σ) (p : σ → ι → Bool) (s : σ) (l : ι) :
    Option σ :=
  if p s l then next s l else none

theorem restrict_step_of_guarded {init : σ → Prop} {next : σ → ι → Option σ}
    {p : σ → ι → Bool} (s : σ) (l : ι) (t : σ)
    (h : guarded next p s l = some t) :
    ((ofNext init next).restrict fun s l => p s l = true).step s l t := by
  unfold guarded at h
  split at h
  · exact ⟨h, ‹_›⟩
  · cases h

/-! ## History variables -/

/-- `M` together with a history variable that `note` updates at every step. -/
def watch {η : Type*} (M : System σ ι) (h₀ : η) (note : η → σ → ι → η) :
    System (σ × η) ι where
  init p := M.init p.1 ∧ p.2 = h₀
  step p l q := M.step p.1 l q.1 ∧ q.2 = note p.2 p.1 l

/-- The computed steps of a watched system. -/
def watchNext {η : Type*} (next : σ → ι → Option σ) (note : η → σ → ι → η)
    (p : σ × η) (l : ι) : Option (σ × η) :=
  (next p.1 l).map fun t => (t, note p.2 p.1 l)

section Watch

variable {η : Type*} {h₀ : η} {note : η → σ → ι → η}

theorem Run.of_watch {p q : σ × η} {ls : List ι}
    (h : (M.watch h₀ note).Run p ls q) : M.Run p.1 ls q.1 := by
  induction h with
  | nil => exact .nil _
  | snoc _ hstep ih => exact ih.snoc hstep.1

theorem watch_step_of_watchNext {init : σ → Prop} {next : σ → ι → Option σ}
    (p : σ × η) (l : ι) (q : σ × η) (h : watchNext next note p l = some q) :
    ((ofNext init next).watch h₀ note).step p l q := by
  obtain ⟨t, ht, rfl⟩ := Option.map_eq_some_iff.1 h
  exact ⟨ht, rfl⟩

theorem restrict_step_of_guarded_watch {init : σ → Prop}
    {next : σ → ι → Option σ} {P : σ × η → ι → Bool} (p : σ × η) (l : ι)
    (q : σ × η) (h : guarded (watchNext next note) P p l = some q) :
    (((ofNext init next).watch h₀ note).restrict
      fun p l => P p l = true).step p l q := by
  unfold guarded at h
  split at h
  · exact ⟨watch_step_of_watchNext p l q h, ‹_›⟩
  · cases h

theorem Reachable.of_watch {p : σ × η} (h : (M.watch h₀ note).Reachable p) :
    M.Reachable p.1 := by
  obtain ⟨p₀, ls, hinit, hrun⟩ := h
  exact ⟨p₀.1, ls, hinit.1, hrun.of_watch⟩

end Watch

end System

/-! ## Functions taken again and again -/

/-- A function that keeps to `P` and lowers a measure there comes to where the
measure is zero. -/
theorem exists_iterate_of_decreases {σ : Type*} {P : σ → Prop} {m : σ → ℕ}
    {f : σ → σ} (hstep : ∀ s, P s → m s ≠ 0 → P (f s) ∧ m (f s) < m s) {s : σ}
    (hs : P s) : ∃ n, P (f^[n] s) ∧ m (f^[n] s) = 0 := by
  induction hm : m s using Nat.strongRecOn generalizing s with
  | ind k ih =>
      subst hm
      by_cases hzero : m s = 0
      · exact ⟨0, hs, hzero⟩
      · obtain ⟨hfs, hlt⟩ := hstep s hs hzero
        obtain ⟨n, hn⟩ := ih _ hlt hfs rfl
        exact ⟨n + 1, hn⟩

end Tempr.Support
