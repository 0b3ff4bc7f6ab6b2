import Mathlib.Data.List.MinMax
import Mathlib.Data.Prod.Lex
import Tempr.Intel.Analysis
import Tempr.Support.Cyclic

/-!
# Diagnostic navigation

The key for the next diagnostic moves the cursor to the first diagnostic that
starts after it, and the key for the previous one to the last diagnostic that
starts before it; both wrap at the ends of the list. From inside a diagnostic
the way back leads from that diagnostic's start.
-/

namespace Tempr.Intel

open Tempr.Support.Cyclic

/-! ## The keys -/

/-- The last of the elements with the greatest key. -/
def maxByKey {α β : Type*} [LinearOrder β] (key : α → β) (l : List α) :
    Option α :=
  l.reverse.argmax key

namespace Diagnostic

/-- The start, and errors after warnings. -/
def backKey (d : Diagnostic) : ℕ ×ₗ (ℕ ×ₗ ℕ)ᵒᵈ :=
  toLex (d.range.start, OrderDual.toDual (toLex d.kind.sortKey))

end Diagnostic

namespace Analysis

/-- Diagnostics that overlap a range, in their order. -/
def diagnosticsIn (analysis : Analysis) (query : Editor.ByteRange) :
    List Diagnostic :=
  analysis.diagnostics.filter fun d =>
    d.range.start < query.stop ∧ query.start < d.range.stop

/-- The last diagnostic that starts before `offset`. -/
def previousDiagnostic (analysis : Analysis) (offset : ℕ) :
    Option Diagnostic :=
  maxByKey Diagnostic.backKey
    (analysis.diagnostics.filter fun d => d.range.start < offset)

end Analysis

/-- The start of the first diagnostic that contains the offset. -/
def snapBack (analysis : Analysis) (offset : ℕ) : ℕ :=
  match analysis.diagnostics.find? fun d =>
      d.range.start < offset ∧ offset < d.range.stop with
  | none => offset
  | some d => d.range.start

/-- Where the cursor goes from an offset, and the message that is shown. -/
def diagnosticTarget (analysis : Analysis) (offset : ℕ) (forward : Bool) :
    Option (ℕ × Text) := do
  let offset := if forward then offset else snapBack analysis offset
  let diagnostic ←
    if forward then
      (analysis.diagnostics.find? fun d => offset < d.range.start).or
        analysis.diagnostics.head?
    else
      (analysis.previousDiagnostic offset).or analysis.diagnostics.getLast?
  some (diagnostic.range.start, diagnostic.message)

/-- Where the cursor is after `n + 1` strokes of the key. -/
def diagnosticWalk (analysis : Analysis) (offset : ℕ) (forward : Bool) :
    ℕ → Option ℕ
  | 0 => (diagnosticTarget analysis offset forward).map Prod.fst
  | n + 1 => (diagnosticWalk analysis offset forward n).bind fun start =>
      (diagnosticTarget analysis start forward).map Prod.fst

/-! ## One stroke -/

namespace Diagnostic

theorem sorted_pairwise (ds : List Diagnostic) :
    (sorted ds).Pairwise fun a b => a.range.start ≤ b.range.start := by
  have htotal : Std.Total fun a b : Diagnostic => keyLe a.key b.key :=
    ⟨fun a b => by simp only [keyLe]; omega⟩
  have htrans : IsTrans Diagnostic fun a b => keyLe a.key b.key :=
    ⟨fun a b c => by simp only [keyLe]; omega⟩
  refine (List.pairwise_insertionSort _ ds).imp fun {a b} hab => ?_
  simp only [keyLe, key] at hab
  omega

end Diagnostic

namespace Analysis

/-- The distinct starts of the diagnostics. -/
def starts (analysis : Analysis) : Finset ℕ :=
  (analysis.diagnostics.map fun d => d.range.start).toFinset

variable {analysis : Analysis}

theorem mem_starts {s : ℕ} :
    s ∈ analysis.starts ↔ ∃ d ∈ analysis.diagnostics, d.range.start = s := by
  simp [starts]

theorem start_mem_starts {d : Diagnostic} (hd : d ∈ analysis.diagnostics) :
    d.range.start ∈ analysis.starts :=
  mem_starts.mpr ⟨d, hd, rfl⟩

theorem previousDiagnostic_eq_none {offset : ℕ}
    (h : analysis.previousDiagnostic offset = none) :
    ∀ s ∈ analysis.starts, ¬ s < offset := by
  intro s hs hlt
  obtain ⟨d, hd, rfl⟩ := mem_starts.mp hs
  rw [previousDiagnostic, maxByKey, List.argmax_eq_none,
    List.reverse_eq_nil_iff, List.filter_eq_nil_iff] at h
  exact h d hd (decide_eq_true hlt)

theorem previousDiagnostic_eq_some {offset : ℕ} {d : Diagnostic}
    (h : analysis.previousDiagnostic offset = some d) :
    d ∈ analysis.diagnostics ∧ d.range.start < offset ∧
      ∀ s ∈ analysis.starts, s < offset → s ≤ d.range.start := by
  rw [previousDiagnostic, maxByKey] at h
  have hmem : d ∈ analysis.diagnostics ∧ d.range.start < offset := by
    simpa using List.argmax_mem h
  refine ⟨hmem.1, hmem.2, fun s hs hlt => ?_⟩
  obtain ⟨e, he, rfl⟩ := mem_starts.mp hs
  have hkey : e.backKey ≤ d.backKey :=
    List.le_of_mem_argmax (by simpa using ⟨he, hlt⟩) h
  rw [Diagnostic.backKey, Diagnostic.backKey, Prod.Lex.toLex_le_toLex] at hkey
  rcases hkey with hkey | ⟨hkey, -⟩
  · exact hkey.le
  · exact hkey.le

theorem head_le {d : Diagnostic}
    (hsorted : analysis.diagnostics.Pairwise fun a b =>
      a.range.start ≤ b.range.start)
    (hd : analysis.diagnostics.head? = some d) :
    ∀ s ∈ analysis.starts, d.range.start ≤ s := by
  intro s hs
  obtain ⟨e, he, rfl⟩ := mem_starts.mp hs
  obtain ⟨rest, hrest⟩ := List.head?_eq_some_iff.mp hd
  rw [hrest] at hsorted he
  rcases List.mem_cons.mp he with rfl | he
  · exact le_rfl
  · exact List.rel_of_pairwise_cons hsorted he

theorem le_getLast {d : Diagnostic}
    (hsorted : analysis.diagnostics.Pairwise fun a b =>
      a.range.start ≤ b.range.start)
    (hd : analysis.diagnostics.getLast? = some d) :
    ∀ s ∈ analysis.starts, s ≤ d.range.start := by
  intro s hs
  obtain ⟨e, he, rfl⟩ := mem_starts.mp hs
  obtain ⟨init, hinit⟩ := List.getLast?_eq_some_iff.mp hd
  rw [hinit] at hsorted he
  rcases List.mem_append.mp he with he | he
  · exact (List.pairwise_append.mp hsorted).2.2 e he d (by simp)
  · rw [List.mem_singleton.mp he]

/-- The first diagnostic of a sorted list after an offset is the nearest. -/
theorem find_after {offset : ℕ} {d : Diagnostic}
    (hsorted : analysis.diagnostics.Pairwise fun a b =>
      a.range.start ≤ b.range.start)
    (hd : (analysis.diagnostics.find? fun d => offset < d.range.start) =
      some d) :
    ∀ s ∈ analysis.starts, offset < s → d.range.start ≤ s := by
  intro s hs hlt
  obtain ⟨e, he, rfl⟩ := mem_starts.mp hs
  obtain ⟨-, before, after, hsplit, hbefore⟩ := List.find?_eq_some_iff_append.mp hd
  rw [hsplit] at hsorted he
  rcases List.mem_append.mp he with he | he
  · have := hbefore e he
    simp only [Bool.not_eq_true', decide_eq_false_iff_not] at this
    exact absurd hlt this
  · rcases List.mem_cons.mp he with rfl | he
    · exact le_rfl
    · exact List.rel_of_pairwise_cons
        (List.pairwise_append.mp hsorted).2.1 he

end Analysis

open Analysis

variable {analysis : Analysis}

/-- A stroke of the forward key goes on to the next start. -/
theorem diagnosticTarget_forward
    (hsorted : analysis.diagnostics.Pairwise fun a b =>
      a.range.start ≤ b.range.start)
    (hne : analysis.diagnostics ≠ []) (offset : ℕ) :
    ∃ target, (diagnosticTarget analysis offset true).map Prod.fst =
        some target ∧
      Follows (· < ·) analysis.starts offset target := by
  cases hfind : analysis.diagnostics.find? fun d => offset < d.range.start with
  | some d =>
    have hmem := List.mem_of_find?_eq_some hfind
    have hlt : offset < d.range.start := by
      simpa using List.find?_some hfind
    refine ⟨d.range.start, by simp [diagnosticTarget, hfind],
      start_mem_starts hmem, Or.inl ⟨hlt, fun s hs hos => ?_⟩⟩
    exact Nat.not_lt.mpr (find_after hsorted hfind s hs hos)
  | none =>
    have hd := List.head?_eq_some_head hne
    generalize analysis.diagnostics.head hne = d at hd
    refine ⟨d.range.start, by simp [diagnosticTarget, hfind, hd],
      start_mem_starts (List.mem_of_mem_head? hd), Or.inr ⟨?_, ?_⟩⟩
    · intro s hs hlt
      obtain ⟨e, he, rfl⟩ := mem_starts.mp hs
      exact List.find?_eq_none.mp hfind e he (decide_eq_true hlt)
    · intro s hs
      exact Nat.not_lt.mpr (head_le hsorted hd s hs)

/-- A stroke of the back key goes to the start before the place that the cursor
was snapped to. -/
theorem diagnosticTarget_back
    (hsorted : analysis.diagnostics.Pairwise fun a b =>
      a.range.start ≤ b.range.start)
    (hne : analysis.diagnostics ≠ []) (offset : ℕ) :
    ∃ target, (diagnosticTarget analysis offset false).map Prod.fst =
        some target ∧
      Follows (· > ·) analysis.starts (snapBack analysis offset) target := by
  cases hprev : analysis.previousDiagnostic (snapBack analysis offset) with
  | some d =>
    obtain ⟨hmem, hlt, hmax⟩ := previousDiagnostic_eq_some hprev
    refine ⟨d.range.start, by simp [diagnosticTarget, hprev],
      start_mem_starts hmem, Or.inl ⟨hlt, fun s hs hos => ?_⟩⟩
    exact Nat.not_lt.mpr (hmax s hs hos)
  | none =>
    have hd := List.getLast?_eq_some_getLast hne
    generalize analysis.diagnostics.getLast hne = d at hd
    refine ⟨d.range.start, by simp [diagnosticTarget, hprev, hd],
      start_mem_starts (List.mem_of_mem_getLast? hd), Or.inr ⟨?_, ?_⟩⟩
    · exact previousDiagnostic_eq_none hprev
    · intro s hs
      exact Nat.not_lt.mpr (le_getLast hsorted hd s hs)

/-! ## All strokes -/

/-- Strokes of the key visit every start, each after the one that precedes it in
the cyclic order, and all of them in as many strokes as there are starts. -/
def VisitsAll (analysis : Analysis) (offset : ℕ) (forward : Bool) : Prop :=
  ∃ visited : ℕ → ℕ,
    (∀ n, diagnosticWalk analysis offset forward n = some (visited n)) ∧
      (∀ n, Follows (if forward then (· < ·) else (· > ·)) analysis.starts
        (visited n) (visited (n + 1))) ∧
      ∀ s ∈ analysis.starts, ∃ n < analysis.starts.card, visited n = s

/-- A walk on which each stroke goes to a start, and from a start on to the next
one, visits all of them. -/
theorem visitsAll_of_steps {r : ℕ → ℕ → Prop} [IsStrictTotalOrder ℕ r]
    {offset : ℕ} {forward : Bool}
    (hr : (if forward then (· < ·) else (· > ·)) = r)
    (next : ℕ → ℕ)
    (hnext : ∀ o, (diagnosticTarget analysis o forward).map Prod.fst =
      some (next o))
    (hmem : next offset ∈ analysis.starts)
    (hfollows : ∀ s ∈ analysis.starts, Follows r analysis.starts s (next s)) :
    VisitsAll analysis offset forward := by
  have hwalk : ∀ n, diagnosticWalk analysis offset forward n =
      some (next^[n + 1] offset) := by
    intro n
    induction n with
    | zero => exact hnext offset
    | succ n ih =>
      rw [diagnosticWalk, ih, Option.bind_some, hnext,
        Function.iterate_succ_apply' next (n + 1)]
  have htour : Tour r analysis.starts fun n => next^[n + 1] offset := by
    have hin : ∀ n, next^[n + 1] offset ∈ analysis.starts := by
      intro n
      induction n with
      | zero => exact hmem
      | succ n ih =>
        rw [Function.iterate_succ_apply']
        exact (hfollows _ ih).1
    refine ⟨hmem, fun n => ?_⟩
    rw [Function.iterate_succ_apply' next (n + 1)]
    exact hfollows _ (hin n)
  refine ⟨fun n => next^[n + 1] offset, hwalk, ?_, fun s hs =>
    htour.reaches_in_turn hs⟩
  intro n
  rw [hr]
  exact htour.follows n

/-- Going forward visits everything. -/
theorem visitsAll_forward
    (hsorted : analysis.diagnostics.Pairwise fun a b =>
      a.range.start ≤ b.range.start)
    (hne : analysis.diagnostics ≠ []) (offset : ℕ) :
    VisitsAll analysis offset true := by
  choose next hnext hfollows using diagnosticTarget_forward hsorted hne
  exact visitsAll_of_steps (r := (· < ·)) (by simp) next hnext (hfollows offset).1
    fun s _ => hfollows s

/-- No diagnostic starts strictly inside another one. -/
def NoneStartsInside (ds : List Diagnostic) : Prop :=
  ∀ d ∈ ds, ∀ e ∈ ds,
    ¬ (d.range.start < e.range.start ∧ e.range.start < d.range.stop)

instance (ds : List Diagnostic) : Decidable (NoneStartsInside ds) :=
  inferInstanceAs (Decidable (∀ d ∈ ds, ∀ e ∈ ds, _))

theorem snapBack_start (hinside : NoneStartsInside analysis.diagnostics)
    {s : ℕ} (hs : s ∈ analysis.starts) : snapBack analysis s = s := by
  obtain ⟨e, he, rfl⟩ := mem_starts.mp hs
  have hnone : (analysis.diagnostics.find? fun d =>
      d.range.start < e.range.start ∧ e.range.start < d.range.stop) = none := by
    rw [List.find?_eq_none]
    intro d hd
    simpa using hinside d hd e he
  rw [snapBack, hnone]

/-- From a start inside a diagnostic the cursor is snapped to an earlier
start. -/
theorem snapBack_inside {d e : Diagnostic} (hd : d ∈ analysis.diagnostics)
    (hde : d.range.start < e.range.start ∧ e.range.start < d.range.stop) :
    snapBack analysis e.range.start ∈ analysis.starts ∧
      snapBack analysis e.range.start < e.range.start := by
  cases hfind : analysis.diagnostics.find? fun d =>
      d.range.start < e.range.start ∧ e.range.start < d.range.stop with
  | none => exact absurd (decide_eq_true hde) (List.find?_eq_none.mp hfind d hd)
  | some first =>
    have hin : first.range.start < e.range.start ∧
        e.range.start < first.range.stop := by
      simpa using List.find?_some hfind
    rw [snapBack, hfind]
    exact ⟨start_mem_starts (List.mem_of_find?_eq_some hfind), hin.1⟩

/-- The stroke back from a start inside a diagnostic misses the start that the
cursor was snapped to. -/
theorem not_follows_back {s snapped target : ℕ}
    (hmem : snapped ∈ analysis.starts) (hlt : snapped < s)
    (hs : s ∈ analysis.starts)
    (hfollows : Follows (· > ·) analysis.starts snapped target) :
    ¬ Follows (· > ·) analysis.starts s target := by
  rintro ⟨-, ⟨hbefore, hnearest⟩ | ⟨hnone, -⟩⟩
  · have hle : snapped ≤ target := Nat.not_lt.mp (hnearest snapped hmem hlt)
    rcases hfollows.2 with ⟨hprev, -⟩ | ⟨-, hlast⟩
    · exact absurd hprev (Nat.not_lt.mpr hle)
    · exact hlast s hs hbefore
  · exact hnone snapped hmem hlt

/-- Going back visits everything just when no diagnostic starts strictly inside
another one. -/
theorem visitsAll_back_iff
    (hsorted : analysis.diagnostics.Pairwise fun a b =>
      a.range.start ≤ b.range.start)
    (hne : analysis.diagnostics ≠ []) (offset : ℕ) :
    VisitsAll analysis offset false ↔
      NoneStartsInside analysis.diagnostics := by
  choose next hnext hfollows using diagnosticTarget_back hsorted hne
  constructor
  · rintro ⟨visited, hwalk, horder, hall⟩ d hd e he hde
    obtain ⟨hsnap, hlt⟩ := snapBack_inside hd hde
    obtain ⟨n, -, hn⟩ := hall _ (start_mem_starts he)
    have hgoes : visited (n + 1) = next e.range.start := by
      have hstep := hwalk (n + 1)
      rw [diagnosticWalk, hwalk n, Option.bind_some, hn, hnext] at hstep
      exact (Option.some.inj hstep).symm
    have hfollow := horder n
    rw [hn, hgoes] at hfollow
    exact not_follows_back hsnap hlt (start_mem_starts he) (hfollows _)
      (by simpa using hfollow)
  · intro hinside
    refine visitsAll_of_steps (r := (· > ·)) (by simp) next hnext
      (hfollows offset).1 fun s hs => ?_
    have := hfollows s
    rwa [snapBack_start hinside hs] at this

/-- Both keys visit every start of the sorted diagnostics just when no
diagnostic starts strictly inside another one. -/
theorem navigationVisitsAll_iff (ds : List Diagnostic) (hne : ds ≠ [])
    (scopes : List Scope) (offset : ℕ) :
    (VisitsAll ⟨scopes, Diagnostic.sorted ds⟩ offset true ∧
        VisitsAll ⟨scopes, Diagnostic.sorted ds⟩ offset false) ↔
      NoneStartsInside ds := by
  have hsorted := Diagnostic.sorted_pairwise ds
  have hne' : Diagnostic.sorted ds ≠ [] := by
    intro hnil
    exact hne (List.perm_nil.mp (hnil ▸ Diagnostic.sorted_perm ds).symm)
  have hforward : VisitsAll ⟨scopes, Diagnostic.sorted ds⟩ offset true :=
    visitsAll_forward hsorted hne' offset
  have hback : VisitsAll ⟨scopes, Diagnostic.sorted ds⟩ offset false ↔
      NoneStartsInside (Diagnostic.sorted ds) :=
    visitsAll_back_iff hsorted hne' offset
  rw [and_iff_right hforward, hback]
  simp only [NoneStartsInside, Diagnostic.mem_sorted]

theorem navigationVisitsAll_iff_apart :
    let ds := [Diagnostic.new .unknownColumn ⟨10, 12⟩ [],
      Diagnostic.new .unknownColumn ⟨2, 4⟩ [],
      Diagnostic.new .ambiguousColumn ⟨2, 6⟩ []]
    ds ≠ [] ∧
      ((VisitsAll ⟨[], Diagnostic.sorted ds⟩ 3 true ∧
          VisitsAll ⟨[], Diagnostic.sorted ds⟩ 3 false) ↔
        NoneStartsInside ds) ∧
      NoneStartsInside ds := by
  refine ⟨by simp, ?_, by decide +kernel⟩
  exact navigationVisitsAll_iff _ (by simp) [] 3

/-- A diagnostic inside another one: the way back from the inner one is snapped
to the outer one and wraps to the inner one again. -/
theorem nested_sticks :
    let ds := [Diagnostic.new .syntaxError ⟨0, 10⟩ [],
      Diagnostic.new .unknownColumn ⟨5, 7⟩ []]
    (∀ n, diagnosticWalk ⟨[], Diagnostic.sorted ds⟩ 5 false n = some 5) ∧
      ¬ (VisitsAll ⟨[], Diagnostic.sorted ds⟩ 5 true ∧
        VisitsAll ⟨[], Diagnostic.sorted ds⟩ 5 false) := by
  intro ds
  have hstep : (diagnosticTarget ⟨[], Diagnostic.sorted ds⟩ 5 false).map
      Prod.fst = some 5 := by decide +kernel
  have hwalk : ∀ n,
      diagnosticWalk ⟨[], Diagnostic.sorted ds⟩ 5 false n = some 5 := by
    intro n
    induction n with
    | zero => exact hstep
    | succ n ih => rw [diagnosticWalk, ih, Option.bind_some, hstep]
  refine ⟨hwalk, fun h => ?_⟩
  obtain ⟨visited, hvisited, -, hall⟩ := h.2
  obtain ⟨n, -, hn⟩ := hall 0 (by decide +kernel)
  have hzero := hvisited n
  rw [hwalk n, hn] at hzero
  simp at hzero

end Tempr.Intel
