import Tempr.Support.Transition
import Mathlib.Logic.Function.Basic

/-!
# Atomic stores

A store of values under names that is used by calls.  A call takes effect at one
moment between its start and its answer, or not at all.
-/

namespace Tempr.Support

inductive StoreCall (ν υ : Type*)
  | put (name : ν) (value : υ)
  | get (name : ν)

inductive StoreAnswer (υ : Type*)
  | written
  | found (value : υ)
  | notFound
  | failed
  deriving DecidableEq

/-- A call that has seen a value has taken effect, and can still fail. -/
inductive CallProgress (υ : Type*)
  | pending
  | seen (value : υ)
  | answered (answer : StoreAnswer υ)

/-- What a call that reads has been told, if it has: a value, or that there is
none. -/
def CallProgress.told {υ : Type*} : CallProgress υ → Option (Option υ)
  | .seen v => some (some v)
  | .answered (.found v) => some (some v)
  | .answered .notFound => some none
  | _ => none

structure AtomicStore (ν υ : Type*) where
  value : ν → Option υ
  calls : List (StoreCall ν υ × CallProgress υ)

namespace AtomicStore

variable {ν υ : Type*}

/-- What the call at `j` has come to. -/
def At (s : AtomicStore ν υ) (j : ℕ) (call : StoreCall ν υ)
    (progress : CallProgress υ) : Prop :=
  s.calls[j]? = some (call, progress)

def settle (s : AtomicStore ν υ) (j : ℕ) (call : StoreCall ν υ)
    (progress : CallProgress υ) : AtomicStore ν υ :=
  { s with calls := s.calls.set j (call, progress) }

inductive Label
  | call
  | put (j : ℕ)
  | look (j : ℕ)
  | answer (j : ℕ)
  | refuse (j : ℕ)

variable [DecidableEq ν]

inductive Step : AtomicStore ν υ → Label → AtomicStore ν υ → Prop
  | call (s : AtomicStore ν υ) (c : StoreCall ν υ) :
      Step s .call { s with calls := s.calls ++ [(c, .pending)] }
  | put {s : AtomicStore ν υ} {j : ℕ} {name : ν} {v : υ}
      (h : s.At j (.put name v) .pending) :
      Step s (.put j)
        { s.settle j (.put name v) (.answered .written) with
          value := Function.update s.value name (some v) }
  | look {s : AtomicStore ν υ} {j : ℕ} {name : ν} {v : υ}
      (h : s.At j (.get name) .pending) (hv : s.value name = some v) :
      Step s (.look j) (s.settle j (.get name) (.seen v))
  | miss {s : AtomicStore ν υ} {j : ℕ} {name : ν}
      (h : s.At j (.get name) .pending) (hv : s.value name = none) :
      Step s (.look j) (s.settle j (.get name) (.answered .notFound))
  | answer {s : AtomicStore ν υ} {j : ℕ} {name : ν} {v : υ}
      (h : s.At j (.get name) (.seen v)) :
      Step s (.answer j) (s.settle j (.get name) (.answered (.found v)))
  | refuse {s : AtomicStore ν υ} {j : ℕ} {c : StoreCall ν υ}
      {p : CallProgress υ} (h : s.At j c p) (hp : ∀ a, p ≠ .answered a) :
      Step s (.refuse j) (s.settle j c (.answered .failed))

/-- The store over `value₀`, to which no call has been made. -/
def system (value₀ : ν → Option υ) : System (AtomicStore ν υ) Label where
  init s := s = ⟨value₀, []⟩
  step := Step

/-! ## What a step does to the calls -/

variable {s t : AtomicStore ν υ} {l : Label} {j : ℕ} {c : StoreCall ν υ}
  {p : CallProgress υ}

omit [DecidableEq ν] in
theorem at_settle {k : ℕ} {d : StoreCall ν υ} {q q' : CallProgress υ}
    (h : s.At k d q') :
    (s.settle k d q).At j c p ↔ j = k ∧ c = d ∧ p = q ∨ j ≠ k ∧ s.At j c p := by
  obtain ⟨hk, -⟩ := List.getElem?_eq_some_iff.1 h
  by_cases hjk : j = k
  · subst hjk
    simp only [At, settle, List.getElem?_set_self hk, Option.some.injEq,
      Prod.mk.injEq, ne_eq, not_true_eq_false, false_and, or_false, true_and]
    exact ⟨fun h => ⟨h.1.symm, h.2.symm⟩, fun h => ⟨h.1.symm, h.2.symm⟩⟩
  · simp only [At, settle, List.getElem?_set_ne (Ne.symm hjk), ne_eq, hjk,
      not_false_eq_true, false_and, true_and, false_or]

omit [DecidableEq ν] in
theorem at_append {d : StoreCall ν υ} :
    At { s with calls := s.calls ++ [(d, .pending)] } j c p ↔
      s.At j c p ∨ j = s.calls.length ∧ c = d ∧ p = .pending := by
  unfold At
  rcases Nat.lt_trichotomy j s.calls.length with hlt | heq | hgt
  · rw [List.getElem?_append_left hlt]
    constructor
    · exact Or.inl
    · rintro (h | ⟨rfl, -⟩)
      · exact h
      · exact absurd hlt (Nat.lt_irrefl _)
  · subst heq
    simp [eq_comm]
  · rw [List.getElem?_eq_none (by simp; omega),
      List.getElem?_eq_none (Nat.le_of_lt hgt)]
    constructor
    · intro h
      cases h
    · rintro (h | ⟨rfl, -⟩)
      · exact h
      · exact absurd hgt (Nat.lt_irrefl _)

/-- An answer is final. -/
theorem Step.at_answered {a : StoreAnswer υ} (h : Step s l t)
    (hs : s.At j c (.answered a)) : t.At j c (.answered a) := by
  have hkept : ∀ {k : ℕ} {d : StoreCall ν υ} {q q' : CallProgress υ},
      s.At k d q' → (∀ b, q' ≠ .answered b) →
        (s.settle k d q).At j c (.answered a) := by
    intro k d q q' hk hq
    refine (at_settle hk).2 (.inr ⟨?_, hs⟩)
    rintro rfl
    rw [At, hs] at hk
    exact hq a (congrArg Prod.snd (Option.some.inj hk)).symm
  cases h with
  | call d => exact at_append.2 (.inl hs)
  | put h => exact hkept h (by simp)
  | look h _ => exact hkept h (by simp)
  | miss h _ => exact hkept h (by simp)
  | answer h => exact hkept h (by simp)
  | refuse h hp => exact hkept h hp

/-- A call is told what the store holds at that moment. -/
theorem Step.told {name : ν} {r : Option υ} (h : Step s l t)
    (ht : t.At j (.get name) p) (hr : p.told = some r) :
    (∃ q, s.At j (.get name) q ∧ q.told = some r) ∨
      s.At j (.get name) .pending ∧ r = s.value name := by
  have hother : ∀ {k : ℕ} {d : StoreCall ν υ} {q q' : CallProgress υ},
      s.At k d q' → (s.settle k d q).At j (.get name) p →
        (j = k ∧ StoreCall.get name = d ∧ p = q) ∨ s.At j (.get name) p :=
    fun hk hj => ((at_settle hk).1 hj).imp_right And.right
  cases h with
  | call d =>
      rcases at_append.1 ht with hs | ⟨-, -, rfl⟩
      · exact .inl ⟨p, hs, hr⟩
      · cases hr
  | put h =>
      rcases hother h ht with ⟨-, hd, -⟩ | hs
      · cases hd
      · exact .inl ⟨p, hs, hr⟩
  | look h hv =>
      rcases hother h ht with ⟨rfl, hd, rfl⟩ | hs
      · cases hd
        cases hr
        exact .inr ⟨h, hv.symm⟩
      · exact .inl ⟨p, hs, hr⟩
  | miss h hv =>
      rcases hother h ht with ⟨rfl, hd, rfl⟩ | hs
      · cases hd
        cases hr
        exact .inr ⟨h, hv.symm⟩
      · exact .inl ⟨p, hs, hr⟩
  | answer h =>
      rcases hother h ht with ⟨rfl, hd, rfl⟩ | hs
      · cases hd
        exact .inl ⟨_, h, hr⟩
      · exact .inl ⟨p, hs, hr⟩
  | refuse h _ =>
      rcases hother h ht with ⟨-, -, rfl⟩ | hs
      · cases hr
      · exact .inl ⟨p, hs, hr⟩

/-- Only a put of a name changes its value, and answers in the same moment. -/
theorem Step.value (h : Step s l t) (name : ν) :
    t.value name = s.value name ∨ ∃ j v, s.At j (.put name v) .pending ∧
      t.At j (.put name v) (.answered .written) ∧ t.value name = some v := by
  cases h with
  | @put k name' v h =>
      by_cases hname : name = name'
      · subst hname
        exact .inr ⟨k, v, h, (at_settle h).2 (.inl ⟨rfl, rfl, rfl⟩),
          Function.update_self _ _ _⟩
      · exact .inl (Function.update_of_ne hname _ _)
  | call => exact .inl rfl
  | look => exact .inl rfl
  | miss => exact .inl rfl
  | answer => exact .inl rfl
  | refuse => exact .inl rfl

/-! ## Values come from puts -/

/-- A value of the name at the start, or one that a put of it has written. -/
def Known (value₀ : ν → Option υ) (s : AtomicStore ν υ) (name : ν) (v : υ) :
    Prop :=
  value₀ name = some v ∨ ∃ j, s.At j (.put name v) (.answered .written)

theorem Step.known {value₀ : ν → Option υ} {name : ν} {v : υ} (h : Step s l t)
    (hs : s.Known value₀ name v) : t.Known value₀ name v :=
  hs.imp_right fun ⟨j, hj⟩ => ⟨j, h.at_answered hj⟩

/-- Since `s` no put of the name has been answered; then the store holds what
it held, and every call since `s` has been told just that. -/
structure Settled (s : AtomicStore ν υ) (name : ν) (t : AtomicStore ν υ) :
    Prop where
  value : t.value name = s.value name
  told : ∀ j p r, s.calls.length ≤ j → t.At j (.get name) p →
    p.told = some r → r = s.value name

end AtomicStore

end Tempr.Support
