import Mathlib.Data.List.Chain
import Mathlib.Data.List.Induction

/-!
# Run lengths

A list is cut into runs of equal elements: each element either makes the last
run longer or begins a new one.  The runs spell the list, none is empty, and no
two neighbours are equal.
-/

namespace Tempr.Support.RunLength

variable {α : Type*} [DecidableEq α]

/-- Put an element behind the runs. -/
def push (runs : List (ℕ × α)) (a : α) : List (ℕ × α) :=
  match runs.getLast? with
  | some (n, b) =>
      if b = a then runs.dropLast ++ [(n + 1, b)] else runs ++ [(1, a)]
  | none => [(1, a)]

def encode (l : List α) : List (ℕ × α) := l.foldl push []

omit [DecidableEq α] in
/-- The list that runs spell. -/
def decode (runs : List (ℕ × α)) : List α :=
  runs.flatMap fun run => List.replicate run.1 run.2

omit [DecidableEq α] in
/-- No run is empty, and neighbours differ. -/
structure Reduced (runs : List (ℕ × α)) : Prop where
  pos : ∀ run ∈ runs, 0 < run.1
  chain : runs.IsChain fun a b => a.2 ≠ b.2

@[simp] theorem encode_nil : encode ([] : List α) = [] := rfl

@[simp] theorem encode_concat (l : List α) (a : α) :
    encode (l ++ [a]) = push (encode l) a := by
  simp [encode]

@[simp] theorem push_nil (a : α) : push [] a = [(1, a)] := rfl

@[simp] theorem push_concat (runs : List (ℕ × α)) (run : ℕ × α) (a : α) :
    push (runs ++ [run]) a =
      if run.2 = a then runs ++ [(run.1 + 1, run.2)]
      else runs ++ [run] ++ [(1, a)] := by
  simp [push]

theorem decode_push (runs : List (ℕ × α)) (a : α) :
    decode (push runs a) = decode runs ++ [a] := by
  cases runs using List.reverseRecOn with
  | nil => rfl
  | append_singleton runs run =>
      rw [push_concat]
      split
      case isTrue heq => simp [decode, List.replicate_succ', heq]
      case isFalse => simp [decode]

@[simp] theorem decode_encode (l : List α) : decode (encode l) = l := by
  induction l using List.reverseRecOn with
  | nil => rfl
  | append_singleton l a ih => rw [encode_concat, decode_push, ih]

theorem Reduced.push {runs : List (ℕ × α)} (h : Reduced runs) (a : α) :
    Reduced (push runs a) := by
  cases runs using List.reverseRecOn with
  | nil => exact ⟨by simp, by simp⟩
  | append_singleton runs run =>
      have hpos : ∀ r ∈ runs, 0 < r.1 := fun r hr => h.pos r (by simp [hr])
      have hchain := List.isChain_append.mp h.chain
      rw [push_concat]
      split
      case isTrue =>
        refine ⟨?_, List.isChain_append.mpr ⟨hchain.1, by simp, ?_⟩⟩
        · intro r hr
          rcases List.mem_append.mp hr with hr | hr
          · exact hpos r hr
          · rw [List.mem_singleton.mp hr]
            exact Nat.succ_pos _
        · intro x hx y hy
          have hxrun := hchain.2.2 x hx run (by simp)
          simp only [List.head?_cons, Option.mem_def, Option.some.injEq] at hy
          subst hy
          exact hxrun
      case isFalse hne =>
        refine ⟨?_, List.isChain_append.mpr ⟨h.chain, by simp, ?_⟩⟩
        · intro r hr
          rcases List.mem_append.mp hr with hr | hr
          · exact h.pos r hr
          · rw [List.mem_singleton.mp hr]
            exact Nat.one_pos
        · simpa using hne

theorem encode_reduced (l : List α) : Reduced (encode l) := by
  induction l using List.reverseRecOn with
  | nil => exact ⟨by simp, by simp⟩
  | append_singleton l a ih =>
      rw [encode_concat]
      exact ih.push a

end Tempr.Support.RunLength
