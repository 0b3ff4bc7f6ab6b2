import Mathlib.Data.List.Basic
import Mathlib.Logic.Function.Iterate

/-!
# Timelines

Undo and redo by snapshots.  A timeline has what is shown now, and for every
recorded step what undoing it and what redoing it shows.  What happens between
the recorded steps is not kept.
-/

namespace Tempr.Support

/-- What is shown now; the recorded steps that can be undone, latest first; and
those that can be redone, next first.  A step is what undoing it shows and what
redoing it shows. -/
structure Timeline (σ : Type*) where
  now : σ
  past : List (σ × σ)
  future : List (σ × σ)

namespace Timeline

variable {σ : Type*}

inductive Event (σ : Type*)
  /-- show something else, with no record -/
  | visit (now : σ)
  /-- record a step, and forget what could be redone -/
  | record (before after now : σ)
  | undo
  | redo

def undo (t : Timeline σ) : Timeline σ :=
  match t.past with
  | [] => t
  | e :: rest => ⟨e.1, rest, e :: t.future⟩

def redo (t : Timeline σ) : Timeline σ :=
  match t.future with
  | [] => t
  | e :: rest => ⟨e.2, e :: t.past, rest⟩

def perform (t : Timeline σ) : Event σ → Timeline σ
  | .visit now => { t with now := now }
  | .record before after now => ⟨now, (before, after) :: t.past, []⟩
  | .undo => t.undo
  | .redo => t.redo

variable {t : Timeline σ}

theorem undo_of_cons {e : σ × σ} {rest : List (σ × σ)}
    (h : t.past = e :: rest) : t.undo = ⟨e.1, rest, e :: t.future⟩ := by
  rw [undo, h]

theorem undo_of_nil (h : t.past = []) : t.undo = t := by
  rw [undo, h]

theorem redo_of_cons {e : σ × σ} {rest : List (σ × σ)}
    (h : t.future = e :: rest) : t.redo = ⟨e.2, e :: t.past, rest⟩ := by
  rw [redo, h]

theorem redo_of_nil (h : t.future = []) : t.redo = t := by
  rw [redo, h]

/-- Undoing the steps `es` and then `e` shows what was before `e`. -/
theorem iterate_undo {es rest : List (σ × σ)} {e : σ × σ}
    (h : t.past = es ++ e :: rest) :
    undo^[es.length + 1] t =
      ⟨e.1, rest, e :: (es.reverse ++ t.future)⟩ := by
  induction es generalizing t with
  | nil => exact undo_of_cons h
  | cons d es ih =>
      rw [List.length_cons, Function.iterate_succ_apply, undo_of_cons h]
      simpa using ih (t := ⟨d.1, es ++ e :: rest, d :: t.future⟩) rfl

/-! ## What holds of everything that can be shown -/

/-- `P` holds of what is shown now, and of what undo and redo can show. -/
structure All (P : σ → Prop) (t : Timeline σ) : Prop where
  now : P t.now
  past : ∀ e ∈ t.past, P e.1 ∧ P e.2
  future : ∀ e ∈ t.future, P e.1 ∧ P e.2

/-- `P` holds of what the event brings. -/
def Event.All (P : σ → Prop) : Event σ → Prop
  | .visit now => P now
  | .record before after now => P before ∧ P after ∧ P now
  | .undo => True
  | .redo => True

variable {P : σ → Prop}

theorem All.undo (h : t.All P) : t.undo.All P := by
  cases hpast : t.past with
  | nil => rwa [undo_of_nil hpast]
  | cons e rest =>
      rw [undo_of_cons hpast]
      have hall := h.past
      rw [hpast, List.forall_mem_cons] at hall
      exact ⟨hall.1.1, hall.2, List.forall_mem_cons.mpr ⟨hall.1, h.future⟩⟩

theorem All.redo (h : t.All P) : t.redo.All P := by
  cases hfuture : t.future with
  | nil => rwa [redo_of_nil hfuture]
  | cons e rest =>
      rw [redo_of_cons hfuture]
      have hall := h.future
      rw [hfuture, List.forall_mem_cons] at hall
      exact ⟨hall.1.2, List.forall_mem_cons.mpr ⟨hall.1, h.past⟩, hall.2⟩

theorem All.perform (h : t.All P) {event : Event σ} (hevent : event.All P) :
    (t.perform event).All P := by
  cases event with
  | visit now => exact ⟨hevent, h.past, h.future⟩
  | record before after now =>
      obtain ⟨hbefore, hafter, hnow⟩ := hevent
      exact ⟨hnow, List.forall_mem_cons.mpr ⟨⟨hbefore, hafter⟩, h.past⟩,
        by simp [Timeline.perform]⟩
  | undo => exact h.undo
  | redo => exact h.redo

end Timeline

end Tempr.Support
