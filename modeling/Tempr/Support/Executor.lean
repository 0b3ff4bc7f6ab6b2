import Mathlib.Data.List.Basic

/-!
# Executors and mailboxes

An executor runs tasks that have been woken; a mailbox takes messages for one
task, which it wakes if that task waits for them.  What a program relies on is
stated apart from how they work: tasks run in the order in which they were
woken, and no message is lost, doubled or left unseen by a task that waits.
-/

namespace Tempr.Support

variable {α κ : Type*}

/-! ## Executors -/

/-- An executor of the tasks `κ`. -/
structure Executor (κ : Type*) where
  Queue : Type
  idle : Queue
  /-- the tasks that are to run, first to last -/
  woken : Queue → List κ
  wake : Queue → κ → Queue
  /-- the task that runs next -/
  next : Queue → Option (κ × Queue)

namespace Executor

/-- Tasks run in the order in which they were woken. -/
structure Fifo (E : Executor κ) : Prop where
  woken_idle : E.woken E.idle = []
  woken_wake : ∀ q k, E.woken (E.wake q k) = E.woken q ++ [k]
  next_idle : ∀ q, E.woken q = [] → E.next q = none
  next_woken : ∀ q k ks, E.woken q = k :: ks →
    ∃ q', E.next q = some (k, q') ∧ E.woken q' = ks

theorem Fifo.woken_of_next {E : Executor κ} (h : E.Fifo) {q q' : E.Queue} {k : κ}
    (hnext : E.next q = some (k, q')) : E.woken q = k :: E.woken q' := by
  cases hwoken : E.woken q with
  | nil =>
      rw [h.next_idle q hwoken] at hnext
      cases hnext
  | cons first rest =>
      obtain ⟨left, hfirst, hleft⟩ := h.next_woken q first rest hwoken
      rw [hnext] at hfirst
      obtain ⟨rfl, rfl⟩ := Prod.mk.inj (Option.some.inj hfirst)
      rw [hleft]

/-- Wake several tasks. -/
def wakeAll (E : Executor κ) (q : E.Queue) (ks : List κ) : E.Queue :=
  ks.foldl E.wake q

theorem Fifo.woken_wakeAll {E : Executor κ} (h : E.Fifo) (q : E.Queue)
    (ks : List κ) : E.woken (E.wakeAll q ks) = E.woken q ++ ks := by
  induction ks generalizing q with
  | nil => exact (List.append_nil _).symm
  | cons k ks ih =>
      rw [wakeAll, List.foldl_cons]
      refine (ih (E.wake q k)).trans ?_
      rw [h.woken_wake, List.append_assoc, List.singleton_append]

/-- The executor whose queue is a list. -/
def list (κ : Type) : Executor κ where
  Queue := List κ
  idle := []
  woken q := q
  wake q k := q ++ [k]
  next
    | [] => none
    | k :: ks => some (k, ks)

end Executor

/-! ## Mailboxes -/

/-- A mailbox of one task. -/
structure Mailbox (α : Type*) where
  Box : Type
  new : Box
  /-- what has been sent and not received -/
  held : Box → List α
  /-- whether the task waits for a message -/
  waiting : Box → Bool
  /-- send a message, and say whether the task is woken -/
  send : Box → α → Box × Bool
  /-- receive all messages, and wait for more -/
  receive : Box → List α × Box

namespace Mailbox

/-- Messages are received once and in order, and the first one that a task waits
for wakes it. -/
structure Lawful (M : Mailbox α) : Prop where
  held_new : M.held M.new = []
  waiting_new : M.waiting M.new = false
  held_send : ∀ b a, M.held (M.send b a).1 = M.held b ++ [a]
  waiting_send : ∀ b a, M.waiting (M.send b a).1 = false
  wakes : ∀ b a, (M.send b a).2 = M.waiting b
  receives : ∀ b, (M.receive b).1 = M.held b
  held_receive : ∀ b, M.held (M.receive b).2 = []
  waiting_receive : ∀ b, M.waiting (M.receive b).2 = true

/-- Send several messages, and say whether the task is woken. -/
def sendAll (M : Mailbox α) (b : M.Box) : List α → M.Box × Bool
  | [] => (b, false)
  | a :: as =>
      let sent := M.send b a
      let rest := M.sendAll sent.1 as
      (rest.1, sent.2 || rest.2)

section Lawful

variable {M : Mailbox α} (h : M.Lawful) (b : M.Box) (as : List α)
include h

theorem Lawful.held_sendAll : M.held (M.sendAll b as).1 = M.held b ++ as := by
  induction as generalizing b with
  | nil => exact (List.append_nil _).symm
  | cons a as ih =>
      refine (ih (M.send b a).1).trans ?_
      rw [h.held_send, List.append_assoc, List.singleton_append]

theorem Lawful.waiting_sendAll :
    M.waiting (M.sendAll b as).1 = (M.waiting b && as.isEmpty) := by
  induction as generalizing b with
  | nil => exact (Bool.and_true _).symm
  | cons a as ih =>
      refine (ih (M.send b a).1).trans ?_
      rw [h.waiting_send, Bool.false_and, List.isEmpty_cons, Bool.and_false]

/-- Only the first message wakes the task, and only if it waits. -/
theorem Lawful.wakes_sendAll :
    (M.sendAll b as).2 = (M.waiting b && !as.isEmpty) := by
  cases as with
  | nil => exact (Bool.and_false _).symm
  | cons a as =>
      have hrest : ∀ (as : List α) (b : M.Box), M.waiting b = false →
          (M.sendAll b as).2 = false := by
        intro as
        induction as with
        | nil => exact fun _ _ => rfl
        | cons a as ih =>
            intro b hb
            change ((M.send b a).2 || (M.sendAll (M.send b a).1 as).2) = false
            rw [h.wakes, hb, ih _ (h.waiting_send b a)]
            rfl
      change ((M.send b a).2 || (M.sendAll (M.send b a).1 as).2) = _
      rw [h.wakes, hrest as _ (h.waiting_send b a), Bool.or_false,
        List.isEmpty_cons, Bool.not_false, Bool.and_true]

end Lawful

/-- The mailbox that holds a list. -/
def list (α : Type) : Mailbox α where
  Box := List α × Bool
  new := ([], false)
  held b := b.1
  waiting b := b.2
  send b a := ((b.1 ++ [a], false), b.2)
  receive b := (b.1, ([], true))

end Mailbox

end Tempr.Support
