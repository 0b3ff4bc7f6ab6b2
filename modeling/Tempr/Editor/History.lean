import Tempr.Editor.Batch
import Tempr.Support.Transition

/-!
# Edit history

The text of a buffer is the replay of its undo stack on the text it was opened
with, and the redo stack replays forward from the present text.  Both facts
rest on one property of a recorded change: it fits the text it was applied to.
-/

namespace Tempr.Editor

open Tempr.Support

/-! ## Changes and transactions -/

/-- The removed text of a change stands at its start. -/
def Change.Fits (rope : Rope) (c : Change) : Prop :=
  ∃ a b, rope = a ++ c.removed ++ b ∧ Rope.lenBytes a = c.start

theorem Buffer.reapplyChange_parts (a b : Rope) (c : Change)
    (hstart : Rope.lenBytes a = c.start) :
    reapplyChange (a ++ c.removed ++ b) c = a ++ c.inserted ++ b := by
  rw [reapplyChange, Rope.replaceBytes_snd, ← hstart]
  exact replaceOf_parts Rope.utf8Size_pos a c.removed b c.inserted

theorem Buffer.revertChange_parts (a b : Rope) (c : Change)
    (hstart : Rope.lenBytes a = c.start) :
    revertChange (a ++ c.inserted ++ b) c = a ++ c.removed ++ b := by
  rw [revertChange, Rope.replaceBytes_snd, ← hstart]
  exact replaceOf_parts Rope.utf8Size_pos a c.inserted b c.removed

theorem Change.Fits.revert_reapply {rope : Rope} {c : Change}
    (h : c.Fits rope) :
    Buffer.revertChange (Buffer.reapplyChange rope c) c = rope := by
  obtain ⟨a, b, rfl, hstart⟩ := h
  rw [Buffer.reapplyChange_parts a b c hstart,
    Buffer.revertChange_parts a b c hstart]

/-- Each change fits the text that the changes before it leave. -/
def ChangesFit : Rope → List Change → Prop
  | _, [] => True
  | rope, c :: cs =>
      c.Fits rope ∧ ChangesFit (Buffer.reapplyChange rope c) cs

/-- Changes are reverted last first. -/
theorem ChangesFit.revert_reapply {rope : Rope} {cs : List Change}
    (h : ChangesFit rope cs) :
    cs.reverse.foldl Buffer.revertChange
      (cs.foldl Buffer.reapplyChange rope) = rope := by
  induction cs generalizing rope with
  | nil => rfl
  | cons c cs ih =>
      have hrest := ih h.2
      rw [List.reverse_cons, List.foldl_append]
      simp only [List.foldl_cons, List.foldl_nil, hrest]
      exact h.1.revert_reapply

namespace Transaction

/-- Apply the changes of a transaction. -/
def replay (rope : Rope) (tx : Transaction) : Rope :=
  tx.changes.foldl Buffer.reapplyChange rope

/-- Revert the changes of a transaction. -/
def revert (rope : Rope) (tx : Transaction) : Rope :=
  tx.changes.reverse.foldl Buffer.revertChange rope

def Fits (rope : Rope) (tx : Transaction) : Prop :=
  ChangesFit rope tx.changes

theorem Fits.revert_replay {rope : Rope} {tx : Transaction}
    (h : tx.Fits rope) : tx.revert (tx.replay rope) = rope :=
  ChangesFit.revert_reapply h

end Transaction

/-! ## Recorded changes fit -/

/-- Replacing a range leaves the ranges before it valid. -/
theorem ByteRange.Valid.replaceBytes {rope : Rope} {r s : ByteRange}
    (hr : r.Valid rope) (hs : s.Valid rope) (hle : s.stop ≤ r.start)
    (text : List Char) : s.Valid (rope.replaceBytes r text).2 := by
  obtain ⟨a, m, b, rfl, ha, hm⟩ := hr.parts
  have hbefore : ∀ o, o ≤ r.start → Rope.IsCharBoundary (a ++ m ++ b) o →
      Rope.IsCharBoundary (a ++ text ++ b) o := by
    intro o ho hbound
    rw [List.append_assoc] at hbound ⊢
    rw [← ha] at ho
    exact ((isBoundary_append_left_iff Rope.utf8Size_pos a _ ho).mp
      hbound).append_right _
  have hnew : ((a ++ m ++ b : Rope).replaceBytes r text).2 =
      a ++ text ++ b := by
    rw [Rope.replaceBytes_snd, ← ha, ← hm]
    exact replaceOf_parts Rope.utf8Size_pos a m b text
  have hsle := hs.ordered
  rw [hnew]
  refine ⟨hs.ordered, ?_, hbefore _ (by omega) hs.startBoundary,
    hbefore _ hle hs.stopBoundary⟩
  have hlen : Rope.lenBytes a ≤ Rope.lenBytes (a ++ text ++ b) := by
    simp only [Rope.lenBytes, span_append]
    omega
  omega

theorem ByteRange.Valid.change_fits {rope : Rope} {r : ByteRange}
    (h : r.Valid rope) (text : List Char) :
    Change.Fits rope ⟨r.start, (rope.replaceBytes r text).1, text⟩ ∧
      Buffer.reapplyChange rope
          ⟨r.start, (rope.replaceBytes r text).1, text⟩ =
        (rope.replaceBytes r text).2 := by
  obtain ⟨a, m, b, rfl, ha, hm⟩ := h.parts
  have hremoved : ((a ++ m ++ b : Rope).replaceBytes r text).1 = m := by
    rw [Rope.replaceBytes_fst, ← ha, ← hm]
    exact sliceOf_parts Rope.utf8Size_pos a m b
  rw [hremoved]
  refine ⟨⟨a, b, rfl, ha⟩, ?_⟩
  rw [Buffer.reapplyChange_parts a b ⟨r.start, m, text⟩ ha,
    Rope.replaceBytes_snd, ← ha, ← hm]
  exact (replaceOf_parts Rope.utf8Size_pos a m b text).symm

/-- The changes recorded by a batch fit one after the other, and applying them
is what the batch did. -/
theorem applyEdits_spec {order : List (Edit × ℕ)} {rope : Rope}
    (hvalid : ∀ p ∈ order, p.1.range.Valid rope)
    (hchain : order.Pairwise EndsBefore) (changes : List Change) :
    ∃ more, (applyEdits order rope changes).2 = changes ++ more ∧
      ChangesFit rope more ∧
      more.foldl Buffer.reapplyChange rope =
        (applyEdits order rope changes).1 := by
  induction order generalizing rope changes with
  | nil => exact ⟨[], by simp [applyEdits], trivial, rfl⟩
  | cons p order ih =>
      obtain ⟨e, i⟩ := p
      rw [List.pairwise_cons] at hchain
      have he : e.range.Valid rope := hvalid (e, i) (by simp)
      simp only [applyEdits]
      by_cases hskip : rope.byteSlice e.range.start e.range.stop = e.text
      · rw [if_pos hskip]
        exact ih (fun q hq => hvalid q (List.mem_cons_of_mem _ hq))
          hchain.2 changes
      · rw [if_neg hskip]
        obtain ⟨hfits, happly⟩ := he.change_fits e.text
        have hlater : ∀ q ∈ order,
            q.1.range.Valid (rope.replaceBytes e.range e.text).2 :=
          fun q hq => he.replaceBytes
            (hvalid q (List.mem_cons_of_mem _ hq)) (hchain.1 q hq) e.text
        obtain ⟨more, hmore, hrest, hfold⟩ := ih hlater hchain.2
          (changes ++ [⟨e.range.start,
            (rope.replaceBytes e.range e.text).1, e.text⟩])
        refine ⟨⟨e.range.start, (rope.replaceBytes e.range e.text).1,
          e.text⟩ :: more, ?_, ⟨hfits, ?_⟩, ?_⟩
        · rw [hmore, List.append_assoc]
          rfl
        · rw [happly]
          exact hrest
        · rw [List.foldl_cons, happly, hfold]

/-- A batch records nothing exactly when every replacement equals what it
replaces. -/
theorem applyEdits_no_changes_iff (order : List (Edit × ℕ)) (rope : Rope) :
    (applyEdits order rope []).2 = [] ↔
      ∀ p ∈ order,
        rope.byteSlice p.1.range.start p.1.range.stop = p.1.text := by
  induction order with
  | nil => simp [applyEdits]
  | cons p order ih =>
      obtain ⟨e, i⟩ := p
      rw [List.forall_mem_cons, ← ih]
      simp only [applyEdits]
      by_cases hskip : rope.byteSlice e.range.start e.range.stop = e.text
      · simp [hskip]
      · obtain ⟨more, hmore⟩ := applyEdits_changes_prefix order
          (rope.replaceBytes e.range e.text).2
          ([] ++ [⟨e.range.start,
            (rope.replaceBytes e.range e.text).1, e.text⟩])
        rw [List.nil_append] at hmore
        simp [hskip, hmore]

/-! ## Faithful buffers -/

/-- The text after the transactions of a stack, whose head is the latest. -/
def replayStack (text : Rope) : List Transaction → Rope
  | [] => text
  | tx :: rest => tx.replay (replayStack text rest)

/-- Each transaction of an undo stack fits the text below it. -/
def UndoFits (text : Rope) : List Transaction → Prop
  | [] => True
  | tx :: rest => tx.Fits (replayStack text rest) ∧ UndoFits text rest

/-- Each transaction of a redo stack fits the text it will be applied to. -/
def RedoFits : Rope → List Transaction → Prop
  | _, [] => True
  | rope, tx :: rest => tx.Fits rope ∧ RedoFits (tx.replay rope) rest

/-- The history of a buffer opened with `text` accounts for its content. -/
structure Buffer.Faithful (text : Rope) (b : Buffer) : Prop where
  text_eq : b.rope = replayStack text b.history.undo
  undo_fits : UndoFits text b.history.undo
  redo_fits : RedoFits b.rope b.history.redo

namespace Buffer

variable {text : Rope} {b : Buffer}

theorem new_faithful (revision : ℕ) (text : Rope) :
    Faithful text (new revision text) :=
  ⟨rfl, trivial, trivial⟩

/-- An accepted batch records at most one transaction, which fits the text. -/
theorem editInner_cases (b : Buffer) (revision : ℕ) (edits : List Edit)
    (selections : Option SelectionSnapshot) :
    (b.editInner revision edits selections).1 = b ∨
      ∃ changes,
        (b.editInner revision edits selections).1.rope =
          changes.foldl reapplyChange b.rope ∧
        ChangesFit b.rope changes ∧
        (b.editInner revision edits selections).1.history =
          ⟨⟨b.nextEdit, changes, selections⟩ :: b.history.undo, []⟩ ∧
        (b.editInner revision edits selections).2 =
          .ok (some b.nextEdit) := by
  by_cases h : Acceptable b.rope edits
  · have hordered : ∀ p ∈ applicationOrder edits,
        p.1.range.Valid b.rope :=
      fun p hp => h.valid p.1 (mem_applicationOrder hp)
    have hchain := (pairwise_endsBefore_iff
      (fun p hp => (hordered p hp).ordered)
      (applicationOrder_sorted edits)).mpr
        ((pairwise_applicationOrder_iff edits).mpr h.disjoint)
    obtain ⟨more, hmore, hfits, hfold⟩ := applyEdits_spec hordered hchain []
    rw [editInner_of_acceptable h]
    split
    · exact Or.inl rfl
    · refine Or.inr ⟨more, hfold.symm, hfits, ?_, rfl⟩
      simp only [hmore, List.nil_append]
  · obtain ⟨err, herr⟩ := editInner_of_not_acceptable h revision selections
    exact Or.inl (by rw [herr])

theorem Faithful.editInner (h : Faithful text b) (revision : ℕ)
    (edits : List Edit) (selections : Option SelectionSnapshot) :
    Faithful text (b.editInner revision edits selections).1 := by
  rcases editInner_cases b revision edits selections with
    hsame | ⟨changes, hrope, hfits, hhistory, -⟩
  · rw [hsame]
    exact h
  · refine ⟨?_, ?_, ?_⟩
    · rw [hrope, hhistory, h.text_eq]
      rfl
    · rw [hhistory]
      refine ⟨?_, h.undo_fits⟩
      rw [← h.text_eq]
      exact hfits
    · rw [hhistory]
      trivial

theorem undo_of_cons {tx : Transaction} {rest : List Transaction}
    (hstack : b.history.undo = tx :: rest) (revision : ℕ) :
    b.undo revision =
      ({ b with
          rope := tx.revert b.rope
          history := ⟨rest, tx :: b.history.redo⟩
          syntaxDirty := b.syntaxDirty || !tx.changes.isEmpty
          revision := revision },
        some tx.id) := by
  rw [undo, hstack]
  rfl

theorem undo_of_nil (hstack : b.history.undo = []) (revision : ℕ) :
    b.undo revision = (b, none) := by
  rw [undo, hstack]

theorem redo_of_cons {tx : Transaction} {rest : List Transaction}
    (hstack : b.history.redo = tx :: rest) (revision : ℕ) :
    b.redo revision =
      ({ b with
          rope := tx.replay b.rope
          history := ⟨tx :: b.history.undo, rest⟩
          syntaxDirty := b.syntaxDirty || !tx.changes.isEmpty
          revision := revision },
        some tx.id) := by
  rw [redo, hstack]
  rfl

theorem redo_of_nil (hstack : b.history.redo = []) (revision : ℕ) :
    b.redo revision = (b, none) := by
  rw [redo, hstack]

theorem Faithful.revert_top (h : Faithful text b) {tx : Transaction}
    {rest : List Transaction} (hstack : b.history.undo = tx :: rest) :
    tx.revert b.rope = replayStack text rest := by
  have hfits := h.undo_fits
  rw [hstack] at hfits
  rw [h.text_eq, hstack]
  exact hfits.1.revert_replay

theorem Faithful.undo (h : Faithful text b) (revision : ℕ) :
    Faithful text (b.undo revision).1 := by
  cases hstack : b.history.undo with
  | nil =>
      rw [undo_of_nil hstack]
      exact h
  | cons tx rest =>
      have hrevert := h.revert_top hstack
      have hundo := h.undo_fits
      have htext := h.text_eq
      rw [hstack] at hundo htext
      rw [undo_of_cons hstack]
      refine ⟨hrevert, hundo.2, ?_, ?_⟩
      · rw [hrevert]
        exact hundo.1
      · rw [hrevert]
        have hreplay : tx.replay (replayStack text rest) = b.rope :=
          htext.symm
        rw [hreplay]
        exact h.redo_fits

theorem Faithful.redo (h : Faithful text b) (revision : ℕ) :
    Faithful text (b.redo revision).1 := by
  cases hstack : b.history.redo with
  | nil =>
      rw [redo_of_nil hstack]
      exact h
  | cons tx rest =>
      have hredo := h.redo_fits
      rw [hstack] at hredo
      rw [redo_of_cons hstack]
      refine ⟨?_, ⟨?_, h.undo_fits⟩, hredo.2⟩
      · rw [h.text_eq]
        rfl
      · rw [← h.text_eq]
        exact hredo.1

/-! ## Runs of buffer operations -/

/-- The calls that change a buffer. -/
inductive Op where
  | edit (edits : List Edit)
  | editWithSelections (edits : List Edit) (before after : List Selection)
  | undo
  | redo
  | undoWithSelections
  | redoWithSelections

/-- The buffer that a call leaves. -/
def perform (revision : ℕ) (b : Buffer) : Op → Buffer
  | .edit edits => (b.edit revision edits).1
  | .editWithSelections edits before after =>
      (b.editWithSelections revision edits before after).1
  | .undo => (b.undo revision).1
  | .redo => (b.redo revision).1
  | .undoWithSelections => (b.undoWithSelections revision).1
  | .redoWithSelections => (b.redoWithSelections revision).1

/-- A buffer opened with a text, under any calls and any revision values. -/
def system (text : Rope) : System Buffer (ℕ × Op) where
  init b := ∃ revision, b = new revision text
  step b call b' := b' = b.perform call.1 call.2

theorem undoWithSelections_fst (b : Buffer) (revision : ℕ) :
    (b.undoWithSelections revision).1 = (b.undo revision).1 := by
  rw [undoWithSelections]
  rcases h : b.undo revision with ⟨b', _ | id⟩
  · rfl
  · rfl

theorem redoWithSelections_fst (b : Buffer) (revision : ℕ) :
    (b.redoWithSelections revision).1 = (b.redo revision).1 := by
  rw [redoWithSelections]
  rcases h : b.redo revision with ⟨b', _ | id⟩
  · rfl
  · rfl

theorem Faithful.perform (h : Faithful text b) (revision : ℕ) (op : Op) :
    Faithful text (b.perform revision op) := by
  cases op with
  | edit edits => exact h.editInner revision edits none
  | editWithSelections edits before after =>
      exact h.editInner revision edits (some ⟨before, after⟩)
  | undo => exact h.undo revision
  | redo => exact h.redo revision
  | undoWithSelections =>
      rw [Buffer.perform, undoWithSelections_fst]
      exact h.undo revision
  | redoWithSelections =>
      rw [Buffer.perform, redoWithSelections_fst]
      exact h.redo revision

theorem faithful_of_reachable (h : (system text).Reachable b) :
    Faithful text b := by
  refine h.invariant (I := Faithful text) ?_ ?_
  · rintro _ ⟨revision, rfl⟩
    exact new_faithful revision text
  · rintro b ⟨revision, op⟩ _ rfl hb
    exact hb.perform revision op

/-! ## Undo and redo -/

theorem Faithful.undo_redo (h : Faithful text b)
    (hne : b.history.undo ≠ []) (r r' : ℕ) :
    ((b.undo r).1.redo r').1.rope = b.rope ∧
      ((b.undo r).1.redo r').1.history = b.history := by
  obtain ⟨tx, rest, hstack⟩ := List.exists_cons_of_ne_nil hne
  have hrevert := h.revert_top hstack
  have htext := h.text_eq
  rw [hstack] at htext
  rw [undo_of_cons hstack, redo_of_cons rfl]
  refine ⟨?_, ?_⟩
  · calc
      tx.replay (tx.revert b.rope) = tx.replay (replayStack text rest) := by
        rw [hrevert]
      _ = b.rope := htext.symm
  · rw [← hstack]

theorem Faithful.redo_undo (h : Faithful text b)
    (hne : b.history.redo ≠ []) (r r' : ℕ) :
    ((b.redo r).1.undo r').1.rope = b.rope ∧
      ((b.redo r).1.undo r').1.history = b.history := by
  obtain ⟨tx, rest, hstack⟩ := List.exists_cons_of_ne_nil hne
  have hredo := h.redo_fits
  rw [hstack] at hredo
  rw [redo_of_cons hstack, undo_of_cons rfl]
  exact ⟨hredo.1.revert_replay, by rw [← hstack]⟩

/-- Undo once for each revision value. -/
def undoEach (b : Buffer) (revisions : List ℕ) : Buffer :=
  revisions.foldl (fun b revision => (b.undo revision).1) b

theorem Faithful.undoEach (h : Faithful text b) {txs rest : List Transaction}
    (hstack : b.history.undo = txs ++ rest) {revisions : List ℕ}
    (hlen : revisions.length = txs.length) :
    (b.undoEach revisions).rope = replayStack text rest := by
  induction revisions generalizing b txs with
  | nil =>
      have hnil : txs = [] := List.length_eq_zero_iff.mp hlen.symm
      rw [hnil, List.nil_append] at hstack
      rw [← hstack]
      exact h.text_eq
  | cons r revisions ih =>
      cases txs with
      | nil => simp at hlen
      | cons tx txs =>
          have hundo := h.undo r
          have hrest : (b.undo r).1.history.undo = txs ++ rest := by
            rw [undo_of_cons hstack]
            rfl
          exact ih hundo hrest (by simpa using hlen)

/-! ## What an accepted batch records -/

/-- An accepted batch whose replacements all equal what they replace leaves
the buffer alone; every other accepted batch is recorded and clears the redo
stack. -/
theorem editInner_history {edits : List Edit}
    (h : Acceptable b.rope edits) (revision : ℕ)
    (selections : Option SelectionSnapshot) :
    ((∀ e ∈ edits, b.rope.byteSlice e.range.start e.range.stop = e.text) →
        (b.editInner revision edits selections).1 = b) ∧
      (¬(∀ e ∈ edits,
          b.rope.byteSlice e.range.start e.range.stop = e.text) →
        ∃ changes,
          (b.editInner revision edits selections).1.history =
            ⟨⟨b.nextEdit, changes, selections⟩ :: b.history.undo, []⟩) := by
  have hsame : (applyEdits (applicationOrder edits) b.rope []).2 = [] ↔
      ∀ e ∈ edits, b.rope.byteSlice e.range.start e.range.stop = e.text := by
    rw [applyEdits_no_changes_iff]
    constructor
    · intro hall e he
      obtain ⟨p, hp, rfl⟩ := List.mem_map.mp
        ((map_fst_applicationOrder_perm edits).mem_iff.mpr he)
      exact hall p hp
    · intro hall p hp
      exact hall p.1 (mem_applicationOrder hp)
  rw [← hsame, editInner_of_acceptable h]
  constructor
  · intro hnone
    rw [if_pos hnone]
  · intro hsome
    rw [if_neg hsome]
    exact ⟨_, rfl⟩

theorem undoWithSelections_of_cons {tx : Transaction}
    {rest : List Transaction} (hstack : b.history.undo = tx :: rest)
    (revision : ℕ) :
    (b.undoWithSelections revision).2 =
      some (tx.id, tx.selections.map SelectionSnapshot.before) := by
  rw [undoWithSelections, undo_of_cons hstack]
  rfl

theorem redoWithSelections_of_cons {tx : Transaction}
    {rest : List Transaction} (hstack : b.history.redo = tx :: rest)
    (revision : ℕ) :
    (b.redoWithSelections revision).2 =
      some (tx.id, tx.selections.map SelectionSnapshot.after) := by
  rw [redoWithSelections, redo_of_cons hstack]
  rfl

/-- The history of a buffer is faithful in every state it reaches. -/
theorem history_faithful (hb : (system text).Reachable b) :
    b.rope = replayStack text b.history.undo ∧
      (b.history.undo ≠ [] → ∀ r r',
        ((b.undo r).1.redo r').1.rope = b.rope ∧
          ((b.undo r).1.redo r').1.history = b.history) ∧
      (b.history.redo ≠ [] → ∀ r r',
        ((b.redo r).1.undo r').1.rope = b.rope ∧
          ((b.redo r).1.undo r').1.history = b.history) ∧
      (∀ earlier, (system text).Reachable earlier →
        ∀ txs, b.history.undo = txs ++ earlier.history.undo →
        ∀ revisions : List ℕ, revisions.length = txs.length →
          (b.undoEach revisions).rope = earlier.rope) ∧
      (∀ tx rest, b.history.undo = tx :: rest → ∀ r,
        (b.undoWithSelections r).2 =
          some (tx.id, tx.selections.map SelectionSnapshot.before)) ∧
      (∀ tx rest, b.history.redo = tx :: rest → ∀ r,
        (b.redoWithSelections r).2 =
          some (tx.id, tx.selections.map SelectionSnapshot.after)) ∧
      (∀ edits, Acceptable b.rope edits → ∀ r selections,
        ((∀ e ∈ edits,
            b.rope.byteSlice e.range.start e.range.stop = e.text) →
          (b.editInner r edits selections).1 = b) ∧
        (¬(∀ e ∈ edits,
            b.rope.byteSlice e.range.start e.range.stop = e.text) →
          ∃ changes,
            (b.editInner r edits selections).1.history =
              ⟨⟨b.nextEdit, changes, selections⟩ :: b.history.undo, []⟩)) := by
  have hfaithful := faithful_of_reachable hb
  refine ⟨hfaithful.text_eq, hfaithful.undo_redo, hfaithful.redo_undo, ?_,
    fun tx rest hstack r => undoWithSelections_of_cons hstack r,
    fun tx rest hstack r => redoWithSelections_of_cons hstack r,
    fun edits h r selections => editInner_history h r selections⟩
  intro earlier hearlier txs hstack revisions hlen
  rw [hfaithful.undoEach hstack hlen]
  exact (faithful_of_reachable hearlier).text_eq.symm

/-- Type `x`, undo it, and replace "a" by nothing next to an inserted "a". -/
def retypedBuffer : Buffer :=
  ((new 0 "aa".toList).perform 1 (.edit [⟨⟨0, 0⟩, "x".toList⟩])).perform 2 .undo

theorem retypedBuffer_reachable :
    (system "aa".toList).Reachable retypedBuffer := by
  have hinit : (system "aa".toList).Reachable (new 0 "aa".toList) :=
    System.Reachable.init ⟨0, rfl⟩
  have htyped := hinit.step
    (l := (1, Op.edit [⟨⟨0, 0⟩, "x".toList⟩])) (t := perform 1 _ _) rfl
  exact htyped.step (l := (2, Op.undo)) rfl

theorem history_faithful_retyped :
    ((retypedBuffer.redo 3).1.undo 4).1.rope = "aa".toList :=
  ((history_faithful retypedBuffer_reachable).2.2.1
    (by decide) 3 4).1.trans (by decide)

/-- A batch may leave the text as it was without being recognised as one that
changes nothing. -/
theorem edit_same_text_clears_redo :
    (system "aa".toList).Reachable retypedBuffer ∧
      (retypedBuffer.edit 3
        [⟨⟨0, 1⟩, []⟩, ⟨⟨1, 1⟩, "a".toList⟩]).1.rope =
          retypedBuffer.rope ∧
      (retypedBuffer.edit 3
        [⟨⟨0, 1⟩, []⟩, ⟨⟨1, 1⟩, "a".toList⟩]).2.isOk = true ∧
      (retypedBuffer.edit 3
        [⟨⟨0, 1⟩, []⟩, ⟨⟨1, 1⟩, "a".toList⟩]).1.history ≠
          retypedBuffer.history :=
  ⟨retypedBuffer_reachable, by decide, by decide, by decide⟩

end Buffer

end Tempr.Editor
